import OfpProxy.Machine.Basic
import OfpProxy.Schedule.Impl

/-!
This module contains the two schedules of one tunnel as `do_tcp_tunnel` makes them, and the frames
its two reader threads hand to them.
-/

namespace OfpProxy

def cString (s : String) : List UInt8 := s.toList.map fun c => UInt8.ofNat c.toNat

def Mem.strcpy (m : Mem) (d : Nat) (s : List UInt8) : Mem :=
  m.copyFrom d (.ofList (s ++ [0])) 0 (s.length + 1)

namespace Schedule

-- The constructor. What is in the rest of the three arrays, and in resp_record_name, is in `m`.
def construct (m : Mem) (name pipeName : List UInt8) (now : Timeval) : Schedule :=
  .new ((m.strcpy respPipeSize name).strcpy 0 pipeName) now

-- !(strcmp(this->name, "SERVER") == 0)
def isSWToControl (s : Schedule) : Bool :=
  s.respPipe.bytes respPipeSize 7 ≠ cString "SERVER" ++ [0]

end Schedule

structure Tunnel where
  clientToServer : Schedule
  serverToClient : Schedule
  conf : PolicyConfig

namespace Tunnel

def clientPipe : List UInt8 := cString "/home/dalaoshe/Client_to_Server_PIPE.txt"

def serverPipe : List UInt8 := cString "/home/dalaoshe/SERVER_to_Client_PIPE.txt"

def doTcpTunnel (m m' : Mem) (now now' : Timeval) (conf : PolicyConfig) : Tunnel where
  clientToServer := .construct m (cString "CLIENT") clientPipe now
  serverToClient := .construct m' (cString "SERVER") serverPipe now'
  conf := conf

inductive Event where
  | readClient (msg : Mem)
  | readServer (msg : Mem)
  -- the threads of the schedules and of the policy, which write anything but resp_pipe and name
  | elsewhere (clientToServer serverToClient : Schedule) (conf : PolicyConfig)

-- The result is `none` when `getOFPMsgArg` hangs.
def step (exp : ℚ → ℚ) (t : Tunnel) : Event → Option Tunnel
  | .readClient msg =>
    match Schedule.getOFPMsgArg exp t.clientToServer t.serverToClient t.conf msg with
    | none => none
    | some res =>
      some
        { clientToServer := res.self
          serverToClient := res.other
          conf := res.conf }
  | .readServer msg =>
    match Schedule.getOFPMsgArg exp t.serverToClient t.clientToServer t.conf msg with
    | none => none
    | some res =>
      some
        { clientToServer := res.other
          serverToClient := res.self
          conf := res.conf }
  | .elsewhere clientToServer serverToClient conf =>
    some
      { clientToServer := { clientToServer with respPipe := t.clientToServer.respPipe }
        serverToClient := { serverToClient with respPipe := t.serverToClient.respPipe }
        conf := conf }

def machine (exp : ℚ → ℚ) : Machine Tunnel Event where
  init t := ∃ m m' now now' conf, t = doTcpTunnel m m' now now' conf
  step := step exp

end Tunnel
end OfpProxy
