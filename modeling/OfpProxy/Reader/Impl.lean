import OfpProxy.Rewrite.Impl.Frame
import OfpProxy.Socket.Basic

/-!
This module contains `read_ofp_msg`, which assembles one frame from a socket, and what the reader
threads `read_client` and `read_server` do with its result.
-/

namespace OfpProxy
namespace Reader

open Socket

def headerSize : Nat := 8

def EAGAIN : Int := 11

structure ReadMsg where
  ret : Int
  buf : Mem
  events : List Event
  -- the offset in buf and the size of every read() so far, oldest first
  requests : List (Nat × Nat)

-- The result is `none` when a `read` blocks for good.
def readOfpMsg (events : List Event) (buf : Mem) : Option ReadMsg :=
  loop events buf 0 0 []
where
  loop (events : List Event) (buf : Mem) (msgBytesRead : Nat) (rc : Int)
      (requests : List (Nat × Nat)) : Option ReadMsg :=
    let msgLen := if msgBytesRead < headerSize then headerSize else headerLength buf
    if msgLen < headerSize then
      -- goto on_error
      some ⟨rc, buf, events, requests⟩
    else
      -- uint16_t minus unsigned int
      let count := u32 (msgLen - msgBytesRead)
      match _h : read count events with
      | none => none
      | some r =>
        let requests := requests ++ [(msgBytesRead, count)]
        if r.rc < 0 then
          if r.errno = EAGAIN then
            some ⟨r.rc, buf, r.events, requests⟩
          else
            -- goto on_error
            some ⟨r.rc, buf, r.events, requests⟩
        else if r.rc = 0 then
          -- goto on_error
          some ⟨r.rc, buf, r.events, requests⟩
        else
          let buf := buf.copyFrom msgBytesRead (.ofList r.bytes) 0 r.bytes.length
          let msgBytesRead := u32 (msgBytesRead + r.rc)
          if headerSize ≤ msgBytesRead ∧ headerLength buf = msgBytesRead then
            some ⟨msgBytesRead, buf, r.events, requests⟩
          else
            loop r.events buf msgBytesRead r.rc requests
  termination_by (incoming events).length
  decreasing_by
    apply incoming_lt_of_read _h
    omega

inductive Turn where
  | closeBoth
  | putMessage (buf : Mem) (len : Int) (fd : Int)

-- the branch on the return value that both threads have
def turn (fd : Int) (res : ReadMsg) : Turn :=
  if res.ret < 0 then
    .closeBoth
  else if res.ret = 0 then
    .closeBoth
  else
    .putMessage res.buf res.ret fd

def readClient (serverFd : Int) (res : ReadMsg) : Turn := turn serverFd res

def readServer (clientFd : Int) (res : ReadMsg) : Turn := turn clientFd res

-- One call after the other, each with whatever its caller left in the buffer.
def calls : List Mem → List Event → Option (List ReadMsg)
  | [], _ => some []
  | buf :: bufs, events =>
    match readOfpMsg events buf with
    | none => none
    | some res =>
      match calls bufs res.events with
      | none => none
      | some ress => some (res :: ress)

end Reader
end OfpProxy
