import OfpProxy.Memory.Copy
import OfpProxy.Priority.Impl

/-!
This module contains what the rewriting functions of `schedule.cpp` share: the scratch buffer, the
UEP tag, and the policy configuration with the clock its window ids come from.
-/

namespace OfpProxy

/--
`Schedule::filter_buf`. `top` is one more than the largest index written so far. The constructor
allocates 600 bytes, and nothing is said about the code once `top` is larger.
-/
structure FilterBuf where
  mem : Mem
  top : Nat

def filterBufSize : Nat := 600

namespace FilterBuf

def memset (buf : FilterBuf) (n : Nat) : FilterBuf where
  mem := buf.mem.fill 0 0 n
  top := max buf.top n

def store (buf : FilterBuf) (i : Nat) (b : UInt8) : FilterBuf where
  mem := buf.mem.store i b
  top := max buf.top (i + 1)

def store16 (buf : FilterBuf) (i v : Nat) : FilterBuf where
  mem := buf.mem.store16 i v
  top := max buf.top (i + 2)

def copyFrom (buf : FilterBuf) (d : Nat) (src : Mem) (s n : Nat) : FilterBuf where
  mem := buf.mem.copyFrom d src s n
  top := max buf.top (d + n)

end FilterBuf

structure UEPMsg where
  uepid : UEPID := {}
  window : Nat := 0
  number : Nat := 1
  deriving DecidableEq

structure PolicyConfig where
  priorityManager : PriorityManager
  -- what the next calls of gettimeofday return
  clock : Nat → Timeval
  -- the calls of updateSplitOfUEP so far, oldest first
  updates : List UEPMsg

namespace PolicyConfig

-- a manager nothing was reported to yet, with a clock that stands still
def idle : PolicyConfig where
  priorityManager := .new 1 20 ⟨0, 0⟩
  clock := fun _ => ⟨0, 0⟩
  updates := []

def gettimeofday (conf : PolicyConfig) : Timeval × PolicyConfig :=
  (conf.clock 0, { conf with clock := fun n => conf.clock (n + 1) })

def getNowWindowId (conf : PolicyConfig) : Nat × PolicyConfig :=
  let (now, conf) := conf.gettimeofday
  (conf.priorityManager.getNowWindowId now, conf)

def updateSplitOfUEP (conf : PolicyConfig) (uep : UEPMsg) : PolicyConfig :=
  { conf with
      priorityManager := conf.priorityManager.updateSplitOfUEP uep.window uep.uepid uep.number
      updates := conf.updates ++ [uep] }

end PolicyConfig

-- total_length grown to a multiple of eight, in a uint16_t
def padTo8 (totalLength : Nat) : Nat :=
  let pad := 0x7 &&& totalLength
  if pad ≠ 0 then u16 (totalLength + (8 - pad)) else totalLength

def getMatchLenth (msg : Mem) (mat : Nat) : Nat := padTo8 (ntohs (msg.load16 (mat + 2)))

end OfpProxy
