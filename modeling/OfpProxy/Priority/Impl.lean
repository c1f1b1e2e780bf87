import Mathlib.Data.Rat.Defs
import Mathlib.Logic.Function.Basic
import OfpProxy.Memory.Basic

/-!
This module contains the load accounting of `PriorityManager.h` and `RingBuffer.h`. A `double` is
the rational it denotes, and the `exp` of the C library is a parameter.
-/

namespace OfpProxy

def u32 (x : Int) : Nat := (x % 4294967296).toNat

structure Timeval where
  tvSec : Int
  tvUsec : Int
  deriving DecidableEq

-- s * 1000.0 + us / 1000.0, the way every caller of gettimeofday computes a difference
def Timeval.msSince (now last : Timeval) : ℚ :=
  let s := now.tvSec - last.tvSec
  let us := now.tvUsec - last.tvUsec
  s * 1000 + us / 1000

structure UEPID where
  uid : UInt8 := 0
  eid : UInt8 := 0
  deriving DecidableEq

structure Split where
  uepMap : UEPID → Option Nat
  totalNumberSplit : Nat

namespace Split

def empty : Split where
  uepMap := fun _ => none
  totalNumberSplit := 0

def hasUEP (s : Split) (uep : UEPID) : Bool := (s.uepMap uep).isSome

-- operator[] default-constructs a missing counter
def getUEPNumber (s : Split) (uep : UEPID) : Nat := (s.uepMap uep).getD 0

def addUEP (s : Split) (uep : UEPID) (number : Nat) : Split where
  uepMap :=
    if s.hasUEP uep then
      Function.update s.uepMap uep (some (u32 (s.getUEPNumber uep + number)))
    else
      Function.update s.uepMap uep (some number)
  totalNumberSplit := u32 (s.totalNumberSplit + number)

-- operator + adds the totals and leaves the map of the result empty
def add (a b : Split) : Split where
  uepMap := fun _ => none
  totalNumberSplit := u32 (a.totalNumberSplit + b.totalNumberSplit)

end Split

structure RingBuffer (T : Type) where
  bufferSize : Nat
  windowSize : Nat
  currentSize : Nat
  head : Nat
  tail : Nat
  buffer : Nat → T

namespace RingBuffer

variable {T : Type}

def new (bufferSize windowSize : Nat) (init : T) : RingBuffer T where
  bufferSize := bufferSize
  windowSize := windowSize
  currentSize := 0
  head := 0
  tail := 0
  buffer := fun _ => init

def putdData (r : RingBuffer T) (data : T) : RingBuffer T :=
  let r :=
    { r with
        buffer := Function.update r.buffer (r.tail % r.bufferSize) data
        currentSize := u32 (r.currentSize + 1)
        tail := u32 (r.tail + 1) }
  if r.currentSize ≤ r.windowSize then
    r
  else
    { r with
        head := u32 (r.head + 1)
        currentSize := u32 (r.currentSize - 1) }

def getData (r : RingBuffer T) (index : Nat) : T := r.buffer (index % r.bufferSize)

def aheadofHead (r : RingBuffer T) (index : Nat) : Bool := index < r.head

def aheadoftail (r : RingBuffer T) (index : Nat) : Bool := index < r.tail

def updateData (r : RingBuffer T) (index : Nat) (data : T) : RingBuffer T :=
  { r with buffer := Function.update r.buffer (index % r.bufferSize) data }

def updateHeadTail (r : RingBuffer T) (newHead : Nat) : RingBuffer T :=
  { r with
      head := newHead
      tail := newHead
      currentSize := 0 }

def getTotal (r : RingBuffer Split) (begin : Nat) : Nat → Split
  | 0 => .empty
  | i + 1 => (getTotal r begin i).add (r.buffer (u32 (begin + i) % r.bufferSize))

end RingBuffer

structure PriorityManager where
  windowBuffer : RingBuffer Split
  windowSize : Nat
  bufferSize : Nat
  start : Timeval

namespace PriorityManager

def new (windowSize bufferSize : Nat) (start : Timeval) : PriorityManager where
  windowBuffer := .new bufferSize windowSize .empty
  windowSize := windowSize
  bufferSize := bufferSize
  start := start

def updateSplitOfUEP (pm : PriorityManager) (splitId : Nat) (uep : UEPID) (number : Nat)
    : PriorityManager :=
  if !pm.windowBuffer.aheadofHead splitId && pm.windowBuffer.aheadoftail splitId then
    let old := (pm.windowBuffer.getData splitId).addUEP uep number
    { pm with windowBuffer := pm.windowBuffer.updateData splitId old }
  else
    let split := Split.empty.addUEP uep number
    let windowBuffer :=
      if !pm.windowBuffer.aheadoftail splitId then
        pm.windowBuffer.updateHeadTail splitId
      else
        pm.windowBuffer
    { pm with windowBuffer := windowBuffer.putdData split }

def getUEPRatioOfSplitK (pm : PriorityManager) (splitId : Nat) (uep : UEPID) : ℚ :=
  let UEP := (pm.windowBuffer.getData splitId).getUEPNumber uep
  let TOTAL :=
    (pm.windowBuffer.getTotal (u32 (splitId - pm.windowSize + 1)) pm.windowSize).totalNumberSplit
  if TOTAL = 0 then 0 else (UEP : ℚ) / (TOTAL + 5)

def convertRatioToPriority (exp : ℚ → ℚ) (ratio : ℚ) : ℚ := exp (-ratio)

def getUEPPriorityOfSplitK (exp : ℚ → ℚ) (pm : PriorityManager) (splitId : Nat) (uep : UEPID) : ℚ :=
  convertRatioToPriority exp (pm.getUEPRatioOfSplitK splitId uep)

def isDangerous (priority : ℚ) : Bool := priority < 1 / 2

-- the cast to uint16_t drops the fraction and keeps the low 16 bits
def getNowWindowId (pm : PriorityManager) (now : Timeval) : Nat :=
  let wid := now.msSince pm.start / 2000
  u16 (wid.num.tdiv wid.den)

end PriorityManager
end OfpProxy
