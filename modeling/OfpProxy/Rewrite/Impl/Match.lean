import OfpProxy.Rewrite.Impl.Basic

/-!
This module contains `pack_mathch_except_type`, which copies a match without its tagged items.
-/

namespace OfpProxy

structure PackMatch where
  uep : UEPMsg
  buf : FilterBuf
  newLen : Nat
  exceptLen : Nat

def packMathchExceptType (msg : Mem) (matchMsg ofpxmcId : Nat) (fieldId valueTag : UInt8)
    (buf : FilterBuf) : PackMatch :=
  let oldMatchLength := ntohs (msg.load16 (matchMsg + 2))
  let pad := 0x7 &&& oldMatchLength
  let totalLength := padTo8 oldMatchLength
  let (buf, tickMatchItemLen) := loop (matchMsg + totalLength) (matchMsg + 4) 4 buf 0
  let newMatchLength := u16 (totalLength - tickMatchItemLen)
  let buf := buf.store16 0 (msg.load16 matchMsg)
  let oldPad := if pad ≠ 0 then 8 - pad else 0
  let newMatchLength := if pad ≠ 0 then u16 (newMatchLength - (8 - pad)) else newMatchLength
  let buf := buf.store16 2 (htons newMatchLength)
  let newPad := 0x7 &&& newMatchLength
  if newPad ≠ 0 then
    { uep := {}
      buf := buf
      newLen := u16 (newMatchLength + (8 - newPad))
      exceptLen := u16 (tickMatchItemLen - ((8 - newPad) - oldPad)) }
  else
    { uep := {}
      buf := buf
      newLen := newMatchLength
      exceptLen := tickMatchItemLen }
where
  loop (ins matchItem newMatchItem : Nat) (buf : FilterBuf) (tickMatchItemLen : Nat)
      : FilterBuf × Nat :=
    if matchItem + 4 < ins then
      let length := (msg (matchItem + 3)).toNat
      if ntohs (msg.load16 matchItem) = ofpxmcId ∧ msg (matchItem + 2) = fieldId
          ∧ msg (matchItem + 4) = valueTag then
        loop ins (matchItem + (4 + length)) newMatchItem buf (u16 (tickMatchItemLen + (4 + length)))
      else
        let buf := buf.store16 newMatchItem (msg.load16 matchItem)
        let buf := buf.store (newMatchItem + 2) (msg (matchItem + 2))
        let buf := buf.store (newMatchItem + 3) (msg (matchItem + 3))
        let buf := buf.copyFrom (newMatchItem + 4) msg (matchItem + 4) length
        loop ins (matchItem + (4 + length)) (newMatchItem + (4 + length)) buf tickMatchItemLen
    else
      (buf, tickMatchItemLen)
  termination_by ins - matchItem

end OfpProxy
