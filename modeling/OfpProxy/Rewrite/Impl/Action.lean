import OfpProxy.Rewrite.Impl.Basic

/-!
This module contains `copy_valid_action_to_buf` and `pack_Inst_except_type`. The action loop goes on
by the length field of each action, which can be zero. It gets one round more than the list has
bytes, and running out of rounds stands for a loop that never ends.
-/

namespace OfpProxy

structure ActionCopy where
  uep : UEPMsg
  conf : PolicyConfig
  buf : FilterBuf
  newActionStart : Nat
  filterLens : Nat

structure CopyValid where
  uep : UEPMsg
  conf : PolicyConfig
  buf : FilterBuf
  newActionListLen : Nat
  kickLen : Nat

-- the UEP_Msg that stands at value + 4, with the window id taken from the clock
def tagOfAction (msg : Mem) (action window : Nat) : UEPMsg where
  uepid :=
    { uid := msg (action + 8)
      eid := msg (action + 9) }
  window := window
  number := msg.load16 (action + 12)

def copyValidActionToBuf (msg : Mem) (originalActionList originalActionListLen : Nat)
    (filterActionType : Nat) (_filterValueTag : UInt8) (newActionListBuf : FilterBuf)
    (conf : PolicyConfig) : Option CopyValid :=
  let init : ActionCopy :=
    { uep := {}
      conf := conf
      buf := newActionListBuf
      newActionStart := 0
      filterLens := 0 }
  match
    loop (originalActionList + originalActionListLen) (originalActionListLen + 1) originalActionList
      init
  with
  | none => none
  | some st =>
    some
      { uep := st.uep
        conf := st.conf
        buf := st.buf
        newActionListLen := u16 (originalActionListLen - st.filterLens)
        kickLen := st.filterLens }
where
  body (action : Nat) (st : ActionCopy) : ActionCopy :=
    let actionItemLen := ntohs (msg.load16 (action + 2))
    -- the value tag is not looked at
    if msg.load16 action = filterActionType then
      let (window, conf) := st.conf.getNowWindowId
      let uep := tagOfAction msg action window
      { st with
          uep := uep
          conf := conf.updateSplitOfUEP uep
          filterLens := u16 (st.filterLens + actionItemLen) }
    else
      let buf := st.buf.store16 st.newActionStart (msg.load16 action)
      let buf := buf.store16 (st.newActionStart + 2) (msg.load16 (action + 2))
      let buf := buf.copyFrom (st.newActionStart + 4) msg (action + 4) (actionItemLen - 4)
      { st with
          buf := buf
          newActionStart := st.newActionStart + actionItemLen }
  loop (originalActionEnd : Nat) : Nat → Nat → ActionCopy → Option ActionCopy
    | 0, _, _ => none
    | fuel + 1, action, st =>
      if action < originalActionEnd then
        loop originalActionEnd fuel (action + ntohs (msg.load16 (action + 2))) (body action st)
      else
        some st

structure PackInst where
  uep : UEPMsg
  conf : PolicyConfig
  buf : FilterBuf
  newInstLen : Nat
  kickLen : Nat
  msg : Mem

-- original_action_start and original_action_list_lens for each instruction type; the switch leaves
-- the pointer null for a type it does not know
def actionListOfInst (type inst originalInstLens : Nat) : Option (Nat × Nat) :=
  if type = 1 then
    some (inst + 5, 0)
  else if type = 2 then
    some (inst + 8, 0)
  else if type = 3 ∨ type = 4 ∨ type = 5 then
    some (inst + 8, u16 (originalInstLens - 8))
  else if type = 6 then
    some (inst + 4, 0)
  else if type = 0xFFFF then
    some (inst + 8, u16 (originalInstLens - 8))
  else
    none

def packInstExceptType (msg : Mem) (inst filterInstType filterActionType : Nat) (valueTag : UInt8)
    (newActionListBuf : FilterBuf) (newInstLen kickLen : Nat) (conf : PolicyConfig)
    : Option PackInst :=
  let originalInstLens := ntohs (msg.load16 (inst + 2))
  if msg.load16 inst ≠ filterInstType then
    some
      { uep := {}
        conf := conf
        buf := newActionListBuf
        newInstLen := newInstLen
        kickLen := kickLen
        msg := msg }
  else
    match actionListOfInst (htons (msg.load16 inst)) inst originalInstLens with
    | none => none
    | some (originalActionStart, originalActionListLens) =>
      match
        copyValidActionToBuf msg originalActionStart originalActionListLens filterActionType valueTag
          newActionListBuf conf
      with
      | none => none
      | some res =>
        let newInstLen := u16 (originalInstLens - res.kickLen)
        some
          { uep := res.uep
            conf := res.conf
            buf := res.buf
            newInstLen := newInstLen
            kickLen := res.kickLen
            msg := msg.store16 (inst + 2) (htons newInstLen) }

end OfpProxy
