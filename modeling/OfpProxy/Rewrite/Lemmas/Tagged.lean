import OfpProxy.Rewrite.Lemmas.Action
import OfpProxy.Rewrite.Lemmas.Raw

/-!
This module shows when `copy_valid_action_to_buf` takes out the set-field actions that carry the
value tag and no others.
-/

namespace OfpProxy

def filterValueTag : UInt8 := 0xFF

-- a set-field action whose field value, which its OXM header is in front of, starts with the tag
def Action.isTagged (a : Action) : Bool := a.isSetField ∧ a.body[4]? = some filterValueTag

def untaggedActions (actions : List Action) : List Action := actions.filter fun a => !a.isTagged

def taggedActionLength (actions : List Action) : Nat :=
  (Action.codec.encodeAll (actions.filter Action.isTagged)).length

-- The tagged actions of a list with their offsets, where the list starts at `pos`.
def taggedAt : Nat → List Action → List (Nat × Action)
  | _, [] => []
  | pos, a :: actions =>
    if a.isTagged then
      (pos, a) :: taggedAt (pos + a.len) actions
    else
      taggedAt (pos + a.len) actions

theorem Action.isSetField_of_isTagged {a : Action} (h : a.isTagged = true) : a.isSetField = true := by
  simp only [isTagged, decide_eq_true_eq] at h
  exact h.1

theorem isTagged_eq_isSetField {actions : List Action}
    (h : ∀ a ∈ actions, a.isSetField = true → a.isTagged = true) {a : Action} (ha : a ∈ actions)
    : a.isTagged = a.isSetField := by
  cases htag : a.isTagged with
  | true => rw [Action.isSetField_of_isTagged htag]
  | false =>
    cases hset : a.isSetField with
    | true =>
      rw [h a ha hset] at htag
      contradiction
    | false => rfl

theorem taggedAt_eq {actions : List Action}
    (h : ∀ a ∈ actions, a.isSetField = true → a.isTagged = true) (pos : Nat)
    : taggedAt pos actions = setFieldsAt pos actions := by
  induction actions generalizing pos with
  | nil => rfl
  | cons a actions ih =>
    have hrest : ∀ a ∈ actions, a.isSetField = true → a.isTagged = true :=
      fun b hb => h b (List.mem_cons_of_mem a hb)
    rw [taggedAt, setFieldsAt, isTagged_eq_isSetField h List.mem_cons_self, ih hrest]

-- Fewer bytes are taken out when only the tagged ones are, unless all of them are tagged.
theorem taggedActionLength_eq_iff (actions : List Action)
    : taggedActionLength actions = setFieldLength actions
        ↔ ∀ a ∈ actions, a.isSetField = true → a.isTagged = true := by
  have hsplit := Action.codec.length_encodeAll_filter Action.isTagged (actions.filter Action.isSetField)
  have htagged : (actions.filter Action.isSetField).filter Action.isTagged
      = actions.filter Action.isTagged := by
    rw [List.filter_filter]
    apply List.filter_congr
    intro a _
    cases htag : a.isTagged with
    | true => rw [Action.isSetField_of_isTagged htag, Bool.and_self]
    | false => rfl
  rw [htagged] at hsplit
  change taggedActionLength actions + _ = setFieldLength actions at hsplit
  have hzero := Action.codec.length_le_length_encodeAll
    ((actions.filter Action.isSetField).filter fun a => !a.isTagged)
  constructor
  . intro heq a ha hset
    have hnil : ((actions.filter Action.isSetField).filter fun a => !a.isTagged) = [] := by
      rw [← List.length_eq_zero_iff]
      omega
    rw [List.filter_eq_nil_iff] at hnil
    have := hnil a (List.mem_filter.mpr ⟨ha, hset⟩)
    simpa using this
  . intro h
    have hsame : actions.filter Action.isTagged = actions.filter Action.isSetField := by
      apply List.filter_congr
      intro a ha
      apply isTagged_eq_isSetField h ha
    rw [taggedActionLength, hsame, setFieldLength]

namespace PolicyConfig

-- what a series of reports makes of the priority manager
def charge (priorityManager : PriorityManager) (log : List UEPMsg) : PriorityManager :=
  log.foldl (fun pm uep => pm.updateSplitOfUEP uep.window uep.uepid uep.number) priorityManager

end PolicyConfig

namespace copyValidActionToBuf

-- The priority manager is touched by what is reported to it and by nothing else.
def Charged (conf conf' : PolicyConfig) : Prop :=
  ∃ log, conf'.updates = conf.updates ++ log
    ∧ conf'.priorityManager = PolicyConfig.charge conf.priorityManager log

theorem charged_body (msg : Mem) (filterActionType pos : Nat) (conf : PolicyConfig) (st : ActionCopy)
    (h : Charged conf st.conf) : Charged conf (body msg filterActionType pos st).conf := by
  rcases h with ⟨log, hupd, hpm⟩
  unfold body
  dsimp only
  split
  . refine ⟨log ++ [tagOfAction msg pos (st.conf.getNowWindowId).1], ?_, ?_⟩
    . rw [← List.append_assoc, ← hupd]
      rfl
    . rw [PolicyConfig.charge, List.foldl_append]
      unfold PolicyConfig.charge at hpm
      rw [← hpm]
      rfl
  . exact ⟨log, hupd, hpm⟩

theorem charged_loop {msg : Mem} {filterActionType fin fuel pos : Nat} {st st' : ActionCopy}
    (hloop : loop msg filterActionType fin fuel pos st = some st') : Charged st.conf st'.conf := by
  rw [loop_eq_run, Walk.run_eq_some_iff] at hloop
  rcases hloop with ⟨ps, -, -, rfl⟩
  have hfold : ∀ conf (st : ActionCopy), Charged conf st.conf
      → Charged conf (ps.foldl (fun st p => body msg filterActionType p st) st).conf := by
    intro conf
    induction ps with
    | nil => exact fun _ h => h
    | cons p ps ih => exact fun st h => ih _ (charged_body msg filterActionType p conf st h)
  exact hfold st.conf st ⟨[], by simp, rfl⟩

theorem charged_result {msg : Mem} {pos len filterActionType : Nat} {valueTag : UInt8}
    {buf : FilterBuf} {conf : PolicyConfig} {res : CopyValid}
    (hres : copyValidActionToBuf msg pos len filterActionType valueTag buf conf = some res)
    : Charged conf res.conf := by
  unfold copyValidActionToBuf at hres
  dsimp only at hres
  split at hres
  . simp at hres
  . next st hst =>
    rw [← Option.some.inj hres]
    exact charged_loop hst

end copyValidActionToBuf

/--
The list without its tagged actions is what ends up in the buffer, and each of those is charged
once to the priority manager.
-/
structure OnlyTaggedStripped (msg : Mem) (pos : Nat) (actions : List Action) (conf : PolicyConfig)
    (res : CopyValid) : Prop where
  kept : res.buf.mem.At 0 (Action.codec.encodeAll (untaggedActions actions))
  newActionListLen : res.newActionListLen = (Action.codec.encodeAll (untaggedActions actions)).length
  kickLen : res.kickLen = taggedActionLength actions
  charged : ∃ log, List.Forall₂ (ReadsTag msg) (taggedAt pos actions) log
    ∧ res.conf.updates = conf.updates ++ log
    ∧ res.conf.priorityManager = PolicyConfig.charge conf.priorityManager log

/--
Exactly the tagged actions are stripped and charged if and only if every set-field action of the
list is a tagged one.
-/
theorem copyValidActionToBuf_onlyTagged_iff {msg : Mem} {pos : Nat} {actions : List Action}
    (buf : FilterBuf) (conf : PolicyConfig) (hat : msg.At pos (Action.codec.encodeAll actions))
    (hlt : (Action.codec.encodeAll actions).length < 65536)
    : ∃ res,
        copyValidActionToBuf msg pos (Action.codec.encodeAll actions).length 0x1900 filterValueTag buf
            conf = some res
          ∧ (OnlyTaggedStripped msg pos actions conf res
              ↔ ∀ a ∈ actions, a.isSetField = true → a.isTagged = true) := by
  rcases copyValidActionToBuf_spec filterValueTag buf conf hat hlt with
    ⟨res, hres, hnew, hkick, hkept, -, -, log, hupd, hlog⟩
  refine ⟨res, hres, ?_⟩
  constructor
  . intro h
    rw [← taggedActionLength_eq_iff, ← h.kickLen, hkick]
  . intro h
    have hsame : untaggedActions actions = stripActions actions := by
      apply List.filter_congr
      intro a ha
      rw [isTagged_eq_isSetField h ha]
    rcases copyValidActionToBuf.charged_result hres with ⟨log', hupd', hpm⟩
    rw [hupd, List.append_cancel_left_eq] at hupd'
    subst hupd'
    constructor
    . rw [hsame]
      exact hkept
    . rw [hsame]
      exact hnew
    . rw [hkick, (taggedActionLength_eq_iff actions).mpr h]
    . refine ⟨log, ?_, hupd, hpm⟩
      rw [taggedAt_eq h]
      exact hlog

def taggedAction : Action :=
  ⟨⟨25, [0, 0, 0, 0, 0xFF, 7, 0, 0, 1, 0, 0, 0], by decide⟩, by decide⟩

theorem copyValidActionToBuf_onlyTagged_taggedAction
    : ∃ res,
        copyValidActionToBuf (.ofList (Action.codec.encodeAll [outputAction, taggedAction])) 0 32 0x1900
            filterValueTag ⟨fun _ => 0, 0⟩ .idle = some res
          ∧ res.newActionListLen = 16 := by
  rcases @copyValidActionToBuf_onlyTagged_iff _ 0 [outputAction, taggedAction] ⟨fun _ => 0, 0⟩ .idle
      (Mem.at_ofList _) (by decide) with
    ⟨res, hres, hiff⟩
  exact ⟨res, hres, (hiff.mpr (by decide)).newActionListLen⟩

-- An ordinary set-field action, here one whose field value starts with 2, is taken out as well.
theorem copyValidActionToBuf_ordinaryStripped
    : setFieldAction.isTagged = false
        ∧ ∃ res,
            copyValidActionToBuf (.ofList (Action.codec.encodeAll [setFieldAction])) 0 16 0x1900
                filterValueTag ⟨fun _ => 0, 0⟩ .idle = some res
              ∧ ¬OnlyTaggedStripped (.ofList (Action.codec.encodeAll [setFieldAction])) 0 [setFieldAction]
                  .idle res := by
  refine ⟨by decide, ?_⟩
  rcases @copyValidActionToBuf_spec _ 0 [setFieldAction] filterValueTag ⟨fun _ => 0, 0⟩ .idle
      (Mem.at_ofList _) (by decide) with
    ⟨res, hres, hnew, -⟩
  refine ⟨res, hres, ?_⟩
  intro h
  have hlen := h.newActionListLen
  rw [hnew] at hlen
  exact absurd hlen (by decide)

end OfpProxy
