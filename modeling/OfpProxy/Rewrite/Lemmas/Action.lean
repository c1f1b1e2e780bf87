import OfpProxy.OpenFlow.Frame
import OfpProxy.Rewrite.Impl.Action

/-!
This module shows what `copy_valid_action_to_buf` does to a list of well-formed actions: the ones
that stay end up in the scratch buffer, each of the others is counted and reported once.
-/

namespace OfpProxy

-- The set-field actions of a list with their offsets, where the list starts at `pos`.
def setFieldsAt : Nat → List Action → List (Nat × Action)
  | _, [] => []
  | pos, a :: actions =>
    if a.isSetField then
      (pos, a) :: setFieldsAt (pos + a.len) actions
    else
      setFieldsAt (pos + a.len) actions

theorem map_snd_setFieldsAt (pos : Nat) (actions : List Action)
    : (setFieldsAt pos actions).map Prod.snd = actions.filter Action.isSetField := by
  induction actions generalizing pos with
  | nil => rfl
  | cons a actions ih =>
    unfold setFieldsAt
    cases htag : a.isSetField with
    | true => simp [htag, ih]
    | false => simp [htag, ih]

-- The action `x.2` stands at `x.1`, and `uep` is made of its uid, its eid and its number.
def ReadsTag (msg : Mem) (x : Nat × Action) (uep : UEPMsg) : Prop :=
  msg.At x.1 (Action.codec.encode x.2) ∧ uep.uepid.uid = msg (x.1 + 8)
    ∧ uep.uepid.eid = msg (x.1 + 9) ∧ uep.number = msg.load16 (x.1 + 12)

namespace copyValidActionToBuf

theorem filterType_iff {msg : Mem} {pos : Nat} {a : Action}
    (h : msg.At pos (Action.codec.encode a)) : msg.load16 pos = 0x1900 ↔ a.isSetField = true := by
  rw [Mem.load16_eq_iff (Tlv.at_encode h).1 (by omega), Action.isSetField, decide_eq_true_iff,
    ← UInt16.toNat_inj]
  rfl

def copyAction (msg : Mem) (pos new len : Nat) (buf : FilterBuf) : FilterBuf :=
  let buf := buf.store16 new (msg.load16 pos)
  let buf := buf.store16 (new + 2) (msg.load16 (pos + 2))
  buf.copyFrom (new + 4) msg (pos + 4) (len - 4)

theorem copyAction_apply (msg : Mem) (pos new j : Nat) {len : Nat} (buf : FilterBuf) (h : 4 ≤ len)
    : (copyAction msg pos new len buf).mem j =
        if new ≤ j ∧ j < new + len then msg (pos + (j - new)) else buf.mem j := by
  simp only [copyAction, FilterBuf.store16, FilterBuf.copyFrom, Mem.copyFrom_apply,
    Mem.store16_load16_apply]
  split
  . rw [if_pos (by omega)]
    congr 1
    omega
  . split
    . rw [if_pos (by omega)]
      congr 1
      omega
    . split
      . rw [if_pos (by omega)]
      . rw [if_neg (by omega)]

theorem copyAction_top (msg : Mem) (pos new : Nat) {len : Nat} (buf : FilterBuf) (h : 4 ≤ len)
    : (copyAction msg pos new len buf).top = max buf.top (new + len) := by
  simp only [copyAction, FilterBuf.store16, FilterBuf.copyFrom]
  omega

theorem body_of_kept {msg : Mem} {pos : Nat} {a : Action} {st : ActionCopy}
    (h : msg.At pos (Action.codec.encode a)) (htag : a.isSetField = false)
    : body msg 0x1900 pos st
        =
      { st with
          buf := copyAction msg pos st.newActionStart a.len st.buf
          newActionStart := st.newActionStart + a.len } := by
  unfold body
  rw [if_neg]
  . rw [(Tlv.at_encode h).2.1]
    rfl
  . rw [filterType_iff h, htag]
    simp

theorem body_of_setField {msg : Mem} {pos : Nat} {a : Action} {st : ActionCopy}
    (h : msg.At pos (Action.codec.encode a)) (htag : a.isSetField = true)
    : ∃ uep conf,
        body msg 0x1900 pos st
            =
          { st with
              uep := uep
              conf := conf
              filterLens := u16 (st.filterLens + a.len) }
          ∧ conf.updates = st.conf.updates ++ [uep] ∧ ReadsTag msg (pos, a) uep := by
  unfold body
  rw [if_pos ((filterType_iff h).mpr htag), (Tlv.at_encode h).2.1]
  exact ⟨_, _, rfl, rfl, h, rfl, rfl, rfl⟩

structure Filtered (msg : Mem) (pos : Nat) (actions : List Action) (st st' : ActionCopy)
    : Prop where
  filterLens : st'.filterLens = st.filterLens + setFieldLength actions
  newActionStart : st'.newActionStart
    = st.newActionStart + (Action.codec.encodeAll (stripActions actions)).length
  kept : st'.buf.mem.At st.newActionStart (Action.codec.encodeAll (stripActions actions))
  outside : ∀ j, j < st.newActionStart ∨ st'.newActionStart ≤ j → st'.buf.mem j = st.buf.mem j
  top : st'.buf.top ≤ max st.buf.top st'.newActionStart
  updates : ∃ log, st'.conf.updates = st.conf.updates ++ log
    ∧ List.Forall₂ (ReadsTag msg) (setFieldsAt pos actions) log

namespace Filtered

theorem nil (msg : Mem) (pos : Nat) (st : ActionCopy) : Filtered msg pos [] st st where
  filterLens := rfl
  newActionStart := rfl
  kept := trivial
  outside := fun _ _ => rfl
  top := by omega
  updates := ⟨[], by simp, .nil⟩

theorem of_setField {msg : Mem} {pos : Nat} {a : Action} {actions : List Action} {st st' : ActionCopy}
    (h : msg.At pos (Action.codec.encode a)) (htag : a.isSetField = true)
    (hlt : st.filterLens + a.len < 65536)
    (hrest : Filtered msg (pos + a.len) actions (body msg 0x1900 pos st) st')
    : Filtered msg pos (a :: actions) st st' := by
  rcases @body_of_setField _ _ _ st h htag with ⟨uep, conf, hbody, hupd, htagged⟩
  rw [hbody] at hrest
  have hkeep : stripActions (a :: actions) = stripActions actions := by
    simp [stripActions, htag]
  have hlen : setFieldLength (a :: actions) = a.len + setFieldLength actions := by
    simp [setFieldLength, htag]
  rcases hrest.updates with ⟨log, hlog, hlogs⟩
  constructor
  . have hsum := hrest.filterLens
    dsimp only at hsum
    rw [u16_add hlt] at hsum
    omega
  . rw [hkeep]
    apply hrest.newActionStart
  . rw [hkeep]
    apply hrest.kept
  . apply hrest.outside
  . apply hrest.top
  . refine ⟨uep :: log, ?_, ?_⟩
    . rw [hlog, hupd]
      simp
    . unfold setFieldsAt
      rw [if_pos htag]
      exact .cons htagged hlogs

theorem of_kept {msg : Mem} {pos : Nat} {a : Action} {actions : List Action} {st st' : ActionCopy}
    (h : msg.At pos (Action.codec.encode a)) (htag : a.isSetField = false)
    (hrest : Filtered msg (pos + a.len) actions (body msg 0x1900 pos st) st')
    : Filtered msg pos (a :: actions) st st' := by
  have h8 := a.eight_le_len
  have hkeep : stripActions (a :: actions) = a :: stripActions actions := by
    simp [stripActions, htag]
  have hlen : setFieldLength (a :: actions) = setFieldLength actions := by
    simp [setFieldLength, htag]
  rw [body_of_kept h htag] at hrest
  have hstart := hrest.newActionStart
  have hout := hrest.outside
  have htop := hrest.top
  have hcopy j := copyAction_apply msg pos st.newActionStart j st.buf a.four_le_len
  dsimp only at hstart hout htop
  rw [copyAction_top _ _ _ _ (by omega)] at htop
  constructor
  . rw [hlen]
    apply hrest.filterLens
  . rw [hkeep, Codec.encodeAll_cons, List.length_append, a.length_encode]
    omega
  . rw [hkeep, Codec.encodeAll_cons, Mem.at_append, a.length_encode]
    refine ⟨?_, hrest.kept⟩
    rw [Mem.at_iff_get]
    intro i hi
    rw [a.length_encode] at hi
    rw [hout _ (by omega), hcopy, if_pos (by omega),
      show pos + (st.newActionStart + i - st.newActionStart) = pos + i by omega]
    apply h.get
  . intro j hj
    rw [hout j (by omega), hcopy, if_neg (by omega)]
  . omega
  . unfold setFieldsAt
    rw [htag]
    apply hrest.updates

end Filtered

theorem loop_actions {msg : Mem} {pos fuel : Nat} {actions : List Action} {st : ActionCopy}
    (hat : msg.At pos (Action.codec.encodeAll actions)) (hfuel : actions.length < fuel)
    (hlens : st.filterLens + setFieldLength actions < 65536)
    : ∃ st',
        loop msg 0x1900 (pos + (Action.codec.encodeAll actions).length) fuel pos st = some st'
          ∧ Filtered msg pos actions st st' := by
  induction actions generalizing pos fuel st with
  | nil =>
    cases fuel with
    | zero => omega
    | succ fuel =>
      refine ⟨st, ?_, .nil msg pos st⟩
      simp [loop]
  | cons a actions ih =>
    cases fuel with
    | zero => omega
    | succ fuel =>
      simp only [List.length_cons, Nat.add_lt_add_iff_right] at hfuel
      rw [Codec.encodeAll_cons, Mem.at_append, a.length_encode] at hat
      rcases hat with ⟨ha, hactions⟩
      have h8 := a.eight_le_len
      rw [Codec.encodeAll_cons, List.length_append, a.length_encode, loop, if_pos (by omega),
        (Tlv.at_encode ha).2.1, ← Nat.add_assoc]
      cases htag : a.isSetField with
      | true =>
        have hlen : setFieldLength (a :: actions) = a.len + setFieldLength actions := by
          simp [setFieldLength, htag]
        rcases @body_of_setField _ _ _ st ha htag with ⟨uep, conf, hbody, -, -⟩
        have hsum : (body msg 0x1900 pos st).filterLens + setFieldLength actions < 65536 := by
          rw [hbody]
          dsimp only
          rw [u16_add (by omega)]
          omega
        rcases ih hactions hfuel hsum with ⟨st', hloop, hrest⟩
        exact ⟨st', hloop, .of_setField ha htag (by omega) hrest⟩
      | false =>
        have hlen : setFieldLength (a :: actions) = setFieldLength actions := by
          simp [setFieldLength, htag]
        have hsum : (body msg 0x1900 pos st).filterLens + setFieldLength actions < 65536 := by
          rw [body_of_kept ha htag]
          dsimp only
          omega
        rcases ih hactions hfuel hsum with ⟨st', hloop, hrest⟩
        exact ⟨st', hloop, .of_kept ha htag hrest⟩

theorem body_congr {n pos : Nat} {m m' : Mem} {a : Action} (hagree : Mem.Agree n m m')
    (hat : m.At pos (Action.codec.encode a)) (hle : pos + a.len ≤ n)
    (htag : a.isSetField = true → 14 ≤ a.len) (st : ActionCopy)
    : body m' 0x1900 pos st = body m 0x1900 pos st := by
  have h8 := a.eight_le_len
  have hlen : ntohs (m.load16 (pos + 2)) = a.len := (Tlv.at_encode hat).2.1
  unfold body
  rw [hagree.load16 (show pos + 2 ≤ n by omega), hagree.load16 (show pos + 2 + 2 ≤ n by omega), hlen]
  by_cases htype : m.load16 pos = 0x1900
  . have h14 := htag ((filterType_iff hat).mp htype)
    have hread : ∀ window, tagOfAction m' pos window = tagOfAction m pos window := by
      intro window
      unfold tagOfAction
      rw [hagree (pos + 8) (by omega), hagree (pos + 9) (by omega), hagree.load16 (by omega)]
    rw [if_pos htype, if_pos htype]
    simp only [hread]
  . rw [if_neg htype, if_neg htype]
    simp only [FilterBuf.copyFrom]
    rw [hagree.copyFrom_eq _ _ (by omega)]

-- What stands behind the bytes the memories share is not looked at.
theorem loop_congr {n pos fuel : Nat} {m m' : Mem} {actions : List Action}
    (hagree : Mem.Agree n m m') (hat : m.At pos (Action.codec.encodeAll actions))
    (hle : pos + (Action.codec.encodeAll actions).length ≤ n)
    (htags : ∀ a ∈ actions, a.isSetField = true → 14 ≤ a.len) (st : ActionCopy)
    : loop m' 0x1900 (pos + (Action.codec.encodeAll actions).length) fuel pos st
        =
      loop m 0x1900 (pos + (Action.codec.encodeAll actions).length) fuel pos st := by
  induction actions generalizing pos fuel st with
  | nil =>
    cases fuel with
    | zero => rfl
    | succ fuel => simp [loop]
  | cons a actions ih =>
    cases fuel with
    | zero => rfl
    | succ fuel =>
      rw [Codec.encodeAll_cons, Mem.at_append, a.length_encode] at hat
      rw [Codec.encodeAll_cons, List.length_append, a.length_encode] at hle ⊢
      rw [List.forall_mem_cons] at htags
      have h8 := a.eight_le_len
      rw [loop, loop, if_pos (by omega), if_pos (by omega), hagree.load16 (by omega),
        (Tlv.at_encode hat.1).2.1, body_congr hagree hat.1 (by omega) htags.1, ← Nat.add_assoc]
      apply ih hat.2 (by omega) htags.2

end copyValidActionToBuf

theorem copyValidActionToBuf_spec {msg : Mem} {pos : Nat} {actions : List Action} (valueTag : UInt8)
    (buf : FilterBuf) (conf : PolicyConfig) (hat : msg.At pos (Action.codec.encodeAll actions))
    (hlt : (Action.codec.encodeAll actions).length < 65536)
    : ∃ res,
        copyValidActionToBuf msg pos (Action.codec.encodeAll actions).length 0x1900 valueTag buf conf
            =
          some res
          ∧ res.newActionListLen = (Action.codec.encodeAll (stripActions actions)).length
          ∧ res.kickLen = setFieldLength actions
          ∧ res.buf.mem.At 0 (Action.codec.encodeAll (stripActions actions))
          ∧ (∀ j, res.newActionListLen ≤ j → res.buf.mem j = buf.mem j)
          ∧ res.buf.top ≤ max buf.top res.newActionListLen
          ∧ ∃ log, res.conf.updates = conf.updates ++ log
              ∧ List.Forall₂ (ReadsTag msg) (setFieldsAt pos actions) log := by
  have hsum := length_stripActions actions
  have hfuel := Action.codec.length_le_length_encodeAll actions
  generalize hinit : (⟨{}, conf, buf, 0, 0⟩ : ActionCopy) = init
  have hlens : init.filterLens + setFieldLength actions < 65536 := by
    rw [← hinit]
    dsimp only
    omega
  rcases copyValidActionToBuf.loop_actions hat (Nat.lt_succ_of_le hfuel) hlens with ⟨st, hloop, hst⟩
  rcases hst with ⟨hkick, hnew, hkept, hout, htop, hupd⟩
  subst hinit
  simp only [Nat.zero_add] at hkick hnew
  have hlen : u16 ((Action.codec.encodeAll actions).length - st.filterLens) = st.newActionStart := by
    rw [hkick, hnew, u16_of_lt] <;> omega
  unfold copyValidActionToBuf
  simp only [hloop]
  refine ⟨_, rfl, ?_, hkick, hkept, ?_, ?_, hupd⟩
  . rw [hlen, hnew]
  . intro j hj
    rw [hlen] at hj
    apply hout j (.inr hj)
  . rw [hlen]
    exact htop

theorem copyValidActionToBuf_congr {n pos : Nat} {m m' : Mem} {actions : List Action}
    (hagree : Mem.Agree n m m') (hat : m.At pos (Action.codec.encodeAll actions))
    (hle : pos + (Action.codec.encodeAll actions).length ≤ n)
    (htags : ∀ a ∈ actions, a.isSetField = true → 14 ≤ a.len) (valueTag : UInt8) (buf : FilterBuf)
    (conf : PolicyConfig)
    : copyValidActionToBuf m' pos (Action.codec.encodeAll actions).length 0x1900 valueTag buf conf
        =
      copyValidActionToBuf m pos (Action.codec.encodeAll actions).length 0x1900 valueTag buf conf := by
  unfold copyValidActionToBuf
  simp only [copyValidActionToBuf.loop_congr hagree hat hle htags]

def firstXid : Block 4 := ⟨[0, 0, 0, 1], rfl⟩

def setFieldAction : Action := ⟨⟨25, [0, 0, 0, 0, 2, 7, 0, 0, 1, 0, 0, 0], by decide⟩, by decide⟩

def outputAction : Action := ⟨⟨0, [0, 0, 0, 1, 0, 0, 0, 0, 0, 0, 0, 0], by decide⟩, by decide⟩

end OfpProxy
