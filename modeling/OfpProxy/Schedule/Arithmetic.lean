import OfpProxy.Schedule.Termination

/-!
This module shows for which frames no unsigned difference of the rewriting functions wraps and no
copy loop runs longer than the frame. The differences are written down as the functions form them,
before they are cut to the width of their type.
-/

namespace OfpProxy

namespace copyValidActionToBuf

-- the bytes of the set-field actions among those that begin at these places
def setFieldBytes (msg : Mem) (ps : List Nat) : Nat :=
  ((ps.filter fun p => msg.load16 p = 0x1900).map (actionLen msg)).sum

theorem setFieldBytes_cons (msg : Mem) (p : Nat) (ps : List Nat)
    : setFieldBytes msg (p :: ps)
        = (if msg.load16 p = 0x1900 then actionLen msg p else 0) + setFieldBytes msg ps := by
  unfold setFieldBytes
  by_cases htype : msg.load16 p = 0x1900
  . simp [htype]
  . simp [htype]

theorem filterLens_body (msg : Mem) (pos : Nat) (st : ActionCopy)
    : (body msg 0x1900 pos st).filterLens =
        if msg.load16 pos = 0x1900 then u16 (st.filterLens + actionLen msg pos) else st.filterLens := by
  unfold body
  split
  . rfl
  . rfl

theorem filterLens_foldl (msg : Mem) (ps : List Nat) (st : ActionCopy) (h : st.filterLens < 65536)
    : (ps.foldl (fun st p => body msg 0x1900 p st) st).filterLens
        = u16 (st.filterLens + setFieldBytes msg ps) := by
  induction ps generalizing st with
  | nil =>
    rw [List.foldl_nil]
    unfold setFieldBytes u16
    simp
    omega
  | cons p ps ih =>
    have hbody := filterLens_body msg p st
    rw [List.foldl_cons, setFieldBytes_cons]
    by_cases htype : msg.load16 p = 0x1900
    . rw [if_pos htype] at hbody
      rw [ih _ (by rw [hbody]; apply u16_lt), hbody, if_pos htype]
      unfold u16
      omega
    . rw [if_neg htype] at hbody
      rw [ih _ (by rw [hbody]; exact h), hbody, if_neg htype, Nat.zero_add]

end copyValidActionToBuf

-- `k` bytes are kicked out of the list of actions
def Kicks (msg : Mem) (pos len k : Nat) : Prop :=
  ∃ ps, Walk.Path (actionLen msg) (pos + len) pos ps
    ∧ k = u16 (copyValidActionToBuf.setFieldBytes msg ps)

theorem Kicks.congr {m m' : Mem} {pos len k : Nat} (hkicks : Kicks m pos len k)
    (h : ∀ j, pos ≤ j → m' j = m j) : Kicks m' pos len k := by
  rcases hkicks with ⟨ps, hps, rfl⟩
  refine ⟨ps, hps.congr (actionLen_congr h), ?_⟩
  have hle : ∀ p ∈ ps, pos ≤ p := fun p hp => ((hps.mem_iff p).mp hp).le
  clear hps
  unfold copyValidActionToBuf.setFieldBytes
  have htype : (ps.filter fun p => m'.load16 p = 0x1900) = ps.filter fun p => m.load16 p = 0x1900 := by
    apply List.filter_congr
    intro p hp
    have := hle p hp
    unfold Mem.load16
    rw [h p this, h (p + 1) (by omega)]
  have hlens : ((ps.filter fun p => m.load16 p = 0x1900).map (actionLen m'))
      = (ps.filter fun p => m.load16 p = 0x1900).map (actionLen m) := by
    apply List.map_congr_left
    intro p hp
    rw [actionLen_congr h p (hle p (List.mem_of_mem_filter hp))]
  rw [htype, hlens]

theorem kicks_congr {m m' : Mem} {pos : Nat} (h : ∀ j, pos ≤ j → m' j = m j) (len k : Nat)
    : Kicks m' pos len k ↔ Kicks m pos len k := by
  constructor
  . intro hkicks
    apply hkicks.congr
    intro j hj
    rw [h j hj]
  . intro hkicks
    apply hkicks.congr h

theorem kicks_iff (msg : Mem) (pos len : Nat) (valueTag : UInt8) (buf : FilterBuf)
    (conf : PolicyConfig) (k : Nat)
    : (∃ res, copyValidActionToBuf msg pos len 0x1900 valueTag buf conf = some res ∧ res.kickLen = k)
        ↔ Kicks msg pos len k := by
  unfold copyValidActionToBuf Kicks
  dsimp only
  rw [copyValidActionToBuf.loop_eq_run]
  constructor
  . rintro ⟨res, hres, rfl⟩
    split at hres
    . simp at hres
    . next st hst =>
      rw [Walk.run_eq_some_iff] at hst
      rcases hst with ⟨ps, hps, -, rfl⟩
      refine ⟨ps, hps, ?_⟩
      rw [← Option.some.inj hres]
      dsimp only
      rw [copyValidActionToBuf.filterLens_foldl _ _ _ (Nat.zero_lt_succ _), Int.natCast_zero, Int.zero_add]
  . rintro ⟨ps, hps, rfl⟩
    have hlen := hps.length_le
    have hrun := (@Walk.run_eq_some_iff _ _ _ (copyValidActionToBuf.body msg 0x1900) (len + 1) pos
      ⟨{}, conf, buf, 0, 0⟩ _).mpr ⟨ps, hps, by omega, rfl⟩
    rw [hrun]
    refine ⟨_, rfl, ?_⟩
    dsimp only
    rw [copyValidActionToBuf.filterLens_foldl _ _ _ (Nat.zero_lt_succ _), Int.natCast_zero, Int.zero_add]

theorem newActionListLen_eq {msg : Mem} {pos len : Nat} {valueTag : UInt8} {buf : FilterBuf}
    {conf : PolicyConfig} {res : CopyValid}
    (hres : copyValidActionToBuf msg pos len 0x1900 valueTag buf conf = some res)
    : res.newActionListLen = u16 (len - res.kickLen) := by
  unfold copyValidActionToBuf at hres
  dsimp only at hres
  split at hres
  . simp at hres
  . rw [← Option.some.inj hres]

-- what the loop copies of an action is no longer than `frame`
def CopiesWithin (frame : Nat) (msg : Mem) (pos len : Nat) : Prop :=
  ∀ p, Walk.Visits (actionLen msg) (pos + len) pos p → msg.load16 p ≠ 0x1900
    → actionLen msg p - 4 ≤ frame

theorem copiesWithin_congr {m m' : Mem} {pos : Nat} (h : ∀ j, pos ≤ j → m' j = m j) (frame len : Nat)
    : CopiesWithin frame m' pos len ↔ CopiesWithin frame m pos len := by
  have hlen := actionLen_congr h
  apply forall_congr'
  intro p
  rw [Walk.visits_congr hlen p]
  apply imp_congr_right
  intro hvisits
  have hp := hvisits.le
  unfold Mem.load16
  rw [hlen p hp, h p hp, h (p + 1) (by omega)]

namespace PacketOutProcessed

def filterActions (st : Processed) : Option CopyValid :=
  copyValidActionToBuf st.msg 24 (ntohs (st.msg.load16 16)) 0x1900 0xFF (st.buf.memset 500) st.conf

/--
Each difference is named after what it is assigned to. The loops that follow run up to two of them.
-/
structure WrapFree (st : Processed) : Prop where
  originalDataLens : (0 : Int) ≤ headerLength st.msg - ntohs (st.msg.load16 16) - 24
  newActionListLen :
    ∀ res, filterActions st = some res → (0 : Int) ≤ ntohs (st.msg.load16 16) - res.kickLen
  headerLength : ∀ res, filterActions st = some res → (0 : Int) ≤ headerLength st.msg - res.kickLen
  actionLoops : CopiesWithin (OfpProxy.headerLength st.msg) st.msg 24 (ntohs (st.msg.load16 16))
  copyLoops :
    ∀ res, filterActions st = some res → res.kickLen > 0
      → res.newActionListLen ≤ OfpProxy.headerLength st.msg
        ∧ u16 (OfpProxy.headerLength st.msg - ntohs (st.msg.load16 16) - 24)
            ≤ OfpProxy.headerLength st.msg

-- The list of actions fits in the frame and its set-field actions fit in the list.
structure Consistent (msg : Mem) : Prop where
  list : 24 + ntohs (msg.load16 16) ≤ headerLength msg
  setFields : ∀ k, Kicks msg 24 (ntohs (msg.load16 16)) k → k ≤ ntohs (msg.load16 16)
  actions : CopiesWithin (headerLength msg) msg 24 (ntohs (msg.load16 16))

theorem wrapFree_iff (st : Processed) : WrapFree st ↔ Consistent st.msg := by
  have hkicks := kicks_iff st.msg 24 (ntohs (st.msg.load16 16)) 0xFF (st.buf.memset 500) st.conf
  have hlens : ntohs (st.msg.load16 16) < 65536 := ntohs_lt _
  have hframe : headerLength st.msg < 65536 := ntohs_lt _
  constructor
  . intro h
    have hdata := h.originalDataLens
    refine ⟨by omega, ?_, h.actionLoops⟩
    intro k hk
    rcases (hkicks k).mpr hk with ⟨res, hres, rfl⟩
    have := h.newActionListLen res hres
    omega
  . intro h
    have hlist := h.list
    have hkicked : ∀ res, filterActions st = some res → res.kickLen ≤ ntohs (st.msg.load16 16) :=
      fun res hres => h.setFields _ ((hkicks _).mp ⟨res, hres, rfl⟩)
    constructor
    . omega
    . intro res hres
      have := hkicked res hres
      omega
    . intro res hres
      have := hkicked res hres
      omega
    . exact h.actions
    . intro res hres _
      have hle := hkicked res hres
      constructor
      . rw [newActionListLen_eq hres, u16_sub hle hlens]
        omega
      . rw [u16_of_lt] <;> omega

end PacketOutProcessed

namespace FlowModProcessed

-- the first instruction with the list that `pack_Inst_except_type` has filtered
def filterActions (exp : ℚ → ℚ) (st : Processed) : Option CopyValid :=
  let st' := (rewriteMatch exp st).1
  let inst := mat + (rewriteMatch exp st).2
  let lens := ntohs (st'.msg.load16 (inst + 2))
  copyValidActionToBuf st'.msg (inst + 8) (u16 (lens - 8)) 0x1900 0xFF (st'.buf.memset (lens + 10))
    st'.conf

structure InstWrapFree (exp : ℚ → ℚ) (st : Processed) (inst lens : Nat) : Prop where
  originalActionListLens : (0 : Int) ≤ lens - 8
  newActionListLen :
    ∀ res, filterActions exp st = some res → (0 : Int) ≤ u16 (lens - 8) - res.kickLen
  newInstLen : ∀ res, filterActions exp st = some res → (0 : Int) ≤ lens - res.kickLen
  headerLength :
    ∀ res, filterActions exp st = some res
      → (0 : Int) ≤ headerLength (rewriteMatch exp st).1.msg - res.kickLen
  actionLoops :
    CopiesWithin (OfpProxy.headerLength st.msg) (rewriteMatch exp st).1.msg (inst + 8)
      (u16 (lens - 8))
  copyLoop :
    ∀ res, filterActions exp st = some res → res.kickLen > 0
      → u16 (lens - res.kickLen) - 4 ≤ OfpProxy.headerLength st.msg

-- what the loop over the items of the match copies of one is no longer than the frame
def ItemsWithin (msg : Mem) : Prop :=
  ∀ p, Walk.Visits (itemLen msg) (mat + totalLength msg - 4) (mat + 4) p → isTaggedItem msg p = false
    → (msg (p + 3)).toNat ≤ headerLength msg

structure WrapFree (exp : ℚ → ℚ) (st : Processed) : Prop where
  hasInst : (0 : Int) ≤ headerLength st.msg - 8 - 40 - totalLength st.msg
  headerLength : (0 : Int) ≤ headerLength st.msg - (matchPacked st).exceptLen
  itemLoops : ItemsWithin st.msg
  matchLoop : (matchPacked st).newLen ≤ OfpProxy.headerLength st.msg
  instLoop :
    OfpProxy.hasInst st.msg (totalLength st.msg) = true
      → ntohs ((withNewMatch st).load16 (mat + totalLength st.msg + 2)) ≤ OfpProxy.headerLength st.msg
  filtered :
    OfpProxy.hasInst st.msg (totalLength st.msg) = true
      → (rewriteMatch exp st).1.msg.load16 (mat + (rewriteMatch exp st).2) = 0x0400
      → InstWrapFree exp st (mat + (rewriteMatch exp st).2)
          (ntohs ((rewriteMatch exp st).1.msg.load16 (mat + (rewriteMatch exp st).2 + 2)))

-- The list has a head in front of it, its set-field actions fit in the list and in the frame.
structure ListConsistent (msg : Mem) : Prop where
  head : 8 ≤ instLength msg
  setFields :
    ∀ k, Kicks (behindMatch msg) (instStart msg + 8) (instLength msg - 8) k
      → 8 + k ≤ instLength msg ∧ exceptLength msg + k ≤ headerLength msg
  actions :
    CopiesWithin (headerLength msg) (behindMatch msg) (instStart msg + 8) (instLength msg - 8)
  left :
    ∀ k, Kicks (behindMatch msg) (instStart msg + 8) (instLength msg - 8) k → k > 0
      → instLength msg - k - 4 ≤ headerLength msg

/--
The match fits in the frame with what is taken out of it and with what is put in its place, the
first instruction is no longer than the frame, and its list of actions is consistent too.
-/
structure Consistent (msg : Mem) : Prop where
  fits : 48 + totalLength msg ≤ headerLength msg
  except : exceptLength msg ≤ headerLength msg
  items : ItemsWithin msg
  left : newLength msg ≤ headerLength msg
  inst :
    50 + totalLength msg ≤ headerLength msg → newLength msg ≤ totalLength msg
      → firstInstLength msg ≤ headerLength msg
  list : FiltersActions msg → ListConsistent msg

theorem hasInst_iff {msg : Mem} (h : 48 + totalLength msg ≤ headerLength msg)
    : hasInst msg (totalLength msg) = true ↔ 50 + totalLength msg ≤ headerLength msg := by
  have hframe : headerLength msg < 65536 := ntohs_lt _
  unfold hasInst
  rw [decide_eq_true_iff, Int.emod_eq_of_lt (by omega) (by omega)]
  omega

theorem listLength_eq {msg : Mem} (h : 8 ≤ instLength msg) : listLength msg = instLength msg - 8 := by
  have hlt : instLength msg < 65536 := ntohs_lt _
  rw [listLength, u16_of_lt] <;> omega

section InstWrapFree

variable {exp : ℚ → ℚ} {st : Processed}

theorem kicks_filterActions (hinst : hasInst st.msg (totalLength st.msg) = true)
    (hlist : 8 ≤ instLength st.msg) (k : Nat)
    : (∃ res, filterActions exp st = some res ∧ res.kickLen = k)
        ↔ Kicks (behindMatch st.msg) (instStart st.msg + 8) (instLength st.msg - 8) k := by
  unfold filterActions
  dsimp only
  rw [kicks_iff, rewriteMatch_instStart, load16_rewriteMatch exp hinst (by omega)]
  change Kicks _ _ (listLength st.msg) k ↔ _
  rw [listLength_eq hlist]
  apply kicks_congr
  intro j hj
  apply rewriteMatch_behind exp hinst (by omega)

theorem instWrapFree_iff (hinst : hasInst st.msg (totalLength st.msg) = true)
    (hexcept : exceptLength st.msg ≤ headerLength st.msg)
    : InstWrapFree exp st (mat + (rewriteMatch exp st).2)
          (ntohs ((rewriteMatch exp st).1.msg.load16 (mat + (rewriteMatch exp st).2 + 2)))
        ↔ ListConsistent st.msg := by
  have hframe : headerLength st.msg < 65536 := ntohs_lt _
  have hshrunk : headerLength (rewriteMatch exp st).1.msg = headerLength st.msg - exceptLength st.msg := by
    rw [headerLength_rewriteMatch, u16_sub hexcept hframe]
  have hlens : ntohs ((rewriteMatch exp st).1.msg.load16 (mat + (rewriteMatch exp st).2 + 2))
      = instLength st.msg := by
    rw [rewriteMatch_instStart, load16_rewriteMatch exp hinst (by omega)]
    rfl
  have hlt : instLength st.msg < 65536 := ntohs_lt _
  have hlist (h : 8 ≤ instLength st.msg) : u16 (instLength st.msg - 8) = instLength st.msg - 8 :=
    listLength_eq h
  rw [hlens, rewriteMatch_instStart]
  have hsame : ∀ j, instStart st.msg + 8 ≤ j → (rewriteMatch exp st).1.msg j = behindMatch st.msg j := by
    intro j hj
    apply rewriteMatch_behind exp hinst (by omega)
  constructor
  . intro h
    have hhead : 8 ≤ instLength st.msg := by
      have := h.originalActionListLens
      omega
    have hkicks := @kicks_filterActions exp st hinst hhead
    have hactions := h.actionLoops
    rw [copiesWithin_congr hsame, hlist hhead] at hactions
    refine ⟨hhead, ?_, hactions, ?_⟩
    . intro k hk
      rcases (hkicks k).mpr hk with ⟨res, hres, rfl⟩
      have hnew := h.newActionListLen res hres
      have hheader := h.headerLength res hres
      rw [hlist hhead] at hnew
      rw [hshrunk] at hheader
      omega
    . intro k hk hpos
      rcases (hkicks k).mpr hk with ⟨res, hres, rfl⟩
      have hcopy := h.copyLoop res hres hpos
      have hnew := h.newInstLen res hres
      rw [u16_sub (by omega) hlt] at hcopy
      exact hcopy
  . intro h
    have hhead := h.head
    have hkicks := @kicks_filterActions exp st hinst hhead
    have hkicked res (hres : filterActions exp st = some res) :=
      h.setFields _ ((hkicks _).mp ⟨res, hres, rfl⟩)
    constructor
    . omega
    . intro res hres
      have := hkicked res hres
      rw [hlist hhead]
      omega
    . intro res hres
      have := hkicked res hres
      omega
    . intro res hres
      have := hkicked res hres
      rw [hshrunk]
      omega
    . rw [copiesWithin_congr hsame, hlist hhead]
      exact h.actions
    . intro res hres hpos
      have := hkicked res hres
      rw [u16_sub (by omega) hlt]
      apply h.left _ ((hkicks _).mp ⟨res, hres, rfl⟩) hpos

end InstWrapFree

theorem wrapFree_iff (exp : ℚ → ℚ) {st : Processed} (hcommand : st.msg command = ofpfcAdd)
    : WrapFree exp st ↔ Consistent st.msg := by
  constructor
  . intro h
    have hfits : 48 + totalLength st.msg ≤ headerLength st.msg := by
      have := h.hasInst
      omega
    have hexcept : exceptLength st.msg ≤ headerLength st.msg := by
      have := h.headerLength
      rw [matchPacked_exceptLen] at this
      omega
    have hleft := h.matchLoop
    rw [matchPacked_newLen] at hleft
    refine ⟨hfits, hexcept, h.itemLoops, hleft, ?_, ?_⟩
    . intro hroom hshort
      have hcount := h.instLoop ((hasInst_iff hfits).mpr hroom)
      rw [movedLength_eq, if_pos hshort] at hcount
      exact hcount
    . rintro ⟨-, hinst, htype⟩
      rw [← instWrapFree_iff hinst hexcept]
      apply h.filtered hinst
      rw [rewriteMatch_instStart, load16_rewriteMatch exp hinst (Nat.le_refl _)]
      exact htype
  . intro h
    have hfits := h.fits
    have hexcept := h.except
    constructor
    . omega
    . rw [matchPacked_exceptLen]
      omega
    . exact h.items
    . rw [matchPacked_newLen]
      exact h.left
    . intro hinst
      rw [movedLength_eq]
      split
      . next hshort => apply h.inst ((hasInst_iff hfits).mp hinst) hshort
      . omega
    . intro hinst htype
      rw [rewriteMatch_instStart, load16_rewriteMatch exp hinst (Nat.le_refl _)] at htype
      rw [instWrapFree_iff hinst hexcept]
      exact h.list ⟨hcommand, hinst, htype⟩

end FlowModProcessed

namespace Schedule

-- nothing wraps while `getOFPMsgArg` rewrites the frame, and nothing is copied beyond its length
def WrapFree (exp : ℚ → ℚ) (self : Schedule) (conf : PolicyConfig) (msg : Mem) : Prop :=
  (msg 1 = ofptPacketOut → PacketOutProcessed.WrapFree (self.toProcess conf msg))
    ∧ (msg 1 = ofptFlowMod → msg FlowModProcessed.command = ofpfcAdd
        → FlowModProcessed.WrapFree exp (self.toProcess conf msg))

def Consistent (msg : Mem) : Prop :=
  (msg 1 = ofptPacketOut → PacketOutProcessed.Consistent msg)
    ∧ (msg 1 = ofptFlowMod → msg FlowModProcessed.command = ofpfcAdd
        → FlowModProcessed.Consistent msg)

theorem wrapFree_iff_consistent (exp : ℚ → ℚ) (self : Schedule) (conf : PolicyConfig) (msg : Mem)
    : WrapFree exp self conf msg ↔ Consistent msg := by
  unfold WrapFree Consistent
  apply and_congr
  . apply imp_congr_right
    intro _
    apply PacketOutProcessed.wrapFree_iff (self.toProcess conf msg)
  . apply imp_congr_right
    intro _
    apply imp_congr_right
    intro hcommand
    apply @FlowModProcessed.wrapFree_iff exp (self.toProcess conf msg) hcommand

-- a flow-mod of 56 bytes whose match claims 24 bytes from its 48th on
def longMatchFlowMod : Mem :=
  .ofList ([4, 14, 0, 56] ++ List.replicate 44 0 ++ [0, 1, 0, 24, 0, 0, 0, 0])

theorem wrapFree_fails
    : 8 ≤ headerLength longMatchFlowMod ∧ ¬WrapFree (fun _ => 1) idle .idle longMatchFlowMod
        ∧ hasInst longMatchFlowMod (FlowModProcessed.totalLength longMatchFlowMod) = true := by
  refine ⟨by decide, ?_, by decide⟩
  intro h
  exact absurd (h.2 (by decide) (by decide)).hasInst (by decide)

end Schedule
end OfpProxy
