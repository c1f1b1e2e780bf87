import OfpProxy.Rewrite.Lemmas.FlowMod
import OfpProxy.Rewrite.Lemmas.PacketOut
import OfpProxy.Rewrite.Lemmas.Raw

/-!
This module shows how far the scratch buffer is written while a well-formed frame is processed.
-/

namespace OfpProxy

namespace copyValidActionToBuf

theorem top_body (msg : Mem) (filterActionType pos : Nat) (st : ActionCopy)
    (h : st.newActionStart ≤ st.buf.top)
    : st.buf.top ≤ (body msg filterActionType pos st).buf.top
        ∧ (body msg filterActionType pos st).newActionStart
            ≤ (body msg filterActionType pos st).buf.top := by
  unfold body
  dsimp only
  split
  . exact ⟨Nat.le_refl _, h⟩
  . simp only [FilterBuf.store16, FilterBuf.copyFrom]
    omega

theorem top_foldl (msg : Mem) (filterActionType : Nat) (ps : List Nat) (st : ActionCopy)
    (h : st.newActionStart ≤ st.buf.top)
    : st.buf.top ≤ (ps.foldl (fun st p => body msg filterActionType p st) st).buf.top
        ∧ (ps.foldl (fun st p => body msg filterActionType p st) st).newActionStart
            ≤ (ps.foldl (fun st p => body msg filterActionType p st) st).buf.top := by
  induction ps generalizing st with
  | nil => exact ⟨Nat.le_refl _, h⟩
  | cons p ps ih =>
    have hbody := top_body msg filterActionType p st h
    have hrest := ih _ hbody.2
    exact ⟨Nat.le_trans hbody.1 hrest.1, hrest.2⟩

theorem top_loop {msg : Mem} {filterActionType fin fuel pos : Nat} {st st' : ActionCopy}
    (hloop : loop msg filterActionType fin fuel pos st = some st')
    (h : st.newActionStart ≤ st.buf.top)
    : st.buf.top ≤ st'.buf.top ∧ st'.newActionStart ≤ st'.buf.top := by
  rw [loop_eq_run, Walk.run_eq_some_iff] at hloop
  rcases hloop with ⟨ps, -, -, rfl⟩
  apply top_foldl msg filterActionType ps st h

end copyValidActionToBuf

theorem le_top_copyValidActionToBuf {msg : Mem} {pos len filterActionType : Nat} {valueTag : UInt8}
    {buf : FilterBuf} {conf : PolicyConfig} {res : CopyValid}
    (hres : copyValidActionToBuf msg pos len filterActionType valueTag buf conf = some res)
    : buf.top ≤ res.buf.top := by
  unfold copyValidActionToBuf at hres
  dsimp only at hres
  split at hres
  . simp at hres
  . next st hst =>
    rw [← Option.some.inj hres]
    exact (copyValidActionToBuf.top_loop hst (Nat.zero_le _)).1

-- the last action that stays is written to the end of what stays
theorem stripActions_le_top {msg : Mem} {pos : Nat} {actions : List Action} {valueTag : UInt8}
    {buf : FilterBuf} {conf : PolicyConfig} {res : CopyValid}
    (hat : msg.At pos (Action.codec.encodeAll actions))
    (hlt : (Action.codec.encodeAll actions).length < 65536)
    (hres : copyValidActionToBuf msg pos (Action.codec.encodeAll actions).length 0x1900 valueTag buf conf
      = some res)
    : (Action.codec.encodeAll (stripActions actions)).length ≤ res.buf.top := by
  have hsum := length_stripActions actions
  have hfuel := Action.codec.length_le_length_encodeAll actions
  rcases @copyValidActionToBuf.loop_actions msg pos _ actions ⟨{}, conf, buf, 0, 0⟩ hat
      (Nat.lt_succ_of_le hfuel) (by dsimp only; omega) with
    ⟨st, hloop, hst⟩
  have hnew := hst.newActionStart
  have htop := (copyValidActionToBuf.top_loop hloop (Nat.zero_le _)).2
  unfold copyValidActionToBuf at hres
  simp only [hloop] at hres
  rw [← Option.some.inj hres]
  dsimp only at hnew ⊢
  omega

open PacketOutProcessed in
theorem doOfpPacketoutProcessed_top (exp : ℚ → ℚ) {p : PacketOut} {st : Processed}
    (h : st.msg.At 0 p.encode)
    : ∃ st',
        doOfpPacketoutProcessed exp st = some st'
          ∧ st'.buf.top = max st.buf.top (max 500 p.strip.actionsLen) := by
  have hplen : p.length = 24 + p.actionsLen + p.data.length := rfl
  have hlt : p.length < 65536 := p.length_lt
  rcases doOfpPacketoutProcessed_spec exp h with ⟨st', hres, -, htop, -⟩
  refine ⟨st', hres, ?_⟩
  rw [processed_eq, (lengths_eq h).2.1, Option.map_eq_some_iff] at hres
  rcases hres with ⟨res, hcopy, rfl⟩
  have hle := le_top_copyValidActionToBuf hcopy
  have hkept := stripActions_le_top (PacketOut.at_encode h).2.1 (show p.actionsLen < _ by omega) hcopy
  change p.strip.actionsLen ≤ res.buf.top at hkept
  dsimp only [FilterBuf.memset] at *
  omega

namespace packMathchExceptType

theorem le_top_loop (msg : Mem) (ins pos new tick : Nat) (buf : FilterBuf)
    : buf.top ≤ (loop msg 0x8000 0x36 0x7F ins pos new buf tick).1.top := by
  fun_induction FlowModProcessed.taggedFrom msg ins pos generalizing new tick buf with
  | case1 pos hpos ih =>
    by_cases htag : FlowModProcessed.isTaggedItem msg pos = true
    . rw [loop_of_isTagged new tick buf hpos htag]
      apply ih
    . rw [loop_of_notTagged new tick buf hpos htag]
      apply Nat.le_trans _ (ih _ tick (copyItem msg pos new buf))
      rw [copyItem_top]
      omega
  | case2 pos hpos =>
    rw [loop, if_neg hpos]

end packMathchExceptType

namespace FlowModProcessed

theorem le_top_rewriteMatch (exp : ℚ → ℚ) (st : Processed)
    : max st.buf.top (totalLength st.msg + 10) ≤ (rewriteMatch exp st).1.buf.top := by
  have hle : (st.buf.memset (totalLength st.msg + 10)).top ≤ (matchPacked st).buf.top := by
    rw [matchPacked, packMathchExceptType_eq]
    apply Nat.le_trans (packMathchExceptType.le_top_loop st.msg (mat + totalLength st.msg) (mat + 4) 4 0
      (st.buf.memset (totalLength st.msg + 10)))
    simp only [FilterBuf.store16, packedItems]
    omega
  exact hle

theorem le_top_packInstExceptType {msg : Mem} {inst newInstLen : Nat} {buf : FilterBuf}
    {conf : PolicyConfig} {res : PackInst}
    (hres : packInstExceptType msg inst 0x0400 0x1900 0xFF buf newInstLen 0 conf = some res)
    : buf.top ≤ res.buf.top := by
  unfold packInstExceptType at hres
  dsimp only at hres
  split at hres
  . rw [← Option.some.inj hres]
  . split at hres
    . simp at hres
    . split at hres
      . simp at hres
      . next copied hcopied =>
        rw [← Option.some.inj hres]
        apply le_top_copyValidActionToBuf hcopied

theorem le_top_filterInst {exp : ℚ → ℚ} {st st' : Processed} {inst : Nat}
    (h : filterInst exp st inst = some st')
    : max st.buf.top (ntohs (st.msg.load16 (inst + 2)) + 10) ≤ st'.buf.top := by
  rw [filterInst_eq, Option.map_eq_some_iff] at h
  rcases h with ⟨res, hres, rfl⟩
  apply le_top_packInstExceptType hres

end FlowModProcessed

-- what is cleared for the match and for the first instruction
def FlowModAdd.cleared (f : FlowModAdd) : Nat :=
  max (f.mat.paddedLength + 10) ((f.instructions.head?.map fun i => i.len + 10).getD 0)

open FlowModProcessed in
theorem doOfpFlowmodProcessed_top (exp : ℚ → ℚ) {f : FlowModAdd} {st : Processed}
    (h : st.msg.At 0 f.encode)
    : ∃ st',
        doOfpFlowmodProcessed exp st = some st' ∧ st'.buf.top = max st.buf.top f.cleared := by
  rcases FlowModAdd.at_encode h with ⟨hhead, hmat, -⟩
  rcases FlowModAdd.at_head hhead f.length_lt with ⟨hlen, -, hcommand⟩
  have htotal : totalLength st.msg = f.mat.paddedLength := totalLength_eq hmat
  have hmatch := le_top_rewriteMatch exp st
  have hst1 := (rewriteMatch_spec exp h).1
  have hupper := hst1.top
  rw [htotal] at hmatch
  unfold FlowModAdd.cleared
  cases hcons : f.instructions with
  | nil =>
    refine ⟨_, processed_of_nil exp h hcons, ?_⟩
    simp only [List.head?_nil, Option.map_none, Option.getD_none]
    omega
  | cons i tail =>
    rcases filterInst_of_cons exp h hcons with ⟨st', hfilter, hst'⟩
    have hlens : ntohs ((rewriteMatch exp st).1.msg.load16 (48 + f.mat.untagged.paddedLength + 2))
        = i.len := (Tlv.at_encode (hst1.at_first hcons)).2.1
    have hinst := le_top_filterInst hfilter
    have hupper' := hst'.top
    rw [hlens] at hinst
    refine ⟨st', by rw [processed_of_cons exp h hcons, hfilter], ?_⟩
    simp only [List.head?_cons, Option.map_some, Option.getD_some]
    omega

end OfpProxy
