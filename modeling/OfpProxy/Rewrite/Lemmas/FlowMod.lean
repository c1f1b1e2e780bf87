import OfpProxy.Rewrite.Lemmas.Action
import OfpProxy.Rewrite.Lemmas.Frame
import OfpProxy.Rewrite.Lemmas.Match

/-!
This module shows what `do_ofp_flowmod_processed` does to a flow-mod with command ADD: where the
match, the first instruction and the instructions behind it end up in the receive buffer.
-/

namespace OfpProxy

namespace FlowModAdd

theorem at_encode {msg : Mem} {f : FlowModAdd} (h : msg.At 0 f.encode)
    : msg.At 0 (f.head f.length) ∧ msg.At 48 f.mat.encode
        ∧ msg.At (48 + f.mat.paddedLength) (Instruction.codec.encodeAll f.instructions) := by
  simp only [encode, Mem.at_append, List.length_append, length_head, OfpMatch.length_encode,
    Nat.zero_add] at h
  exact ⟨h.1.1, h.1.2, h.2⟩

theorem at_head {msg : Mem} {f : FlowModAdd} {len : Nat} (h : msg.At 0 (f.head len))
    (hlt : len < 65536)
    : headerLength msg = len ∧ msg 1 = ofptFlowMod ∧ msg FlowModProcessed.command = ofpfcAdd := by
  have hlen : (f.head len).length = 48 := f.length_head len
  have h25 := h.get 25 (by omega)
  have hxid := f.xid.property
  have hcookie := f.cookie.property
  have hmask := f.cookieMask.property
  simp only [head, Mem.at_append, List.length_append, length_be16, Mem.at_cons, List.length_cons,
    List.length_nil, hxid, hcookie, hmask] at h
  exact ⟨h.1.1.1.1.1.2.ntohs_load16 hlt, h.1.1.1.1.1.1.2.1, h.1.2.2.1⟩

theorem at_store_length {msg : Mem} {f : FlowModAdd} {len : Nat} (h : msg.At 0 (f.head len))
    (len' : Nat) : (msg.store16 2 (htons len')).At 0 (f.head len') := by
  simp only [head, List.append_assoc] at *
  rw [← List.append_assoc] at *
  apply h.store16_be16 len'

end FlowModAdd

namespace FlowModProcessed

theorem hasInst_eq {msg : Mem} {f : FlowModAdd} (h : headerLength msg = f.length)
    : hasInst msg f.mat.paddedLength = !f.instructions.isEmpty := by
  have hlt := f.length_lt
  unfold hasInst
  rw [h, FlowModAdd.length]
  cases hinst : f.instructions with
  | nil =>
    simp
    omega
  | cons i tail =>
    have h4 := i.toTlv.four_le_len
    have hlen : (Instruction.codec.encode i).length = i.toTlv.len := i.length_encode
    rw [hinst, Codec.encodeAll_cons, List.length_append, hlen] at hlt
    rw [Codec.encodeAll_cons, List.length_append, hlen]
    simp
    omega

theorem totalLength_eq {msg : Mem} {f : FlowModAdd} (h : msg.At mat f.mat.encode)
    : padTo8 (ntohs (msg.load16 (mat + 2))) = f.mat.paddedLength := by
  have hlt := f.length_lt
  rw [(OfpMatch.at_encode h).2.1]
  apply padTo8_eq
  change f.mat.paddedLength < 65536
  omega

/--
Where everything is after `rewriteMatch`: the untagged match, the first instruction, and behind
it whatever stood there before.
-/
structure MatchRewritten (f : FlowModAdd) (st st' : Processed) : Prop where
  head : st'.msg.At 0 (f.head (f.length - f.mat.exceptLen))
  mat : st'.msg.At 48 f.mat.untagged.encode
  first : st'.msg.At (48 + f.mat.untagged.paddedLength)
    (Instruction.codec.encodeAll (f.instructions.take 1))
  behind : ∀ j,
    48 + f.mat.untagged.paddedLength + (Instruction.codec.encodeAll (f.instructions.take 1)).length ≤ j
      → st'.msg j = st.msg j
  top : st'.buf.top ≤ max st.buf.top (f.mat.paddedLength + 10)
  conf : st'.conf = st.conf

theorem rewriteMatch_spec (exp : ℚ → ℚ) {f : FlowModAdd} {st : Processed} (h : st.msg.At 0 f.encode)
    : MatchRewritten f st (rewriteMatch exp st).1
        ∧ (rewriteMatch exp st).2 = f.mat.untagged.paddedLength := by
  rcases FlowModAdd.at_encode h with ⟨hhead, hmat, hinst⟩
  rcases FlowModAdd.at_head hhead f.length_lt with ⟨hlen, -, -⟩
  have hlt := f.length_lt
  have hle := f.mat.untagged_paddedLength_le
  have hexc := f.mat.exceptLen_le
  have hflen : f.length = 48 + f.mat.paddedLength + (Instruction.codec.encodeAll f.instructions).length
    := rfl
  generalize hres
    : packMathchExceptType st.msg mat 0x8000 0x36 0x7F (st.buf.memset (f.mat.paddedLength + 10)) = res
  have hzero : ∀ i < f.mat.paddedLength, (st.buf.memset (f.mat.paddedLength + 10)).mem i = 0 := by
    intro i hi
    simp only [FilterBuf.memset, Mem.fill_apply]
    rw [if_pos (by omega)]
  rcases packMathchExceptType_spec hmat hzero (by omega) hres with ⟨-, hnew, hexcept, hbytes, htop⟩
  -- the message once the match was copied back
  generalize hmsg
    : (st.msg.store16 2 (htons (u16 (headerLength st.msg - res.exceptLen)))).copyFrom mat res.buf.mem 0
        res.newLen
        =
      msg
  have hmsg_head : msg.At 0 (f.head (f.length - f.mat.exceptLen)) := by
    rw [← hmsg, Mem.copyFrom_frame (by simp [mat]), hlen, hexcept, u16_sub (by omega) (by omega)]
    apply FlowModAdd.at_store_length hhead
  have hmsg_mat : msg.At 48 f.mat.untagged.encode := by
    rw [← hmsg]
    apply Mem.copyFrom_at hbytes
    simp [hnew]
  have hmsg_behind : ∀ j, 48 + f.mat.untagged.paddedLength ≤ j → msg j = st.msg j := by
    intro j hj
    rw [← hmsg, Mem.copyFrom_outside _ _ (by unfold mat; omega), Mem.store16_ne _ _ (by omega) (by omega)]
  have htop' : res.buf.top ≤ max st.buf.top (f.mat.paddedLength + 10) := by
    simp only [FilterBuf.memset] at htop
    omega
  unfold rewriteMatch
  simp only [totalLength_eq hmat, hres]
  simp only [hmsg]
  simp only [hnew, hasInst_eq hlen]
  refine ⟨?_, trivial⟩
  cases hinst' : f.instructions with
  | nil =>
    refine ⟨hmsg_head, hmsg_mat, ?_, ?_, htop', rfl⟩
    . rw [hinst']
      trivial
    . intro j hj
      apply hmsg_behind
      omega
  | cons i tail =>
    have hfirst : f.instructions.take 1 = [i] := by rw [hinst']; rfl
    rw [hinst', Codec.encodeAll_cons, Mem.at_append] at hinst
    have hi : msg.At (48 + f.mat.paddedLength) (Instruction.codec.encode i) := by
      apply hinst.1.of_eq
      intro j h1 h2
      apply hmsg_behind
      omega
    have hilen : ntohs (msg.load16 (mat + f.mat.paddedLength + 2)) = i.len := (Tlv.at_encode hi).2.1
    have hds : mat + f.mat.untagged.paddedLength ≤ mat + f.mat.paddedLength := by omega
    rw [hilen]
    refine ⟨?_, ?_, ?_, ?_, htop', rfl⟩
    . dsimp
      rw [Mem.move_frame hds (by simp [mat])]
      exact hmsg_head
    . dsimp
      rw [Mem.move_frame hds (by simp [mat])]
      exact hmsg_mat
    . rw [hfirst, Codec.encodeAll_cons, Codec.encodeAll_nil, List.append_nil]
      apply Mem.move_at hds hi
      rw [i.length_encode]
    . intro j hj
      rw [hfirst, Codec.encodeAll_cons, Codec.encodeAll_nil, List.append_nil, i.length_encode] at hj
      dsimp
      rw [Mem.move_outside _ hds (by unfold mat; omega)]
      apply hmsg_behind
      omega

end FlowModProcessed

theorem packInstExceptType_other {msg : Mem} {inst : Nat} {tlv : Tlv} (valueTag : UInt8)
    (buf : FilterBuf) (newInstLen kickLen : Nat) (conf : PolicyConfig) (h : msg.At inst tlv.encode)
    (htype : tlv.type ≠ ofpitApplyActions)
    : packInstExceptType msg inst 0x0400 0x1900 valueTag buf newInstLen kickLen conf
        =
      some ⟨{}, conf, buf, newInstLen, kickLen, msg⟩ := by
  unfold packInstExceptType
  rw [if_pos]
  rw [Ne, Mem.load16_eq_iff (Tlv.at_encode h).1 (by omega)]
  intro heq
  apply htype
  rw [← UInt16.toNat_inj, heq]
  rfl

theorem packInstExceptType_applyActions {msg : Mem} {inst : Nat} {pad : Block 4}
    {actions : List Action} {hlen : 8 + (Action.codec.encodeAll actions).length < 65536}
    (valueTag : UInt8) (buf : FilterBuf) (newInstLen kickLen : Nat) (conf : PolicyConfig)
    (h : msg.At inst (Instruction.codec.encode (.applyActions pad actions hlen)))
    : ∃ res,
        packInstExceptType msg inst 0x0400 0x1900 valueTag buf newInstLen kickLen conf = some res
          ∧ res.newInstLen = 8 + (Action.codec.encodeAll (stripActions actions)).length
          ∧ res.kickLen = setFieldLength actions
          ∧ res.msg = msg.store16 (inst + 2) (htons res.newInstLen)
          ∧ res.buf.mem.At 0 (Action.codec.encodeAll (stripActions actions))
          ∧ (∀ j, (Action.codec.encodeAll (stripActions actions)).length ≤ j
              → res.buf.mem j = buf.mem j)
          ∧ res.buf.top ≤ max buf.top (Action.codec.encodeAll (stripActions actions)).length := by
  have hsum := length_stripActions actions
  rcases Tlv.at_encode h with ⟨htype, hilen, -⟩
  have htype' : msg.load16 inst = 0x0400 := by
    rw [Mem.load16_eq_iff htype (by omega)]
    rfl
  have hilen' : ntohs (msg.load16 (inst + 2)) = 8 + (Action.codec.encodeAll actions).length := by
    rw [hilen]
    apply Instruction.len_applyActions
  rw [Instruction.encode_applyActions, Mem.at_append] at h
  have hat : msg.At (inst + 8) (Action.codec.encodeAll actions) := by
    have := h.2
    simp only [List.length_append, length_be16, pad.property] at this
    exact this
  have hlist : actionListOfInst (htons 0x0400) inst (8 + (Action.codec.encodeAll actions).length)
      = some (inst + 8, (Action.codec.encodeAll actions).length) := by
    have hu : u16 ((8 + (Action.codec.encodeAll actions).length : Nat) - 8)
        = (Action.codec.encodeAll actions).length := by
      rw [u16_of_lt] <;> omega
    unfold actionListOfInst
    rw [if_neg (by decide), if_neg (by decide), if_pos (by decide), hu]
  rcases copyValidActionToBuf_spec valueTag buf conf hat (by omega) with
    ⟨res, hcopy, hnew, hkick, hbytes, hout, htop, hupd⟩
  rw [hnew] at hout htop
  have hu : u16 ((8 + (Action.codec.encodeAll actions).length : Nat) - res.kickLen)
      = 8 + (Action.codec.encodeAll (stripActions actions)).length := by
    rw [hkick, u16_of_lt] <;> omega
  unfold packInstExceptType
  simp only [htype', hilen', hlist, hcopy, hu]
  exact ⟨_, rfl, rfl, hkick, rfl, hbytes, hout, htop⟩

namespace FlowModProcessed

/--
What `filterInst` has done to the instruction `i` at `inst`. When something was removed, the four
bytes behind the instruction are lost to the copy, which goes four bytes too far.
-/
structure InstFiltered (f : FlowModAdd) (len : Nat) (i : Instruction) (inst : Nat) (st st' : Processed)
    : Prop where
  head : st'.msg.At 0 (f.head (len - i.stripLength))
  stripped : st'.msg.At inst (Instruction.codec.encode i.strip)
  before : ∀ j, 48 ≤ j → j < inst → st'.msg j = st.msg j
  behind : i.stripLength = 0 → ∀ j, inst + i.len ≤ j → st'.msg j = st.msg j
  lost : 0 < i.stripLength → ∀ j, inst + i.strip.len ≤ j → j < inst + i.strip.len + 4 → st'.msg j = 0
  top : st'.buf.top ≤ max st.buf.top (i.len + 10)

theorem filterInst_other (exp : ℚ → ℚ) {f : FlowModAdd} {len inst : Nat} {tlv : Tlv}
    {htype : tlv.type ≠ ofpitApplyActions} {st : Processed} (hhead : st.msg.At 0 (f.head len))
    (hinst : st.msg.At inst (Instruction.codec.encode (.other tlv htype))) (hle : 48 ≤ inst)
    (hlt : len < 65536)
    : ∃ st', filterInst exp st inst = some st'
        ∧ InstFiltered f len (.other tlv htype) inst st st' := by
  have hilen : ntohs (st.msg.load16 (inst + 2)) = (Instruction.other tlv htype).len :=
    (Tlv.at_encode hinst).2.1
  have hpack := packInstExceptType_other 0xFF
    (st.buf.memset ((Instruction.other tlv htype).len + 10)) (Instruction.other tlv htype).len 0
    st.conf hinst htype
  have hsame : u16 (headerLength st.msg - (0 : Nat)) = len := by
    rw [(FlowModAdd.at_head hhead hlt).1, u16_of_lt] <;> omega
  have hmsg : ∀ buf, shrink inst ⟨{}, st.conf, buf, (Instruction.other tlv htype).len, 0, st.msg⟩
      = st.msg.store16 2 (htons len) := by
    intro buf
    unfold shrink
    rw [if_neg (Nat.lt_irrefl 0), hsame]
  refine ⟨_, by rw [filterInst_eq, hilen, hpack, Option.map_some], ?_⟩
  unfold filtered
  rw [hmsg]
  refine ⟨?_, ?_, ?_, ?_, ?_, ?_⟩
  . apply FlowModAdd.at_store_length hhead len
  . dsimp only
    rw [Mem.store16_frame (by omega)]
    exact hinst
  . intro j h1 h2
    dsimp only
    rw [Mem.store16_ne _ _ (by omega) (by omega)]
  . intro _ j hj
    dsimp only
    rw [Mem.store16_ne _ _ (by omega) (by omega)]
  . intro hpos
    simp [Instruction.stripLength] at hpos
  . apply Nat.le_refl

/--
What `packInstExceptType` has done to the actions of the instruction at `inst`, in a frame that is
`len` bytes long.
-/
structure Packed (f : FlowModAdd) (len inst : Nat) (pad : Block 4) (actions : List Action) (msg : Mem)
    (res : PackInst) : Prop where
  newInstLen : res.newInstLen = 8 + (Action.codec.encodeAll (stripActions actions)).length
  kickLen : res.kickLen = setFieldLength actions
  head : res.msg.At 0 (f.head len)
  packed : res.msg.At inst
    (be16 4 ++ be16 (8 + (Action.codec.encodeAll (stripActions actions)).length) ++ pad.val
      ++ Action.codec.encodeAll actions)
  other : ∀ j, j ≠ inst + 2 → j ≠ inst + 3 → res.msg j = msg j
  bytes : res.buf.mem.At 0 (Action.codec.encodeAll (stripActions actions))
  zero : ∀ j, (Action.codec.encodeAll (stripActions actions)).length ≤ j
    → j < 8 + (Action.codec.encodeAll actions).length + 10 → res.buf.mem j = 0

theorem packed_of_applyActions {f : FlowModAdd} {len inst : Nat} {pad : Block 4}
    {actions : List Action} {hact : 8 + (Action.codec.encodeAll actions).length < 65536} {msg : Mem}
    (buf : FilterBuf) (conf : PolicyConfig) (hhead : msg.At 0 (f.head len))
    (hinst : msg.At inst (Instruction.codec.encode (.applyActions pad actions hact))) (hle : 48 ≤ inst)
    : ∃ res,
        packInstExceptType msg inst 0x0400 0x1900 0xFF
            (buf.memset (8 + (Action.codec.encodeAll actions).length + 10))
            (8 + (Action.codec.encodeAll actions).length) 0 conf = some res
          ∧ Packed f len inst pad actions msg res
          ∧ res.buf.top ≤ max buf.top (8 + (Action.codec.encodeAll actions).length + 10) := by
  have hsum := length_stripActions actions
  rcases packInstExceptType_applyActions 0xFF
      (buf.memset (8 + (Action.codec.encodeAll actions).length + 10))
      (8 + (Action.codec.encodeAll actions).length) 0 conf hinst with
    ⟨res, hpack, hnew, hkick, hmsg, hbytes, hout, htop⟩
  refine ⟨res, hpack, ⟨hnew, hkick, ?_, ?_, ?_, hbytes, ?_⟩, ?_⟩
  . rw [hmsg, Mem.store16_frame (by simp; omega)]
    exact hhead
  . rw [hmsg, hnew]
    rw [Instruction.encode_applyActions] at hinst
    simp only [List.append_assoc] at *
    rw [← List.append_assoc] at *
    apply hinst.store16_be16
  . intro j h2 h3
    rw [hmsg, Mem.store16_ne _ _ h2 h3]
  . intro j h1 h2
    rw [hout j h1]
    simp only [FilterBuf.memset, Mem.fill_apply]
    rw [if_pos (by omega)]
  . simp only [FilterBuf.memset] at htop
    omega

namespace Packed

variable {f : FlowModAdd} {len inst : Nat} {pad : Block 4} {actions : List Action} {msg : Mem}
  {res : PackInst}

theorem length_eq (h : Packed f len inst pad actions msg res) (hle : setFieldLength actions ≤ len)
    (hlt : len < 65536)
    : u16 (headerLength res.msg - res.kickLen) = len - setFieldLength actions := by
  rw [(FlowModAdd.at_head h.head hlt).1, h.kickLen, u16_of_lt] <;> omega

theorem store_length (h : Packed f len inst pad actions msg res) (len' : Nat) {j : Nat} (h1 : 48 ≤ j)
    (h2 : j ≠ inst + 2) (h3 : j ≠ inst + 3) : res.msg.store16 2 (htons len') j = msg j := by
  rw [Mem.store16_ne _ _ (by omega) (by omega), h.other j h2 h3]

theorem filtered_kept (h : Packed f len inst pad actions msg res)
    {hact : 8 + (Action.codec.encodeAll actions).length < 65536} {st : Processed} (hst : st.msg = msg)
    (hle : 48 ≤ inst) (hlt : len < 65536) (hzero : setFieldLength actions = 0)
    (htop : res.buf.top ≤ max st.buf.top (8 + (Action.codec.encodeAll actions).length + 10))
    (exp : ℚ → ℚ)
    : InstFiltered f len (.applyActions pad actions hact) inst st (filtered exp st.arg inst res) := by
  have hi := Instruction.len_applyActions pad actions hact
  have hk : (Instruction.applyActions pad actions hact).stripLength = 0 := hzero
  have hself := Instruction.strip_eq_self hk
  have hshrink : shrink inst res = res.msg.store16 2 (htons len) := by
    have hkick := h.kickLen
    unfold shrink
    rw [if_neg (by omega), h.length_eq (by omega) hlt, hzero, Nat.sub_zero]
  unfold filtered
  refine ⟨?_, ?_, ?_, ?_, ?_, ?_⟩
  . dsimp only
    rw [hshrink, hk, Nat.sub_zero]
    apply FlowModAdd.at_store_length h.head
  . have hinst := h.packed
    rw [stripActions_eq_self hzero] at hinst
    dsimp only
    rw [hself, hshrink, Instruction.encode_applyActions, Mem.store16_frame (by omega)]
    exact hinst
  . intro j h1 h2
    dsimp only
    rw [hshrink, h.store_length len h1 (by omega) (by omega), hst]
  . intro _ j hj
    dsimp only
    rw [hshrink, h.store_length len (by omega) (by omega) (by omega), hst]
  . intro hpos
    omega
  . rw [hi]
    exact htop

theorem filtered_stripped (h : Packed f len inst pad actions msg res)
    {hact : 8 + (Action.codec.encodeAll actions).length < 65536} {st : Processed} (hst : st.msg = msg)
    (hle : 48 ≤ inst) (hlen : (Instruction.applyActions pad actions hact).len ≤ len) (hlt : len < 65536)
    (hpos : 0 < setFieldLength actions)
    (htop : res.buf.top ≤ max st.buf.top (8 + (Action.codec.encodeAll actions).length + 10))
    (exp : ℚ → ℚ)
    : InstFiltered f len (.applyActions pad actions hact) inst st (filtered exp st.arg inst res) := by
  have hi := Instruction.len_applyActions pad actions hact
  have hs : (Instruction.applyActions pad actions hact).strip.len
      = 8 + (Action.codec.encodeAll (stripActions actions)).length :=
    Instruction.len_applyActions pad (stripActions actions) _
  have hk : (Instruction.applyActions pad actions hact).stripLength = setFieldLength actions := rfl
  have hsum := length_stripActions actions
  have hnew := h.newInstLen
  have hshrink : shrink inst res
      = (res.msg.store16 2 (htons (len - setFieldLength actions))).copyFrom (inst + 8) res.buf.mem 0
          (res.newInstLen - 4) := by
    have hkick := h.kickLen
    unfold shrink
    rw [if_pos (by omega), h.length_eq (by omega) hlt]
  unfold filtered
  refine ⟨?_, ?_, ?_, ?_, ?_, ?_⟩
  . dsimp only
    rw [hshrink, hk, Mem.copyFrom_frame (by simp; omega)]
    apply FlowModAdd.at_store_length h.head
  . have hinst := h.packed
    rw [Mem.at_append] at hinst
    dsimp only
    rw [hshrink, Instruction.strip, Instruction.encode_applyActions, Mem.at_append]
    constructor
    . rw [Mem.copyFrom_frame (by simp [pad.property]), Mem.store16_frame (by omega)]
      apply hinst.1
    . simp only [List.length_append, length_be16, pad.property]
      apply Mem.copyFrom_at h.bytes
      omega
  . intro j h1 h2
    dsimp only
    rw [hshrink, Mem.copyFrom_outside _ _ (by omega), h.store_length _ h1 (by omega) (by omega), hst]
  . intro hzero
    omega
  . intro _ j h1 h2
    dsimp only
    rw [hshrink, Mem.copyFrom_apply, if_pos (by omega)]
    apply h.zero <;> omega
  . rw [hi]
    exact htop

end Packed

theorem filterInst_applyActions (exp : ℚ → ℚ) {f : FlowModAdd} {len inst : Nat} {pad : Block 4}
    {actions : List Action} {hact : 8 + (Action.codec.encodeAll actions).length < 65536}
    {st : Processed} (hhead : st.msg.At 0 (f.head len))
    (hinst : st.msg.At inst (Instruction.codec.encode (.applyActions pad actions hact)))
    (hle : 48 ≤ inst) (hlen : (Instruction.applyActions pad actions hact).len ≤ len)
    (hlt : len < 65536)
    : ∃ st', filterInst exp st inst = some st'
        ∧ InstFiltered f len (.applyActions pad actions hact) inst st st' := by
  have hilen : ntohs (st.msg.load16 (inst + 2)) = 8 + (Action.codec.encodeAll actions).length :=
    (Tlv.at_encode hinst).2.1.trans (Instruction.len_applyActions pad actions hact)
  rcases packed_of_applyActions st.buf st.conf hhead hinst hle with ⟨res, hpack, hpacked, htop⟩
  refine ⟨filtered exp st.arg inst res, by rw [filterInst_eq, hilen, hpack, Option.map_some], ?_⟩
  cases Nat.eq_zero_or_pos (setFieldLength actions) with
  | inl hzero => exact hpacked.filtered_kept rfl hle hlt hzero htop exp
  | inr hpos => exact hpacked.filtered_stripped rfl hle hlen hlt hpos htop exp

theorem filterInst_spec (exp : ℚ → ℚ) {f : FlowModAdd} {len inst : Nat} {i : Instruction}
    {st : Processed} (hhead : st.msg.At 0 (f.head len)) (hinst : st.msg.At inst (Instruction.codec.encode i))
    (hle : 48 ≤ inst) (hlen : i.len ≤ len) (hlt : len < 65536)
    : ∃ st', filterInst exp st inst = some st' ∧ InstFiltered f len i inst st st' := by
  cases i with
  | other tlv htype => apply filterInst_other exp hhead hinst hle hlt
  | applyActions pad actions hact => apply filterInst_applyActions exp hhead hinst hle hlen hlt

end FlowModProcessed

namespace FlowModProcessed

theorem processed_of_nil (exp : ℚ → ℚ) {f : FlowModAdd} {st : Processed} (h : st.msg.At 0 f.encode)
    (hnil : f.instructions = []) : doOfpFlowmodProcessed exp st = some (rewriteMatch exp st).1 := by
  rcases FlowModAdd.at_encode h with ⟨hhead, hmat, -⟩
  rcases FlowModAdd.at_head hhead f.length_lt with ⟨hlen, -, hcommand⟩
  have hinst : hasInst st.msg f.mat.paddedLength = false := by
    rw [hasInst_eq hlen, hnil]
    rfl
  unfold doOfpFlowmodProcessed
  rw [if_neg (by rw [hcommand]; simp), totalLength_eq hmat]
  simp only [hinst]
  rfl

theorem processed_of_cons (exp : ℚ → ℚ) {f : FlowModAdd} {st : Processed} {i : Instruction}
    {tail : List Instruction} (h : st.msg.At 0 f.encode) (hcons : f.instructions = i :: tail)
    : doOfpFlowmodProcessed exp st
        = filterInst exp (rewriteMatch exp st).1 (48 + f.mat.untagged.paddedLength) := by
  rcases FlowModAdd.at_encode h with ⟨hhead, hmat, -⟩
  rcases FlowModAdd.at_head hhead f.length_lt with ⟨hlen, -, hcommand⟩
  have hinst : hasInst st.msg f.mat.paddedLength = true := by
    rw [hasInst_eq hlen, hcons]
    rfl
  unfold doOfpFlowmodProcessed
  rw [if_neg (by rw [hcommand]; simp), totalLength_eq hmat]
  simp only [hinst, (rewriteMatch_spec exp h).2]
  rfl

-- the first instruction stands behind the new match
theorem MatchRewritten.at_first {f : FlowModAdd} {st st' : Processed} {i : Instruction}
    {tail : List Instruction} (h : MatchRewritten f st st') (hcons : f.instructions = i :: tail)
    : st'.msg.At (48 + f.mat.untagged.paddedLength) (Instruction.codec.encode i) := by
  have hi := h.first
  rw [hcons] at hi
  simpa only [List.take_succ_cons, List.take_zero, Codec.encodeAll_cons, Codec.encodeAll_nil,
    List.append_nil] using hi

theorem filterInst_of_cons (exp : ℚ → ℚ) {f : FlowModAdd} {st : Processed} {i : Instruction}
    {tail : List Instruction} (h : st.msg.At 0 f.encode) (hcons : f.instructions = i :: tail)
    : ∃ st',
        filterInst exp (rewriteMatch exp st).1 (48 + f.mat.untagged.paddedLength) = some st'
          ∧ InstFiltered f (f.length - f.mat.exceptLen) i (48 + f.mat.untagged.paddedLength)
              (rewriteMatch exp st).1 st' := by
  have hst1 := (rewriteMatch_spec exp h).1
  have hlt : f.length < 65536 := f.length_lt
  have hflen : f.length = 48 + f.mat.paddedLength + (Instruction.codec.encodeAll f.instructions).length
    := rfl
  have hexc := f.mat.exceptLen_le
  rw [hcons, Codec.encodeAll_cons, List.length_append, i.length_encode] at hflen
  apply filterInst_spec exp hst1.head (hst1.at_first hcons) (by omega) (by omega) (by omega)

end FlowModProcessed

open FlowModProcessed in
theorem doOfpFlowmodProcessed_nil (exp : ℚ → ℚ) {f : FlowModAdd} {st : Processed}
    (h : st.msg.At 0 f.encode) (hnil : f.instructions = [])
    : ∃ st', doOfpFlowmodProcessed exp st = some st' ∧ MatchRewritten f st st' :=
  ⟨_, processed_of_nil exp h hnil, (rewriteMatch_spec exp h).1⟩

open FlowModProcessed in
theorem doOfpFlowmodProcessed_cons (exp : ℚ → ℚ) {f : FlowModAdd} {st : Processed} {i : Instruction}
    {tail : List Instruction} (h : st.msg.At 0 f.encode) (hcons : f.instructions = i :: tail)
    : ∃ st1 st',
        doOfpFlowmodProcessed exp st = some st' ∧ MatchRewritten f st st1
          ∧ InstFiltered f (f.length - f.mat.exceptLen) i (48 + f.mat.untagged.paddedLength) st1 st'
    := by
  rcases filterInst_of_cons exp h hcons with ⟨st', hfilter, hst'⟩
  refine ⟨_, st', ?_, (rewriteMatch_spec exp h).1, hst'⟩
  rw [processed_of_cons exp h hcons, hfilter]

-- The shifted frame may happen to carry the stripped instructions already.
theorem FlowModAdd.tail_inside_iff {msg : Mem} {f : FlowModAdd} {i : Instruction}
    {tail : List Instruction} (h : msg.At 0 f.encode) (hcons : f.instructions = i :: tail)
    : msg.At (48 + f.mat.untagged.paddedLength + i.len)
          (Instruction.codec.encodeAll (tail.map Instruction.strip))
        ↔ (f.mat.untagged.paddedLength = f.mat.paddedLength ∧ ∀ j ∈ tail, j.stripLength = 0)
          ∨ (f.mat.untagged.paddedLength < f.mat.paddedLength
            ∧ Instruction.codec.encodeAll (tail.map Instruction.strip)
              <+: f.encode.drop (48 + f.mat.untagged.paddedLength + i.len)) := by
  have hle := f.mat.untagged_paddedLength_le
  have hsum := Instruction.length_encodeAll_strip tail
  have hflen : f.encode.length
      = 48 + f.mat.paddedLength + (Instruction.codec.encodeAll f.instructions).length := f.length_encode
  rw [hcons, Codec.encodeAll_cons, List.length_append, i.length_encode] at hflen
  cases Nat.eq_or_lt_of_le hle with
  | inr hlt =>
    have hdrop := h.drop (show 48 + f.mat.untagged.paddedLength + i.len ≤ f.encode.length by omega)
    simp only [hlt, Nat.ne_of_lt hlt, true_and, false_and, false_or]
    constructor
    . intro hstrip
      apply hstrip.prefix_of hdrop
      rw [List.length_drop]
      omega
    . apply hdrop.of_prefix
  | inl heq =>
    have htail : msg.At (48 + f.mat.untagged.paddedLength + i.len) (Instruction.codec.encodeAll tail) := by
      have hat := (at_encode h).2.2
      rw [hcons, Codec.encodeAll_cons, Mem.at_append, i.length_encode] at hat
      rw [heq]
      apply hat.2
    simp only [heq, true_and, Nat.lt_irrefl, false_and, or_false]
    rw [heq] at htail
    constructor
    . intro hstrip
      have hself : tail.map Instruction.strip = tail := by
        apply Instruction.codec.map_eq_self_of_prefix
        apply hstrip.prefix_of htail
        omega
      intro j hj
      rw [← j.strip_eq_self_iff]
      nth_rewrite 2 [← List.map_id tail] at hself
      apply List.map_inj_left.mp hself j hj
    . intro hzero
      have hself : tail.map Instruction.strip = tail := by
        rw [List.map_congr_left fun j hj => Instruction.strip_eq_self (hzero j hj)]
        simp
      rw [hself]
      exact htail

namespace FlowModProcessed

theorem MatchRewritten.behind_iff {f : FlowModAdd} {i : Instruction} {tail : List Instruction}
    {len : Nat} {st st1 st' : Processed} (hst1 : MatchRewritten f st st1)
    (hst' : InstFiltered f len i (48 + f.mat.untagged.paddedLength) st1 st')
    (hcons : f.instructions = i :: tail) (hzero : i.stripLength = 0) (xs : List UInt8)
    : st'.msg.At (48 + f.mat.untagged.paddedLength + i.strip.len) xs
        ↔ st.msg.At (48 + f.mat.untagged.paddedLength + i.len) xs := by
  rw [Instruction.strip_eq_self hzero]
  apply Mem.at_congr
  intro j h1 h2
  rw [hst'.behind hzero j h1, hst1.behind j]
  simp only [hcons, List.take_succ_cons, List.take_zero, Codec.encodeAll_cons, Codec.encodeAll_nil,
    List.append_nil, Instruction.length_encode]
  exact h1

-- The copy of the actions has zeroed the header of the next instruction.
theorem InstFiltered.not_behind {f : FlowModAdd} {len inst : Nat} {i : Instruction} {st st' : Processed}
    (h : InstFiltered f len i inst st st') (hpos : 0 < i.stripLength) (t : Instruction)
    : ¬st'.msg.At (inst + i.strip.len) (Instruction.codec.encode t) := by
  intro ht
  have htlen := (Tlv.at_encode ht).2.1
  have h4 := t.toTlv.four_le_len
  rw [Mem.ntohs_load16, h.lost hpos _ (by omega) (by omega), h.lost hpos _ (by omega) (by omega)]
    at htlen
  simp at htlen
  omega

end FlowModProcessed

open FlowModProcessed in
/--
Only the first instruction is moved and filtered. The instruction list survives if and only if
there is nothing behind the first instruction, or there is nothing to remove at all, or the frame
happens to carry the rest of the list at the place where it is looked for.
-/
theorem doOfpFlowmodProcessed_instructions_iff (exp : ℚ → ℚ) {f : FlowModAdd} {st : Processed}
    {i : Instruction} {tail : List Instruction} (h : st.msg.At 0 f.encode)
    (hcons : f.instructions = i :: tail) (hmat : f.mat.paddedLength + 10 ≤ filterBufSize)
    (hinst : i.len + 10 ≤ filterBufSize) (hbuf : st.buf.top ≤ filterBufSize)
    : ∃ st',
        doOfpFlowmodProcessed exp st = some st' ∧ st'.buf.top ≤ filterBufSize
          ∧ st'.msg.At 48 f.mat.untagged.encode
          ∧ (Instruction.codec.decodeAll
                (st'.msg.bytes (48 + f.mat.untagged.paddedLength)
                  ((Instruction.codec.encodeAll f.instructions).length
                    - (f.instructions.map Instruction.stripLength).sum))
                = some (f.instructions.map Instruction.strip)
              ↔ tail = []
                ∨ (f.mat.untagged.paddedLength = f.mat.paddedLength
                  ∧ ∀ j ∈ f.instructions, j.stripLength = 0)
                ∨ (f.mat.untagged.paddedLength < f.mat.paddedLength ∧ i.stripLength = 0
                  ∧ Instruction.codec.encodeAll (tail.map Instruction.strip)
                    <+: f.encode.drop (48 + f.mat.untagged.paddedLength + i.len))) := by
  rcases doOfpFlowmodProcessed_cons exp h hcons with ⟨st1, st', hres, hst1, hst'⟩
  have hsum := Instruction.length_encodeAll_strip f.instructions
  have hlen := i.len_strip
  have htop1 := hst1.top
  have htop' := hst'.top
  refine ⟨st', hres, by omega, ?_, ?_⟩
  . apply hst1.mat.of_eq
    intro j h1 h2
    rw [OfpMatch.length_encode] at h2
    apply hst'.before <;> omega
  have hread : (Instruction.codec.encodeAll f.instructions).length
      - (f.instructions.map Instruction.stripLength).sum
      = (Instruction.codec.encodeAll (f.instructions.map Instruction.strip)).length := by
    omega
  rw [Codec.decodeAll_eq_some_iff, Mem.bytes_eq_iff, hread]
  simp only [hcons, eq_self, true_and, List.map_cons, Codec.encodeAll_cons, Mem.at_append,
    Instruction.length_encode, hst'.stripped, List.forall_mem_cons]
  cases Nat.eq_zero_or_pos i.stripLength with
  | inl hzero =>
    rw [hst1.behind_iff hst' hcons hzero, FlowModAdd.tail_inside_iff h hcons]
    simp only [hzero, true_and]
    constructor
    . intro hkeep
      exact .inr hkeep
    . rintro (rfl | hkeep)
      . have := f.mat.untagged_paddedLength_le
        cases Nat.eq_or_lt_of_le this with
        | inl heq => exact .inl ⟨heq, by simp⟩
        | inr hlt => exact .inr ⟨hlt, by simp⟩
      . exact hkeep
  | inr hpos =>
    have hne : ¬i.stripLength = 0 := by omega
    simp only [hne, false_and, and_false, or_false]
    cases tail with
    | nil => simp
    | cons t tail =>
      simp only [List.map_cons, Codec.encodeAll_cons, Mem.at_append, reduceCtorEq, iff_false]
      rintro ⟨ht, -⟩
      apply hst'.not_behind hpos t.strip ht

def gotoTable : Instruction := .other ⟨1, [3, 0, 0, 0], by decide⟩ (by decide)

def flowModOf (instructions : List Instruction)
    (hlt : 56 + (Instruction.codec.encodeAll instructions).length < 65536) : FlowModAdd where
  version := 4
  xid := firstXid
  cookie := ⟨[0, 0, 0, 0, 0, 0, 0, 9], rfl⟩
  cookieMask := ⟨[0, 0, 0, 0, 0, 0, 0, 0], rfl⟩
  tableId := 0
  tail := ⟨List.replicate 22 0, rfl⟩
  mat := ⟨1, [], by decide⟩
  instructions := instructions
  length_lt := hlt

def instructionPad : Block 4 := ⟨[0, 0, 0, 0], rfl⟩

def applyThenGoto : FlowModAdd :=
  flowModOf [.applyActions instructionPad [setFieldAction, outputAction] (by decide), gotoTable]
    (by decide)

theorem doOfpFlowmodProcessed_instructions_fails
    : (doOfpFlowmodProcessed (fun _ => 1) (.received applyThenGoto.encode)).map
          (fun st' =>
            Instruction.codec.decodeAll
              (st'.msg.bytes (48 + applyThenGoto.mat.untagged.paddedLength)
                ((Instruction.codec.encodeAll applyThenGoto.instructions).length
                  - (applyThenGoto.instructions.map Instruction.stripLength).sum)))
        ≠
      some (some (applyThenGoto.instructions.map Instruction.strip)) := by
  decide +kernel

def applyOnly : FlowModAdd :=
  flowModOf [.applyActions instructionPad [setFieldAction, outputAction] (by decide)] (by decide)

def taggedItem : OxmItem := ⟨0x8000, 0x36, [0x7F], by decide, by decide⟩

def gotoTwice : FlowModAdd :=
  { flowModOf [gotoTable, gotoTable] (by decide) with
      mat := ⟨1, [taggedItem], by decide⟩
      length_lt := by decide }

-- The second instruction is found at the old place of the first one.
theorem doOfpFlowmodProcessed_instructions_gotoTwice
    : ∃ st',
        doOfpFlowmodProcessed (fun _ => 1) (.received gotoTwice.encode) = some st'
          ∧ Instruction.codec.decodeAll (st'.msg.bytes 56 16) = some [gotoTable, gotoTable] := by
  rcases @doOfpFlowmodProcessed_instructions_iff (fun _ => 1) gotoTwice (.received gotoTwice.encode)
      gotoTable [gotoTable] (Mem.at_ofList _) rfl (by decide) (by decide) (by decide) with
    ⟨st', hres, -, -, hiff⟩
  exact ⟨st', hres, hiff.mpr (.inr (.inr ⟨by decide, rfl, by decide⟩))⟩

open FlowModProcessed in
/--
Filtering a match is exact, and the lengths add up, if and only if the padded length fits in 16
bits and the padding of the original match is not lost.
-/
theorem packMathchExceptType_exact_iff {msg : Mem} {matchMsg : Nat} {mat : OfpMatch} {buf : FilterBuf}
    (hmat : msg.At matchMsg mat.encode) (hbuf : ∀ i < mat.paddedLength, buf.mem i = 0)
    : (let res := packMathchExceptType msg matchMsg 0x8000 0x36 0x7F buf
       res.buf.mem.bytes 0 res.newLen = mat.untagged.encode
          ∧ res.exceptLen + res.newLen = mat.paddedLength
          ∧ res.buf.top ≤ max buf.top mat.paddedLength
          ∧ ∀ (exp : ℚ → ℚ) (f : FlowModAdd) (st : Processed), f.mat = mat → st.msg.At 0 f.encode
              → headerLength (rewriteMatch exp st).1.msg
                  =
                48 + mat.untagged.paddedLength + (Instruction.codec.encodeAll f.instructions).length)
        ↔
      mat.paddedLength < 65536 ∧ (mat.length % 8 = 0 ∨ mat.untagged.length % 8 ≠ 0) := by
  dsimp only
  cases Nat.lt_or_ge mat.paddedLength 65536 with
  | inr hlong =>
    rw [packMathchExceptType_of_long hmat hlong]
    constructor
    . rintro ⟨hbytes, -⟩
      have hlen := congrArg List.length hbytes
      have h4 := mat.untagged.four_le_length
      rw [Mem.length_bytes, OfpMatch.length_encode, OfpMatch.paddedLength] at hlen
      omega
    . omega
  | inl hlt =>
    rcases packMathchExceptType_spec hmat hbuf hlt rfl with ⟨-, hnew, hexcept, hbytes, htop⟩
    rw [hnew, hexcept, mat.exceptLen_eq_iff]
    constructor
    . rintro ⟨-, hpad, -⟩
      exact ⟨hlt, hpad⟩
    . rintro ⟨-, hpad⟩
      refine ⟨?_, hpad, htop, ?_⟩
      . rw [Mem.bytes_eq_iff]
        exact ⟨(OfpMatch.length_encode _).symm, hbytes⟩
      . intro exp f st hf hst
        have hflt := f.length_lt
        have hlen : f.length
            = 48 + f.mat.paddedLength + (Instruction.codec.encodeAll f.instructions).length := rfl
        have hsum := mat.exceptLen_eq_iff.mpr hpad
        rw [(FlowModAdd.at_head (rewriteMatch_spec exp hst).1.head (by omega)).1, hlen, hf]
        omega

def matchOf21 : OfpMatch where
  type := 1
  items := [taggedItem, ⟨0x8000, 0, [0, 0, 0, 0, 0, 0, 0, 1], by decide, by decide⟩]
  length_lt := by decide

theorem packMathchExceptType_exact_fails
    : let res := packMathchExceptType (.ofList matchOf21.encode) 0 0x8000 0x36 0x7F ⟨fun _ => 0, 0⟩
      res.newLen = 16 ∧ res.exceptLen = 5
        ∧ ¬res.exceptLen + res.newLen = matchOf21.paddedLength := by
  decide +kernel

def matchOf19 : OfpMatch where
  type := 1
  items := [taggedItem, ⟨0x8000, 0, [0, 0, 0, 0, 0, 1], by decide, by decide⟩]
  length_lt := by decide

theorem packMathchExceptType_exact_matchOf19
    : let res := packMathchExceptType (.ofList matchOf19.encode) 0 0x8000 0x36 0x7F ⟨fun _ => 0, 0⟩
      res.buf.mem.bytes 0 res.newLen = matchOf19.untagged.encode
        ∧ res.exceptLen + res.newLen = matchOf19.paddedLength := by
  have hbytes := (packMathchExceptType_exact_iff (Mem.at_ofList matchOf19.encode)
    (fun _ _ => rfl : ∀ i < matchOf19.paddedLength, (⟨fun _ => 0, 0⟩ : FilterBuf).mem i = 0)).mpr
    (by decide)
  exact ⟨hbytes.1, hbytes.2.1⟩

end OfpProxy
