import OfpProxy.Schedule.Scratch

/-!
This module shows which frames come out of `getOFPMsgArg` the way rewriting is meant to leave them:
without the tagged items of the match and without the set-field actions, and otherwise the same.
-/

namespace OfpProxy
namespace FlowModAdd

theorem length_map_strip (f : FlowModAdd)
    : 48 + f.mat.untagged.paddedLength
          + (Instruction.codec.encodeAll (f.instructions.map Instruction.strip)).length
        + ((f.mat.paddedLength - f.mat.untagged.paddedLength)
          + (f.instructions.map Instruction.stripLength).sum)
        = f.length := by
  have hmat := f.mat.untagged_paddedLength_le
  have hinst := Instruction.length_encodeAll_strip f.instructions
  unfold length
  omega

def forwarded (f : FlowModAdd) : FlowModAdd where
  version := f.version
  xid := f.xid
  cookie := f.cookie
  cookieMask := f.cookieMask
  tableId := f.tableId
  tail := f.tail
  mat := f.mat.untagged
  instructions := f.instructions.map Instruction.strip
  length_lt := by
    have hsum := f.length_map_strip
    have hlt : f.length < 65536 := f.length_lt
    omega

theorem instructions_forwarded (f : FlowModAdd)
    : f.forwarded.instructions = f.instructions.map Instruction.strip := rfl

theorem length_forwarded (f : FlowModAdd)
    : f.forwarded.length = 48 + f.mat.untagged.paddedLength
        + (Instruction.codec.encodeAll (f.instructions.map Instruction.strip)).length := rfl

theorem head_forwarded (f : FlowModAdd) (len : Nat) : f.forwarded.head len = f.head len := rfl

/--
Whatever is behind the first instruction stays where it is looked for. If the match gets shorter, the
frame has to carry it at that place by chance.
-/
def FindsInstructions (f : FlowModAdd) : Prop :=
  ∀ i ∈ f.instructions.head?, f.instructions.tail ≠ []
    → (∀ j ∈ f.instructions, j.stripLength = 0)
      ∧ Instruction.codec.encodeAll f.instructions.tail
        <+: f.encode.drop (48 + f.mat.untagged.paddedLength + i.len)

-- the length of the frame is adjusted by the padding of the match, and the instructions are found
def Survives (f : FlowModAdd) : Prop :=
  (f.mat.length % 8 = 0 ∨ f.mat.untagged.length % 8 ≠ 0) ∧ f.FindsInstructions

theorem map_strip_eq_self {is : List Instruction} (h : (is.map Instruction.stripLength).sum = 0)
    : is.map Instruction.strip = is := by
  rw [List.sum_eq_zero_iff_forall_eq_nat, List.forall_mem_map] at h
  rw [List.map_congr_left fun j hj => Instruction.strip_eq_self (h j hj)]
  simp

theorem at_forwarded_nil {f : FlowModAdd} {m : Mem} (hnil : f.instructions = [])
    : m.At 0 f.forwarded.encode
        ↔ m.At 0 (f.head f.forwarded.length) ∧ m.At 48 f.mat.untagged.encode := by
  have hinst : f.forwarded.instructions = [] := by
    rw [instructions_forwarded, hnil, List.map_nil]
  rw [encode, hinst, Codec.encodeAll_nil, List.append_nil, Mem.at_append, length_head, Nat.zero_add,
    head_forwarded]
  rfl

theorem at_forwarded_cons {f : FlowModAdd} {m : Mem} {i : Instruction} {tail : List Instruction}
    (hcons : f.instructions = i :: tail)
    : m.At 0 f.forwarded.encode
        ↔ m.At 0 (f.head f.forwarded.length) ∧ m.At 48 f.mat.untagged.encode
          ∧ m.At (48 + f.mat.untagged.paddedLength) (Instruction.codec.encode i.strip)
          ∧ m.At (48 + f.mat.untagged.paddedLength + i.strip.len)
              (Instruction.codec.encodeAll (tail.map Instruction.strip)) := by
  have hinst : f.forwarded.instructions = i.strip :: tail.map Instruction.strip := by
    rw [instructions_forwarded, hcons, List.map_cons]
  rw [encode, hinst, Codec.encodeAll_cons]
  simp only [Mem.at_append, List.length_append, length_head, OfpMatch.length_encode,
    Instruction.length_encode, Nat.zero_add, head_forwarded, and_assoc]
  rfl

-- The header is adjusted for the match and for the first instruction.
theorem length_forwarded_iff {f : FlowModAdd} {i : Instruction} {tail : List Instruction}
    (hcons : f.instructions = i :: tail)
    : f.length - f.mat.exceptLen - i.stripLength = f.forwarded.length
        ↔ (f.mat.length % 8 = 0 ∨ f.mat.untagged.length % 8 ≠ 0)
          ∧ (tail.map Instruction.stripLength).sum = 0 := by
  have hle := f.mat.exceptLen_le
  have hsum := f.length_map_strip
  have hlen := f.length_forwarded
  rw [← OfpMatch.exceptLen_eq_iff]
  rw [hcons, List.map_cons, List.map_cons, List.sum_cons] at hsum
  rw [hcons, List.map_cons] at hlen
  omega

end FlowModAdd

namespace Frame

def forwarded : Frame → Frame
  | flowModAdd f => flowModAdd f.forwarded
  | packetOut p => packetOut p.strip
  | other version type body hlt htype hcommand => other version type body hlt htype hcommand

def Survives : Frame → Prop
  | flowModAdd f => f.Survives
  | packetOut _ => True
  | other _ _ _ _ _ _ => True

theorem FitsIn.forwarded {frame : Frame} {size : Nat} (h : frame.FitsIn size)
    : frame.forwarded.FitsIn size := by
  cases frame with
  | flowModAdd f =>
    have hmat := f.mat.untagged_paddedLength_le
    rcases h with ⟨hfirst, hinst⟩
    refine ⟨Nat.le_trans (Nat.add_le_add_right hmat 10) hfirst, ?_⟩
    rw [FlowModAdd.instructions_forwarded, List.head?_map]
    intro i' hi'
    rcases Option.map_eq_some_iff.mp hi' with ⟨i, hi, rfl⟩
    have hlen := i.len_strip
    have := hinst i hi
    omega
  | packetOut p =>
    have hsum : setFieldLength p.actions + p.strip.actionsLen = p.actionsLen :=
      length_stripActions p.actions
    have hle : p.actionsLen ≤ size := h
    change p.strip.actionsLen ≤ size
    omega
  | other version type body hlt htype hcommand => trivial

end Frame

namespace FlowModProcessed

theorem forwarded_nil_iff {f : FlowModAdd} {st st' : Processed} (hst' : MatchRewritten f st st')
    (hnil : f.instructions = [])
    : st'.msg.bytes 0 (headerLength st'.msg) = f.forwarded.encode ↔ f.Survives := by
  have hlt := f.length_lt
  have hle := f.mat.exceptLen_le
  have hfinds : f.FindsInstructions := by
    intro i hi
    rw [hnil] at hi
    contradiction
  have hlen : f.length - f.mat.exceptLen = f.forwarded.length
      ↔ f.mat.exceptLen + f.mat.untagged.paddedLength = f.mat.paddedLength := by
    rw [FlowModAdd.length_forwarded, FlowModAdd.length, hnil, List.map_nil, Codec.encodeAll_nil,
      List.length_nil]
    omega
  unfold FlowModAdd.Survives
  rw [and_iff_left hfinds, ← OfpMatch.exceptLen_eq_iff, ← hlen, Mem.bytes_eq_iff,
    FlowModAdd.length_encode, (FlowModAdd.at_head hst'.head (by unfold FlowModAdd.length; omega)).1,
    FlowModAdd.at_forwarded_nil hnil]
  constructor
  . exact fun h => h.1
  . intro heq
    refine ⟨heq, ?_, hst'.mat⟩
    rw [← heq]
    exact hst'.head

-- The rest of the list is found or it is not, once the header has the right length.
theorem forwarded_tail_iff {f : FlowModAdd} {i : Instruction} {tail : List Instruction}
    {st st1 st' : Processed} (h : st.msg.At 0 f.encode) (hcons : f.instructions = i :: tail)
    (hst1 : MatchRewritten f st st1)
    (hst' : InstFiltered f (f.length - f.mat.exceptLen) i (48 + f.mat.untagged.paddedLength) st1 st')
    (hzero : (tail.map Instruction.stripLength).sum = 0)
    : st'.msg.At (48 + f.mat.untagged.paddedLength + i.strip.len)
          (Instruction.codec.encodeAll (tail.map Instruction.strip))
        ↔ f.FindsInstructions := by
  rw [FlowModAdd.map_strip_eq_self hzero]
  unfold FlowModAdd.FindsInstructions
  simp only [hcons, List.head?_cons, Option.mem_def, Option.some.injEq, forall_eq', List.tail_cons,
    List.forall_mem_cons]
  cases tail with
  | nil => simp
  | cons t rest =>
    simp only [ne_eq, reduceCtorEq, not_false_eq_true, true_implies]
    cases Nat.eq_zero_or_pos i.stripLength with
    | inr hpos =>
      have hne : ¬i.stripLength = 0 := by omega
      simp only [hne, false_and, iff_false, Codec.encodeAll_cons, Mem.at_append]
      intro ht
      apply hst'.not_behind hpos t ht.1
    | inl hfirst =>
      rw [List.sum_eq_zero_iff_forall_eq_nat, List.forall_mem_map] at hzero
      have hle := f.mat.untagged_paddedLength_le
      have hflen : f.encode.length
          = 48 + f.mat.paddedLength + (Instruction.codec.encodeAll f.instructions).length :=
        f.length_encode
      rw [hcons, Codec.encodeAll_cons, List.length_append, i.length_encode] at hflen
      have hdrop := h.drop (show 48 + f.mat.untagged.paddedLength + i.len ≤ f.encode.length by omega)
      rw [hst1.behind_iff hst' hcons hfirst, and_iff_right ⟨hfirst, hzero⟩]
      constructor
      . intro ht
        apply ht.prefix_of hdrop
        rw [List.length_drop]
        omega
      . apply hdrop.of_prefix

theorem forwarded_cons_iff {f : FlowModAdd} {i : Instruction} {tail : List Instruction}
    {st st1 st' : Processed} (h : st.msg.At 0 f.encode) (hcons : f.instructions = i :: tail)
    (hst1 : MatchRewritten f st st1)
    (hst' : InstFiltered f (f.length - f.mat.exceptLen) i (48 + f.mat.untagged.paddedLength) st1 st')
    : st'.msg.bytes 0 (headerLength st'.msg) = f.forwarded.encode ↔ f.Survives := by
  have hlt : f.length < 65536 := f.length_lt
  have hlen := FlowModAdd.length_forwarded_iff hcons
  have hmat : st'.msg.At 48 f.mat.untagged.encode := by
    apply hst1.mat.of_eq
    intro j h1 h2
    rw [OfpMatch.length_encode] at h2
    apply hst'.before j h1 h2
  rw [Mem.bytes_eq_iff, FlowModAdd.length_encode, (FlowModAdd.at_head hst'.head (by omega)).1,
    FlowModAdd.at_forwarded_cons hcons]
  unfold FlowModAdd.Survives
  constructor
  . rintro ⟨heq, -, -, -, htail⟩
    rcases hlen.mp heq with ⟨hexact, hzero⟩
    exact ⟨hexact, (forwarded_tail_iff h hcons hst1 hst' hzero).mp htail⟩
  . rintro ⟨hexact, hfinds⟩
    have hzero : (tail.map Instruction.stripLength).sum = 0 := by
      cases tail with
      | nil => rfl
      | cons t rest =>
        have hall := (hfinds i (by rw [hcons]; rfl) (by rw [hcons]; simp)).1
        rw [hcons, List.forall_mem_cons] at hall
        rw [List.sum_eq_zero_iff_forall_eq_nat, List.forall_mem_map]
        exact hall.2
    have heq := hlen.mpr ⟨hexact, hzero⟩
    refine ⟨heq, ?_, hmat, hst'.stripped, (forwarded_tail_iff h hcons hst1 hst' hzero).mpr hfinds⟩
    rw [← heq]
    exact hst'.head

end FlowModProcessed

open FlowModProcessed in
theorem doOfpFlowmodProcessed_forwarded (exp : ℚ → ℚ) {f : FlowModAdd} {st : Processed}
    (h : st.msg.At 0 f.encode)
    : ∃ st', doOfpFlowmodProcessed exp st = some st'
        ∧ (st'.msg.bytes 0 (headerLength st'.msg) = f.forwarded.encode ↔ f.Survives) := by
  cases hcons : f.instructions with
  | nil =>
    rcases doOfpFlowmodProcessed_nil exp h hcons with ⟨st', hres, hst'⟩
    exact ⟨st', hres, forwarded_nil_iff hst' hcons⟩
  | cons i tail =>
    rcases doOfpFlowmodProcessed_cons exp h hcons with ⟨st1, st', hres, hst1, hst'⟩
    exact ⟨st', hres, forwarded_cons_iff h hcons hst1 hst'⟩

namespace Schedule

theorem dispatch_forwarded (exp : ℚ → ℚ) (self other : Schedule) (conf : PolicyConfig) {frame : Frame}
    {msg : Mem} (h : msg.At 0 frame.encode)
    : ∃ res, dispatch exp self other conf msg = some res
        ∧ (res.msg.bytes 0 (headerLength res.msg) = frame.forwarded.encode ↔ frame.Survives) := by
  have hkept : ∀ (frame : Frame) (m : Mem), m.At 0 frame.encode
      → m.bytes 0 (headerLength m) = frame.encode := by
    intro frame m hm
    rw [Frame.headerLength_of_at hm, Mem.bytes_eq_iff]
    exact ⟨frame.length_encode.symm, hm⟩
  cases frame with
  | flowModAdd f =>
    have htype := (FlowModAdd.at_head (FlowModAdd.at_encode h).1 f.length_lt).2.1
    rcases @doOfpFlowmodProcessed_forwarded exp f (self.toProcess conf msg) h with ⟨st', hres, hiff⟩
    rw [dispatch_flowMod exp self other conf htype, hres]
    exact ⟨_, rfl, hiff⟩
  | packetOut p =>
    have htype := (PacketOut.at_head (PacketOut.at_encode h).1).2.1
    rcases @doOfpPacketoutProcessed_spec exp p (self.toProcess conf msg) h with ⟨st', hres, hmsg, -⟩
    rw [dispatch_packetOut exp self other conf htype, hres]
    exact ⟨_, rfl, iff_of_true (hkept (.packetOut p.strip) _ hmsg) trivial⟩
  | other version type body hlt htype hcommand =>
    rcases dispatch_unread exp self other conf h with ⟨res, hres, hmsg, -⟩
    refine ⟨res, hres, iff_of_true ?_ trivial⟩
    rw [hmsg]
    apply hkept _ _ h

theorem getOFPMsgArg_forwarded {exp : ℚ → ℚ} {self other : Schedule} {conf : PolicyConfig}
    {frame : Frame} {msg : Mem} {res : Parsed} (h : msg.At 0 frame.encode)
    (hres : getOFPMsgArg exp self other conf msg = some res)
    : res.msg.bytes 0 res.arg.len = frame.forwarded.encode ↔ frame.Survives := by
  rcases @dispatch_forwarded exp self other conf frame msg h with ⟨st, hst, hiff⟩
  rcases exists_dispatch hres with ⟨st', hst', rfl⟩
  rw [hst, Option.some_inj] at hst'
  subst hst'
  exact hiff

/--
What is queued for a frame that `filter_buf` has room for is the frame without its tags exactly if the
frame survives the rewriting.
-/
theorem getOFPMsgArg_stripped_iff (exp : ℚ → ℚ) {self : Schedule} (other : Schedule)
    (conf : PolicyConfig) {frame : Frame} {msg : Mem} (h : msg.At 0 frame.encode)
    (hfit : frame.FitsIn filterBufSize) (hbuf : self.buf.top ≤ filterBufSize)
    : ∃ res, getOFPMsgArg exp self other conf msg = some res ∧ res.self.buf.top ≤ filterBufSize
        ∧ ∀ fd addr garbage, (newOFPMsg res.msg res.arg fd addr garbage).buf = frame.forwarded.encode
            ↔ frame.Survives := by
  rcases @dispatch_forwarded exp self other conf frame msg h with ⟨st, hst, hiff⟩
  have hres := getOFPMsgArg_of_dispatch hst
  exact ⟨_, hres, top_le_of_fitsIn h hfit hres hbuf, fun _ _ _ => hiff⟩

theorem getOFPMsgArg_stripped_applyOnly
    : ∃ res, getOFPMsgArg (fun _ => 1) idle idle .idle (.ofList applyOnly.encode) = some res
        ∧ res.self.buf.top ≤ 600
        ∧ ((newOFPMsg res.msg res.arg 5 0 0).buf = applyOnly.forwarded.encode ↔ applyOnly.Survives) := by
  rcases @getOFPMsgArg_stripped_iff (fun _ => 1) idle idle .idle (.flowModAdd applyOnly) _
      (Mem.at_ofList _) (by decide) (by decide) with
    ⟨res, hres, htop, hiff⟩
  exact ⟨res, hres, htop, hiff 5 0 0⟩

end Schedule

theorem isSetField_of_mem_strip (actions : List Action)
    : ∀ a ∈ stripActions actions, a.isSetField = false := by
  intro a ha
  unfold stripActions at ha
  rw [List.mem_filter] at ha
  simpa using ha.2

theorem Frame.nothingToStrip_forwarded (frame : Frame) : frame.forwarded.NothingToStrip := by
  cases frame with
  | flowModAdd f =>
    constructor
    . intro item hitem
      have hmem : item ∈ untaggedItems f.mat.items := hitem
      unfold untaggedItems at hmem
      rw [List.mem_filter] at hmem
      simpa using hmem.2
    . unfold Frame.forwarded Frame.actions
      dsimp only
      rw [FlowModAdd.instructions_forwarded]
      cases f.instructions with
      | nil => simp
      | cons i tail =>
        cases i with
        | applyActions pad actions hlen => exact isSetField_of_mem_strip actions
        | other tlv htype => simp [Instruction.strip]
  | packetOut p => exact ⟨by simp [Frame.forwarded, Frame.items], isSetField_of_mem_strip p.actions⟩
  | other version type body hlt htype hcommand =>
    exact ⟨by simp [Frame.forwarded, Frame.items], by simp [Frame.forwarded, Frame.actions]⟩

namespace Schedule

theorem getOFPMsgArg_clean {exp : ℚ → ℚ} {self other : Schedule} {conf : PolicyConfig} {frame : Frame}
    {msg : Mem} {res : Parsed} (h : msg.At 0 frame.encode) (hclean : frame.NothingToStrip)
    (hres : getOFPMsgArg exp self other conf msg = some res)
    : res.msg.bytes 0 res.arg.len = frame.encode := by
  rcases @dispatch_clean exp self other conf frame msg h hclean with ⟨st, hst, hmsg, -⟩
  rcases exists_dispatch hres with ⟨st', hst', rfl⟩
  rw [hst, Option.some_inj] at hst'
  subst hst'
  dsimp only
  rw [Frame.headerLength_of_at hmsg, Mem.bytes_eq_iff]
  exact ⟨frame.length_encode.symm, hmsg⟩

/--
A second proxy behind this one has nothing left to do.
-/
theorem getOFPMsgArg_again {exp exp' : ℚ → ℚ} {self other self' other' : Schedule}
    {conf conf' : PolicyConfig} {frame : Frame} {msg msg' : Mem} {res : Parsed}
    (h : msg.At 0 frame.encode) (hfit : frame.FitsIn filterBufSize) (hsurvives : frame.Survives)
    (hres : getOFPMsgArg exp self other conf msg = some res)
    (h' : msg'.At 0 (res.msg.bytes 0 res.arg.len)) (hbuf : self'.buf.top ≤ filterBufSize)
    : ∃ res', getOFPMsgArg exp' self' other' conf' msg' = some res'
        ∧ res'.self.buf.top ≤ filterBufSize
        ∧ res'.msg.bytes 0 res'.arg.len = res.msg.bytes 0 res.arg.len := by
  rw [(getOFPMsgArg_forwarded h hres).mpr hsurvives] at *
  have hclean := frame.nothingToStrip_forwarded
  rcases @dispatch_clean exp' self' other' conf' _ msg' h' hclean with ⟨st, hst, -⟩
  have hres' := getOFPMsgArg_of_dispatch hst
  exact ⟨_, hres', top_le_of_fitsIn h' hfit.forwarded hres' hbuf, getOFPMsgArg_clean h' hclean hres'⟩

theorem getOFPMsgArg_again_taggedPacketOut
    : ∃ res res', getOFPMsgArg (fun _ => 1) idle idle .idle (.ofList taggedPacketOut.encode) = some res
        ∧ getOFPMsgArg (fun _ => 1) idle idle .idle (.ofList (res.msg.bytes 0 res.arg.len)) = some res'
        ∧ res'.msg.bytes 0 res'.arg.len = res.msg.bytes 0 res.arg.len := by
  have hat := Mem.at_ofList (Frame.packetOut taggedPacketOut).encode
  rcases @dispatch_forwarded (fun _ => 1) idle idle .idle _ _ hat with ⟨st, hst, -⟩
  have hres := getOFPMsgArg_of_dispatch hst
  rcases @getOFPMsgArg_again (fun _ => 1) (fun _ => 1) idle idle idle idle .idle .idle
      (.packetOut taggedPacketOut) _ _ _ hat (by decide) trivial hres (Mem.at_ofList _) (by decide) with
    ⟨res', hres', -, hsame⟩
  exact ⟨_, res', hres, hres', hsame⟩

end Schedule
end OfpProxy
