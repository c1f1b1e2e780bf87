import OfpProxy.Rewrite.Lemmas.FlowMod
import OfpProxy.Rewrite.Lemmas.PacketOut
import OfpProxy.Schedule.Routing

/-!
This module shows that a frame with nothing to strip comes out of `getOFPMsgArg` byte for byte as it
came in.
-/

namespace OfpProxy

theorem OfpMatch.exceptLen_eq_zero {mat : OfpMatch} (h : mat.untagged = mat) : mat.exceptLen = 0 := by
  have hlen := mat.exceptLen_le
  rw [h] at hlen
  omega

open FlowModProcessed in
theorem doOfpFlowmodProcessed_clean (exp : ℚ → ℚ) {f : FlowModAdd} {st : Processed}
    (h : st.msg.At 0 f.encode) (hmat : f.mat.untagged = f.mat)
    (hfirst : ∀ i ∈ f.instructions.head?, i.stripLength = 0)
    : ∃ st',
        doOfpFlowmodProcessed exp st = some st' ∧ st'.msg.At 0 f.encode
          ∧ (∀ size, (Frame.flowModAdd f).FitsIn size → st.buf.top ≤ size → st'.buf.top ≤ size) := by
  have hexc := OfpMatch.exceptLen_eq_zero hmat
  rcases FlowModAdd.at_encode h with ⟨-, -, hinst⟩
  cases hcons : f.instructions with
  | nil =>
    rcases doOfpFlowmodProcessed_nil exp h hcons with ⟨st', hres, hst'⟩
    refine ⟨st', hres, ?_, ?_⟩
    . have hhead := hst'.head
      have hm := hst'.mat
      rw [hexc] at hhead
      rw [hmat] at hm
      simp only [FlowModAdd.encode, Mem.at_append, List.length_append, FlowModAdd.length_head,
        Nat.zero_add, hcons]
      exact ⟨⟨hhead, hm⟩, trivial⟩
    . intro size hfit htop
      have := hst'.top
      have := hfit.1
      omega
  | cons i tail =>
    rcases doOfpFlowmodProcessed_cons exp h hcons with ⟨st1, st', hres, hst1, hst'⟩
    have hzero : i.stripLength = 0 := by
      apply hfirst
      rw [hcons]
      rfl
    refine ⟨st', hres, ?_, ?_⟩
    . have hhead := hst'.head
      have hm := hst1.mat
      have hi := hst'.stripped
      have hbehind := hst1.behind
      rw [hzero, hexc] at hhead
      rw [Instruction.strip_eq_self hzero] at hi
      rw [hmat] at hm hi hbehind
      simp only [hcons, List.take_succ_cons, List.take_zero, Codec.encodeAll_cons,
        Codec.encodeAll_nil, List.append_nil, i.length_encode] at hbehind
      simp only [FlowModAdd.encode, Mem.at_append, List.length_append, FlowModAdd.length_head,
        OfpMatch.length_encode, Nat.zero_add, hcons, Codec.encodeAll_cons, i.length_encode]
      rw [hcons, Codec.encodeAll_cons, Mem.at_append, i.length_encode] at hinst
      refine ⟨⟨hhead, ?_⟩, hi, ?_⟩
      . apply hm.of_eq
        intro j h1 h2
        rw [OfpMatch.length_encode] at h2
        apply hst'.before _ h1
        rw [hmat]
        exact h2
      . apply hinst.2.of_eq
        intro j h1 h2
        rw [hst'.behind hzero j (by rw [hmat]; exact h1), hbehind j h1]
    . intro size hfit htop
      have := hst'.top
      have := hst1.top
      have := hfit.1
      have := hfit.2 i (by rw [hcons]; rfl)
      omega

theorem doOfpFlowmodProcessed_not_add (exp : ℚ → ℚ) {st : Processed}
    (h : st.msg FlowModProcessed.command ≠ ofpfcAdd)
    : ∃ st', doOfpFlowmodProcessed exp st = some st' ∧ st'.msg = st.msg ∧ st'.buf = st.buf := by
  unfold doOfpFlowmodProcessed
  rw [if_pos h]
  exact ⟨_, rfl, rfl, rfl⟩

theorem Frame.headerLength_of_at {msg : Mem} {frame : Frame} (h : msg.At 0 frame.encode)
    : headerLength msg = frame.length := by
  cases frame with
  | flowModAdd f => exact (FlowModAdd.at_head (FlowModAdd.at_encode h).1 f.length_lt).1
  | packetOut p => exact (PacketOut.at_head (PacketOut.at_encode h).1).1
  | other version type body hlt htype hcommand =>
    simp only [Frame.encode, Mem.at_append] at h
    apply h.1.2.ntohs_load16 hlt

namespace Schedule

theorem dispatch_flowModAdd_clean (exp : ℚ → ℚ) (self other : Schedule) (conf : PolicyConfig)
    {f : FlowModAdd} {msg : Mem} (h : msg.At 0 f.encode)
    (hclean : (Frame.flowModAdd f).NothingToStrip)
    : ∃ res,
        dispatch exp self other conf msg = some res ∧ res.msg.At 0 f.encode
          ∧ (∀ size, (Frame.flowModAdd f).FitsIn size → self.buf.top ≤ size
              → res.self.buf.top ≤ size) := by
  have htype := (FlowModAdd.at_head (FlowModAdd.at_encode h).1 f.length_lt).2.1
  have hfirst : ∀ i ∈ f.instructions.head?, i.stripLength = 0 := by
    intro i hi
    cases hcons : f.instructions with
    | nil => simp [hcons] at hi
    | cons i' tail =>
      simp only [hcons, List.head?_cons, Option.mem_def, Option.some.injEq] at hi
      subst hi
      cases i' with
      | applyActions pad actions hlen =>
        apply setFieldLength_eq_zero
        have := hclean.2
        simpa only [Frame.actions, hcons] using this
      | other tlv htype => rfl
  rcases @doOfpFlowmodProcessed_clean exp f (self.toProcess conf msg) h
      (OfpMatch.untagged_eq_self hclean.1) hfirst with
    ⟨st', hres, hmsg, htop⟩
  rw [dispatch_flowMod exp self other conf htype, hres]
  exact ⟨_, rfl, hmsg, htop⟩

theorem dispatch_packetOut_clean (exp : ℚ → ℚ) (self other : Schedule) (conf : PolicyConfig)
    {p : PacketOut} {msg : Mem} (h : msg.At 0 p.encode)
    (hclean : (Frame.packetOut p).NothingToStrip)
    : ∃ res,
        dispatch exp self other conf msg = some res ∧ res.msg = msg
          ∧ res.self.buf.top ≤ max self.buf.top (max 500 p.actionsLen) := by
  have htype := (PacketOut.at_head (PacketOut.at_encode h).1).2.1
  have hzero := setFieldLength_eq_zero hclean.2
  rcases @doOfpPacketoutProcessed_spec exp p (self.toProcess conf msg) h with
    ⟨st', hres, -, htop, hmsg, -⟩
  rw [dispatch_packetOut exp self other conf htype, hres]
  refine ⟨_, rfl, hmsg hzero, ?_⟩
  rw [PacketOut.strip_eq_self hzero] at htop
  simp only [toProcess] at htop
  simp only [parsed]
  omega

theorem dispatch_flowMod_not_add (exp : ℚ → ℚ) (self other : Schedule) (conf : PolicyConfig)
    {msg : Mem} (htype : msg 1 = ofptFlowMod) (hcommand : msg FlowModProcessed.command ≠ ofpfcAdd)
    : ∃ res,
        dispatch exp self other conf msg = some res ∧ res.msg = msg
          ∧ res.self.buf = self.buf := by
  rcases @doOfpFlowmodProcessed_not_add exp (self.toProcess conf msg) hcommand with
    ⟨st', hres, hmsg, hbuf⟩
  rw [dispatch_flowMod exp self other conf htype, hres]
  exact ⟨_, rfl, hmsg, hbuf⟩

-- A frame of a type that is not rewritten leaves the receive buffer and the scratch buffer alone.
theorem dispatch_unread (exp : ℚ → ℚ) (self other : Schedule) (conf : PolicyConfig)
    {version type : UInt8} {body : List UInt8} {hlt : 4 + body.length < 65536}
    {htype : type ≠ ofptPacketOut}
    {hcommand : type = ofptFlowMod → ∃ command, body[21]? = some command ∧ command ≠ ofpfcAdd}
    {msg : Mem} (h : msg.At 0 (Frame.other version type body hlt htype hcommand).encode)
    : ∃ res,
        dispatch exp self other conf msg = some res ∧ res.msg = msg ∧ res.self.buf = self.buf := by
  have htypeAt : msg 1 = type := h.2.1
  have hbody : msg.At 4 body := by
    simp only [Frame.encode, Mem.at_append] at h
    apply h.2
  cases Decidable.em (type = ofptFlowMod) with
  | inl hflow =>
    rcases hcommand hflow with ⟨command, hget, hne⟩
    rw [List.getElem?_eq_some_iff] at hget
    rcases hget with ⟨hi, hget⟩
    apply dispatch_flowMod_not_add exp self other conf (htypeAt.trans hflow)
    have hat := hbody.get 21 hi
    rw [hget] at hat
    exact fun hadd => hne (hat.symm.trans hadd)
  | inr hflow =>
    rcases @dispatch_other exp self other conf msg (by rw [htypeAt]; exact hflow)
        (by rw [htypeAt]; exact htype) with
      ⟨res, hres, hkept⟩
    exact ⟨res, hres, hkept.same⟩

theorem dispatch_clean (exp : ℚ → ℚ) (self other : Schedule) (conf : PolicyConfig) {frame : Frame}
    {msg : Mem} (h : msg.At 0 frame.encode) (hclean : frame.NothingToStrip)
    : ∃ res,
        dispatch exp self other conf msg = some res ∧ res.msg.At 0 frame.encode
          ∧ (frame.FitsIn filterBufSize → self.buf.top ≤ filterBufSize
              → res.self.buf.top ≤ filterBufSize) := by
  cases frame with
  | flowModAdd f =>
    rcases dispatch_flowModAdd_clean exp self other conf h hclean with ⟨res, hres, hmsg, htop⟩
    exact ⟨res, hres, hmsg, htop filterBufSize⟩
  | packetOut p =>
    rcases dispatch_packetOut_clean exp self other conf h hclean with ⟨res, hres, hmsg, htop⟩
    refine ⟨res, hres, by rw [hmsg]; exact h, ?_⟩
    intro hfit hself
    unfold filterBufSize at *
    simp only [Frame.FitsIn] at hfit
    omega
  | other version type body hlt htype hcommand =>
    rcases dispatch_unread exp self other conf h with ⟨res, hres, hmsg, hbuf⟩
    refine ⟨res, hres, by rw [hmsg]; exact h, ?_⟩
    intro _ hself
    rw [hbuf]
    exact hself

/--
What `putMessage` queues for a frame with nothing to strip is the frame itself.
-/
theorem getOFPMsgArg_transparent (exp : ℚ → ℚ) (self other : Schedule) (conf : PolicyConfig)
    {frame : Frame} {msg : Mem} (h : msg.At 0 frame.encode) (hclean : frame.NothingToStrip)
    : ∃ res,
        getOFPMsgArg exp self other conf msg = some res
          ∧ res.msg.bytes 0 frame.length = frame.encode ∧ res.arg.len = frame.length
          ∧ (∀ fd addr garbage, (newOFPMsg res.msg res.arg fd addr garbage).buf = frame.encode
              ∧ (newOFPMsg res.msg res.arg fd addr garbage).len = frame.length)
          ∧ (frame.FitsIn filterBufSize → self.buf.top ≤ filterBufSize
              → res.self.buf.top ≤ filterBufSize) := by
  rcases dispatch_clean exp self other conf h hclean with ⟨res, hres, hmsg, htop⟩
  have hlen : headerLength res.msg = frame.length := Frame.headerLength_of_at hmsg
  have hbytes : res.msg.bytes 0 frame.length = frame.encode := by
    rw [Mem.bytes_eq_iff]
    exact ⟨frame.length_encode.symm, hmsg⟩
  unfold getOFPMsgArg
  simp only [hres, hlen]
  refine ⟨_, rfl, hbytes, rfl, ?_, htop⟩
  intro fd addr garbage
  exact ⟨hbytes, rfl⟩

def gotoOnly : Frame :=
  .flowModAdd (flowModOf [gotoTable, .applyActions instructionPad [setFieldAction] (by decide)]
    (by decide))

theorem getOFPMsgArg_gotoOnly
    : ∃ res,
        getOFPMsgArg (fun _ => 1) idle idle .idle (.ofList gotoOnly.encode) = some res
          ∧ res.msg.bytes 0 88 = gotoOnly.encode ∧ res.arg.len = 88 := by
  rcases getOFPMsgArg_transparent (fun _ => 1) idle idle .idle (Mem.at_ofList gotoOnly.encode)
      ⟨by decide, by decide⟩ with
    ⟨res, hres, hbytes, hlen, -⟩
  exact ⟨res, hres, hbytes, hlen⟩

end Schedule
end OfpProxy
