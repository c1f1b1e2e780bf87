import OfpProxy.Rewrite.Lemmas.Scratch
import OfpProxy.Schedule.Transparency

/-!
This module shows for which well-formed frames every write to `filter_buf` stays in the 600 bytes
the constructor of `Schedule` allocates.
-/

namespace OfpProxy

namespace Frame

-- one more than the largest index that is written while the frame is processed
def written : Frame → Nat
  | flowModAdd f => f.cleared
  | packetOut p => max 500 p.strip.actionsLen
  | other _ _ _ _ _ _ => 0

def WritesWithin (size : Nat) : Frame → Prop
  | flowModAdd f =>
    f.mat.paddedLength + 10 ≤ size ∧ ∀ i ∈ f.instructions.head?, i.len + 10 ≤ size
  | packetOut p => 500 ≤ size ∧ p.strip.actionsLen ≤ size
  | other _ _ _ _ _ _ => True

theorem written_le_iff (frame : Frame) (size : Nat)
    : frame.written ≤ size ↔ frame.WritesWithin size := by
  cases frame with
  | flowModAdd f =>
    simp only [written, WritesWithin, FlowModAdd.cleared]
    cases hcons : f.instructions with
    | nil => simp
    | cons i tail =>
      simp
      omega
  | packetOut p => simp [written, WritesWithin]
  | other version type body hlt htype hcommand => simp [written, WritesWithin]

instance (frame : Frame) (size : Nat) : Decidable (frame.WritesWithin size) :=
  decidable_of_iff _ (frame.written_le_iff size)

theorem FitsIn.written_le {frame : Frame} {size : Nat} (h : frame.FitsIn size) (hsize : 500 ≤ size)
    : frame.written ≤ size := by
  rw [written_le_iff]
  cases frame with
  | flowModAdd f => exact h
  | packetOut p =>
    have hsum : setFieldLength p.actions + p.strip.actionsLen = p.actionsLen :=
      length_stripActions p.actions
    have hle : p.actionsLen ≤ size := h
    exact ⟨hsize, by omega⟩
  | other version type body hlt htype hcommand => trivial

end Frame

namespace Schedule

theorem getOFPMsgArg_of_dispatch {exp : ℚ → ℚ} {self other : Schedule} {conf : PolicyConfig}
    {msg : Mem} {st : Parsed} (h : dispatch exp self other conf msg = some st)
    : getOFPMsgArg exp self other conf msg
        = some { st with arg := { st.arg with len := headerLength st.msg } } := by
  rw [getOFPMsgArg, h]

theorem top_of_frame (exp : ℚ → ℚ) (self other : Schedule) (conf : PolicyConfig) {frame : Frame}
    {msg : Mem} (h : msg.At 0 frame.encode)
    : ∃ res,
        getOFPMsgArg exp self other conf msg = some res
          ∧ res.self.buf.top = max self.buf.top frame.written := by
  cases frame with
  | flowModAdd f =>
    have htype := (FlowModAdd.at_head (FlowModAdd.at_encode h).1 f.length_lt).2.1
    rcases @doOfpFlowmodProcessed_top exp f (self.toProcess conf msg) h with ⟨st, hst, htop⟩
    have hdispatch := dispatch_flowMod exp self other conf htype
    rw [hst] at hdispatch
    exact ⟨_, getOFPMsgArg_of_dispatch hdispatch, htop⟩
  | packetOut p =>
    have htype := (PacketOut.at_head (PacketOut.at_encode h).1).2.1
    rcases @doOfpPacketoutProcessed_top exp p (self.toProcess conf msg) h with ⟨st, hst, htop⟩
    have hdispatch := dispatch_packetOut exp self other conf htype
    rw [hst] at hdispatch
    exact ⟨_, getOFPMsgArg_of_dispatch hdispatch, htop⟩
  | other version type body hlt htype hcommand =>
    rcases dispatch_unread exp self other conf h with ⟨st, hst, -, hbuf⟩
    refine ⟨_, getOFPMsgArg_of_dispatch hst, ?_⟩
    rw [← hbuf]
    exact (Nat.max_eq_left (Nat.zero_le _)).symm

theorem top_le_of_fitsIn {exp : ℚ → ℚ} {self other : Schedule} {conf : PolicyConfig} {frame : Frame}
    {msg : Mem} {res : Parsed} (h : msg.At 0 frame.encode) (hfit : frame.FitsIn filterBufSize)
    (hres : getOFPMsgArg exp self other conf msg = some res) (hbuf : self.buf.top ≤ filterBufSize)
    : res.self.buf.top ≤ filterBufSize := by
  rcases top_of_frame exp self other conf h with ⟨res', hres', htop⟩
  rw [hres, Option.some_inj] at hres'
  subst hres'
  have hwritten := hfit.written_le (by decide)
  omega

-- nothing counts as written to the scratch buffer yet
def untouched (s : Schedule) : Schedule := { s with buf := { s.buf with top := 0 } }

/--
While a well-formed frame is processed `filter_buf` is written inside of its 600 bytes if and only
if what is cleared for the match and for the first instruction fits, or the actions that stay do.
-/
theorem filterBuf_within_iff (exp : ℚ → ℚ) (self other : Schedule) (conf : PolicyConfig)
    {frame : Frame} {msg : Mem} (h : msg.At 0 frame.encode)
    : ∃ res,
        getOFPMsgArg exp self.untouched other conf msg = some res
          ∧ (res.self.buf.top ≤ filterBufSize ↔ frame.WritesWithin filterBufSize) := by
  rcases top_of_frame exp self.untouched other conf h with ⟨res, hres, htop⟩
  refine ⟨res, hres, ?_⟩
  rw [htop, ← Frame.written_le_iff, Schedule.untouched, Nat.zero_max]

theorem filterBuf_within_taggedPacketOut
    : ∃ res,
        getOFPMsgArg (fun _ => 1) idle.untouched idle .idle (.ofList taggedPacketOut.encode) = some res
          ∧ res.self.buf.top ≤ filterBufSize := by
  rcases @filterBuf_within_iff (fun _ => 1) idle idle .idle (.packetOut taggedPacketOut) _
      (Mem.at_ofList _) with
    ⟨res, hres, hiff⟩
  exact ⟨res, hres, hiff.mpr (by decide)⟩

def manyOutputs : PacketOut :=
  { taggedPacketOut with
      actions := List.replicate 38 outputAction
      data := []
      length_lt := by decide +kernel }

-- 38 output actions of 16 bytes are written up to the 608th byte
theorem filterBuf_overrun
    : ∃ res,
        getOFPMsgArg (fun _ => 1) idle.untouched idle .idle (.ofList manyOutputs.encode) = some res
          ∧ res.self.buf.top = 608 := by
  rcases @top_of_frame (fun _ => 1) idle.untouched idle .idle (.packetOut manyOutputs) _
      (Mem.at_ofList _) with
    ⟨res, hres, htop⟩
  refine ⟨res, hres, ?_⟩
  rw [htop]
  decide +kernel

end Schedule
end OfpProxy
