import OfpProxy.Rewrite.Lemmas.Action
import OfpProxy.Rewrite.Lemmas.Frame

/-!
This module shows that `do_ofp_packetout_processed` turns a packet-out into the one without its
set-field actions, and what it reports to the priority manager on the way.
-/

namespace OfpProxy

namespace PacketOut

theorem at_encode {msg : Mem} {p : PacketOut} (h : msg.At 0 p.encode)
    : msg.At 0 p.head ∧ msg.At 24 (Action.codec.encodeAll p.actions)
        ∧ msg.At (24 + p.actionsLen) p.data := by
  simp only [encode, Mem.at_append, List.length_append, length_head, Nat.zero_add] at h
  exact ⟨h.1.1, h.1.2, h.2⟩

theorem at_head {msg : Mem} {p : PacketOut} (h : msg.At 0 p.head)
    : headerLength msg = p.length ∧ msg 1 = ofptPacketOut ∧ ntohs (msg.load16 16) = p.actionsLen := by
  have hlt : p.length < 65536 := p.length_lt
  have hlen : p.length = 24 + p.actionsLen + p.data.length := rfl
  simp only [head, Mem.at_append, List.length_append, length_be16, Mem.at_cons, List.length_cons,
    List.length_nil, p.xid.property, p.bufferId.property, p.inPort.property] at h
  exact ⟨h.1.1.1.1.1.2.ntohs_load16 hlt, h.1.1.1.1.1.1.2.1, h.1.2.ntohs_load16 (by omega)⟩

theorem at_store_lengths {msg : Mem} {p : PacketOut} (h : msg.At 0 p.head)
    : ((msg.store16 2 (htons p.strip.length)).store16 16 (htons p.strip.actionsLen)).At 0 p.strip.head
    := by
  have hlen : msg.At 0 ([p.version, ofptPacketOut] ++ be16 p.length ++
      (p.xid.val ++ p.bufferId.val ++ p.inPort.val ++ be16 p.actionsLen ++ p.pad.val)) := by
    simpa only [head, List.append_assoc] using h
  have hlen' : (msg.store16 2 (htons p.strip.length)).At 0
      ([p.version, ofptPacketOut] ++ be16 p.strip.length ++
        (p.xid.val ++ p.bufferId.val ++ p.inPort.val ++ be16 p.actionsLen ++ p.pad.val)) :=
    hlen.store16_be16 p.strip.length
  have hact : (msg.store16 2 (htons p.strip.length)).At 0
      (([p.version, ofptPacketOut] ++ be16 p.strip.length ++ p.xid.val ++ p.bufferId.val ++
        p.inPort.val) ++ be16 p.actionsLen ++ p.pad.val) := by
    simpa only [List.append_assoc] using hlen'
  have hact' := hact.store16_be16 p.strip.actionsLen
  simp only [List.length_append, length_be16, List.length_cons, List.length_nil, p.xid.property,
    p.bufferId.property, p.inPort.property] at hact'
  exact hact'

theorem strip_eq_self {p : PacketOut} (h : setFieldLength p.actions = 0) : p.strip = p := by
  unfold strip
  simp only [stripActions_eq_self h]

end PacketOut

namespace PacketOutProcessed

section Shrink

variable {p : PacketOut} {msg : Mem} {res : CopyValid}

theorem lengths_eq (h : msg.At 0 p.encode)
    : headerLength msg = p.length ∧ ntohs (msg.load16 16) = p.actionsLen
        ∧ u16 (headerLength msg - p.actionsLen - 24) = p.data.length := by
  have hlt : p.length < 65536 := p.length_lt
  have hlen : p.length = 24 + p.actionsLen + p.data.length := rfl
  rcases PacketOut.at_head (PacketOut.at_encode h).1 with ⟨hheader, -, hactions⟩
  refine ⟨hheader, hactions, ?_⟩
  rw [hheader, u16_of_lt] <;> omega

theorem shrink_kept (h : msg.At 0 p.encode) (hkick : res.kickLen = setFieldLength p.actions)
    (hzero : setFieldLength p.actions = 0)
    : shrink msg res = msg ∧ (shrink msg res).At 0 p.strip.encode := by
  have hsame : shrink msg res = msg := by
    unfold shrink
    rw [if_neg (by omega)]
  rw [hsame, PacketOut.strip_eq_self hzero]
  exact ⟨rfl, h⟩

theorem shrink_stripped (h : msg.At 0 p.encode) (hnew : res.newActionListLen = p.strip.actionsLen)
    (hkick : res.kickLen = setFieldLength p.actions)
    (hbytes : res.buf.mem.At 0 (Action.codec.encodeAll p.strip.actions))
    (hpos : 0 < setFieldLength p.actions) : (shrink msg res).At 0 p.strip.encode := by
  rcases PacketOut.at_encode h with ⟨hhead, -, hdata⟩
  rcases lengths_eq h with ⟨-, hactions, hdatalen⟩
  have hlt : p.length < 65536 := p.length_lt
  have hplen : p.length = 24 + p.actionsLen + p.data.length := rfl
  have hslen : p.strip.length = 24 + p.strip.actionsLen + p.data.length := rfl
  have hsum : setFieldLength p.actions + p.strip.actionsLen = p.actionsLen := length_stripActions p.actions
  have hle : 24 + p.strip.actionsLen ≤ 24 + p.actionsLen := by omega
  unfold shrink
  rw [if_pos (by omega)]
  simp only [hactions, hdatalen, hnew, hkick]
  generalize hmoved
    : (msg.copyFrom 24 res.buf.mem 0 p.strip.actionsLen).move (24 + p.strip.actionsLen)
        (24 + p.actionsLen) p.data.length
        =
      moved
  have hmoved_head : moved.At 0 p.head := by
    rw [← hmoved, Mem.move_frame hle (by simp), Mem.copyFrom_frame (by simp)]
    exact hhead
  have hmoved_actions : moved.At 24 (Action.codec.encodeAll p.strip.actions) := by
    rw [← hmoved, Mem.move_frame hle (.inl (Nat.le_refl _))]
    apply Mem.copyFrom_at hbytes (Nat.le_refl _)
  have hmoved_data : moved.At (24 + p.strip.actionsLen) p.data := by
    rw [← hmoved]
    apply Mem.move_at hle _ (Nat.le_refl _)
    rw [Mem.copyFrom_frame (by omega)]
    exact hdata
  have hnewlen : u16 (headerLength moved - setFieldLength p.actions) = p.strip.length := by
    rw [(PacketOut.at_head hmoved_head).1, u16_of_lt] <;> omega
  rw [hnewlen]
  simp only [PacketOut.encode, Mem.at_append, List.length_append, PacketOut.length_head, Nat.zero_add]
  refine ⟨⟨PacketOut.at_store_lengths hmoved_head, ?_⟩, ?_⟩
  . rw [Mem.store16_frame (by omega), Mem.store16_frame (by omega)]
    exact hmoved_actions
  . rw [Mem.store16_frame (by omega), Mem.store16_frame (by omega)]
    exact hmoved_data

-- Only the frame that is left and the lengths in its header are written.
theorem shrink_behind (h : msg.At 0 p.encode) (hnew : res.newActionListLen = p.strip.actionsLen)
    {j : Nat} (hj : p.strip.length ≤ j) : shrink msg res j = msg j := by
  have hslen : p.strip.length = 24 + p.strip.actionsLen + p.data.length := rfl
  have hsum : setFieldLength p.actions + p.strip.actionsLen = p.actionsLen := length_stripActions p.actions
  rcases lengths_eq h with ⟨-, hactions, hdata⟩
  unfold shrink
  split
  . simp only [hactions, hdata, hnew]
    rw [Mem.store16_ne _ _ (by omega) (by omega), Mem.store16_ne _ _ (by omega) (by omega),
      Mem.move_outside _ (by omega) (.inr (by omega)), Mem.copyFrom_outside _ _ (.inr (by omega))]
  . rfl

end Shrink

end PacketOutProcessed

open PacketOutProcessed in
theorem doOfpPacketoutProcessed_spec (exp : ℚ → ℚ) {p : PacketOut} {st : Processed}
    (h : st.msg.At 0 p.encode)
    : ∃ st',
        doOfpPacketoutProcessed exp st = some st' ∧ st'.msg.At 0 p.strip.encode
          ∧ st'.buf.top ≤ max st.buf.top (max 500 p.strip.actionsLen)
          ∧ (setFieldLength p.actions = 0 → st'.msg = st.msg)
          ∧ ∃ log, st'.conf.updates = st.conf.updates ++ log
              ∧ List.Forall₂ (ReadsTag st.msg) (setFieldsAt 24 p.actions) log := by
  have hlt : p.length < 65536 := p.length_lt
  have hplen : p.length = 24 + p.actionsLen + p.data.length := rfl
  have hactdef : (Action.codec.encodeAll p.actions).length = p.actionsLen := rfl
  rcases copyValidActionToBuf_spec 0xFF (st.buf.memset 500) st.conf (PacketOut.at_encode h).2.1
      (by omega) with
    ⟨res, hcopy, hnew, hkick, hbytes, -, htop, hupd⟩
  change res.newActionListLen = p.strip.actionsLen at hnew
  rw [hactdef] at hcopy
  have htop' : res.buf.top ≤ max st.buf.top (max 500 p.strip.actionsLen) := by
    simp only [FilterBuf.memset] at htop
    omega
  rw [processed_eq, (lengths_eq h).2.1, hcopy, Option.map_some]
  cases Nat.eq_zero_or_pos (setFieldLength p.actions) with
  | inl hzero =>
    rcases shrink_kept h hkick hzero with ⟨hsame, hat⟩
    exact ⟨_, rfl, hat, htop', fun _ => hsame, hupd⟩
  | inr hpos =>
    have hat := shrink_stripped h hnew hkick hbytes hpos
    exact ⟨_, rfl, hat, htop', fun hzero => by omega, hupd⟩

/--
A packet-out keeps its meaning: it loses exactly its set-field actions, and each of them is
reported once.
-/
theorem doOfpPacketoutProcessed_strip (exp : ℚ → ℚ) {p : PacketOut} {st : Processed}
    (h : st.msg.At 0 p.encode) (hfit : p.actionsLen ≤ filterBufSize) (hbuf : st.buf.top ≤ filterBufSize)
    : ∃ st',
        doOfpPacketoutProcessed exp st = some st' ∧ st'.buf.top ≤ filterBufSize
          ∧ headerLength st'.msg = 24 + p.strip.actionsLen + p.data.length
          ∧ st'.msg.bytes 0 (headerLength st'.msg) = p.strip.encode
          ∧ (setFieldsAt 24 p.actions).map Prod.snd = p.actions.filter Action.isSetField
          ∧ ∃ log, st'.conf.updates = st.conf.updates ++ log
              ∧ List.Forall₂ (ReadsTag st.msg) (setFieldsAt 24 p.actions) log := by
  rcases doOfpPacketoutProcessed_spec exp h with ⟨st', hres, hbytes, htop, -, hupd⟩
  have hsum : setFieldLength p.actions + p.strip.actionsLen = p.actionsLen := length_stripActions p.actions
  have hlen : headerLength st'.msg = p.strip.length :=
    (PacketOut.at_head (PacketOut.at_encode hbytes).1).1
  unfold filterBufSize at *
  refine ⟨st', hres, by omega, hlen, ?_, map_snd_setFieldsAt 24 p.actions, hupd⟩
  rw [hlen, Mem.bytes_eq_iff]
  exact ⟨p.strip.length_encode.symm, hbytes⟩

def taggedPacketOut : PacketOut where
  version := 4
  xid := firstXid
  bufferId := ⟨[0xFF, 0xFF, 0xFF, 0xFF], rfl⟩
  inPort := ⟨[0, 0, 0, 2], rfl⟩
  pad := ⟨[0, 0, 0, 0, 0, 0], rfl⟩
  actions := [outputAction, setFieldAction]
  data := [0xDE, 0xAD, 0xBE]
  length_lt := by decide

theorem doOfpPacketoutProcessed_taggedPacketOut
    : ∃ st',
        doOfpPacketoutProcessed (fun _ => 1) (.received taggedPacketOut.encode) = some st'
          ∧ headerLength st'.msg = 43
          ∧ st'.msg.bytes 0 (headerLength st'.msg) = taggedPacketOut.strip.encode := by
  rcases @doOfpPacketoutProcessed_strip (fun _ => 1) taggedPacketOut
      (.received taggedPacketOut.encode) (Mem.at_ofList _) (by decide) (by decide) with
    ⟨st', hres, -, hlen, hbytes, -⟩
  exact ⟨st', hres, hlen, hbytes⟩

end OfpProxy
