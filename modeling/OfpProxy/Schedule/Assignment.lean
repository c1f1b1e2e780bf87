import OfpProxy.Schedule.Arithmetic
import OfpProxy.Schedule.Classification

/-!
This module shows for which frames `getOFPMsgArg` returns with both `qid` and `identify` assigned,
which `putMessage` reads for every message.
-/

namespace OfpProxy

/--
`qid` is one of the ten queues and there is an identity to look the message up by.
-/
def OFPMsgArg.Assigned (arg : OFPMsgArg) : Prop :=
  (∃ q, arg.qid = some q ∧ q < Schedule.queueNum) ∧ ∃ id, arg.identify = some id

theorem OFPMsgArg.Assigned.of_some {arg : OFPMsgArg} {q id : Nat} (hqid : arg.qid = some q)
    (hlt : q < Schedule.queueNum) (hidentify : arg.identify = some id) : arg.Assigned :=
  ⟨⟨q, hqid, hlt⟩, id, hidentify⟩

theorem OFPMsgArg.not_assigned {arg : OFPMsgArg} (hidentify : arg.identify = none)
    : ¬arg.Assigned := by
  rintro ⟨-, id, hid⟩
  rw [hidentify] at hid
  contradiction

namespace copyValidActionToBuf

-- filter_buf once the actions at these places were copied into it, from `new` on
def packActions (msg : Mem) : List Nat → Nat → FilterBuf → FilterBuf
  | [], _, buf => buf
  | action :: ps, new, buf =>
    if msg.load16 action = 0x1900 then
      packActions msg ps new buf
    else
      let buf := buf.store16 new (msg.load16 action)
      let buf := buf.store16 (new + 2) (msg.load16 (action + 2))
      let buf := buf.copyFrom (new + 4) msg (action + 4) (actionLen msg action - 4)
      packActions msg ps (new + actionLen msg action) buf

theorem buf_foldl (msg : Mem) (ps : List Nat) (st : ActionCopy)
    : (ps.foldl (fun st p => body msg 0x1900 p st) st).buf
        = packActions msg ps st.newActionStart st.buf := by
  induction ps generalizing st with
  | nil => rfl
  | cons p ps ih =>
    rw [List.foldl_cons, ih, packActions]
    by_cases htype : msg.load16 p = 0x1900
    . rw [if_pos htype]
      simp only [body, if_pos htype]
    . rw [if_neg htype]
      simp only [body, if_neg htype]
      rfl

end copyValidActionToBuf

open copyValidActionToBuf in
theorem copyValidActionToBuf_of_path {msg : Mem} {pos len : Nat} {ps : List Nat}
    (hps : Walk.Path (actionLen msg) (pos + len) pos ps) (valueTag : UInt8) (buf : FilterBuf)
    (conf : PolicyConfig)
    : ∃ res, copyValidActionToBuf msg pos len 0x1900 valueTag buf conf = some res
        ∧ res.kickLen = u16 (setFieldBytes msg ps)
        ∧ res.buf = packActions msg ps 0 buf := by
  have hlen := hps.length_le
  have hrun := (@Walk.run_eq_some_iff _ _ _ (body msg 0x1900) (len + 1) pos ⟨{}, conf, buf, 0, 0⟩
    _).mpr ⟨ps, hps, by omega, rfl⟩
  unfold copyValidActionToBuf
  dsimp only
  rw [loop_eq_run, hrun]
  refine ⟨_, rfl, ?_, ?_⟩
  . dsimp only
    rw [filterLens_foldl _ _ _ (Nat.zero_lt_succ _), Int.natCast_zero, Int.zero_add]
  . exact buf_foldl msg ps ⟨{}, conf, buf, 0, 0⟩

open copyValidActionToBuf in
theorem exists_path_of_copied {msg : Mem} {pos len : Nat} {valueTag : UInt8} {buf : FilterBuf}
    {conf : PolicyConfig} {res : CopyValid}
    (h : copyValidActionToBuf msg pos len 0x1900 valueTag buf conf = some res)
    : ∃ ps, Walk.Path (actionLen msg) (pos + len) pos ps
        ∧ res.kickLen = u16 (setFieldBytes msg ps)
        ∧ res.buf = packActions msg ps 0 buf := by
  have hadvance := (exists_copyValidActionToBuf_iff _ _ _ _ _ _ _).mp ⟨res, h⟩
  rcases (Walk.exists_path_iff pos).mpr hadvance with ⟨ps, hps⟩
  rcases copyValidActionToBuf_of_path hps valueTag buf conf with ⟨res', hres', hkick, hbuf⟩
  rw [h, Option.some_inj] at hres'
  rw [hres']
  exact ⟨ps, hps, hkick, hbuf⟩

namespace PacketOutProcessed

def actionsLen (msg : Mem) : Nat := ntohs (msg.load16 16)

/--
The bytes that stand behind the list of actions once `k` bytes were kicked out of it, `buf` being
what filter_buf holds by then. The loop that copies the data goes up to `dataLen` bytes, and it runs
into what it has written itself when more is kicked out than the list has bytes.
-/
def leftByte (msg buf : Mem) (k i : Nat) : UInt8 :=
  let lens := actionsLen msg
  let left := u16 (lens - k)
  let dataLen := u16 (headerLength msg - lens - 24)
  if dataLen ≤ i then
    msg (24 + left + i)
  else if left ≤ lens then
    msg (24 + lens + i)
  else
    buf (lens + i % (left - lens))

theorem shrink_apply {msg : Mem} {res : CopyValid}
    (hlen : res.newActionListLen = u16 (actionsLen msg - res.kickLen)) (i : Nat) (hi : 12 ≤ i)
    : shrink msg res (24 + res.newActionListLen + i) = leftByte msg res.buf.mem res.kickLen i := by
  have hlens : actionsLen msg < 65536 := ntohs_lt _
  unfold leftByte
  dsimp only
  rw [← hlen]
  unfold shrink
  by_cases hkick : res.kickLen > 0
  . rw [if_pos hkick, Mem.store16_ne _ _ (by omega) (by omega), Mem.store16_ne _ _ (by omega) (by omega)]
    change Mem.move _ _ (24 + actionsLen msg) (u16 (headerLength msg - actionsLen msg - 24)) _ = _
    split
    . next hbehind =>
      rw [Mem.move_behind _ (by omega), Mem.copyFrom_outside _ _ (by omega)]
    . next hdata =>
      split
      . next hle =>
        rw [Mem.move_apply _ (by omega), if_pos (by omega), Mem.copyFrom_outside _ _ (by omega)]
        congr 1
        omega
      . next hgt =>
        have hmod := Nat.mod_lt i (show 0 < res.newActionListLen - actionsLen msg by omega)
        rw [Mem.move_overlapping _ (by omega) (by omega), Mem.copyFrom_apply,
          show 24 + res.newActionListLen - (24 + actionsLen msg)
            = res.newActionListLen - actionsLen msg by omega, if_pos (by omega)]
        congr 1
        omega
  . rw [if_neg hkick]
    have hsame : res.newActionListLen = actionsLen msg := by
      rw [hlen, show res.kickLen = 0 by omega, u16_sub (Nat.zero_le _) hlens, Nat.sub_zero]
    rw [hsame]
    simp

-- the EtherType behind what is left of the actions is the one of LLDP
def LeavesLldp (msg : Mem) (filterBuf : FilterBuf) : Prop :=
  ∃ ps, Walk.Path (actionLen msg) (24 + actionsLen msg) 24 ps
    ∧ leftByte msg (copyValidActionToBuf.packActions msg ps 0 (filterBuf.memset 500)).mem
        (u16 (copyValidActionToBuf.setFieldBytes msg ps)) 12 = 0x88
    ∧ leftByte msg (copyValidActionToBuf.packActions msg ps 0 (filterBuf.memset 500)).mem
        (u16 (copyValidActionToBuf.setFieldBytes msg ps)) 13 = 0xcc

theorem leftByte_of_le {msg : Mem} {k : Nat} (hk : k ≤ actionsLen msg) {i : Nat}
    (hin : 24 + actionsLen msg + i < headerLength msg) (buf : Mem)
    : leftByte msg buf k i = msg (24 + actionsLen msg + i) := by
  have hlens : actionsLen msg < 65536 := ntohs_lt _
  have hframe : headerLength msg < 65536 := ntohs_lt _
  unfold leftByte
  dsimp only
  rw [u16_sub hk hlens, u16_of_lt (by omega) (by omega), if_neg (by omega), if_pos (by omega)]

/--
In a packet-out whose lengths agree and that has the head of an Ethernet frame, the EtherType is the
one it was received with.
-/
theorem leavesLldp_iff_of_consistent {msg : Mem} (h : Consistent msg)
    (hends : ActionsAdvance msg 24 (actionsLen msg))
    (hdata : 24 + actionsLen msg + 14 ≤ headerLength msg) (filterBuf : FilterBuf)
    : LeavesLldp msg filterBuf ↔ isLldp msg (24 + actionsLen msg + 12) = true := by
  rw [isLldp_iff]
  constructor
  . rintro ⟨ps, hps, hbytes⟩
    have hk := h.setFields _ ⟨ps, hps, rfl⟩
    rw [leftByte_of_le hk (by omega), leftByte_of_le hk (by omega)] at hbytes
    exact hbytes
  . intro hbytes
    rcases (Walk.exists_path_iff 24).mpr hends with ⟨ps, hps⟩
    have hk := h.setFields _ ⟨ps, hps, rfl⟩
    refine ⟨ps, hps, ?_⟩
    rw [leftByte_of_le hk (by omega), leftByte_of_le hk (by omega)]
    exact hbytes

theorem actionsLen_shrink {msg : Mem} {res : CopyValid}
    (hlen : res.newActionListLen = u16 (actionsLen msg - res.kickLen))
    : actionsLen (shrink msg res) = res.newActionListLen := by
  have hlens : actionsLen msg < 65536 := ntohs_lt _
  unfold shrink
  split
  . apply (Mem.store16_htons_at _ _ _).ntohs_load16
    rw [hlen]
    apply u16_lt
  . next hkick =>
    rw [hlen, show res.kickLen = 0 by omega, u16_sub (Nat.zero_le _) hlens, Nat.sub_zero]

theorem route_identify (exp : ℚ → ℚ) (arg : OFPMsgArg) (res : CopyValid)
    : (route exp arg res).identify = arg.identify := by
  unfold route
  split <;> rfl

theorem probe_assigned_iff {msg : Mem} {ethData : Nat} {arg : OFPMsgArg} (h : arg.identify = none)
    : (probe msg ethData arg).Assigned ↔ isLldp msg (ethData + 12) = true := by
  unfold probe isLldp
  rw [decide_eq_true_iff]
  split
  . next hlldp => exact ⟨fun _ => hlldp, fun _ => .of_some rfl (by decide) rfl⟩
  . next hplain => exact ⟨fun hassigned => absurd hassigned (OFPMsgArg.not_assigned h), (absurd · hplain)⟩

theorem isLldp_shrink {msg : Mem} {res : CopyValid}
    (hlen : res.newActionListLen = u16 (actionsLen msg - res.kickLen))
    : isLldp (shrink msg res) (24 + actionsLen (shrink msg res) + 12) = true
        ↔
      leftByte msg res.buf.mem res.kickLen 12 = 0x88
        ∧ leftByte msg res.buf.mem res.kickLen 13 = 0xcc := by
  rw [isLldp_iff, actionsLen_shrink hlen, shrink_apply hlen 12 (by omega), Nat.add_assoc,
    shrink_apply hlen 13 (by omega)]

theorem assigned_iff (exp : ℚ → ℚ) {st : Processed} (h : st.arg.identify = none)
    : (∃ st', doOfpPacketoutProcessed exp st = some st' ∧ st'.arg.Assigned)
        ↔ LeavesLldp st.msg st.buf := by
  have hroute res : (route exp st.arg res).identify = none := by
    rw [route_identify, h]
  rw [processed_eq]
  constructor
  . rintro ⟨st', hst', hassigned⟩
    rw [Option.map_eq_some_iff] at hst'
    rcases hst' with ⟨res, hres, rfl⟩
    rw [probe_assigned_iff (hroute res)] at hassigned
    have hbytes := (isLldp_shrink (newActionListLen_eq hres)).mp hassigned
    rcases exists_path_of_copied hres with ⟨ps, hps, hkick, hbuf⟩
    rw [hkick, hbuf] at hbytes
    exact ⟨ps, hps, hbytes⟩
  . rintro ⟨ps, hps, hbytes⟩
    rcases copyValidActionToBuf_of_path hps 0xFF (st.buf.memset 500) st.conf with
      ⟨res, hres, hkick, hbuf⟩
    rw [← hkick, ← hbuf, ← isLldp_shrink (newActionListLen_eq hres)] at hbytes
    refine ⟨_, by rw [Option.map_eq_some_iff]; exact ⟨res, hres, rfl⟩, ?_⟩
    exact (probe_assigned_iff (hroute res)).mpr hbytes

end PacketOutProcessed

theorem doOfpPacketinProcessed_assigned_iff (msg : Mem) {arg : OFPMsgArg} (h : arg.identify = none)
    : (doOfpPacketinProcessed msg arg).Assigned
        ↔ isLldp msg (24 + getMatchLenth msg 24 + 2 + 12) = true := by
  unfold doOfpPacketinProcessed isLldp
  rw [decide_eq_true_iff]
  dsimp only
  split
  . next hlldp => exact ⟨fun _ => hlldp, fun _ => .of_some rfl (by decide) rfl⟩
  . next hplain => exact ⟨fun hassigned => absurd hassigned (OFPMsgArg.not_assigned h), (absurd · hplain)⟩

namespace FlowModProcessed

-- A flow-mod that is an ADD has an instruction, and the loop over its first list of actions ends.
def RoutesFlowMod (msg : Mem) : Prop :=
  msg command = ofpfcAdd →
    hasInst msg (totalLength msg) = true
      ∧ (FiltersActions msg → ActionsAdvance (behindMatch msg) (instStart msg + 8) (listLength msg))

theorem route_assigned (exp : ℚ → ℚ) (arg : OFPMsgArg) (res : PackInst)
    : (route exp arg res).Assigned := by
  unfold route
  refine ⟨?_, _, rfl⟩
  dsimp only
  split
  . exact ⟨_, rfl, by decide⟩
  . exact ⟨_, rfl, by decide⟩

theorem assigned_iff (exp : ℚ → ℚ) {st : Processed} (h : st.arg.identify = none)
    : (∃ st', doOfpFlowmodProcessed exp st = some st' ∧ st'.arg.Assigned)
        ↔ RoutesFlowMod st.msg := by
  constructor
  . rintro ⟨st', hst', hassigned⟩ hcommand
    refine ⟨?_, (exists_processed_iff exp st).mp ⟨st', hst'⟩⟩
    cases branch_of_processed hst' with
    | notAdd hne => exact absurd hcommand hne
    | noInst _ hnone =>
      apply absurd hassigned
      exact OFPMsgArg.not_assigned h
    | inst _ hinst _ => exact hinst
  . intro hroutes
    rcases (exists_processed_iff exp st).mpr fun hfilters => (hroutes hfilters.1).2 hfilters with
      ⟨st', hst'⟩
    refine ⟨st', hst', ?_⟩
    cases branch_of_processed hst' with
    | notAdd _ => exact .of_some rfl (by decide) rfl
    | noInst hcommand hnone =>
      have hinst := (hroutes hcommand).1
      rw [totalLength, matchLength, hnone] at hinst
      contradiction
    | inst _ _ _ => apply route_assigned

end FlowModProcessed

namespace Schedule

/--
The frames that get both fields: every statistics message, a flow-mod other than an ADD without
instructions, and a packet-in or packet-out that carries LLDP.
-/
inductive AssignsBoth (filterBuf : FilterBuf) (msg : Mem) : Prop where
  | statsRequest : msg 1 = ofptStatsRequest → AssignsBoth filterBuf msg
  | statsReply : msg 1 = ofptStatsReply → AssignsBoth filterBuf msg
  | flowMod :
    msg 1 = ofptFlowMod → FlowModProcessed.RoutesFlowMod msg → AssignsBoth filterBuf msg
  | packetIn :
    msg 1 = ofptPacketIn → isLldp msg (24 + getMatchLenth msg 24 + 2 + 12) = true
      → AssignsBoth filterBuf msg
  | packetOut :
    msg 1 = ofptPacketOut → PacketOutProcessed.LeavesLldp msg filterBuf → AssignsBoth filterBuf msg

section Dispatch

variable (exp : ℚ → ℚ) (self other : Schedule) (conf : PolicyConfig) {msg : Mem}

theorem dispatch_flowMod_assigned_iff (htype : msg 1 = ofptFlowMod)
    : (∃ st, dispatch exp self other conf msg = some st ∧ st.arg.Assigned)
        ↔ FlowModProcessed.RoutesFlowMod msg := by
  have hprocessed := @FlowModProcessed.assigned_iff exp (self.toProcess conf msg) rfl
  rw [dispatch_flowMod exp self other conf htype]
  rw [toProcess] at *
  rw [← hprocessed]
  simp [parsed]

theorem dispatch_packetOut_assigned_iff (htype : msg 1 = ofptPacketOut)
    : (∃ st, dispatch exp self other conf msg = some st ∧ st.arg.Assigned)
        ↔ PacketOutProcessed.LeavesLldp msg self.buf := by
  have hprocessed := @PacketOutProcessed.assigned_iff exp (self.toProcess conf msg) rfl
  rw [dispatch_packetOut exp self other conf htype]
  rw [toProcess] at *
  rw [← hprocessed]
  simp [parsed]

end Dispatch

theorem Kept.assignsBoth {self other : Schedule} {conf : PolicyConfig} {msg : Mem} {res : Parsed}
    (h : Kept self other conf msg res) (hassigned : res.arg.Assigned) (filterBuf : FilterBuf)
    : AssignsBoth filterBuf msg := by
  cases h with
  | packetIn htype =>
    apply AssignsBoth.packetIn htype
    exact (doOfpPacketinProcessed_assigned_iff msg rfl).mp hassigned
  | statsRequest htype => exact .statsRequest htype
  | statsReply htype => exact .statsReply htype
  | featuresReply _ | important _ _ => exact absurd hassigned (OFPMsgArg.not_assigned rfl)

theorem dispatch_assigned_iff (exp : ℚ → ℚ) (self other : Schedule) (conf : PolicyConfig) (msg : Mem)
    : (∃ st, dispatch exp self other conf msg = some st ∧ st.arg.Assigned)
        ↔ AssignsBoth self.buf msg := by
  constructor
  . intro h
    by_cases hflow : msg 1 = ofptFlowMod
    . rw [dispatch_flowMod_assigned_iff exp self other conf hflow] at h
      exact .flowMod hflow h
    . by_cases hout : msg 1 = ofptPacketOut
      . rw [dispatch_packetOut_assigned_iff exp self other conf hout] at h
        exact .packetOut hout h
      . rcases h with ⟨st, hst, hassigned⟩
        exact (kept_of_dispatch hst hflow hout).assignsBoth hassigned self.buf
  . intro h
    cases h with
    | flowMod htype hroutes =>
      exact (dispatch_flowMod_assigned_iff exp self other conf htype).mpr hroutes
    | packetOut htype hlldp =>
      exact (dispatch_packetOut_assigned_iff exp self other conf htype).mpr hlldp
    | packetIn htype hlldp =>
      unfold dispatch
      rw [htype]
      exact ⟨_, rfl, (doOfpPacketinProcessed_assigned_iff msg rfl).mpr hlldp⟩
    | statsRequest htype =>
      unfold dispatch
      rw [htype]
      exact ⟨_, rfl, .of_some rfl (by decide) rfl⟩
    | statsReply htype =>
      unfold dispatch
      rw [htype]
      exact ⟨_, rfl, .of_some rfl (by decide) rfl⟩

/--
`getOFPMsgArg` returns with a queue and an identity if and only if the frame is one of those that
get both.
-/
theorem getOFPMsgArg_assigned_iff (exp : ℚ → ℚ) (self other : Schedule) (conf : PolicyConfig)
    (msg : Mem)
    : (∃ res, getOFPMsgArg exp self other conf msg = some res ∧ res.arg.Assigned)
        ↔ AssignsBoth self.buf msg := by
  rw [← dispatch_assigned_iff exp self other conf msg]
  constructor
  . rintro ⟨res, hres, hassigned⟩
    rcases exists_dispatch hres with ⟨st, hst, rfl⟩
    exact ⟨st, hst, hassigned⟩
  . rintro ⟨st, hst, hassigned⟩
    rw [getOFPMsgArg, hst]
    exact ⟨_, rfl, hassigned⟩

-- a features reply, a flow-mod ADD without instructions, and a hello
theorem getOFPMsgArg_unassigned
    : (getOFPMsgArg (fun _ => 1) idle idle .idle (.ofList [4, 6, 0, 32])).map (·.arg.qid)
        = some none
      ∧ (getOFPMsgArg (fun _ => 1) idle idle .idle
          (.ofList ([4, 14, 0, 56] ++ List.replicate 45 0 ++ [1, 0, 4, 0, 0, 0, 0]))).map
            (fun res => (res.arg.qid, res.arg.identify))
        = some (none, none)
      ∧ (getOFPMsgArg (fun _ => 1) idle idle .idle (.ofList [4, 0, 0, 8])).map
            (fun res => (res.arg.qid, res.arg.identify))
        = some (some importantQueueId, none) := by
  decide +kernel

end Schedule
end OfpProxy
