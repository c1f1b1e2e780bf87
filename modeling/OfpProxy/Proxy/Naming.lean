import OfpProxy.Proxy.Step
import OfpProxy.Tunnel.Features

/-!
This module shows how long the two schedules know which direction they serve: the name of a schedule
lies behind the path that every FEATURES_REPLY makes longer.
-/

namespace OfpProxy
namespace Schedule

theorem strlen_le {m : Mem} {n : Nat} (hn : n < 130) (hnul : m n = 0) : strlen m ≤ n := by
  cases hfind : (List.range 130).find? fun i => decide (m i = 0) with
  | none =>
    rw [List.find?_eq_none] at hfind
    have := hfind n (List.mem_range.mpr hn)
    simp [hnul] at this
  | some k =>
    have hk := hfind
    rw [List.find?_range_eq_some] at hk
    have hstrlen : strlen m = k := by
      unfold strlen
      dsimp only [respPipeSize, nameSize, respRecordNameSize]
      rw [hfind]
      rfl
    rw [hstrlen]
    rcases Nat.lt_or_ge n k with hlt | hge
    . have := hk.2.2 n hlt
      simp [hnul] at this
    . exact hge

theorem strlen_appendDpId (dpId : UInt8) {m : Mem} (h : strlen m < 129)
    : strlen (appendDpId dpId m) ≤ strlen m + 1 := by
  apply strlen_le (by omega)
  unfold appendDpId
  rw [Mem.store_apply, if_pos rfl]

theorem appendDpId_frame (dpId : UInt8) {m : Mem} {off : Nat} {bs : List UInt8} (h : m.At off bs)
    (hoff : strlen m + 2 ≤ off) : (appendDpId dpId m).At off bs := by
  apply h.of_eq
  intro j hj _
  unfold appendDpId
  rw [Mem.store_apply, if_neg (by omega), Mem.store_apply, if_neg (by omega)]

end Schedule

namespace Proxy

def isFeaturesReply (msg : Mem) : Bool := msg 1 = ofptFeaturesReply

-- how many FEATURES_REPLYs have come in on either side
def replies (p : Proxy) : Nat :=
  (p.side .clientToServer).received.countP isFeaturesReply
    + (p.side .serverToClient).received.countP isFeaturesReply

theorem replies_eq (p : Proxy) (d : Dir)
    : p.replies = (p.side d).received.countP isFeaturesReply
        + (p.side d.other).received.countP isFeaturesReply := by
  unfold replies
  cases d with
  | clientToServer => rfl
  | serverToClient => apply Nat.add_comm

section Step

variable {exp : ℚ → ℚ} {p p' : Proxy} {label : Label}

theorem SideStep.frame {d : Dir} {s s' : Side} (h : SideStep exp d s label s')
    (hlabel : ∀ e, label ≠ .receive e) : s'.respPipe = s.respPipe ∧ s'.received = s.received := by
  cases h with
  | received _ | overheard _ => exact absurd rfl (hlabel _)
  | _ => exact ⟨rfl, rfl⟩

theorem Receive.respPipe {d : Dir} (h : Receive exp p d p')
    : (p'.replies = p.replies ∧ ∀ e, (p'.side e).respPipe = (p.side e).respPipe)
        ∨ (p'.replies = p.replies + 1
          ∧ ∃ dpId, ∀ e, (p'.side e).respPipe = Schedule.appendDpId dpId (p.side e).respPipe) := by
  cases h with
  | ended =>
    refine .inl ⟨?_, fun e => ?_⟩
    . rw [replies_eq _ d, replies_eq _ d, side_set, side_set_other]
    . rcases d.eq_or_other e with rfl | rfl
      . rw [side_set]
      . rw [side_set_other]
  | @delivered r res hdelivered =>
    have hself : ((p.set d (receiver (p.side d) r res)).set d.other
        ((p.side d.other).withSchedule res.other)).side d = receiver (p.side d) r res :=
      side_set_set_other ..
    have hother : ((p.set d (receiver (p.side d) r res)).set d.other
        ((p.side d.other).withSchedule res.other)).side d.other
          = (p.side d.other).withSchedule res.other := side_set ..
    have hcount : ∀ n, (p.side d).received.countP isFeaturesReply + n
        + (p.side d.other).received.countP isFeaturesReply = p.replies + n := by
      rw [replies_eq p d]
      omega
    by_cases htype : r.buf 1 = ofptFeaturesReply
    . have hpipe := Schedule.getOFPMsgArg_featuresReply hdelivered.parsed htype
      refine .inr ⟨?_, r.buf 15 + 48, fun e => ?_⟩
      . rw [← hcount 1, replies_eq _ d, hself, hother]
        simp [receiver, Side.withSchedule, isFeaturesReply, htype]
      . rcases d.eq_or_other e with rfl | rfl
        . rw [hself]
          exact hpipe.1
        . rw [hother]
          exact hpipe.2
    . have hpipe := Schedule.getOFPMsgArg_respPipe hdelivered.parsed htype
      refine .inl ⟨?_, fun e => ?_⟩
      . rw [← Nat.add_zero p.replies, ← hcount 0, replies_eq _ d, hself, hother]
        simp [receiver, Side.withSchedule, isFeaturesReply, htype]
      . rcases d.eq_or_other e with rfl | rfl
        . rw [hself]
          exact hpipe.1
        . rw [hother]
          exact hpipe.2

theorem respPipe_of_step (h : step exp p label = some p')
    : (p'.replies = p.replies ∧ ∀ e, (p'.side e).respPipe = (p.side e).respPipe)
        ∨ (p'.replies = p.replies + 1
          ∧ ∃ dpId, ∀ e, (p'.side e).respPipe = Schedule.appendDpId dpId (p.side e).respPipe) := by
  by_cases hlabel : ∃ d, label = .receive d
  . rcases hlabel with ⟨d, rfl⟩
    apply (receive_of_step h).respPipe
  . have hframe := fun e =>
      (sideStep_of_step h e).frame fun d hd => hlabel ⟨d, hd⟩
    refine .inl ⟨?_, fun e => (hframe e).1⟩
    unfold replies
    rw [(hframe .clientToServer).2, (hframe .serverToClient).2]

end Step

/--
resp_pipe after at most `n` replies, with the name of the schedule behind it.
-/
structure Named (n : Nat) (d : Dir) (m : Mem) : Prop where
  strlen : Schedule.strlen m ≤ 40 + n
  name : m.At Schedule.respPipeSize (cString d.name ++ [0])

theorem Named.append {n : Nat} {d : Dir} {m : Mem} (h : Named n d m) (hn : n < 9) (dpId : UInt8)
    : Named (n + 1) d (Schedule.appendDpId dpId m) := by
  have hstrlen := h.strlen
  constructor
  . have := @Schedule.strlen_appendDpId dpId m (by omega)
    omega
  . apply Schedule.appendDpId_frame dpId h.name
    unfold Schedule.respPipeSize
    omega

theorem named_start (d : Dir) (m : Mem) (now : Timeval)
    : Named 0 d (Schedule.construct m (cString d.name) d.pipeName now).respPipe := by
  have hpath : ∀ d : Dir, d.pipeName.length = 40 ∧ 0 ∉ d.pipeName := by
    intro d
    cases d <;> decide
  constructor
  . have hat := strcpy_at (m.strcpy Schedule.respPipeSize (cString d.name)) 0 d.pipeName
    have hstrlen := strlen_of_at hat (hpath d).2 (by rw [(hpath d).1]; omega)
    rw [(hpath d).1] at hstrlen
    exact Nat.le_of_eq hstrlen
  . have hname := strcpy_at m Schedule.respPipeSize (cString d.name)
    apply hname.of_eq
    intro j hj _
    unfold Schedule.respPipeSize at hj
    change (Mem.strcpy _ 0 d.pipeName) j = _
    unfold Mem.strcpy
    rw [Mem.copyFrom_outside _ _ (by rw [(hpath d).1]; omega)]

theorem Named.name_eq {n : Nat} {d : Dir} {s : Side} (h : Named n d s.respPipe) : s.name = d.name := by
  have hbytes : s.respPipe.bytes Schedule.respPipeSize 7 = cString d.name ++ [0] := by
    cases d <;> exact h.name.bytes_eq
  unfold Side.name Schedule.isSWToControl Side.schedule
  rw [hbytes]
  cases d <;> decide

/--
The tenth FEATURES_REPLY is the first one that can reach the name.
-/
theorem named_of_reachable {exp : ℚ → ℚ} {p : Proxy} (h : (machine exp).Reachable p)
    (hreplies : p.replies ≤ 9) (d : Dir) : Named p.replies d (p.side d).respPipe := by
  revert d
  revert hreplies
  apply Machine.Reachable.invariant _ _ h
  . rintro p ⟨m, now, fd, conf, events, mkfifo, opened, pipe, stdin, buf, respBuf, rfl⟩ _ d
    exact named_start d (m d) (now d)
  . intro p label p' _ ih hstep hreplies d
    rcases respPipe_of_step hstep with ⟨hsame, hpipe⟩ | ⟨hmore, dpId, hpipe⟩
    . rw [hsame, hpipe d]
      exact ih (by omega) d
    . rw [hmore, hpipe d]
      exact (ih (by omega) d).append (by omega) dpId

end Proxy
end OfpProxy
