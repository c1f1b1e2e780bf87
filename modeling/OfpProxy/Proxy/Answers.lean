import OfpProxy.Proxy.Delivery
import OfpProxy.Scheduler.Answers

/-!
This module shows that the switch never has more than twelve requests too many. Answers come in by two
ways, as statistics replies on the connection and as identities that `Run_listen_resp` reads.
-/

namespace OfpProxy
namespace Proxy

def isStatsReply (msg : Mem) : Bool := msg 1 = ofptStatsReply

-- `Run_listen_resp` gets an identity, or a part of one
def takesIdentity (p : Proxy) (d : Dir) : Bool :=
  match (p.side d).resp with
  | .waiting => (Socket.read 8 (respEvents p d)).any fun r => r.rc > 0
  | _ => false

-- how many identities were taken for each side
def recordIdentity (p : Proxy) : Label → (Dir → Nat) → Dir → Nat
  | .respond d, taken =>
    if takesIdentity p d then Function.update taken d (taken d + 1) else taken
  | _, taken => taken

def counting (exp : ℚ → ℚ) : Machine (Proxy × (Dir → Nat)) Label :=
  (machine exp).withRecord (fun _ taken => taken = fun _ => 0) recordIdentity

-- an identity that has not completed anything yet
def RespPc.pending : RespPc → Nat
  | .marking _ _ => 1
  | _ => 0

/--
Every message that was completed has its own answer.
-/
def Answered (s other : Side) (taken : Nat) : Prop :=
  ∃ needs answers, Scheduler.Charged needs s.scheduler answers
    ∧ answers + RespPc.pending s.resp ≤ taken + other.received.countP isStatsReply

section Answered

variable {s s' other other' : Side} {taken taken' : Nat}

theorem Answered.step {name : String} {l : Scheduler.Label} (h : Answered s other taken)
    (hkept : Scheduler.Kept s.scheduler)
    (hstep : Scheduler.step { s.scheduler with name := name } l = some s'.scheduler)
    (hle : Scheduler.hits s.scheduler l + RespPc.pending s'.resp
        + (taken + other.received.countP isStatsReply)
      ≤ RespPc.pending s.resp + (taken' + other'.received.countP isStatsReply))
    : Answered s' other' taken' := by
  rcases h with ⟨needs, answers, hcharged, hcount⟩
  have hnamed : Scheduler.Charged needs { s.scheduler with name := name } answers :=
    ⟨hcharged.messages, hcharged.sent, hcharged.count⟩
  rcases hnamed.step (hkept.renamed name) hstep with ⟨needs', hcharged'⟩
  refine ⟨needs', _, hcharged', ?_⟩
  change answers + Scheduler.hits s.scheduler l + _ ≤ _
  omega

theorem Answered.stay (h : Answered s other taken) (hscheduler : s'.scheduler = s.scheduler)
    (hle : RespPc.pending s'.resp + (taken + other.received.countP isStatsReply)
      ≤ RespPc.pending s.resp + (taken' + other'.received.countP isStatsReply))
    : Answered s' other' taken' := by
  rcases h with ⟨needs, answers, hcharged, hcount⟩
  refine ⟨needs, answers, hscheduler ▸ hcharged, ?_⟩
  omega

end Answered

section Step

variable {exp : ℚ → ℚ} {p p' : Proxy} {d : Dir} {taken : Dir → Nat}

theorem answered_of_side {taken' : Dir → Nat}
    (h : ∀ e, Answered (p.side e) (p.side e.other) (taken e))
    (hother : p'.side d.other = p.side d.other)
    (hreceived : (p'.side d).received = (p.side d).received)
    (hside : Answered (p'.side d) (p.side d.other) (taken' d)) (hle : ∀ e, taken e ≤ taken' e) (e : Dir)
    : Answered (p'.side e) (p'.side e.other) (taken' e) := by
  rcases d.eq_or_other e with rfl | rfl
  . rw [hother]
    exact hside
  . have hbefore := h d.other
    have htaken := hle d.other
    rw [hother]
    rw [d.other_other] at *
    apply hbefore.stay rfl
    rw [hreceived]
    omega

theorem answered_of_receive (h : ∀ e, Answered (p.side e) (p.side e.other) (taken e))
    (hkept : ∀ e, Scheduler.Kept (p.side e).scheduler) (hstep : stepReceive exp p d = some p') (e : Dir)
    : Answered (p'.side e) (p'.side e.other) (taken e) := by
  cases receive_of_step hstep with
  | ended =>
    have hself := p.side_set d
    apply answered_of_side h (p.side_set_other d _) (by rw [hself]) _ (fun _ => Nat.le_refl _)
    rw [hself]
    exact (h d).stay rfl (Nat.le_refl _)
  | @delivered r res hdelivered =>
    have hself : ((p.set d (receiver (p.side d) r res)).set d.other
        ((p.side d.other).withSchedule res.other)).side d = receiver (p.side d) r res :=
      side_set_set_other ..
    have hother : ((p.set d (receiver (p.side d) r res)).set d.other
        ((p.side d.other).withSchedule res.other)).side d.other
          = (p.side d.other).withSchedule res.other := side_set ..
    dsimp only
    rcases d.eq_or_other e with rfl | rfl
    . rw [hself, hother]
      apply (h e).stay (receiver_scheduler hdelivered)
      apply Nat.le_refl
    . have hoverheard := h d.other
      rw [d.other_other] at *
      rw [hself, hother]
      have hcount : (receiver (p.side d) r res).received.countP isStatsReply
          = (p.side d).received.countP isStatsReply + (if isStatsReply r.buf then 1 else 0) := by
        simp [receiver, List.countP_append, List.countP_singleton]
      rcases overhearer_scheduler hdelivered with hsame | ⟨htype, qid, identify, hmark⟩
      . apply hoverheard.stay hsame
        rw [hcount]
        change RespPc.pending (p.side d.other).resp + _ ≤ _
        omega
      . apply hoverheard.step (hkept d.other) hmark
        have hhits := Scheduler.hits_le_one (p.side d.other).scheduler (.markFinished qid identify)
        have hreply : isStatsReply r.buf = true := decide_eq_true htype
        rw [hcount, if_pos hreply]
        change _ + RespPc.pending (p.side d.other).resp + _ ≤ _
        omega

-- a step that sets the side whose thread took it
theorem answered_of_set {side : Side} {taken' : Dir → Nat}
    (h : ∀ e, Answered (p.side e) (p.side e.other) (taken e)) (hp : p' = p.set d side)
    (hreceived : side.received = (p.side d).received) (hle : ∀ e, taken e ≤ taken' e)
    (hside : Answered side (p.side d.other) (taken' d)) (e : Dir)
    : Answered (p'.side e) (p'.side e.other) (taken' e) := by
  have hself := p.side_set d side
  subst hp
  apply answered_of_side h (p.side_set_other d side) _ _ hle
  . rw [hself, hreceived]
  . rw [hself]
    exact hside

theorem answered_of_put {qid garbage : Nat}
    (h : ∀ e, Answered (p.side e) (p.side e.other) (taken e))
    (hkept : ∀ e, Scheduler.Kept (p.side e).scheduler) (hstep : stepPut p d qid garbage = some p')
    : ∀ e, Answered (p'.side e) (p'.side e.other) (taken e) := by
  unfold stepPut at hstep
  dsimp only at hstep
  split at hstep
  . next arg hreader =>
    split at hstep
    . contradiction
    . next state hput =>
      apply answered_of_set h (Option.some.inj hstep).symm rfl (fun _ => Nat.le_refl _)
      refine @Answered.step _ _ _ _ _ _ _ (.putMsg _ _ _ _) (h d) (hkept d) hput ?_
      simp [Scheduler.hits]
  . contradiction

theorem answered_of_reader {l : Scheduler.Label} {step : Scheduler.State → Option Scheduler.State}
    (hl : ∀ s, Scheduler.step s l = step s) (hhits : ∀ s, Scheduler.hits s l = 0)
    (h : ∀ e, Answered (p.side e) (p.side e.other) (taken e))
    (hkept : ∀ e, Scheduler.Kept (p.side e).scheduler) (hstep : stepReader step p d = some p')
    : ∀ e, Answered (p'.side e) (p'.side e.other) (taken e) := by
  rcases exists_of_stepReader hstep with ⟨state, hstate, hp⟩
  rw [← hl] at hstate
  apply answered_of_set h hp rfl (fun _ => Nat.le_refl _)
  refine @Answered.step _ _ _ _ _ _ _ l (h d) (hkept d) hstate ?_
  rw [hhits]
  simp

theorem answered_of_run {now : Timeval} (h : ∀ e, Answered (p.side e) (p.side e.other) (taken e))
    (hkept : ∀ e, Scheduler.Kept (p.side e).scheduler) (hstep : stepRun p d now = some p')
    : ∀ e, Answered (p'.side e) (p'.side e.other) (taken e) := by
  simp only [stepRun, Option.map_eq_some_iff] at hstep
  rcases hstep with ⟨state, hstate, hp⟩
  have hlisten : (p.side d).startListen.received = (p.side d).received
      ∧ (p.side d).startListen.scheduler = (p.side d).scheduler
      ∧ RespPc.pending (p.side d).startListen.resp ≤ RespPc.pending (p.side d).resp := by
    unfold Side.startListen
    split
    . exact ⟨rfl, rfl, Nat.zero_le _⟩
    . exact ⟨rfl, rfl, Nat.le_refl _⟩
  unfold Side.named at hstate
  rw [hlisten.2.1] at hstate
  apply answered_of_set h hp.symm hlisten.1 (fun _ => Nat.le_refl _)
  refine @Answered.step _ _ _ _ _ _ _ (.run now) (h d) (hkept d) hstate ?_
  have := hlisten.2.2
  simp only [Scheduler.hits]
  omega

theorem answered_of_writev {accepted : Option Nat}
    (h : ∀ e, Answered (p.side e) (p.side e.other) (taken e))
    (hkept : ∀ e, Scheduler.Kept (p.side e).scheduler) (hstep : stepWritev p d accepted = some p')
    : ∀ e, Answered (p'.side e) (p'.side e.other) (taken e) := by
  unfold stepWritev at hstep
  dsimp only at hstep
  split at hstep
  . contradiction
  . rw [Option.map_eq_some_iff] at hstep
    rcases hstep with ⟨state, hstate, hp⟩
    apply answered_of_set h hp.symm rfl (fun _ => Nat.le_refl _)
    refine @Answered.step _ _ _ _ _ _ _ (.writev accepted) (h d) (hkept d) hstate ?_
    simp [Scheduler.hits]

theorem answered_of_respond (h : ∀ e, Answered (p.side e) (p.side e.other) (taken e))
    (hstep : stepRespond p d = some p')
    : ∀ e, Answered (p'.side e) (p'.side e.other) (recordIdentity p (.respond d) taken e) := by
  rcases respond_of_step hstep with ⟨hresp, r, hread, hrespond⟩
  have htakes : takesIdentity p d = decide (r.rc > 0) := by
    simp only [takesIdentity, hresp, hread, Option.any_some]
  simp only [recordIdentity, htakes, decide_eq_true_eq]
  cases hrespond with
  | taken hrc =>
    simp only [gt_iff_lt, hrc, if_true]
    apply answered_of_set h rfl
    . rfl
    . intro e
      rw [Function.update_apply]
      split
      . next heq =>
        rw [heq]
        omega
      . apply Nat.le_refl
    . refine @Answered.stay (p.side d) _ _ _ _ _ (h d) rfl ?_
      rw [Function.update_self, hresp]
      simp only [RespPc.pending]
      omega
  | nothing hrc =>
    have hnot : ¬0 < r.rc := by omega
    simp only [gt_iff_lt, hnot, if_false]
    apply answered_of_set h rfl
    . rfl
    . exact fun _ => Nat.le_refl _
    . exact (h d).stay rfl (Nat.le_refl _)

theorem answered_of_mark (h : ∀ e, Answered (p.side e) (p.side e.other) (taken e))
    (hkept : ∀ e, Scheduler.Kept (p.side e).scheduler) (hstep : stepMark p d = some p')
    : ∀ e, Answered (p'.side e) (p'.side e.other) (taken e) := by
  unfold stepMark at hstep
  dsimp only at hstep
  split at hstep
  . next identify i hresp =>
    split at hstep
    . apply answered_of_set h (Option.some.inj hstep).symm rfl (fun _ => Nat.le_refl _)
      refine @Answered.stay (p.side d) _ _ _ _ _ (h d) rfl ?_
      simp only [RespPc.pending]
      omega
    . next q hq =>
      have hmark : Scheduler.step (p.side d).scheduler (.markFinished i identify)
          = some
              { (p.side d).scheduler with
                  queues := (p.side d).scheduler.queues.set i (q.markFinished identify).2 } := by
        simp only [Scheduler.step, Scheduler.stepMarkFinished, hq]
      apply answered_of_set h (Option.some.inj hstep).symm rfl (fun _ => Nat.le_refl _)
      refine @Answered.step _ _ _ _ _ _ _ (.markFinished i identify) (h d) (hkept d) hmark ?_
      -- the identity that was pending is the one that hits
      simp only [Scheduler.hits, hq, hresp, Option.any_some]
      cases (q.markFinished identify).1 <;> simp [RespPc.pending]
  . contradiction

theorem answered_of_kill (h : ∀ e, Answered (p.side e) (p.side e.other) (taken e))
    (hstep : stepKill p = some p') : ∀ e, Answered (p'.side e) (p'.side e.other) (taken e) := by
  unfold stepKill at hstep
  split at hstep
  . apply answered_of_set h (Option.some.inj hstep).symm rfl (fun _ => Nat.le_refl _)
    exact (h .serverToClient).stay rfl (Nat.le_refl _)
  . contradiction

theorem answered_of_step {label : Label} (h : ∀ e, Answered (p.side e) (p.side e.other) (taken e))
    (hkept : ∀ e, Scheduler.Kept (p.side e).scheduler) (hstep : step exp p label = some p')
    : ∀ e, Answered (p'.side e) (p'.side e.other) (recordIdentity p label taken e) := by
  cases label with
  | receive d => exact answered_of_receive h hkept hstep
  | put d qid garbage => exact answered_of_put h hkept hstep
  | insertPos d =>
    exact @answered_of_reader _ _ _ _ .insertPos _ (fun _ => rfl) (fun _ => rfl) h hkept hstep
  | readToBeSent d =>
    exact @answered_of_reader _ _ _ _ .readToBeSent _ (fun _ => rfl) (fun _ => rfl) h hkept hstep
  | run d now => exact answered_of_run h hkept hstep
  | writev d accepted => exact answered_of_writev h hkept hstep
  | respond d => exact answered_of_respond h hstep
  | mark d => exact answered_of_mark h hkept hstep
  | kill => exact answered_of_kill h hstep

end Step

theorem answered_of_reachable {exp : ℚ → ℚ} {x : Proxy × (Dir → Nat)} (h : (counting exp).Reachable x)
    : ∀ e, Answered (x.1.side e) (x.1.side e.other) (x.2 e) := by
  apply Machine.Reachable.invariant _ _ h
  . rintro ⟨p, taken⟩ ⟨⟨m, now, fd, conf, events, mkfifo, opened, pipe, stdin, buf, respBuf, rfl⟩, rfl⟩ e
    refine ⟨fun _ => true, 0, ⟨?_, ?_, ?_⟩, Nat.zero_le _⟩
    all_goals
      simp [doTcpTunnel, Side.start, Scheduler.State.init, Scheduler.State.messages,
        Scheduler.messagesOf, List.flatMap_map, Queue.new]
  . rintro ⟨p, taken⟩ label ⟨p', taken'⟩ hreach ih hstep
    rcases Machine.withRecord_step hstep with ⟨hstep', rfl⟩
    have hkept := fun e => (conveyed_of_reachable hreach.of_withRecord e).kept
    exact answered_of_step ih hkept hstep'

/--
Of the flow-mods and statistics requests that are written to the switch, at most twelve more than there
were answers.
-/
theorem unanswered_le_twelve {exp : ℚ → ℚ} {x : Proxy × (Dir → Nat)}
    (h : (counting exp).Reachable x) (hreplies : x.1.replies ≤ 9)
    : ((x.1.side .serverToClient).scheduler.sent.countP fun w => Scheduler.needsAnswer w.msg)
        ≤ 12 + x.2 .serverToClient + (x.1.side .clientToServer).received.countP isStatsReply := by
  have hreach : (machine exp).Reachable x.1 := h.of_withRecord
  have hscheduler := ((simulates exp .serverToClient).reachableBy hreach hreplies).reachable
  have hname := schedulerName_of_reachable hreach hreplies .serverToClient
  rcases answered_of_reachable h .serverToClient with ⟨needs, answers, hcharged, hcount⟩
  have hle := hcharged.unanswered_le (Scheduler.owned_of_reachable hscheduler)
    (Scheduler.credit_of_reachable hscheduler hname)
  change answers + _ ≤ _ + (x.1.side .clientToServer).received.countP isStatsReply at hcount
  omega

-- a statistics request with nothing in it
def statsRequest : List UInt8 := [4, 18, 0, 16, 0, 0, 0, 7, 0, 0, 0, 0, 0, 0, 0, 0]

def takeTurns (d : Dir) (n len : Nat) : List Label :=
  (List.replicate n
    ([.receive d, .put d 0 0, .insertPos d, .readToBeSent d] ++ List.replicate 3 (.run d ⟨0, 0⟩)
      ++ [.writev d (some len)] ++ List.replicate 2 (.run d ⟨0, 0⟩))).flatten

-- Twelve of them are on their way to the switch, and none is answered.
theorem unanswered_le_twelve_twelveRequests
    : ∃ x, (counting fun _ => 1).Reachable x ∧ x.2 .serverToClient = 0
        ∧ (x.1.side .clientToServer).received = []
        ∧ (x.1.side .serverToClient).scheduler.sent.length = 12
        ∧ ((x.1.side .serverToClient).scheduler.sent.countP fun w => Scheduler.needsAnswer w.msg)
          ≤ 12 := by
  rcases @Machine.exists_of_replay _ _ (counting fun _ => 1) (fun _ _ => true)
      ([.run .serverToClient ⟨0, 0⟩] ++ takeTurns .serverToClient 12 16)
      (commanded (List.replicate 12 statsRequest).flatten, fun _ => 0)
      (fun x => decide (x.1.replies = 0 ∧ x.2 .serverToClient = 0
        ∧ (x.1.side .clientToServer).received.length = 0
        ∧ (x.1.side .serverToClient).scheduler.sent.length = 12))
      (.init ⟨init_commanded _, rfl⟩) (by decide +kernel) with
    ⟨x, hreach, hx⟩
  rw [decide_eq_true_eq] at hx
  rcases hx with ⟨hreplies, htaken, hreceived, hsent⟩
  have hle := unanswered_le_twelve hreach.reachable (by omega)
  rw [List.length_eq_zero_iff] at hreceived
  rw [htaken, hreceived] at hle
  exact ⟨x, hreach.reachable, htaken, hreceived, hsent, hle⟩

end Proxy
end OfpProxy
