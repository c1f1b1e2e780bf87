import OfpProxy.Machine.Simulation
import OfpProxy.Proxy.Naming

/-!
This module shows that each direction of the proxy is the scheduler of `Scheduler.machine`: what the
rest of the proxy does to it is what the labels of that machine stand for.
-/

namespace OfpProxy
namespace Schedule

/--
What `getOFPMsgArg` does to the queues of the two schedules. The scratch buffer of the opposite one is
not used.
-/
structure QueuesKept (own opposite : Schedule) (msg : Mem) (res : Parsed) : Prop where
  ownQueues : res.self.queues = own.queues
  ownPosMap : res.self.posMap = own.posMap
  posMap : res.other.posMap = opposite.posMap
  queues : res.other.queues = opposite.queues
    ∨ msg 1 = ofptStatsReply ∧ ∃ identify q, opposite.queues[multiPartRequestQueueId]? = some q
        ∧ res.other.queues = opposite.queues.set multiPartRequestQueueId (q.markFinished identify).2
  scratch : res.other.buf = opposite.buf

theorem queuesKept_of_getOFPMsgArg {exp : ℚ → ℚ} {self other : Schedule} {conf : PolicyConfig}
    {msg : Mem} {res : Parsed} (h : getOFPMsgArg exp self other conf msg = some res)
    : QueuesKept self other msg res := by
  rcases exists_dispatch h with ⟨st, hst, rfl⟩
  by_cases hflow : msg 1 = ofptFlowMod
  . rw [dispatch_flowMod exp self other conf hflow, Option.map_eq_some_iff] at hst
    rcases hst with ⟨st', -, rfl⟩
    exact ⟨rfl, rfl, rfl, .inl rfl, rfl⟩
  . by_cases hout : msg 1 = ofptPacketOut
    . rw [dispatch_packetOut exp self other conf hout, Option.map_eq_some_iff] at hst
      rcases hst with ⟨st', -, rfl⟩
      exact ⟨rfl, rfl, rfl, .inl rfl, rfl⟩
    . cases kept_of_dispatch hst hflow hout with
      | @statsReply identify htype =>
        unfold markRequest
        split
        . exact ⟨rfl, rfl, rfl, .inl rfl, rfl⟩
        . next q hq => exact ⟨rfl, rfl, rfl, .inr ⟨htype, identify, q, hq, rfl⟩, rfl⟩
      | _ => exact ⟨rfl, rfl, rfl, .inl rfl, rfl⟩

end Schedule

namespace Proxy

/--
What the reader holds between `getOFPMsgArg` and the push is what `getOFPMsgArg` returned for the
last message that came in.
-/
def Holds (exp : ℚ → ℚ) (s : Side) : Prop :=
  ∀ arg, s.reader = .parsed arg → ∃ self other conf frame res,
    s.received.getLast? = some frame ∧ Schedule.getOFPMsgArg exp self other conf frame = some res
      ∧ arg = res.arg ∧ s.buf = res.msg

theorem Holds.of_eq {exp : ℚ → ℚ} {s s' : Side} (h : Holds exp s) (hreader : s'.reader = s.reader)
    (hbuf : s'.buf = s.buf) (hreceived : s'.received = s.received) : Holds exp s' := by
  unfold Holds
  rw [hreader, hbuf, hreceived]
  exact h

section Step

variable {exp : ℚ → ℚ} {d : Dir} {label : Label} {s s' : Side}

theorem Holds.step (h : Holds exp s) (hstep : SideStep exp d s label s') : Holds exp s' := by
  cases hstep with
  | ended | killed =>
    intro arg harg
    contradiction
  | @received other conf r res hdelivered =>
    intro arg harg
    refine ⟨s.schedule, other.schedule, conf, r.buf, res, ?_, hdelivered.parsed, ?_, rfl⟩
    . simp [receiver]
    . exact Eq.symm (ReaderPc.parsed.inj harg)
  | put _ _ =>
    intro arg harg
    contradiction
  | _ => exact h.of_eq rfl rfl rfl

theorem holds_of_reachable {p : Proxy} (h : (machine exp).Reachable p) (d : Dir)
    : Holds exp (p.side d) := by
  revert d
  apply Machine.Reachable.invariant _ _ h
  . rintro p ⟨m, now, fd, conf, events, mkfifo, opened, pipe, stdin, buf, respBuf, rfl⟩ d arg harg
    contradiction
  . intro p label p' _ ih hstep d
    apply (ih d).step (sideStep_of_step hstep d)

theorem receiver_scheduler {other : Side} {conf : PolicyConfig} {r : Reader.ReadMsg}
    {res : Schedule.Parsed} (h : Delivered exp s other conf r res)
    : (receiver s r res).scheduler = s.scheduler := by
  have hkept := Schedule.queuesKept_of_getOFPMsgArg h.parsed
  unfold receiver Side.withSchedule
  dsimp only
  rw [hkept.ownQueues, hkept.ownPosMap]
  rfl

theorem overhearer_scheduler {other : Side} {conf : PolicyConfig} {r : Reader.ReadMsg}
    {res : Schedule.Parsed} (h : Delivered exp other s conf r res)
    : (s.withSchedule res.other).scheduler = s.scheduler
        ∨ r.buf 1 = ofptStatsReply
          ∧ ∃ qid identify, Scheduler.step s.scheduler (.markFinished qid identify)
            = some (s.withSchedule res.other).scheduler := by
  have hkept := Schedule.queuesKept_of_getOFPMsgArg h.parsed
  unfold Side.withSchedule
  dsimp only
  rw [hkept.posMap]
  rcases hkept.queues with hsame | ⟨htype, identify, q, hq, hmark⟩
  . apply Or.inl
    rw [hsame]
    rfl
  . refine .inr ⟨htype, multiPartRequestQueueId, identify, ?_⟩
    change s.scheduler.queues[multiPartRequestQueueId]? = some q at hq
    rw [hmark]
    simp only [Scheduler.step, Scheduler.stepMarkFinished, hq]
    rfl

/--
What a step does to the scheduler of one side, `run` being the thread that looks at the name.
-/
theorem SideStep.scheduler (h : SideStep exp d s label s') (hholds : Holds exp s)
    : s'.scheduler = s.scheduler
        ∨ (∃ l, Scheduler.FromReader l ∧ Scheduler.step s.scheduler l = some s'.scheduler)
        ∨ ∃ now, Scheduler.step s.named (.run now) = some s'.scheduler := by
  cases h with
  | same | ended | killed | respond | unmarked => exact .inl rfl
  | received hdelivered => exact .inl (receiver_scheduler hdelivered)
  | overheard hdelivered =>
    rcases overhearer_scheduler hdelivered with hsame | ⟨-, qid, identify, hmark⟩
    . exact .inl hsame
    . exact .inr (.inl ⟨.markFinished qid identify, trivial, hmark⟩)
  | @put arg qid garbage state hreader hput =>
    rcases hholds arg hreader with ⟨self, other, conf, frame, res, -, hres, rfl, hbuf⟩
    refine .inr (.inl ⟨.putMsg _ s.buf s.fd garbage, ?_, hput⟩)
    exact ⟨exp, self, other, conf, frame, res, qid, hres, hbuf, rfl⟩
  | insertPos hstate => exact .inr (.inl ⟨.insertPos, trivial, hstate⟩)
  | readToBeSent hstate => exact .inr (.inl ⟨.readToBeSent, trivial, hstate⟩)
  | @run now state _ _ hstate => exact .inr (.inr ⟨now, hstate⟩)
  | @writev accepted state hstate => exact .inr (.inl ⟨.writev accepted, trivial, hstate⟩)
  | @mark identify i q resp hq =>
    refine .inr (.inl ⟨.markFinished i identify, trivial, ?_⟩)
    simp only [Scheduler.step, Scheduler.stepMarkFinished, hq]

end Step

theorem schedulerName_of_reachable {exp : ℚ → ℚ} {p : Proxy} (h : (machine exp).Reachable p)
    (hreplies : p.replies ≤ 9) (d : Dir) : (p.side d).scheduler.name = d.name := by
  revert d
  revert hreplies
  apply Machine.Reachable.invariant _ _ h
  . rintro p ⟨m, now, fd, conf, events, mkfifo, opened, pipe, stdin, buf, respBuf, rfl⟩ _ d
    rfl
  . intro p label p' hreach ih hstep hreplies d
    have hbefore : p.replies ≤ 9 := by
      rcases respPipe_of_step hstep with ⟨hsame, -⟩ | ⟨hmore, -⟩ <;> omega
    rcases (sideStep_of_step hstep d).scheduler (holds_of_reachable hreach d) with
      hsame | ⟨l, -, hl⟩ | ⟨now, hnow⟩
    . rw [hsame]
      exact ih hbefore d
    . rw [(Scheduler.branch_of_step hl).name_eq]
      exact ih hbefore d
    . rw [(Scheduler.branch_of_step hnow).name_eq]
      exact (named_of_reachable hreach hbefore d).name_eq

theorem named_eq {exp : ℚ → ℚ} {p : Proxy} (h : (machine exp).Reachable p) (hreplies : p.replies ≤ 9)
    (d : Dir) : (p.side d).named = (p.side d).scheduler := by
  unfold Side.named
  rw [(named_of_reachable h hreplies d).name_eq, ← schedulerName_of_reachable h hreplies d]

theorem simulates (exp : ℚ → ℚ) (d : Dir)
    : Machine.Simulates (machine exp) Scheduler.machine (fun _ l => Scheduler.FromReader l)
        (fun p => p.replies ≤ 9) (fun p => (p.side d).scheduler) where
  init := by
    rintro p ⟨m, now, fd, conf, events, mkfifo, opened, pipe, stdin, buf, respBuf, rfl⟩
    exact ⟨d.name, fun _ => now d, rfl⟩
  closed := by
    intro p label p' hstep hreplies
    rcases respPipe_of_step hstep with ⟨hsame, -⟩ | ⟨hmore, -⟩ <;> omega
  step := by
    intro p label p' hreach hreplies hstep
    have hbefore : p.replies ≤ 9 := by
      rcases respPipe_of_step hstep with ⟨hsame, -⟩ | ⟨hmore, -⟩ <;> omega
    rcases (sideStep_of_step hstep d).scheduler (holds_of_reachable hreach d) with
      hsame | ⟨l, hfrom, hl⟩ | ⟨now, hnow⟩
    . exact .inl hsame
    . exact .inr ⟨l, hfrom, hl⟩
    . rw [named_eq hreach hbefore d] at hnow
      exact .inr ⟨.run now, trivial, hnow⟩

/--
Whatever holds of every run of one scheduler holds of both directions of the proxy.
-/
theorem scheduler_reachable {exp : ℚ → ℚ} {p : Proxy} (h : (machine exp).Reachable p)
    (hreplies : p.replies ≤ 9) (d : Dir)
    : Scheduler.machine.ReachableBy (fun _ l => Scheduler.FromReader l) (p.side d).scheduler
        ∧ (p.side d).scheduler.name = d.name :=
  ⟨(simulates exp d).reachableBy h hreplies, schedulerName_of_reachable h hreplies d⟩

def hello : List UInt8 := [4, 0, 0, 8, 0, 0, 0, 1]

theorem scheduler_reachable_hello
    : ∃ p : Proxy, (p.side .serverToClient).scheduler.sentAddrs = [0]
        ∧ Scheduler.machine.ReachableBy (fun _ l => Scheduler.FromReader l)
          (p.side .serverToClient).scheduler := by
  rcases @Machine.exists_of_replay _ _ (machine fun _ => 1) (fun _ _ => true)
      (forwardOne .serverToClient 4 8) (commanded hello)
      (fun p => decide (p.replies ≤ 9 ∧ (p.side .serverToClient).scheduler.sentAddrs = [0]))
      (.init (init_commanded _)) (by decide +kernel) with
    ⟨p, hreach, hp⟩
  rw [decide_eq_true_eq] at hp
  exact ⟨p, hp.2, (scheduler_reachable hreach.reachable hp.1 .serverToClient).1⟩

end Proxy
end OfpProxy
