import OfpProxy.Scheduler.Ownership

/-!
This module says what a step of the scheduler does to one queue, and what the threads leave alone of
each other's state.
-/

namespace OfpProxy
namespace Scheduler

structure Same (msg msg' : OFPMsg) : Prop where
  addr : msg'.addr = msg.addr
  priority : msg'.priority = msg.priority
  maxWaitTime : msg'.maxWaitTime = msg.maxWaitTime
  readToBeSent : msg.readToBeSent = true → msg'.readToBeSent = true

theorem Same.refl (msg : OFPMsg) : Same msg msg := ⟨rfl, rfl, rfl, id⟩

theorem same_refl (msgs : List OFPMsg) : List.Forall₂ Same msgs msgs := by
  rw [List.forall₂_same]
  intro msg _
  apply Same.refl

theorem same_map {f : OFPMsg → OFPMsg} (h : ∀ msg, Same msg (f msg)) (msgs : List OFPMsg)
    : List.Forall₂ Same msgs (msgs.map f) := by
  rw [List.forall₂_map_right_iff, List.forall₂_same]
  intro msg _
  apply h

theorem same_mem {msgs msgs' : List OFPMsg} (h : List.Forall₂ Same msgs msgs')
    : ∀ msg' ∈ msgs', ∃ msg ∈ msgs, Same msg msg' := by
  induction h with
  | nil => simp
  | cons hmsg _ ih =>
    simp only [List.forall_mem_cons, List.exists_mem_cons_iff]
    exact ⟨.inl hmsg, fun m hm => .inr (ih m hm)⟩

theorem map_addr_of_same {msgs msgs' : List OFPMsg} (hsame : List.Forall₂ Same msgs msgs')
    : msgs'.map OFPMsg.addr = msgs.map OFPMsg.addr := by
  induction hsame with
  | nil => rfl
  | cons hmsg _ ih => rw [List.map_cons, List.map_cons, hmsg.addr, ih]

theorem Same.isPlain {msg msg' : OFPMsg} (h : Same msg msg') (hplain : msg.IsPlain) : msg'.IsPlain where
  priority := by rw [h.priority, hplain.priority]
  maxWaitTime := by
    rw [h.maxWaitTime]
    apply hplain.maxWaitTime
  readToBeSent := h.readToBeSent hplain.readToBeSent

-- the step puts a message in queue i, or polls it
def Label.actsOn (s : State) (i : Nat) : Label → Prop
  | .putMsg arg _ _ _ => arg.qid = some i
  | .run _ => s.run = .poll i
  | _ => False

/--
What a step does to queue `i`.
-/
inductive QueueStep (s : State) : Label → Nat → Queue → Queue → Prop where
  | push {arg : OFPMsgArg} {mem : Mem} {fd : Int} {garbage i : Nat} {q : Queue} :
    arg.qid = some i
      → QueueStep s (.putMsg arg mem fd garbage) i q
          { q with msgQueue := q.msgQueue ++ [Schedule.newOFPMsg mem arg fd s.next garbage] }
  | fetch {now : Timeval} {i : Nat} {q : Queue} :
    s.run = .poll i → QueueStep s (.run now) i q (q.fetchMsg now).2
  | clean {now : Timeval} {i : Nat} {cleanNum : Int} {q : Queue} :
    s.run = .clean i cleanNum
      → QueueStep s (.run now) i q { q with msgQueue := q.msgQueue.filter fun msg => !msg.isDone }
  | touch {label : Label} {i : Nat} {q : Queue} {msgs : List OFPMsg} :
    ¬label.actsOn s i → List.Forall₂ Same q.msgQueue msgs
      → QueueStep s label i q { q with msgQueue := msgs }

theorem QueueStep.none {s : State} {label : Label} {i : Nat} {q : Queue} (h : ¬label.actsOn s i)
    : QueueStep s label i q q := .touch h (same_refl q.msgQueue)

theorem queueStep_set {s : State} {label : Label} {qs : List Queue} {j i : Nat} {r r' q' : Queue}
    (hr : qs[j]? = some r) (hstep : QueueStep s label j r r')
    (hother : i ≠ j → ¬label.actsOn s i) (hq' : (qs.set j r')[i]? = some q')
    : ∃ q, qs[i]? = some q ∧ QueueStep s label i q q' := by
  by_cases hij : i = j
  . subst hij
    rw [List.getElem?_set_self' , hr] at hq'
    simp only [Option.map_eq_map, Option.map_some, Function.const_apply, Option.some.injEq] at hq'
    subst hq'
    exact ⟨r, hr, hstep⟩
  . rw [List.getElem?_set_ne (Ne.symm hij)] at hq'
    exact ⟨q', hq', .none (hother hij)⟩

theorem queueStep_update {s : State} {label : Label} {addr : Nat} {f : OFPMsg → OFPMsg} {i : Nat}
    {q' : Queue} (hf : ∀ msg, Same msg (f msg)) (hlabel : ¬label.actsOn s i)
    (hq' : (s.update addr f).queues[i]? = some q')
    : ∃ q, s.queues[i]? = some q ∧ QueueStep s label i q q' := by
  simp only [State.update, List.getElem?_map, Option.map_eq_some_iff] at hq'
  rcases hq' with ⟨q, hq, rfl⟩
  refine ⟨q, hq, .touch hlabel (same_map ?_ _)⟩
  intro msg
  split
  . apply hf
  . apply Same.refl

section QueueStep

variable {s s' : State} {i : Nat} {q' : Queue}

theorem queueStep_markFinished {qid identify : Nat} {q : Queue} (hq : s.queues[qid]? = some q)
    (hq' : (s.queues.set qid (q.markFinished identify).2)[i]? = some q')
    : ∃ q, s.queues[i]? = some q ∧ QueueStep s (.markFinished qid identify) i q q' := by
  refine queueStep_set hq ?_ (by simp [Label.actsOn]) hq'
  cases q.markFinished_cases identify with
  | inl hsame =>
    rw [hsame]
    exact .none (by simp [Label.actsOn])
  | inr hmarked =>
    rcases hmarked with ⟨xs, msg, ys, hmsgs, -, -, hmark⟩
    rw [hmark]
    apply QueueStep.touch (by simp [Label.actsOn])
    rw [hmsgs]
    have hsame : Same msg { msg with finished := true } := ⟨rfl, rfl, rfl, id⟩
    apply List.rel_append (same_refl xs) (.cons hsame (same_refl ys))

theorem queueStep_fetch {now : Timeval} {j : Nat} {q : Queue} (hrun : s.run = .poll j)
    (hq : s.queues[j]? = some q) (hq' : (s.queues.set j (q.fetchMsg now).2)[i]? = some q')
    : ∃ q, s.queues[i]? = some q ∧ QueueStep s (.run now) i q q' := by
  apply queueStep_set hq (.fetch hrun) _ hq'
  simpa [Label.actsOn, hrun] using Ne.symm

theorem queueStep_noMessage {now : Timeval} {j : Nat} (hs : Sized s) (hrun : s.run = .poll j)
    (hj : ¬j < Schedule.queueNum) (hq' : s.queues[i]? = some q')
    : ∃ q, s.queues[i]? = some q ∧ QueueStep s (.run now) i q q' := by
  have hi := (List.getElem?_eq_some_iff.mp hq').1
  rw [hs.queues] at hi
  have hne : j ≠ i := by omega
  exact ⟨q', hq', .none (by simp [Label.actsOn, hrun, hne])⟩

theorem queueStep_of_branch {label : Label} (hs : Sized s) (h : Branch s label s')
    (hq' : s'.queues[i]? = some q') : ∃ q, s.queues[i]? = some q ∧ QueueStep s label i q q' := by
  cases h with
  | push hput hqid hq hsize =>
    apply queueStep_set hq (.push hqid) _ hq'
    intro hne
    simpa [Label.actsOn, hqid] using Ne.symm hne
  | insertPos hput => exact ⟨q', hq', .none (by simp [Label.actsOn])⟩
  | readToBeSent hput =>
    refine queueStep_update ?_ (by simp [Label.actsOn]) hq'
    exact fun msg => ⟨rfl, rfl, rfl, fun _ => rfl⟩
  | markFinished hq => apply queueStep_markFinished hq hq'
  | @clean now j cleanNum q res hrun hj hq hres =>
    rw [hs.clean_eq hq hres] at hq'
    exact queueStep_set hq (.clean hrun) (by simp [Label.actsOn, hrun]) hq'
  | nextQueue hrun hj hq hfetch => apply queueStep_fetch hrun hq hq'
  | fetch hrun hj hq hfetch => apply queueStep_fetch hrun hq hq'
  | noMessage hrun hj => apply queueStep_noMessage hs hrun hj hq'
  | mark hrun hfind =>
    refine queueStep_update ?_ (by simp [Label.actsOn, hrun]) hq'
    exact fun msg => ⟨rfl, rfl, rfl, id⟩
  | write hrun hfind hacc => exact ⟨q', hq', .none (by simp [Label.actsOn])⟩
  | finish hrun hfind hneed =>
    refine queueStep_update ?_ (by simp [Label.actsOn, hrun]) hq'
    exact fun msg => ⟨rfl, rfl, rfl, id⟩
  | toClean hrun | noClean hrun | cleanEnd hrun | toPoll hrun | noCredit hrun | needTime hrun
  | takeCredit hrun | noSchedule hrun => exact ⟨q', hq', .none (by simp [Label.actsOn, hrun])⟩

theorem queueStep_of_step {label : Label} (hs : Sized s) (h : step s label = some s')
    (hq' : s'.queues[i]? = some q') : ∃ q, s.queues[i]? = some q ∧ QueueStep s label i q q' := by
  apply queueStep_of_branch hs (branch_of_step h) hq'

end QueueStep

theorem QueueStep.intervalMs_eq {s : State} {label : Label} {i : Nat} {q q' : Queue}
    (h : QueueStep s label i q q') : q'.intervalMs = q.intervalMs := by
  cases h with
  | fetch hrun =>
    unfold Queue.fetchMsg
    split <;> rfl
  | _ => rfl

theorem State.init_queue {name : String} {now : Nat → Timeval} {i : Nat} {q : Queue}
    (h : (State.init name now).queues[i]? = some q) : q = .new (Schedule.intervalMs i) (now i) := by
  simp only [State.init, List.getElem?_map, Option.map_eq_some_iff] at h
  rcases h with ⟨j, hj, rfl⟩
  rw [List.getElem?_eq_some_iff] at hj
  rcases hj with ⟨hlt, hj⟩
  rw [List.getElem_range] at hj
  rw [hj]

theorem intervalMs_of_reachable {s : State} (h : machine.Reachable s) {i : Nat} {q : Queue}
    (hq : s.queues[i]? = some q) : q.intervalMs = Schedule.intervalMs i := by
  revert i q
  apply Machine.Reachable.invariant _ _ h
  . rintro s ⟨name, now, rfl⟩ i q hq
    rw [State.init_queue hq]
    rfl
  . intro s label s' hreach hs hstep i q' hq'
    rcases queueStep_of_step (sized_of_reachable hreach) hstep hq' with ⟨q, hq, hqstep⟩
    rw [hqstep.intervalMs_eq, hs hq]

section Frame

variable {s s' : State} {label : Label}

theorem exists_queue_of_step (hs : Sized s) (hstep : step s label = some s') {i : Nat} {q : Queue}
    (hq : s.queues[i]? = some q)
    : ∃ q', s'.queues[i]? = some q' ∧ QueueStep s label i q q' := by
  have hi := (List.getElem?_eq_some_iff.mp hq).1
  have hs' := hs.of_branch (branch_of_step hstep)
  rw [hs.queues, ← hs'.queues] at hi
  have hq' := List.getElem?_eq_getElem hi
  rcases queueStep_of_step hs hstep hq' with ⟨r, hr, hqstep⟩
  rw [hq, Option.some_inj] at hr
  subst hr
  exact ⟨_, hq', hqstep⟩

theorem stepWritev_eq {accepted : Option Nat} (hstep : stepWritev s accepted = some s')
    : ∃ addr msg, s.run = .marked addr ∧ s.find addr = some msg
        ∧ s' = { s with sent := s.sent ++ [⟨msg, accepted⟩], run := .written addr } := by
  cases branch_of_stepWritev hstep with
  | @write addr msg accepted hrun hfind hacc => exact ⟨addr, msg, hrun, hfind, rfl⟩

theorem stepRun_frame {now : Timeval} (hstep : stepRun s now = some s')
    : s'.pushed = s.pushed ∧ s'.put = s.put ∧ s'.sent = s.sent := by
  cases branch_of_stepRun hstep with
  | _ => exact ⟨rfl, rfl, rfl⟩

theorem run_of_fetched {now : Timeval} {addr : Nat} (hstep : stepRun s now = some s')
    (hrun : s'.run = .fetched addr)
    : ∃ i q msg, s.run = .poll i ∧ s.queues[i]? = some q ∧ (q.fetchMsg now).1 = some msg
        ∧ msg.addr = addr := by
  cases branch_of_stepRun hstep with
  | @fetch now i q msg hpoll hi hq hfetch => exact ⟨i, q, msg, hpoll, hq, hfetch, RunPc.fetched.inj hrun⟩
  | _ => contradiction

theorem run_of_marked {now : Timeval} {addr : Nat} (hstep : stepRun s now = some s')
    (hrun : s'.run = .marked addr) : s.run = .fetched addr := by
  cases branch_of_stepRun hstep with
  | mark hfetched hfind => rw [hfetched, RunPc.marked.inj hrun]
  | _ => contradiction

-- What the other threads do leaves the program point of `run` and what it has written alone.
theorem step_other_frame (hrun : ∀ now, label ≠ .run now) (hwritev : ∀ accepted, label ≠ .writev accepted)
    (hstep : step s label = some s') : s'.run = s.run ∧ s'.sent = s.sent := by
  cases branch_of_step hstep with
  | push | insertPos | readToBeSent | markFinished => exact ⟨rfl, rfl⟩
  | write => exact absurd rfl (hwritev _)
  | _ => exact absurd rfl (hrun _)

end Frame

end Scheduler
end OfpProxy
