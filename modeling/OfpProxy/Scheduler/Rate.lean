import OfpProxy.Scheduler.History
import OfpProxy.Spacing.Basic

/-!
This module shows that the queues with an interval keep it, however they are polled.
-/

namespace OfpProxy

def Timeval.ms (t : Timeval) : ℚ := t.tvSec * 1000 + t.tvUsec / 1000

theorem Timeval.msSince_eq (now last : Timeval) : now.msSince last = now.ms - last.ms := by
  unfold msSince ms
  push_cast
  ring

namespace Scheduler

def Poll.isFetchOf (p : Poll) (i : Nat) : Bool := p.queue = i && p.fetched.isSome

-- when fetchMsg of queue i returned a message
def History.fetchTimes (h : History) (i : Nat) : List ℚ :=
  (h.polls.filter fun p => p.isFetchOf i).map fun p => p.time.ms

theorem polls_record (s : State) (label : Label) (h : History)
    : (h.record s label).polls = h.polls
        ∨ ∃ now j q, label = .run now ∧ s.run = .poll j ∧ s.queues[j]? = some q
          ∧ (h.record s label).polls = h.polls ++ [h.pollOf j now q] := by
  cases label with
  | run now =>
    cases hrun : s.run with
    | poll j =>
      cases hq : s.queues[j]? with
      | none => exact .inl (by simp [History.record, History.recordRun, History.recordPoll, hrun, hq])
      | some q =>
        refine .inr ⟨now, j, q, rfl, rfl, hq, ?_⟩
        rw [History.record_poll hrun hq]
    | _ => exact .inl (by simp [History.record, History.recordRun, hrun])
  | putMsg arg mem fd garbage => exact .inl (by simp [History.record])
  | writev accepted => exact .inl (by simp [History.record])
  | _ => exact .inl rfl

theorem fetchTimes_record_of_other {s : State} {label : Label} {i : Nat} (h : History)
    (hother : ∀ now, label = .run now → s.run ≠ .poll i)
    : (h.record s label).fetchTimes i = h.fetchTimes i := by
  unfold History.fetchTimes
  rcases polls_record s label h with hsame | ⟨now, j, q, rfl, hrun, hq, hpolls⟩
  . rw [hsame]
  . have hj : ¬j = i := by
      intro hji
      rw [hji] at hrun
      apply hother now rfl hrun
    rw [hpolls, List.filter_append, List.filter_cons_of_neg (by simp [Poll.isFetchOf, History.pollOf, hj]),
      List.filter_nil, List.append_nil]

theorem fetchTimes_record_poll {s : State} {i : Nat} {q : Queue} (hrun : s.run = .poll i)
    (hq : s.queues[i]? = some q) (now : Timeval) (h : History)
    : (h.record s (.run now)).fetchTimes i
        =
      h.fetchTimes i ++ (if (q.fetchMsg now).1.isSome then [now.ms] else []) := by
  have hfetch : (h.pollOf i now q).isFetchOf i = (q.fetchMsg now).1.isSome := by
    simp [Poll.isFetchOf, History.pollOf]
  unfold History.fetchTimes
  rw [History.record_poll hrun hq]
  dsimp only
  rw [List.filter_append, List.map_append, List.filter_cons, hfetch]
  split <;> rfl

-- Every fetch of the queue lies at least as far back as its last_fetch.
structure Paced (i : Nat) (h : History) (q : Queue) : Prop where
  spaced : Spaced (2 * i : ℚ) (h.fetchTimes i)
  last : ∀ t ∈ h.fetchTimes i, t ≤ q.lastFetch.ms

theorem Paced.of_same {i : Nat} {h h' : History} {q q' : Queue} (hp : Paced i h q)
    (htimes : h'.fetchTimes i = h.fetchTimes i) (hlast : q'.lastFetch = q.lastFetch)
    : Paced i h' q' := by
  constructor
  . rw [htimes]
    apply hp.spaced
  . rw [htimes, hlast]
    apply hp.last

theorem Paced.poll {s : State} {h : History} {i : Nat} {q : Queue} (hp : Paced i h q)
    (hrun : s.run = .poll i) (hq : s.queues[i]? = some q) (hinterval : q.intervalMs = 2 * i)
    (now : Timeval) : Paced i (h.record s (.run now)) (q.fetchMsg now).2 := by
  have htimes := fetchTimes_record_poll hrun hq now h
  unfold Queue.fetchMsg at *
  split
  . next helapsed =>
    rw [if_pos helapsed] at htimes
    rw [hinterval, Timeval.msSince_eq] at helapsed
    have hlater : ∀ t ∈ h.fetchTimes i, t + 2 * i < now.ms := by
      intro t ht
      have hle := hp.last t ht
      linarith
    have hnonneg : (0 : ℚ) ≤ 2 * i := by positivity
    dsimp only at htimes
    constructor
    . rw [htimes]
      split
      . apply hp.spaced.concat hlater
      . rw [List.append_nil]
        apply hp.spaced
    . rw [htimes]
      intro t ht
      rw [List.mem_append] at ht
      rcases ht with hold | hnew
      . have hlt := hlater t hold
        dsimp only
        linarith
      . split at hnew
        . rw [List.mem_singleton] at hnew
          exact le_of_eq hnew
        . simp at hnew
  . next helapsed =>
    rw [if_neg helapsed] at htimes
    exact hp.of_same (by simpa using htimes) rfl

theorem Paced.step {s : State} {h : History} {label : Label} {i : Nat} {q q' : Queue}
    (hp : Paced i h q) (hq : s.queues[i]? = some q) (hinterval : q.intervalMs = 2 * i)
    (hstep : QueueStep s label i q q') : Paced i (h.record s label) q' := by
  cases hstep with
  | push hqid => exact hp.of_same (fetchTimes_record_of_other h (by simp)) rfl
  | fetch hrun => apply hp.poll hrun hq hinterval
  | clean hrun => exact hp.of_same (fetchTimes_record_of_other h (by simp [hrun])) rfl
  | touch hlabel _ =>
    refine hp.of_same (fetchTimes_record_of_other h ?_) rfl
    rintro now rfl
    exact hlabel

theorem intervalMs_of_le {i : Nat} (hi : 5 ≤ i) : Schedule.intervalMs i = 2 * i := by
  unfold Schedule.intervalMs
  rw [if_neg (by omega), mul_comm]

theorem paced_of_reachable {x : State × History} (hx : observed.Reachable x) {i : Nat} (hi : 5 ≤ i)
    {q : Queue} (hq : x.1.queues[i]? = some q) : Paced i x.2 q := by
  revert q
  apply Machine.Reachable.invariant _ _ hx
  . rintro ⟨s, h⟩ ⟨-, -, hpolls, -⟩ q hq
    have hnone : h.fetchTimes i = [] := by
      unfold History.fetchTimes
      rw [hpolls]
      rfl
    constructor
    . rw [hnone]
      apply Spaced.nil
    . simp [hnone]
  . rintro ⟨s, h⟩ label ⟨s', h'⟩ hreach hs hstep q' hq'
    rcases Machine.withRecord_step hstep with ⟨hstep', rfl⟩
    have hreach' : machine.Reachable s := Machine.ReachableBy.of_withRecord hreach
    rcases queueStep_of_step (sized_of_reachable hreach') hstep' hq' with ⟨q, hq, hqstep⟩
    have hinterval := intervalMs_of_reachable hreach' hq
    rw [intervalMs_of_le hi] at hinterval
    apply (hs hq).step hq hinterval hqstep

/--
The fetches of a throttled queue are more than its interval apart, so only so many of them fit in
any span of time.
-/
theorem fetches_spaced {s : State} {h : History} (hreach : observed.Reachable (s, h)) {i : Nat}
    (hi : 5 ≤ i) (hlt : i < Schedule.queueNum)
    : Spaced (2 * i : ℚ) (h.fetchTimes i)
        ∧ ∀ begin span : ℚ, 0 ≤ span →
            (((h.fetchTimes i).filter fun t => begin ≤ t ∧ t ≤ begin + span).length : ℚ)
              ≤ span / (2 * i) + 1 := by
  have hreach' : machine.Reachable s := Machine.ReachableBy.of_withRecord hreach
  have hi' : i < s.queues.length := by
    rw [(sized_of_reachable hreach').queues]
    apply hlt
  have hspaced := (paced_of_reachable hreach hi (List.getElem?_eq_getElem hi')).spaced
  refine ⟨hspaced, ?_⟩
  intro begin span hspan
  have hpos : (0 : ℚ) < i := by
    have hpos' : 0 < i := by omega
    exact_mod_cast hpos'
  apply (hspaced.filter _).length_le (by linarith) hspan
  intro t ht
  simpa using (List.mem_filter.mp ht).2

def throttledRequest : List Label :=
  [.putMsg { Schedule.initArg with qid := some flowModQueue2Id, len := 8 }
      (.ofList [4, 2, 0, 8, 0, 0, 0, 1]) 5 0,
    .insertPos,
    .readToBeSent]

theorem fetches_spaced_twoRequests
    : ∃ s h, observed.Reachable (s, h) ∧ (h.fetchTimes 7).length = 2
        ∧ Spaced (2 * (7 : Nat) : ℚ) (h.fetchTimes 7)
        ∧ ∀ begin span : ℚ, 0 ≤ span →
            (((h.fetchTimes 7).filter fun t => begin ≤ t ∧ t ≤ begin + span).length : ℚ)
              ≤ span / (2 * (7 : Nat)) + 1 := by
  have hrun := @exists_observed_of_replay "SERVER"
    (throttledRequest ++ throttledRequest ++ ticks 11 ++ [.writev (some 8)] ++ ticks 10
      ++ [.run ⟨1, 14001⟩])
    (fun x => decide ((x.2.fetchTimes 7).length = 2)) (by decide +kernel)
  rcases hrun with ⟨⟨s, h⟩, hreach, hlength⟩
  rw [decide_eq_true_eq] at hlength
  exact ⟨s, h, hreach, hlength, fetches_spaced hreach (by decide) (by decide)⟩

end Scheduler
end OfpProxy
