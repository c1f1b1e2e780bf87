import Mathlib.Analysis.Complex.ExponentialBounds
import OfpProxy.Proxy.Step
import OfpProxy.Rewrite.Lemmas.PacketOut
import OfpProxy.Schedule.Load

/-!
This module shows when a message is held back in a throttled queue, in terms of everything that both
readers have reported since the connection was accepted.
-/

namespace OfpProxy
namespace Proxy

open PriorityManager (DecidesHalf)

-- what `setupConf` leaves behind
def setupConf (start : Timeval) (clock : Nat → Timeval) : PolicyConfig where
  priorityManager := .new 1 20 start
  clock := clock
  updates := []

-- the machine, where the load accounting is that of this connection alone
def configured (exp : ℚ → ℚ) (start : Timeval) (clock : Nat → Timeval) : Machine Proxy Label where
  init p := (machine exp).init p ∧ p.conf = setupConf start clock
  step := step exp

def windowAt (start now : Timeval) : Nat := (PriorityManager.new 1 20 start).getNowWindowId now

/--
The clock never goes back, and the window ids do not wrap: this takes more than 36 hours.
-/
structure Steady (start : Timeval) (clock : Nat → Timeval) : Prop where
  forward : ∀ m n, m ≤ n → (clock m).msSince start ≤ (clock n).msSince start
  bounds : ∀ n, 0 ≤ (clock n).msSince start ∧ (clock n).msSince start < 65536 * 2000

theorem windowAt_eq {start now : Timeval} (h : 0 ≤ now.msSince start)
    (hlt : now.msSince start < 65536 * 2000) : (windowAt start now : Int) = ⌊now.msSince start / 2000⌋ := by
  have hwid : (0 : ℚ) ≤ now.msSince start / 2000 := by positivity
  have hfloor : ⌊now.msSince start / 2000⌋ < 65536 := by
    rw [Int.floor_lt, div_lt_iff₀ (by norm_num)]
    exact_mod_cast hlt
  have hnonneg : 0 ≤ ⌊now.msSince start / 2000⌋ := Int.floor_nonneg.mpr hwid
  have htrunc : (now.msSince start / 2000).num.tdiv (now.msSince start / 2000).den
      = ⌊now.msSince start / 2000⌋ := by
    rw [Int.tdiv_eq_ediv_of_nonneg (Rat.num_nonneg.mpr hwid), Rat.floor_def']
  change ((u16 ((now.msSince start / 2000).num.tdiv (now.msSince start / 2000).den) : Nat) : Int) = _
  rw [htrunc, u16_of_lt hnonneg hfloor]
  omega

theorem Steady.windowAt_le {start : Timeval} {clock : Nat → Timeval} (h : Steady start clock) {m n : Nat}
    (hle : m ≤ n) : windowAt start (clock m) ≤ windowAt start (clock n) := by
  have hm := windowAt_eq (h.bounds m).1 (h.bounds m).2
  have hn := windowAt_eq (h.bounds n).1 (h.bounds n).2
  have hfloor : ⌊(clock m).msSince start / 2000⌋ ≤ ⌊(clock n).msSince start / 2000⌋ := by
    apply Int.floor_mono
    have := h.forward m n hle
    linarith
  omega

/--
The priority manager is what the reports have made of it, and each of them took one look at the clock.
-/
structure Accounted (start : Timeval) (times : Nat → Timeval) (conf : PolicyConfig) : Prop where
  small : ∀ uep ∈ conf.updates, uep.Small
  charged : conf.priorityManager = PolicyConfig.charge (.new 1 20 start) conf.updates
  clock : ∀ n, conf.clock n = times (conf.updates.length + n)
  windows : ∀ i uep, conf.updates[i]? = some uep → uep.window = windowAt start (times i)

theorem start_charge (pm : PriorityManager) (log : List UEPMsg)
    : (PolicyConfig.charge pm log).start = pm.start := by
  unfold PolicyConfig.charge
  induction log generalizing pm with
  | nil => rfl
  | cons uep log ih =>
    rw [List.foldl_cons, ih]
    unfold PriorityManager.updateSplitOfUEP
    split <;> rfl

namespace Accounted

variable {start : Timeval} {clock : Nat → Timeval} {conf conf' : PolicyConfig} {log : List UEPMsg}

theorem report (h : Accounted start clock conf) {uep : UEPMsg} (hsmall : uep.Small)
    (hwindow : uep.window = conf.getNowWindowId.1) : Accounted start clock (conf.report uep) := by
  have hupdates : (conf.report uep).updates = conf.updates ++ [uep] := rfl
  constructor
  . rw [hupdates, List.forall_mem_append, List.forall_mem_singleton]
    exact ⟨h.small, hsmall⟩
  . rw [hupdates, PolicyConfig.charge, List.foldl_append]
    change conf.priorityManager.updateSplitOfUEP _ _ _ = _
    rw [h.charged]
    rfl
  . intro n
    rw [hupdates, List.length_append, List.length_singleton, Nat.add_assoc, ← Nat.add_comm n]
    exact h.clock (n + 1)
  . intro i last hlast
    rw [hupdates, List.getElem?_append] at hlast
    split at hlast
    . exact h.windows i last hlast
    . next hlt =>
      rw [List.getElem?_singleton] at hlast
      split at hlast
      . next hzero =>
        have hi : i = conf.updates.length + 0 := by omega
        have hstart : conf.priorityManager.start = start := by
          rw [h.charged, start_charge]
          rfl
        rw [← Option.some.inj hlast, hwindow, hi, ← h.clock 0, windowAt]
        unfold PolicyConfig.getNowWindowId PolicyConfig.gettimeofday PriorityManager.getNowWindowId
        dsimp only
        rw [hstart]
        rfl
      . contradiction

theorem reports (h : Accounted start clock conf) (hlog : Reports conf conf' log)
    : Accounted start clock conf' := by
  induction hlog with
  | nothing => exact h
  | concat _ hsmall hwindow ih => exact ih.report hsmall hwindow

theorem inOrder (h : Accounted start clock conf) (hsteady : Steady start clock)
    : Reported.InOrder conf.updates := by
  unfold Reported.InOrder
  rw [List.pairwise_iff_getElem]
  intro i j hi hj hlt
  rw [h.windows i _ (List.getElem?_eq_getElem hi), h.windows j _ (List.getElem?_eq_getElem hj)]
  exact hsteady.windowAt_le (Nat.le_of_lt hlt)

end Accounted

section Step

variable {exp : ℚ → ℚ} {p p' : Proxy} {d : Dir}

-- Only the readers report anything.
theorem conf_of_step {label : Label} (hstep : step exp p label = some p')
    (hlabel : ∀ d, label ≠ .receive d) : p'.conf = p.conf := by
  cases label with
  | receive d => exact absurd rfl (hlabel d)
  | put d qid garbage =>
    simp only [step, stepPut] at hstep
    split at hstep
    . split at hstep
      . contradiction
      . rw [← Option.some.inj hstep]
        rfl
    . contradiction
  | insertPos d | readToBeSent d =>
    rcases exists_of_stepReader hstep with ⟨state, -, rfl⟩
    rfl
  | run d now =>
    simp only [step, stepRun, Option.map_eq_some_iff] at hstep
    rcases hstep with ⟨state, -, rfl⟩
    rfl
  | writev d accepted =>
    simp only [step, stepWritev] at hstep
    split at hstep
    . contradiction
    . rw [Option.map_eq_some_iff] at hstep
      rcases hstep with ⟨state, -, rfl⟩
      rfl
  | respond d =>
    rcases respond_of_step hstep with ⟨-, r, -, hrespond⟩
    cases hrespond with
    | taken | nothing => rfl
  | mark d =>
    simp only [step, stepMark] at hstep
    split at hstep
    . split at hstep
      all_goals
        rw [← Option.some.inj hstep]
        rfl
    . contradiction
  | kill =>
    simp only [step, stepKill] at hstep
    split at hstep
    . rw [← Option.some.inj hstep]
      rfl
    . contradiction

theorem judged_of_receive (hstep : stepReceive exp p d = some p')
    : p'.conf = p.conf
        ∨ ∃ arg log, (p'.side d).reader = .parsed arg ∧ Judged exp p.conf arg p'.conf log := by
  cases receive_of_step hstep with
  | ended => exact .inl rfl
  | @delivered r res hdelivered =>
    rcases Schedule.getOFPMsgArg_judged hdelivered.parsed with ⟨log, hjudged⟩
    refine .inr ⟨res.arg, log, ?_, hjudged⟩
    change (((p.set d _).set d.other _).side d).reader = _
    rw [side_set_set_other]
    rfl

end Step

variable {exp : ℚ → ℚ} {start : Timeval} {clock : Nat → Timeval} {p p' : Proxy} {d : Dir}

theorem accounted_of_reachable (h : (configured exp start clock).Reachable p)
    : Accounted start clock p.conf := by
  apply h.invariant
  . rintro p ⟨-, hconf⟩
    rw [hconf]
    exact ⟨by simp [setupConf], rfl, by simp [setupConf], by simp [setupConf]⟩
  . intro p label p' _ haccounted hstep
    by_cases hlabel : ∃ d, label = .receive d
    . rcases hlabel with ⟨d, rfl⟩
      rcases judged_of_receive hstep with hsame | ⟨arg, log, -, hjudged⟩
      . rw [hsame]
        exact haccounted
      . exact haccounted.reports hjudged.reports
    . rw [not_exists] at hlabel
      rw [conf_of_step hstep hlabel]
      exact haccounted

/--
A reader that reports something for a message puts it into a throttled queue exactly if the user it
reported last has a share of more than ln 2 in everything reported for the window, unless the message
goes to the first queue anyway.
-/
theorem throttled_iff_share (hexp : DecidesHalf exp) (hsteady : Steady start clock)
    (h : (configured exp start clock).Reachable p)
    (hstep : (configured exp start clock).step p (.receive d) = some p') {arg : OFPMsgArg}
    (hreader : (p'.side d).reader = .parsed arg) {log : List UEPMsg} {last : UEPMsg}
    (hupdates : p'.conf.updates = p.conf.updates ++ (log ++ [last]))
    (htotal : Tally.total (Reported.entries p'.conf.updates last.window) < 4294967296)
    (hqid : arg.qid ≠ some importantQueueId)
    : arg.uepid = last.uepid
        ∧ (arg.IsThrottled ↔
            Real.log 2 < Reported.share p'.conf.updates last.window last.uepid) := by
  rcases judged_of_receive hstep with hsame | ⟨arg', log', hparsed, hjudged⟩
  . rw [hsame] at hupdates
    simp at hupdates
  . rw [hreader, ReaderPc.parsed.injEq] at hparsed
    rw [hjudged.reports.updates, List.append_cancel_left_eq] at hupdates
    have hlast : log'.getLast? = some last := by rw [hupdates, List.getLast?_concat]
    rw [← hparsed] at hjudged
    rcases hjudged.decided last hlast hqid with ⟨huepid, hthrottled⟩
    refine ⟨huepid, ?_⟩
    have haccounted := (accounted_of_reachable h).reports hjudged.reports
    have hmanager : p'.conf.priorityManager
        = (PriorityManager.new 1 20 start).updateAll (p'.conf.updates.map UEPMsg.call) := by
      rw [haccounted.charged, PolicyConfig.charge, PriorityManager.charge_eq haccounted.small]
    have hlastOf : p'.conf.updates.getLast? = some last := by
      rw [hjudged.reports.updates, List.getLast?_append, hlast, Option.some_or]
    rw [hthrottled, PriorityManager.isDangerous_iff_exact hexp,
      PriorityManager.isDangerousExact_iff_log, hmanager,
      PriorityManager.ratio_lastReport haccounted.small (haccounted.inOrder hsteady) hlastOf htotal]

-- rounds to 0 and 1, and is evaluated for a high load
noncomputable def roundedExp (x : ℚ) : ℚ :=
  if x < -7 / 10 then
    0
  else if Real.exp (x : ℝ) + Real.exp (x : ℝ) < 1 then
    0
  else
    1

theorem decidesHalf_roundedExp : DecidesHalf roundedExp := by
  intro x
  unfold roundedExp
  split
  . next hx =>
    have hcast : (x : ℝ) < -7 / 10 := by exact_mod_cast hx
    have hlog := Real.log_two_lt_d9
    have hexp : Real.exp (x : ℝ) < 1 / 2 := by
      rw [← Real.lt_log_iff_exp_lt (by norm_num), one_div, Real.log_inv]
      linarith
    simp only [hexp, iff_true]
    norm_num
  . split
    . next hexp =>
      have hhalf : Real.exp (x : ℝ) < 1 / 2 := by linarith
      simp only [hhalf, iff_true]
      norm_num
    . next hexp =>
      have hhalf : ¬Real.exp (x : ℝ) < 1 / 2 := by
        intro hlt
        apply hexp
        linarith
      simp only [hhalf, iff_false]
      norm_num

def heavyAction : Action := ⟨⟨25, [0, 0, 0, 0, 2, 7, 0, 0, 100, 0, 0, 0], by decide⟩, by decide⟩

def heavyPacketOut : PacketOut :=
  { taggedPacketOut with
      actions := [outputAction, heavyAction]
      length_lt := by decide }

def heavyUEP : UEPMsg := ⟨⟨2, 7⟩, 0, 100⟩

-- the message has been received, and it was not one for the first queue
def judges (p : Proxy) : Bool :=
  p.conf.updates = [heavyUEP]
    && match (p.side .serverToClient).reader with
      | .parsed arg => arg.qid ≠ some importantQueueId
      | _ => false

theorem throttled_iff_share_heavyPacketOut
    : ∃ (p : Proxy) (arg : OFPMsgArg), (configured roundedExp ⟨0, 0⟩ fun _ => ⟨0, 0⟩).Reachable p
        ∧ (p.side .serverToClient).reader = .parsed arg ∧ arg.IsThrottled := by
  have hsteady : Steady ⟨0, 0⟩ fun _ => ⟨0, 0⟩ := by
    constructor
    . intro m n _
      apply le_refl
    . intro n
      decide +kernel
  have hstart : (configured roundedExp ⟨0, 0⟩ fun _ => ⟨0, 0⟩).Reachable (commanded heavyPacketOut.encode) :=
    .init ⟨init_commanded _, rfl⟩
  have hstep : ((configured roundedExp ⟨0, 0⟩ fun _ => ⟨0, 0⟩).step (commanded heavyPacketOut.encode)
      (.receive .serverToClient)).map judges = some true := by
    decide +kernel
  rw [Option.map_eq_some_iff] at hstep
  rcases hstep with ⟨p, hp, hjudges⟩
  unfold judges at hjudges
  split at hjudges
  . next arg harg =>
    simp only [Bool.and_eq_true, decide_eq_true_eq] at hjudges
    rcases hjudges with ⟨hupdates, hqid⟩
    have hshare := @throttled_iff_share roundedExp ⟨0, 0⟩ _ _ p .serverToClient decidesHalf_roundedExp
      hsteady hstart hp arg harg [] heavyUEP hupdates (by rw [hupdates]; decide) hqid
    refine ⟨p, arg, hstart.step trivial hp, harg, hshare.2.mpr ?_⟩
    have hvalue : Reported.share [heavyUEP] heavyUEP.window heavyUEP.uepid = 100 / 105 := by
      decide +kernel
    rw [hupdates, hvalue]
    have hlog := Real.log_two_lt_d9
    push_cast
    linarith
  . simp at hjudges

end Proxy
end OfpProxy
