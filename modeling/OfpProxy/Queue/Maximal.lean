import Mathlib.Algebra.Order.Ring.Unbundled.Rat
import OfpProxy.Queue.Lemmas

/-!
This module shows for which queues `fetchMsg` returns a message that no other one has to go in front
of. `lessPriority` compares a waiting message with an overdue one by priority, so an overdue message
only gets the lead from a waiting one by a higher priority, and keeps it from then on.
-/

namespace OfpProxy

def OFPMsg.isReady (msg : OFPMsg) : Bool := !msg.inProcess ∧ msg.readToBeSent

def OFPMsg.isOverdue (msg : OFPMsg) : Bool := msg.maxWaitTime ≤ 0

-- the step of the scan in `fetchMsg`
def leading (msg m : OFPMsg) : OFPMsg := if lessPriority msg m then m else msg

/--
Where an overdue message gets the lead: the messages in front of it, which all have a lower priority,
and the rest of the queue from it on.
-/
def overtaking (seen : List OFPMsg) : List OFPMsg → Option (List OFPMsg × List OFPMsg)
  | [] => none
  | m :: msgs =>
    if m.isOverdue ∧ seen.all (fun msg => msg.priority < m.priority) then
      some (seen, m :: msgs)
    else
      overtaking (seen ++ [m]) msgs

-- No overdue message in front of that place has waited longer than all of those from there on.
def OverdueInTurn (msgs : List OFPMsg) : Prop :=
  ∀ p ∈ overtaking [] msgs, ∀ x ∈ p.1, x.isOverdue = true
    → ∃ y ∈ p.2, y.isOverdue = true ∧ y.maxWaitTime ≤ x.maxWaitTime

instance (msgs : List OFPMsg) : Decidable (OverdueInTurn msgs) :=
  inferInstanceAs (Decidable (∀ p ∈ overtaking [] msgs, ∀ x ∈ p.1, x.isOverdue = true
    → ∃ y ∈ p.2, y.isOverdue = true ∧ y.maxWaitTime ≤ x.maxWaitTime))

theorem lessPriority_of_overdue {t1 : OFPMsg} (h1 : t1.isOverdue = true) (t2 : OFPMsg)
    : lessPriority t1 t2 = true ↔ t2.isOverdue = true ∧ t2.maxWaitTime < t1.maxWaitTime := by
  simp only [OFPMsg.isOverdue, decide_eq_true_eq] at *
  unfold lessPriority
  split
  . next h =>
    simp only [Bool.false_eq_true, false_iff]
    omega
  . split
    . next h => simp [h.2]
    . omega

theorem lessPriority_of_waiting {t1 : OFPMsg} (h1 : t1.isOverdue = false) (t2 : OFPMsg)
    : lessPriority t1 t2 = true ↔ t1.priority < t2.priority := by
  simp only [OFPMsg.isOverdue, decide_eq_false_iff_not] at *
  unfold lessPriority
  rw [if_neg (fun h => h1 h.1), if_neg (fun h => h1 h.1), decide_eq_true_iff]

-- An overdue message only loses the lead to one that has waited longer.
theorem foldl_of_overdue {m : OFPMsg} (h : m.isOverdue = true) (msgs : List OFPMsg)
    : (msgs.foldl leading m).isOverdue = true ∧ msgs.foldl leading m ∈ m :: msgs
        ∧ ∀ x ∈ m :: msgs, x.isOverdue = true → (msgs.foldl leading m).maxWaitTime ≤ x.maxWaitTime := by
  induction msgs generalizing m with
  | nil => simp [h]
  | cons x msgs ih =>
    rw [List.foldl_cons]
    by_cases hless : lessPriority m x = true
    . have hx := (lessPriority_of_overdue h x).mp hless
      rw [leading, if_pos hless]
      rcases ih hx.1 with ⟨hover, hmem, hmin⟩
      refine ⟨hover, List.mem_cons_of_mem m hmem, ?_⟩
      intro y hy hyover
      rcases List.mem_cons.mp hy with rfl | hy
      . have := hmin x List.mem_cons_self hx.1
        omega
      . apply hmin y hy hyover
    . rw [leading, if_neg hless]
      rcases ih h with ⟨hover, hmem, hmin⟩
      refine ⟨hover, ?_, ?_⟩
      . rcases List.mem_cons.mp hmem with heq | hmem
        . rw [heq]
          apply List.mem_cons_self
        . apply List.mem_cons_of_mem _ (List.mem_cons_of_mem _ hmem)
      . intro y hy hyover
        have hm := hmin m List.mem_cons_self h
        rcases List.mem_cons.mp hy with rfl | hy
        . exact hm
        . rcases List.mem_cons.mp hy with rfl | hy
          . rw [lessPriority_of_overdue h] at hless
            have : ¬y.maxWaitTime < m.maxWaitTime := fun hlt => hless ⟨hyover, hlt⟩
            omega
          . apply hmin y (List.mem_cons_of_mem m hy) hyover

/--
What the scan of `msgs` ends with, from a message out of `seen` on: either a waiting message of the
highest priority, or what the scan of the overdue ones ends with.
-/
inductive Scanned (seen msgs : List OFPMsg) (msg : OFPMsg) : Prop where
  | waiting :
    overtaking seen msgs = none → msg ∈ seen ++ msgs → msg.isOverdue = false
      → (∀ x ∈ seen ++ msgs, x.priority ≤ msg.priority) → Scanned seen msgs msg
  | overdue {before rest : List OFPMsg} {m : OFPMsg} :
    overtaking seen msgs = some (before, m :: rest) → seen ++ msgs = before ++ m :: rest
      → m.isOverdue = true → msg = rest.foldl leading m → Scanned seen msgs msg

-- A waiting message that leads loses the lead to another waiting one with a higher priority only.
theorem leading_of_waiting {seen : List OFPMsg} {m x : OFPMsg} (hmem : m ∈ seen)
    (hwait : m.isOverdue = false) (htop : ∀ y ∈ seen, y.priority ≤ m.priority)
    (hx : ¬(x.isOverdue = true ∧ m.priority < x.priority))
    : leading m x ∈ seen ++ [x] ∧ (leading m x).isOverdue = false
        ∧ ∀ y ∈ seen ++ [x], y.priority ≤ (leading m x).priority := by
  unfold leading
  rw [List.forall_mem_append, List.forall_mem_singleton]
  split
  . next hless =>
    rw [lessPriority_of_waiting hwait] at hless
    refine ⟨by simp, ?_, ?_, le_refl _⟩
    . cases hover : x.isOverdue with
      | true => exact absurd ⟨hover, hless⟩ hx
      | false => rfl
    . intro y hy
      exact le_of_lt (lt_of_le_of_lt (htop y hy) hless)
  . next hless =>
    rw [lessPriority_of_waiting hwait, not_lt] at hless
    exact ⟨List.mem_append_left _ hmem, hwait, htop, hless⟩

theorem scanned_of_waiting {seen msgs : List OFPMsg} {m : OFPMsg} (hmem : m ∈ seen)
    (hwait : m.isOverdue = false) (htop : ∀ x ∈ seen, x.priority ≤ m.priority)
    : Scanned seen msgs (msgs.foldl leading m) := by
  induction msgs generalizing seen m with
  | nil =>
    rw [List.foldl_nil]
    refine .waiting rfl ?_ hwait ?_
    . rw [List.append_nil]
      exact hmem
    . rw [List.append_nil]
      exact htop
  | cons x msgs ih =>
    have hseen : seen ++ x :: msgs = (seen ++ [x]) ++ msgs := by simp
    have hlead : seen.all (fun msg => msg.priority < x.priority) = true ↔ m.priority < x.priority := by
      rw [List.all_eq_true]
      constructor
      . intro h
        simpa using h m hmem
      . intro h y hy
        rw [decide_eq_true_iff]
        exact lt_of_le_of_lt (htop y hy) h
    rw [List.foldl_cons]
    by_cases htakes : x.isOverdue = true ∧ m.priority < x.priority
    . have hover : overtaking seen (x :: msgs) = some (seen, x :: msgs) := by
        rw [overtaking, if_pos ⟨htakes.1, hlead.mpr htakes.2⟩]
      rw [leading, if_pos ((lessPriority_of_waiting hwait x).mpr htakes.2)]
      exact .overdue hover rfl htakes.1 rfl
    . have hnext : overtaking seen (x :: msgs) = overtaking (seen ++ [x]) msgs := by
        rw [overtaking, if_neg]
        rw [hlead]
        exact htakes
      rcases leading_of_waiting hmem hwait htop htakes with ⟨hmem', hwait', htop'⟩
      have hrest := ih hmem' hwait' htop'
      cases hrest with
      | waiting hover hin hw htop =>
        rw [← hseen] at hin htop
        exact .waiting (hnext.trans hover) hin hw htop
      | overdue hover hsplit hm hmsg => exact .overdue (hnext.trans hover) (hseen.trans hsplit) hm hmsg

theorem scanned_of_first (m : OFPMsg) (msgs : List OFPMsg)
    : Scanned [] (m :: msgs) (msgs.foldl leading m) := by
  cases hover : m.isOverdue with
  | true =>
    refine .overdue ?_ rfl hover rfl
    rw [overtaking, if_pos ⟨hover, rfl⟩]
  | false =>
    have hnext : overtaking [] (m :: msgs) = overtaking [m] msgs := by
      rw [overtaking, if_neg (by simp [hover]), List.nil_append]
    have hrest := @scanned_of_waiting [m] msgs m List.mem_cons_self hover (by simp)
    cases hrest with
    | waiting hover hin hw htop => exact .waiting (hnext.trans hover) hin hw htop
    | overdue hover hsplit hm hmsg => exact .overdue (hnext.trans hover) hsplit hm hmsg

theorem Scanned.maximal_iff {msgs : List OFPMsg} {msg : OFPMsg} (h : Scanned [] msgs msg)
    : (∀ x ∈ msgs, lessPriority msg x = false) ↔ OverdueInTurn msgs := by
  cases h with
  | waiting hover hmem hwait htop =>
    constructor
    . intro _ p hp
      rw [hover] at hp
      simp at hp
    . intro _ x hx
      rw [Bool.eq_false_iff, ne_eq, lessPriority_of_waiting hwait, not_lt]
      apply htop x hx
  | @overdue before rest m hover hsplit hm hmsg =>
    rcases foldl_of_overdue hm rest with ⟨hlast, hmem, hmin⟩
    rw [← hmsg] at hlast hmem hmin
    rw [List.nil_append] at hsplit
    unfold OverdueInTurn
    simp only [hover, Option.mem_def, Option.some.injEq, forall_eq']
    rw [hsplit]
    constructor
    . intro hmax x hx hxover
      refine ⟨msg, hmem, hlast, ?_⟩
      have hless := hmax x (List.mem_append_left _ hx)
      rw [Bool.eq_false_iff, ne_eq, lessPriority_of_overdue hlast] at hless
      have : ¬x.maxWaitTime < msg.maxWaitTime := fun hlt => hless ⟨hxover, hlt⟩
      omega
    . intro hturn x hx
      rw [Bool.eq_false_iff, ne_eq, lessPriority_of_overdue hlast]
      rintro ⟨hxover, hlt⟩
      rw [List.mem_append] at hx
      rcases hx with hx | hx
      . rcases hturn x hx hxover with ⟨y, hy, hyover, hle⟩
        have := hmin y hy hyover
        omega
      . have := hmin x hx hxover
        omega

theorem Scanned.mem {msgs : List OFPMsg} {msg : OFPMsg} (h : Scanned [] msgs msg) : msg ∈ msgs := by
  cases h with
  | waiting hover hmem hwait htop => exact hmem
  | @overdue before rest m hover hsplit hm hmsg =>
    rw [List.nil_append] at hsplit
    rw [hsplit, hmsg]
    apply List.mem_append_right _ (foldl_of_overdue hm rest).2.1

namespace Queue

theorem fetchMsg.go_some_eq {msgs : List OFPMsg} {msg : OFPMsg}
    (huid : ∀ m ∈ msg :: msgs, m.uepid.uid ≠ 2 ∧ m.uepid.uid ≠ 4)
    : go (some msg) msgs = some ((msgs.filter OFPMsg.isReady).foldl leading msg) := by
  induction msgs generalizing msg with
  | nil => rfl
  | cons m msgs ih =>
    rw [List.forall_mem_cons, List.forall_mem_cons] at huid
    rcases huid with ⟨hmsg, hm, hmsgs⟩
    have hstep : (if (!m.inProcess ∧ m.readToBeSent) ∧ lessPriority msg m then m else msg)
        = if m.isReady then leading msg m else msg := by
      have hready : ((!m.inProcess) = true ∧ m.readToBeSent = true) ↔ m.isReady = true := by
        simp [OFPMsg.isReady]
      simp only [hready, leading]
      cases m.isReady with
      | true => simp
      | false => simp
    have hnext : ∀ msg', msg' = msg ∨ msg' = m → msg'.uepid.uid ≠ 2 ∧ msg'.uepid.uid ≠ 4 := by
      rintro msg' (rfl | rfl)
      . exact hmsg
      . exact hm
    have hchosen := hnext (if m.isReady then leading msg m else msg) (by
      unfold leading
      split
      . split <;> simp
      . simp)
    unfold go
    dsimp only
    rw [hstep, if_neg (by simpa using hchosen),
      ih (by rw [List.forall_mem_cons]; exact ⟨hchosen, hmsgs⟩), List.filter_cons]
    split
    . rw [List.foldl_cons]
    . rfl

theorem fetchMsg.go_none_eq {msgs : List OFPMsg}
    (huid : ∀ m ∈ msgs, m.uepid.uid ≠ 2 ∧ m.uepid.uid ≠ 4)
    : go none msgs =
        match msgs.filter OFPMsg.isReady with
        | [] => none
        | m :: ready => some (ready.foldl leading m) := by
  induction msgs with
  | nil => rfl
  | cons m msgs ih =>
    have hmsgs : ∀ m ∈ msgs, m.uepid.uid ≠ 2 ∧ m.uepid.uid ≠ 4 :=
      fun x hx => huid x (List.mem_cons_of_mem m hx)
    unfold go
    rw [List.filter_cons]
    split
    . next hready =>
      have hm : m.isReady = true := by simpa [OFPMsg.isReady] using hready
      rw [go_some_eq huid, if_pos hm]
    . next hready =>
      have hm : ¬m.isReady = true := by simpa [OFPMsg.isReady] using hready
      rw [ih hmsgs, if_neg hm]

/--
Once the interval has elapsed, `fetchMsg` returns nothing if and only if no message is ready, and
what it returns is a maximum of the ready ones if and only if these come with their overdue ones in
turn.
-/
theorem fetchMsg_maximal_iff {q : Queue} {now : Timeval}
    (helapsed : now.msSince q.lastFetch > q.intervalMs)
    (huid : ∀ m ∈ q.msgQueue, m.uepid.uid ≠ 2 ∧ m.uepid.uid ≠ 4)
    : ((q.fetchMsg now).1 = none ↔ ∀ m ∈ q.msgQueue, m.isReady = false)
        ∧ ((∀ m, (q.fetchMsg now).1 = some m
              → (m ∈ q.msgQueue ∧ m.isReady = true)
                ∧ ∀ m' ∈ q.msgQueue, m'.isReady = true → lessPriority m m' = false)
            ↔ OverdueInTurn (q.msgQueue.filter OFPMsg.isReady)) := by
  have hready : ∀ m, m ∈ q.msgQueue.filter OFPMsg.isReady ↔ m ∈ q.msgQueue ∧ m.isReady = true :=
    fun m => List.mem_filter
  have hnone : (q.msgQueue.filter OFPMsg.isReady = []) ↔ ∀ m ∈ q.msgQueue, m.isReady = false := by
    rw [List.filter_eq_nil_iff]
    simp only [Bool.not_eq_true]
  unfold fetchMsg
  rw [if_pos helapsed, fetchMsg.go_none_eq huid, ← hnone]
  cases hmsgs : q.msgQueue.filter OFPMsg.isReady with
  | nil => simp [OverdueInTurn, overtaking]
  | cons m msgs =>
    have hscan := scanned_of_first m msgs
    have hmem := hscan.mem
    have hall : (∀ x ∈ m :: msgs, lessPriority (msgs.foldl leading m) x = false)
        ↔ ∀ x ∈ q.msgQueue, x.isReady = true → lessPriority (msgs.foldl leading m) x = false := by
      rw [← hmsgs]
      simp only [hready, and_imp]
    rw [← hmsgs, hready] at hmem
    rw [← hscan.maximal_iff, hall]
    refine ⟨by simp, ?_⟩
    constructor
    . intro hmax
      exact (hmax _ rfl).2
    . intro hmax m' hm'
      rw [← Option.some.inj hm']
      exact ⟨hmem, hmax⟩

def msgOf (addr : Nat) (priority : ℚ) (maxWaitTime : Int) : OFPMsg where
  addr := addr
  len := 8
  priority := priority
  fd := 0
  maxWaitTime := maxWaitTime
  processTime := 1
  identity := 0
  uepid := {}
  inProcess := false
  finished := false
  readToBeSent := true
  buf := [4, 2, 0, 8, 0, 0, 0, 1]

def queueOf (msgs : List OFPMsg) : Queue := { Queue.new (-1) ⟨0, 0⟩ with msgQueue := msgs }

theorem fetchMsg_maximal_overdueFirst
    : ((queueOf [msgOf 1 1 (-5), msgOf 2 1 1, msgOf 3 2 (-1)]).fetchMsg ⟨0, 0⟩).1
          = some (msgOf 1 1 (-5))
        ∧ ∀ m' ∈ [msgOf 1 1 (-5), msgOf 2 1 1, msgOf 3 2 (-1)], m'.isReady = true
            → lessPriority (msgOf 1 1 (-5)) m' = false := by
  have hfetch : ((queueOf [msgOf 1 1 (-5), msgOf 2 1 1, msgOf 3 2 (-1)]).fetchMsg ⟨0, 0⟩).1
      = some (msgOf 1 1 (-5)) := by
    decide +kernel
  have hmax := (fetchMsg_maximal_iff (by decide +kernel) (by decide)).2.mpr (by decide +kernel) _ hfetch
  exact ⟨hfetch, hmax.2⟩

-- The second message has waited longest but gets no lead from the first, and the third does.
theorem fetchMsg_not_maximal
    : ((queueOf [msgOf 1 1 1, msgOf 2 1 (-5), msgOf 3 2 (-1)]).fetchMsg ⟨0, 0⟩).1
          = some (msgOf 3 2 (-1))
        ∧ lessPriority (msgOf 3 2 (-1)) (msgOf 2 1 (-5)) = true
        ∧ lessPriority (msgOf 1 1 1) (msgOf 3 2 (-1)) = true
        ∧ lessPriority (msgOf 1 1 1) (msgOf 2 1 (-5)) = false := by
  decide +kernel

end Queue
end OfpProxy
