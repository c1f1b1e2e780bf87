import OfpProxy.Erasing.Basic
import OfpProxy.Queue.Impl

/-!
This module shows what the methods of `Queue` do to the vector of messages.
-/

namespace OfpProxy

def OFPMsg.isDone (msg : OFPMsg) : Bool := msg.inProcess && msg.finished

/--
A message as `putMessage` builds it out of what `getOFPMsgArg` returns.
-/
structure OFPMsg.IsPlain (msg : OFPMsg) : Prop where
  priority : msg.priority = 1
  maxWaitTime : msg.maxWaitTime = 0 ∨ msg.maxWaitTime = 1
  readToBeSent : msg.readToBeSent = true

theorem lessPriority_of_plain {t1 t2 : OFPMsg} (h1 : t1.IsPlain) (h2 : t2.IsPlain)
    : lessPriority t1 t2 = false := by
  unfold lessPriority
  rw [h1.priority, h2.priority]
  rcases h1.maxWaitTime with hw1 | hw1
  . rcases h2.maxWaitTime with hw2 | hw2
    . simp [hw1, hw2]
    . simp [hw1, hw2]
  . simp [hw1]

namespace Queue

-- An int32_t holds the numbers below 2 ^ 31.
theorem cleanFinishMsg.i32_natCast_iff (n : Nat) : i32 n = n ↔ n < 2147483648 := by
  unfold i32
  constructor
  . intro heq
    have hlt := @Int.bmod_lt n 4294967296 (by omega)
    omega
  . intro hlt
    apply Int.bmod_eq_of_le <;> omega

-- The index goes down by one after an erase, which wraps at the front, and up again.
theorem cleanFinishMsg.go_eq (n index : Nat) (msgs recorded : List OFPMsg)
    (hsize : index + n < 18446744073709551616)
    : go n index msgs recorded (i32 recorded.length)
        =
      (Erasing.run OFPMsg.isDone n index msgs recorded).map
        fun (msgs, recorded) => (msgs, recorded, i32 recorded.length) := by
  induction n generalizing index msgs recorded with
  | zero => rfl
  | succ n ih =>
    rw [go]
    cases hget : msgs[index]? with
    | none => simp [Erasing.run, hget]
    | some msg =>
      dsimp only
      split
      . next hdone =>
        have hmsg : msg.isDone = true := by simp [OFPMsg.isDone, hdone]
        have hindex : u64 (u64 (index - 1) + 1) = index := by
          unfold u64
          omega
        have hcount : i32 (i32 recorded.length + 1) = i32 (recorded ++ [msg]).length := by
          unfold i32
          rw [Int.bmod_add_bmod]
          simp
        rw [Erasing.run_succ_of_pos hget hmsg, hindex, hcount]
        apply ih _ _ _ (by omega)
      . next hdone =>
        have hmsg : msg.isDone = false := by simpa [OFPMsg.isDone] using hdone
        have hindex : u64 (index + 1) = index + 1 := by
          unfold u64
          omega
        rw [Erasing.run_succ_of_neg hget hmsg, hindex]
        apply ih _ _ _ (by omega)

theorem cleanFinishMsg_eq {q : Queue} (hsize : q.msgQueue.length ≤ vectorMaxSize)
    : q.cleanFinishMsg
        =
      some
        { queue := { q with msgQueue := q.msgQueue.filter fun msg => !msg.isDone }
          recorded := q.msgQueue.filter OFPMsg.isDone
          count := cleanFinishMsg.i32 (q.msgQueue.filter OFPMsg.isDone).length } := by
  have hgo : cleanFinishMsg.go q.msgQueue.length 0 q.msgQueue [] 0
      = (Erasing.run OFPMsg.isDone q.msgQueue.length 0 q.msgQueue []).map
          fun (msgs, recorded) => (msgs, recorded, cleanFinishMsg.i32 recorded.length) := by
    apply cleanFinishMsg.go_eq
    unfold vectorMaxSize at hsize
    omega
  unfold cleanFinishMsg
  rw [hgo, Erasing.run_length]
  rfl

theorem markFinished.go_cases (identify : Nat) (msgs : List OFPMsg)
    : (go identify msgs).2 = msgs
        ∨ ∃ before msg after, msgs = before ++ msg :: after ∧ msg.inProcess = true
            ∧ msg.identity = identify
            ∧ (go identify msgs).2 = before ++ { msg with finished := true } :: after := by
  induction msgs with
  | nil => exact .inl rfl
  | cons msg msgs ih =>
    unfold go
    split
    . next hmatch => exact .inr ⟨[], msg, msgs, rfl, hmatch.1, hmatch.2.2, rfl⟩
    . dsimp only
      cases ih with
      | inl hsame => exact .inl (by rw [hsame])
      | inr hmarked =>
        rcases hmarked with ⟨before, found, after, hmsgs, hin, hid, hgo⟩
        refine .inr ⟨msg :: before, found, after, ?_, hin, hid, ?_⟩
        . rw [hmsgs, List.cons_append]
        . rw [hgo, List.cons_append]

theorem markFinished_cases (q : Queue) (identify : Nat)
    : (q.markFinished identify).2 = q
        ∨ ∃ before msg after, q.msgQueue = before ++ msg :: after ∧ msg.inProcess = true
            ∧ msg.identity = identify
            ∧ (q.markFinished identify).2
              = { q with msgQueue := before ++ { msg with finished := true } :: after } := by
  cases markFinished.go_cases identify q.msgQueue with
  | inl hsame =>
    apply Or.inl
    simp only [markFinished, hsame]
  | inr hmarked =>
    rcases hmarked with ⟨before, msg, after, hmsgs, hin, hid, hgo⟩
    refine .inr ⟨before, msg, after, hmsgs, hin, hid, ?_⟩
    simp only [markFinished, hgo]

theorem fetchMsg.go_mem {msgs : List OFPMsg} {found : Option OFPMsg} {msg : OFPMsg}
    (h : go found msgs = some msg)
    : found = some msg ∨ (msg ∈ msgs ∧ msg.inProcess = false ∧ msg.readToBeSent = true) := by
  induction msgs generalizing found with
  | nil =>
    cases found with
    | none => simp [go] at h
    | some m => exact .inl (by simpa [go] using h)
  | cons m msgs ih =>
    cases found with
    | none =>
      unfold go at h
      split at h
      . next hready =>
        simp only [Bool.not_eq_true'] at hready
        cases ih h with
        | inl heq =>
          simp only [Option.some.injEq] at heq
          subst heq
          exact .inr ⟨List.mem_cons_self, hready.1, hready.2⟩
        | inr hmem => exact .inr ⟨List.mem_cons_of_mem _ hmem.1, hmem.2⟩
      . cases ih h with
        | inl heq => simp at heq
        | inr hmem => exact .inr ⟨List.mem_cons_of_mem _ hmem.1, hmem.2⟩
    | some found =>
      have hchoice : ∀ m',
          (if (!m.inProcess ∧ m.readToBeSent) ∧ lessPriority found m then m else found) = m'
            → some found = some m' ∨ (m' ∈ m :: msgs ∧ m'.inProcess = false ∧ m'.readToBeSent = true) := by
        intro m' hm'
        split at hm'
        . next hready =>
          subst hm'
          simp only [Bool.not_eq_true'] at hready
          exact .inr ⟨List.mem_cons_self, hready.1.1, hready.1.2⟩
        . exact .inl (congrArg some hm')
      unfold go at h
      dsimp only at h
      generalize hm' : (if (!m.inProcess ∧ m.readToBeSent) ∧ lessPriority found m then m else found) = m'
        at h
      split at h
      . simp only [Option.some.injEq] at h
        subst h
        apply hchoice _ hm'
      . cases ih h with
        | inl heq =>
          simp only [Option.some.injEq] at heq
          subst heq
          apply hchoice _ hm'
        | inr hmem => exact .inr ⟨List.mem_cons_of_mem _ hmem.1, hmem.2⟩

theorem fetchMsg_msgQueue (q : Queue) (now : Timeval) : (q.fetchMsg now).2.msgQueue = q.msgQueue := by
  unfold fetchMsg
  split <;> rfl

theorem fetchMsg_mem {q : Queue} {now : Timeval} {msg : OFPMsg} (h : (q.fetchMsg now).1 = some msg)
    : msg ∈ q.msgQueue ∧ msg.inProcess = false ∧ msg.readToBeSent = true := by
  unfold fetchMsg at h
  split at h
  . cases fetchMsg.go_mem h with
    | inl hnone => simp at hnone
    | inr hmem => exact hmem
  . simp at h

theorem fetchMsg.go_some {found : OFPMsg} {msgs : List OFPMsg} (hfound : found.IsPlain)
    (hmsgs : ∀ msg ∈ msgs, msg.IsPlain) : go (some found) msgs = some found := by
  induction msgs with
  | nil => rfl
  | cons m msgs ih =>
    rw [List.forall_mem_cons] at hmsgs
    unfold go
    simp only [lessPriority_of_plain hfound hmsgs.1, Bool.false_eq_true, and_false, if_false]
    rw [ih hmsgs.2]
    split <;> rfl

theorem fetchMsg.go_none {msgs : List OFPMsg} (hmsgs : ∀ msg ∈ msgs, msg.IsPlain)
    : go none msgs = msgs.find? fun msg => !msg.inProcess := by
  induction msgs with
  | nil => rfl
  | cons m msgs ih =>
    rw [List.forall_mem_cons] at hmsgs
    unfold go
    rw [List.find?_cons, hmsgs.1.readToBeSent, ih hmsgs.2]
    cases m.inProcess with
    | true => rfl
    | false =>
      rw [if_pos (by simp)]
      apply go_some hmsgs.1 hmsgs.2

theorem fetchMsg.go_some_ne_none (found : OFPMsg) (msgs : List OFPMsg) : go (some found) msgs ≠ none := by
  induction msgs generalizing found with
  | nil => simp [go]
  | cons m msgs ih =>
    unfold go
    dsimp only
    generalize (if (!m.inProcess ∧ m.readToBeSent) ∧ lessPriority found m then m else found) = msg
    split
    . simp
    . apply ih

theorem fetchMsg.inProcess_of_go_none {msgs : List OFPMsg} (h : go none msgs = none)
    : ∀ msg ∈ msgs, msg.readToBeSent = true → msg.inProcess = true := by
  induction msgs with
  | nil => simp
  | cons m msgs ih =>
    unfold go at h
    split at h
    . exact absurd h (go_some_ne_none m msgs)
    . next hnot =>
      rw [List.forall_mem_cons]
      refine ⟨?_, ih h⟩
      intro hready
      simpa [hready] using hnot

/--
Among plain messages the one that has waited longest is fetched.
-/
theorem fetchMsg_of_plain {q : Queue} {now : Timeval} (hmsgs : ∀ msg ∈ q.msgQueue, msg.IsPlain)
    (h : now.msSince q.lastFetch > q.intervalMs)
    : (q.fetchMsg now).1 = q.msgQueue.find? fun msg => !msg.inProcess := by
  unfold fetchMsg
  rw [if_pos h]
  apply fetchMsg.go_none hmsgs

theorem length_markFinished (q : Queue) (identify : Nat)
    : (q.markFinished identify).2.msgQueue.length = q.msgQueue.length := by
  cases q.markFinished_cases identify with
  | inl hsame => rw [hsame]
  | inr hmarked =>
    rcases hmarked with ⟨before, msg, after, hmsgs, -, -, hmark⟩
    rw [hmark, hmsgs]
    simp

end Queue
end OfpProxy
