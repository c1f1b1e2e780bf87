import OfpProxy.Scheduler.Kept
import OfpProxy.Scheduler.Order

/-!
This module shows that messages which all go to one queue are written in the order in which they were
put, whatever the clock does meanwhile.
-/

namespace OfpProxy
namespace Scheduler

/--
The messages that `k` selects go to queue `i`. Those that were handed over, with what is left of this
queue behind them, stand in the order in which they were put.
-/
structure Sorted (k : Nat → Bool) (i : Nat) (s : State) : Prop where
  plain : ∀ (j : Nat) (q : Queue), s.queues[j]? = some q → ∀ msg ∈ q.msgQueue, msg.IsPlain
  only : ∀ (j : Nat) (q : Queue), s.queues[j]? = some q → ∀ addr ∈ s.unsent q, k addr = true → j = i
  line : ∀ q, s.queues[i]? = some q → (s.sentAddrs.filter k ++ s.unsent q).Pairwise (· < ·)
  head : ∀ addr, s.run = .fetched addr ∨ s.run = .marked addr
    → ∃ (j : Nat) (q : Queue) (rest : List Nat), s.queues[j]? = some q ∧ s.unsent q = addr :: rest

namespace Sorted

variable {k : Nat → Bool} {i : Nat} {s s' : State} {label : Label}

theorem init (k : Nat → Bool) (i : Nat) (name : String) (now : Nat → Timeval)
    : Sorted k i (.init name now) := by
  have hnone : ∀ {j : Nat} {q : Queue}, (State.init name now).queues[j]? = some q → q.msgQueue = [] := by
    intro j q hq
    rw [State.init_queue hq]
    rfl
  constructor
  . intro j q hq
    rw [hnone hq]
    simp
  . intro j q hq
    unfold State.unsent
    rw [hnone hq]
    simp
  . intro q hq
    unfold State.unsent
    rw [hnone hq]
    simp [State.init, State.sentAddrs]
  . simp [State.init]

theorem lt_next_of_unsent (ho : Owned s) {j : Nat} {q : Queue} (hq : s.queues[j]? = some q) {addr : Nat}
    (h : addr ∈ s.unsent q) : addr < s.next := by
  rcases List.mem_map.mp (List.mem_of_mem_filter h) with ⟨msg, hmsg, rfl⟩
  apply ho.fresh
  apply ho.mem_pushed (mem_messages hq hmsg)

-- Other steps than a write do not take a message out of the line, and a push appends to it.
theorem unsent_or_push (ho : Owned s) (hsent : s'.sentAddrs = s.sentAddrs) {j : Nat} {q q' : Queue}
    (hq : s.queues[j]? = some q) (hstep : QueueStep s label j q q')
    : s'.unsent q' = s.unsent q
        ∨ s'.unsent q' = s.unsent q ++ [s.next]
          ∧ ∃ arg mem fd garbage, label = .putMsg arg mem fd garbage ∧ arg.qid = some j := by
  cases hstep with
  | push hqid => exact .inr ⟨unsent_push ho hsent rfl, _, _, _, _, rfl, hqid⟩
  | fetch _ =>
    apply Or.inl
    unfold State.unsent
    rw [Queue.fetchMsg_msgQueue, hsent]
  | clean hrun => exact .inl (unsent_clean ho hsent (by simp [hrun]) hq)
  | touch _ hsame =>
    apply Or.inl
    unfold State.unsent
    rw [map_addr_of_same hsame, hsent]

theorem plain_of_queueStep {j : Nat} {q q' : Queue} (hplain : ∀ msg ∈ q.msgQueue, msg.IsPlain)
    (hreader : FromReader label) (hstep : QueueStep s label j q q')
    : ∀ msg ∈ q'.msgQueue, msg.IsPlain := by
  cases hstep with
  | push _ =>
    rw [List.forall_mem_append, List.forall_mem_singleton]
    exact ⟨hplain, hreader.isPlain _⟩
  | fetch _ =>
    rw [Queue.fetchMsg_msgQueue]
    exact hplain
  | clean _ =>
    intro msg hmsg
    apply hplain msg (List.mem_of_mem_filter hmsg)
  | touch _ hsame =>
    intro msg' hmsg'
    rcases same_mem hsame msg' hmsg' with ⟨msg, hmsg, hm⟩
    apply hm.isPlain (hplain msg hmsg)

theorem head_of_run (h : Sorted k i s) (ho : Owned s) {now : Timeval} (hstep : stepRun s now = some s')
    {addr : Nat} (hrun : s'.run = .fetched addr ∨ s'.run = .marked addr)
    : ∃ (j : Nat) (q : Queue) (rest : List Nat), s.queues[j]? = some q ∧ s.unsent q = addr :: rest := by
  rcases hrun with hfetched | hmarked
  . rcases run_of_fetched hstep hfetched with ⟨j, q, msg, hpoll, hq, hfetch, rfl⟩
    rcases unsent_of_fetch ho hpoll hq (h.plain j q hq) hfetch with ⟨rest, hrest⟩
    exact ⟨j, q, rest, hq, hrest⟩
  . apply h.head addr (.inl (run_of_marked hstep hmarked))

theorem of_other (h : Sorted k i s) (hs : Sized s) (ho : Owned s) (hreader : FromReader label)
    (hput : ∀ arg mem fd garbage, label = .putMsg arg mem fd garbage → k s.next = true → arg.qid = some i)
    (hwritev : ∀ accepted, label ≠ .writev accepted) (hstep : step s label = some s') : Sorted k i s' := by
  have hsent : s'.sentAddrs = s.sentAddrs := by
    unfold State.sentAddrs
    by_cases hrun : ∃ now, label = .run now
    . rcases hrun with ⟨now, rfl⟩
      rw [(stepRun_frame hstep).2.2]
    . rw [not_exists] at hrun
      rw [(step_other_frame hrun hwritev hstep).2]
  constructor
  . intro j q' hq'
    rcases queueStep_of_step hs hstep hq' with ⟨q, hq, hqstep⟩
    exact plain_of_queueStep (h.plain j q hq) hreader hqstep
  . intro j q' hq' addr haddr hk
    rcases queueStep_of_step hs hstep hq' with ⟨q, hq, hqstep⟩
    rcases unsent_or_push ho hsent hq hqstep with hsame | ⟨hnew, arg, mem, fd, garbage, rfl, hqid⟩
    . rw [hsame] at haddr
      exact h.only j q hq addr haddr hk
    . rw [hnew, List.mem_append, List.mem_singleton] at haddr
      rcases haddr with hold | rfl
      . exact h.only j q hq addr hold hk
      . rw [hput arg mem fd garbage rfl hk, Option.some_inj] at hqid
        exact Eq.symm hqid
  . intro q' hq'
    rcases queueStep_of_step hs hstep hq' with ⟨q, hq, hqstep⟩
    rw [hsent]
    rcases unsent_or_push ho hsent hq hqstep with hsame | ⟨hnew, -⟩
    . rw [hsame]
      exact h.line q hq
    . rw [hnew, ← List.append_assoc, List.pairwise_append]
      refine ⟨h.line q hq, List.pairwise_singleton _ _, ?_⟩
      intro addr haddr next hnext
      rw [List.mem_singleton] at hnext
      rw [hnext]
      rcases List.mem_append.mp haddr with hwritten | hwaiting
      . exact ho.fresh _ (ho.sentPushed _ (List.mem_of_mem_filter hwritten))
      . exact lt_next_of_unsent ho hq hwaiting
  . intro addr hrun'
    have hhead : ∃ (j : Nat) (q : Queue) (rest : List Nat),
        s.queues[j]? = some q ∧ s.unsent q = addr :: rest := by
      by_cases hrun : ∃ now, label = .run now
      . rcases hrun with ⟨now, rfl⟩
        exact h.head_of_run ho hstep hrun'
      . rw [not_exists] at hrun
        rw [(step_other_frame hrun hwritev hstep).1] at hrun'
        exact h.head addr hrun'
    rcases hhead with ⟨j, q, rest, hq, hunsent⟩
    rcases exists_queue_of_step hs hstep hq with ⟨q', hq', hqstep⟩
    rcases unsent_or_push ho hsent hq hqstep with hsame | ⟨hnew, -⟩
    . exact ⟨j, q', rest, hq', by rw [hsame, hunsent]⟩
    . exact ⟨j, q', rest ++ [s.next], hq', by rw [hnew, hunsent, List.cons_append]⟩

-- The message that is written was the head of its queue, so the line only gets shorter.
theorem of_writev (h : Sorted k i s) {accepted : Option Nat} (hstep : stepWritev s accepted = some s')
    : Sorted k i s' := by
  rcases stepWritev_eq hstep with ⟨addr, msg, hrun, hfind, hs'⟩
  have haddr : msg.addr = addr := by simpa using List.find?_some hfind
  have hsent : s'.sentAddrs = s.sentAddrs ++ [addr] := by
    rw [hs']
    simp [State.sentAddrs, haddr]
  have hqueues : s'.queues = s.queues := by rw [hs']
  have hunsent : ∀ q, s'.unsent q = (s.unsent q).filter fun a => a ≠ addr := Fifo.unsent_write hsent
  rcases h.head addr (.inr hrun) with ⟨j, r, rest, hr, hfirst⟩
  constructor
  . rw [hqueues]
    exact h.plain
  . rw [hqueues]
    intro j q hq a ha
    rw [hunsent q] at ha
    exact h.only j q hq a (List.mem_of_mem_filter ha)
  . rw [hqueues]
    intro q hq
    apply List.Pairwise.sublist _ (h.line q hq)
    rw [hsent, hunsent q, List.filter_append, List.append_assoc]
    apply List.Sublist.append_left
    cases hk : k addr with
    | false =>
      rw [List.filter_cons_of_neg (by simp [hk])]
      exact List.filter_sublist
    | true =>
      have hj := h.only j r hr addr (by rw [hfirst]; exact List.mem_cons_self) hk
      subst hj
      rw [hr, Option.some_inj] at hq
      subst hq
      rw [hfirst, List.filter_cons_of_pos (by simp [hk]), List.filter_cons_of_neg (by simp)]
      exact List.Sublist.cons_cons addr List.filter_sublist
  . rw [hs']
    simp

theorem step (h : Sorted k i s) (hs : Sized s) (ho : Owned s) (hreader : FromReader label)
    (hput : ∀ arg mem fd garbage, label = .putMsg arg mem fd garbage → k s.next = true → arg.qid = some i)
    (hstep : step s label = some s') : Sorted k i s' := by
  by_cases hwritev : ∃ accepted, label = .writev accepted
  . rcases hwritev with ⟨accepted, rfl⟩
    exact h.of_writev hstep
  . rw [not_exists] at hwritev
    exact h.of_other hs ho hreader hput hwritev hstep

theorem congr {k' : Nat → Bool} (h : Sorted k i s) (ho : Owned s)
    (hk : ∀ addr, addr < s.next → k' addr = k addr) : Sorted k' i s where
  plain := h.plain
  only := by
    intro j q hq addr haddr htrue
    rw [hk addr (lt_next_of_unsent ho hq haddr)] at htrue
    exact h.only j q hq addr haddr htrue
  line := by
    have hfilter : s.sentAddrs.filter k' = s.sentAddrs.filter k := by
      apply List.filter_congr
      intro addr haddr
      exact hk addr (ho.fresh _ (ho.sentPushed _ haddr))
    rw [hfilter]
    exact h.line
  head := h.head

theorem pair (h : Sorted k i s) (hkept : Kept s) (hi : i < Schedule.queueNum) {a b : Nat} (hlt : a < b)
    (ha : k a = true) (hb : k b = true) (hsent : b ∈ s.sentAddrs) : [a, b].Sublist s.sentAddrs := by
  rw [← hkept.sized.queues] at hi
  have hline := h.line _ (List.getElem?_eq_getElem hi)
  rw [List.pairwise_append] at hline
  have hbLine : b ∈ s.sentAddrs.filter k := List.mem_filter.mpr ⟨hsent, hb⟩
  have haSent : a ∈ s.sentAddrs := by
    by_contra hnot
    have hnext := hkept.owned.fresh b (hkept.owned.sentPushed b hsent)
    have haPushed : a ∈ s.pushed := by
      rw [hkept.pushed, List.mem_range]
      omega
    rcases exists_unsent hkept.owned haPushed hnot with ⟨j, q, hq, hmem⟩
    have hj := h.only j q hq a hmem ha
    subst hj
    rw [List.getElem?_eq_getElem hi, Option.some_inj] at hq
    subst hq
    have := hline.2.2 b hbLine a hmem
    omega
  have haLine : a ∈ s.sentAddrs.filter k := List.mem_filter.mpr ⟨haSent, ha⟩
  rcases pair_sublist_or haLine hbLine (by omega) with hpair | hpair
  . exact hpair.trans List.filter_sublist
  . have hswap := hline.1.sublist hpair
    rw [List.pairwise_pair] at hswap
    omega

end Sorted
end Scheduler
end OfpProxy
