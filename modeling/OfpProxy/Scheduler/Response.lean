import OfpProxy.Queue.Marking
import OfpProxy.Scheduler.Effect

/-!
This module contains what `Run_listen_resp` does with one acknowledgement, and shows what a series
of them marks and what the next cleaning pass makes of it.
-/

namespace OfpProxy
namespace Scheduler

-- the loop over the queues, which stops at the first one that has marked a message
def listenResp (identify : Nat) : List Queue → Bool × List Queue
  | [] => (false, [])
  | q :: queues =>
    let (marked, q) := q.markFinished identify
    if marked then
      (true, q :: queues)
    else
      let (marked, queues) := listenResp identify queues
      (marked, q :: queues)

-- `n` acknowledgements one after the other
def acknowledge (identify : Nat) : Nat → List Queue → List Queue
  | 0, queues => queues
  | n + 1, queues => acknowledge identify n (listenResp identify queues).2

-- the loop over the queues at the top of `run`
def cleanPass : List Queue → Int → Option (List Queue × Int)
  | [], cleanNum => some ([], cleanNum)
  | q :: queues, cleanNum =>
    match q.cleanFinishMsg with
    | none => none
    | some res =>
      match cleanPass queues (i32 (cleanNum + res.count)) with
      | none => none
      | some (queues, cleanNum) => some (res.queue :: queues, cleanNum)

-- how many messages a queue holds, and what it has besides them
def shape (q : Queue) : Nat × Timeval × ℚ := (q.msgQueue.length, q.lastFetch, q.intervalMs)

theorem shape_markFinished (q : Queue) (identify : Nat)
    : shape (q.markFinished identify).2 = shape q := by
  rw [Queue.markFinished_eq]
  unfold shape
  rw [Marking.length_markFirst]

theorem messagesOf_cons (q : Queue) (queues : List Queue)
    : messagesOf (q :: queues) = q.msgQueue ++ messagesOf queues := rfl

theorem listenResp_spec (identify : Nat) (queues : List Queue)
    : (listenResp identify queues).2.map shape = queues.map shape
        ∧ messagesOf (listenResp identify queues).2
          = Marking.markFirst (OFPMsg.isOutstanding identify) OFPMsg.finish 1 (messagesOf queues) := by
  induction queues with
  | nil => exact ⟨rfl, rfl⟩
  | cons q queues ih =>
    have hmark := q.markFinished_eq identify
    unfold listenResp
    dsimp only
    split
    . next hmarked =>
      rw [List.map_cons, shape_markFinished]
      refine ⟨rfl, ?_⟩
      rw [hmark, List.any_eq_true] at hmarked
      rw [messagesOf_cons, messagesOf_cons, hmark, Marking.markFirst_one_append hmarked]
    . next hmarked =>
      rw [List.map_cons, shape_markFinished, ih.1]
      refine ⟨rfl, ?_⟩
      have hnone : ∀ msg ∈ q.msgQueue, msg.isOutstanding identify = false := by
        rw [hmark, Bool.not_eq_true, List.any_eq_false] at hmarked
        simpa using hmarked
      rw [messagesOf_cons, messagesOf_cons, ih.2, hmark,
        Marking.markFirst_append_of_none hnone]
      dsimp only
      rw [Marking.markFirst_of_none hnone]

theorem acknowledge_spec (identify n : Nat) (queues : List Queue)
    : (acknowledge identify n queues).map shape = queues.map shape
        ∧ messagesOf (acknowledge identify n queues)
          = Marking.markFirst (OFPMsg.isOutstanding identify) OFPMsg.finish n (messagesOf queues) := by
  induction n generalizing queues with
  | zero => simp [acknowledge]
  | succ n ih =>
    have hone := listenResp_spec identify queues
    have hrest := ih (listenResp identify queues).2
    rw [acknowledge, hrest.1, hone.1, hrest.2, hone.2,
      Marking.markFirst_markFirst_one (OFPMsg.isOutstanding_finish identify)]
    exact ⟨rfl, rfl⟩

-- To the machine an acknowledgement is a call of `markFinished` on one queue after the other.
theorem replay_listenResp (s : State) (identify : Nat) (before queues : List Queue)
    : ∃ labels,
        machine.replay (fun _ _ => true) { s with queues := before ++ queues } labels
          = some { s with queues := before ++ (listenResp identify queues).2 } := by
  induction queues generalizing before with
  | nil => exact ⟨[], rfl⟩
  | cons q queues ih =>
    have hmark : step { s with queues := before ++ q :: queues } (.markFinished before.length identify)
        = some { s with queues := before ++ (q.markFinished identify).2 :: queues } := by
      simp [step, stepMarkFinished]
    unfold listenResp
    dsimp only
    split
    . refine ⟨[.markFinished before.length identify], ?_⟩
      simp only [Machine.replay, if_true, machine, hmark]
    . rcases ih (before ++ [(q.markFinished identify).2]) with ⟨labels, hlabels⟩
      refine ⟨.markFinished before.length identify :: labels, ?_⟩
      simp only [List.append_assoc, List.singleton_append] at hlabels
      rw [← hlabels]
      simp only [Machine.replay, if_true, machine, hmark]

theorem cleanPass_eq {queues : List Queue} (hsize : ∀ q ∈ queues, q.msgQueue.length ≤ vectorMaxSize)
    (cleanNum : Int)
    : ∃ queues',
        cleanPass queues (i32 cleanNum)
          = some (queues', i32 (cleanNum + (messagesOf queues).countP OFPMsg.isDone)) := by
  induction queues generalizing cleanNum with
  | nil => exact ⟨[], by simp [cleanPass, messagesOf]⟩
  | cons q queues ih =>
    rw [List.forall_mem_cons] at hsize
    rcases ih hsize.2 (cleanNum + q.msgQueue.countP OFPMsg.isDone) with ⟨queues', hrest⟩
    unfold cleanPass
    rw [Queue.cleanFinishMsg_eq hsize.1]
    dsimp only
    rw [← List.countP_eq_length_filter, add_count, i32_add, hrest, messagesOf_cons, List.countP_append,
      Int.natCast_add, Int.add_assoc]
    exact ⟨_, rfl⟩

theorem length_le_of_shape {queues queues' : List Queue} (h : queues'.map shape = queues.map shape)
    {n : Nat} (hsize : ∀ q ∈ queues, q.msgQueue.length ≤ n) : ∀ q ∈ queues', q.msgQueue.length ≤ n := by
  intro q' hq'
  have hmem : shape q' ∈ queues.map shape := by
    rw [← h]
    exact List.mem_map_of_mem hq'
  rw [List.mem_map] at hmem
  rcases hmem with ⟨q, hq, heq⟩
  have hlen : q.msgQueue.length = q'.msgQueue.length := congrArg Prod.fst heq
  rw [← hlen]
  exact hsize q hq

/--
Of the messages that wait for an acknowledgement of `identify`, `n` of these complete the first `n`
ones in the order of the queues and nothing else, and the next cleaning pass gives back a credit for
each of them.
-/
theorem acknowledge_counted {queues : List Queue}
    (hsize : ∀ q ∈ queues, q.msgQueue.length ≤ vectorMaxSize) (identify n : Nat)
    : (acknowledge identify n queues).map shape = queues.map shape
        ∧ (∀ i : Nat, (messagesOf (acknowledge identify n queues))[i]?
              = (messagesOf queues)[i]?.map fun msg =>
                  if msg.isOutstanding identify
                      ∧ ((messagesOf queues).take i).countP (OFPMsg.isOutstanding identify) < n then
                    msg.finish
                  else
                    msg)
        ∧ (messagesOf (acknowledge identify n queues)).countP (OFPMsg.isOutstanding identify)
            + min n ((messagesOf queues).countP (OFPMsg.isOutstanding identify))
          = (messagesOf queues).countP (OFPMsg.isOutstanding identify)
        ∧ ∃ cleanNum queues1 queues2,
            cleanPass queues 0 = some (queues1, i32 cleanNum)
              ∧ cleanPass (acknowledge identify n queues) 0
                = some (queues2,
                    i32 (cleanNum
                      + min n ((messagesOf queues).countP (OFPMsg.isOutstanding identify)))) := by
  rcases acknowledge_spec identify n queues with ⟨hshape, hmessages⟩
  have hdone := @Marking.countP_markFirst_of _ (OFPMsg.isOutstanding identify) OFPMsg.finish
    OFPMsg.isDone (fun _ => OFPMsg.isDone_of_isOutstanding) n (messagesOf queues)
  refine ⟨hshape, ?_, ?_, ?_⟩
  . intro i
    rw [hmessages, Marking.getElem?_markFirst]
  . rw [hmessages, Marking.countP_markFirst (OFPMsg.isOutstanding_finish identify)]
    omega
  . rcases cleanPass_eq hsize 0 with ⟨queues1, hclean⟩
    rcases cleanPass_eq (length_le_of_shape hshape hsize) 0 with ⟨queues2, hclean'⟩
    refine ⟨_, queues1, queues2, hclean, ?_⟩
    rw [hmessages, hdone, Int.natCast_add, ← Int.add_assoc] at hclean'
    exact hclean'

def sentFlowMod (addr cookie : Nat) : OFPMsg where
  addr := addr
  len := 56
  priority := 1
  fd := 0
  maxWaitTime := 1
  processTime := 1
  identity := cookie
  uepid := {}
  inProcess := true
  finished := false
  readToBeSent := true
  buf := [4, 14, 0, 56]

def sharedCookie : List Queue :=
  [{ Queue.new (-1) ⟨0, 0⟩ with msgQueue := [sentFlowMod 1 7, sentFlowMod 2 8] },
    { Queue.new (-1) ⟨0, 0⟩ with msgQueue := [sentFlowMod 3 7, sentFlowMod 4 7] }]

theorem acknowledge_counted_sharedCookie
    : (messagesOf (acknowledge 7 2 sharedCookie)).countP (OFPMsg.isOutstanding 7) + 2 = 3 :=
  (@acknowledge_counted sharedCookie (by decide +kernel) 7 2).2.2.1

end Scheduler
end OfpProxy
