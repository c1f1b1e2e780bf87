import OfpProxy.Queue.Lemmas

/-!
This module shows that `cleanFinishMsg` filters the queue, and up to which number of removed messages
it returns that number.
-/

namespace OfpProxy
namespace Queue

/--
The loop of `cleanFinishMsg` stays inside the vector, leaves the messages that are not done in their
order and records each of the others once. An `int32_t` holds how many these are below `2 ^ 31`.
-/
theorem cleanFinishMsg_filters {q : Queue} (hsize : q.msgQueue.length ≤ vectorMaxSize)
    : ∃ res, q.cleanFinishMsg = some res
        ∧ res.queue = { q with msgQueue := q.msgQueue.filter fun msg => !msg.isDone }
        ∧ res.recorded = q.msgQueue.filter OFPMsg.isDone
        ∧ (res.recorded ++ res.queue.msgQueue).Perm q.msgQueue
        ∧ (res.count = q.msgQueue.countP OFPMsg.isDone
            ↔ q.msgQueue.countP OFPMsg.isDone < 2147483648) := by
  have hperm : (q.msgQueue.filter OFPMsg.isDone ++ q.msgQueue.filter fun msg => !msg.isDone).Perm
      q.msgQueue := by
    apply List.filter_append_perm
  refine ⟨_, cleanFinishMsg_eq hsize, rfl, rfl, hperm, ?_⟩
  dsimp only
  rw [← List.countP_eq_length_filter, cleanFinishMsg.i32_natCast_iff]

def sentMsg (addr : Nat) (finished : Bool) : OFPMsg where
  addr := addr
  len := 8
  priority := 1
  fd := 0
  maxWaitTime := 1
  processTime := 1
  identity := addr
  uepid := {}
  inProcess := true
  finished := finished
  readToBeSent := true
  buf := [4, 2, 0, 8, 0, 0, 0, 1]

def sentQueue (msgs : List OFPMsg) : Queue := { Queue.new 0 ⟨0, 0⟩ with msgQueue := msgs }

-- The first erase makes the index wrap, and the last one is at the end of the vector.
theorem cleanFinishMsg_filters_firstAndLast
    : ∃ res, (sentQueue [sentMsg 1 true, sentMsg 2 false, sentMsg 3 true]).cleanFinishMsg = some res
        ∧ res.queue.msgQueue = [sentMsg 2 false]
        ∧ res.recorded = [sentMsg 1 true, sentMsg 3 true]
        ∧ res.count = 2 := by
  have hclean := @cleanFinishMsg_filters
    (sentQueue [sentMsg 1 true, sentMsg 2 false, sentMsg 3 true]) (by decide)
  rcases hclean with ⟨res, hres, hqueue, hrecorded, -, hcount⟩
  refine ⟨res, hres, ?_, hrecorded, hcount.mpr (by decide)⟩
  rw [hqueue]
  rfl

def sentMsgs (n : Nat) : List OFPMsg := (List.range n).map fun addr => sentMsg addr true

theorem filter_sentMsgs (n : Nat)
    : (sentMsgs n).filter OFPMsg.isDone = sentMsgs n
        ∧ (sentMsgs n).filter (fun msg => !msg.isDone) = [] := by
  have hdone : ∀ msg ∈ sentMsgs n, msg.isDone = true := by
    intro msg hmsg
    rcases List.mem_map.mp hmsg with ⟨addr, -, rfl⟩
    rfl
  constructor
  . rw [List.filter_eq_self]
    exact hdone
  . rw [List.filter_eq_nil_iff]
    intro msg hmsg
    simp [hdone msg hmsg]

theorem cleanFinishMsg_sentMsgs {n : Nat} (hn : n ≤ vectorMaxSize)
    : ∃ res, (sentQueue (sentMsgs n)).cleanFinishMsg = some res ∧ res.queue = sentQueue []
        ∧ res.recorded = sentMsgs n ∧ res.count = cleanFinishMsg.i32 n := by
  have hlen : (sentMsgs n).length = n := by simp [sentMsgs]
  have hsize : (sentQueue (sentMsgs n)).msgQueue.length ≤ vectorMaxSize := hlen.trans_le hn
  refine ⟨_, cleanFinishMsg_eq hsize, ?_⟩
  simp [sentQueue, filter_sentMsgs, hlen]

-- One message more than an `int32_t` can count.
theorem cleanFinishMsg_miscounts
    : (sentMsgs 2147483648).length = 2147483648 ∧ 2147483648 ≤ vectorMaxSize
        ∧ ∃ res, (sentQueue (sentMsgs 2147483648)).cleanFinishMsg = some res
            ∧ res.queue = sentQueue [] ∧ res.recorded = sentMsgs 2147483648
            ∧ res.count = -2147483648 := by
  have hsize : 2147483648 ≤ vectorMaxSize := by decide
  have hlen : (sentMsgs 2147483648).length = 2147483648 := by
    unfold sentMsgs
    rw [List.length_map, List.length_range]
  rcases cleanFinishMsg_sentMsgs hsize with ⟨res, hres, hqueue, hrecorded, hcount⟩
  refine ⟨hlen, hsize, res, hres, hqueue, hrecorded, ?_⟩
  rw [hcount]
  rfl

end Queue
end OfpProxy
