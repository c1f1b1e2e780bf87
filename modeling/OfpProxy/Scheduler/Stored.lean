import OfpProxy.Queue.Marking
import OfpProxy.Scheduler.Ownership

/-!
This module says what a step of the scheduler does to the messages as they were put, that is, without
the flags that the threads set on them later.
-/

namespace OfpProxy

def OFPMsg.asPut (msg : OFPMsg) : OFPMsg :=
  { msg with
      inProcess := false
      finished := false
      readToBeSent := true }

def Queue.stored (q : Queue) : List OFPMsg := q.msgQueue.map OFPMsg.asPut

theorem Queue.stored_markFinished (q : Queue) (identify : Nat)
    : (q.markFinished identify).2.stored = q.stored := by
  cases q.markFinished_cases identify with
  | inl hsame => rw [hsame]
  | inr hmarked =>
    rcases hmarked with ⟨before, msg, after, hmsgs, -, -, hmark⟩
    unfold stored
    rw [hmark, hmsgs, List.map_append, List.map_append, List.map_cons, List.map_cons]
    rfl

theorem Queue.stored_fetchMsg (q : Queue) (now : Timeval) : (q.fetchMsg now).2.stored = q.stored := by
  unfold stored
  rw [Queue.fetchMsg_msgQueue]

namespace Scheduler

def stored (s : State) : List (List OFPMsg) := s.queues.map Queue.stored

theorem stored_set {s : State} {i : Nat} {q q' : Queue} (hq : s.queues[i]? = some q)
    (hsame : q'.stored = q.stored) : (s.queues.set i q').map Queue.stored = stored s := by
  rcases List.getElem?_eq_some_iff.mp hq with ⟨hi, rfl⟩
  rw [List.map_set, hsame, ← List.map_set, List.set_getElem_self]
  rfl

theorem stored_update {s : State} {addr : Nat} {f : OFPMsg → OFPMsg}
    (hf : ∀ msg, (f msg).asPut = msg.asPut) : stored (s.update addr f) = stored s := by
  unfold stored State.update
  rw [List.map_map]
  apply List.map_congr_left
  intro q _
  unfold Queue.stored
  simp only [Function.comp_apply, List.map_map]
  apply List.map_congr_left
  intro msg _
  simp only [Function.comp_apply]
  split
  . apply hf
  . rfl

/--
What a step leaves in the queues.
-/
inductive StoreStep (s : State) : Label → List (List OFPMsg) → Prop where
  | same {label : Label} : StoreStep s label (stored s)
  | push {arg : OFPMsgArg} {mem : Mem} {fd : Int} {garbage qid : Nat} {q : Queue} :
    arg.qid = some qid → s.queues[qid]? = some q
      → StoreStep s (.putMsg arg mem fd garbage)
          ((stored s).set qid (q.stored ++ [Schedule.newOFPMsg mem arg fd s.next garbage]))
  | clean {now : Timeval} {i : Nat} {cleanNum : Int} {q : Queue} :
    s.run = .clean i cleanNum → s.queues[i]? = some q
      → StoreStep s (.run now)
          ((stored s).set i ((q.msgQueue.filter fun msg => !msg.isDone).map OFPMsg.asPut))

theorem storeStep_set {s : State} {label : Label} {i : Nat} {q q' : Queue}
    (hq : s.queues[i]? = some q) (hsame : q'.stored = q.stored)
    : StoreStep s label ((s.queues.set i q').map Queue.stored) := by
  rw [stored_set hq hsame]
  exact .same

theorem storeStep_update {s : State} {label : Label} {f : OFPMsg → OFPMsg} (addr : Nat)
    (hf : ∀ msg, (f msg).asPut = msg.asPut) : StoreStep s label (stored (s.update addr f)) := by
  rw [stored_update hf]
  exact .same

theorem storeStep_of_branch {s s' : State} {label : Label} (hs : Sized s) (h : Branch s label s')
    : StoreStep s label (stored s') := by
  cases h with
  | push hput hqid hq hsize =>
    unfold stored
    rw [List.map_set]
    unfold Queue.stored
    rw [List.map_append]
    apply StoreStep.push hqid hq
  | @clean now i cleanNum q res hrun hi hq hres =>
    rw [hs.clean_eq hq hres]
    unfold stored
    rw [List.map_set]
    apply StoreStep.clean hrun hq
  | markFinished hq => apply storeStep_set hq (Queue.stored_markFinished _ _)
  | nextQueue hrun hi hq hfetch | fetch hrun hi hq hfetch =>
    apply storeStep_set hq (Queue.stored_fetchMsg _ _)
  | @readToBeSent addr hput => exact storeStep_update addr fun _ => rfl
  | @mark now addr msg hrun hfind => exact storeStep_update addr fun _ => rfl
  | @finish now addr msg hrun hfind hneed => exact storeStep_update addr fun _ => rfl
  | _ => exact .same

-- a call of cleanFinishMsg finds no message to remove
def cleansNothing (s : State) : Label → Bool
  | .run _ =>
    match s.run with
    | .clean i _ => (s.queues[i]?).all fun q => q.msgQueue.all fun msg => !msg.isDone
    | _ => true
  | _ => true

theorem not_isDone_of_cleansNothing {s : State} {now : Timeval} {i : Nat} {cleanNum : Int} {q : Queue}
    (h : cleansNothing s (.run now) = true) (hrun : s.run = .clean i cleanNum)
    (hq : s.queues[i]? = some q) : ∀ msg ∈ q.msgQueue, msg.isDone = false := by
  simp only [cleansNothing, hrun, hq, Option.all_some, List.all_eq_true] at h
  intro msg hmsg
  simpa using h msg hmsg

-- What holds of every message when it is put in queue `i` holds of it as long as it is there.
theorem StoreStep.forall {P : Nat → OFPMsg → Prop} {s : State} {label : Label}
    {msgs : List (List OFPMsg)} (h : StoreStep s label msgs)
    (hs : ∀ i xs, (stored s)[i]? = some xs → ∀ msg ∈ xs, P i msg)
    (hpush : ∀ arg mem fd garbage qid, label = .putMsg arg mem fd garbage → arg.qid = some qid
      → P qid (Schedule.newOFPMsg mem arg fd s.next garbage))
    : ∀ i xs, msgs[i]? = some xs → ∀ msg ∈ xs, P i msg := by
  have hset : ∀ j (ys : List OFPMsg), (∀ msg ∈ ys, P j msg)
      → ∀ i xs, ((stored s).set j ys)[i]? = some xs → ∀ msg ∈ xs, P i msg := by
    intro j ys hys i xs hxs
    by_cases hij : i = j
    . subst hij
      rw [List.getElem?_set_self', Option.map_eq_map, Option.map_eq_some_iff] at hxs
      rcases hxs with ⟨_, -, rfl⟩
      exact hys
    . rw [List.getElem?_set_ne (Ne.symm hij)] at hxs
      apply hs i xs hxs
  cases h with
  | same => exact hs
  | @push arg mem fd garbage qid q hqid hq =>
    apply hset
    rw [List.forall_mem_append, List.forall_mem_singleton]
    refine ⟨?_, hpush arg mem fd garbage qid rfl hqid⟩
    apply hs
    unfold stored
    rw [List.getElem?_map, hq, Option.map_some]
  | @clean now i cleanNum q hrun hq =>
    apply hset
    intro msg hmsg
    apply hs i q.stored _ msg (List.map_subset _ (List.filter_subset_self _) hmsg)
    unfold stored
    rw [List.getElem?_map, hq, Option.map_some]

theorem stored_of_reachableBy {P : Nat → OFPMsg → Prop} {ok : State → Label → Prop}
    (hpush : ∀ s arg mem fd garbage qid, ok s (.putMsg arg mem fd garbage) → arg.qid = some qid
      → P qid (Schedule.newOFPMsg mem arg fd s.next garbage))
    {s : State} (h : machine.ReachableBy ok s) {i : Nat} {q : Queue} (hq : s.queues[i]? = some q)
    : ∀ msg ∈ q.msgQueue, P i msg.asPut := by
  have hstored : ∀ i xs, (stored s)[i]? = some xs → ∀ msg ∈ xs, P i msg := by
    apply Machine.ReachableBy.invariant _ _ h
    . rintro s ⟨name, now, rfl⟩ i xs hxs
      unfold stored at hxs
      rw [List.getElem?_map, Option.map_eq_some_iff] at hxs
      rcases hxs with ⟨q, hq, rfl⟩
      simp only [State.init, List.getElem?_map, Option.map_eq_some_iff] at hq
      rcases hq with ⟨j, -, rfl⟩
      simp [Queue.stored, Queue.new]
    . intro s label s' hreach hs hok hstep
      apply (storeStep_of_branch (sized_of_reachable hreach.reachable) (branch_of_step hstep)).forall hs
      rintro arg mem fd garbage qid rfl
      apply hpush s arg mem fd garbage qid hok
  rw [← List.forall_mem_map]
  apply hstored i
  unfold stored
  rw [List.getElem?_map, hq, Option.map_some]
  rfl

end Scheduler
end OfpProxy
