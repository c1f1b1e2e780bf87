import OfpProxy.Scheduler.History
import OfpProxy.Scheduler.Stored

/-!
This module compares the two ways to complete a message, by scanning its queue and by the position
that `pos_map` has for it. Positions are those at the time of the push.
-/

namespace OfpProxy
namespace Queue

variable {q : Queue} {identify pos : Nat}

theorem markFinishedAt_length (hsize : q.msgQueue.length ≤ vectorMaxSize)
    : q.markFinishedAt identify q.msgQueue.length = none := by
  have hmod : (q.msgQueue.length : Int) % 18446744073709551616 = q.msgQueue.length := by
    unfold vectorMaxSize at hsize
    omega
  unfold markFinishedAt
  rw [hmod, if_neg (by omega), Int.toNat_natCast, List.getElem?_eq_none (Nat.le_refl _)]

theorem markFinishedAt_of_only {msg : OFPMsg} (hsize : q.msgQueue.length ≤ vectorMaxSize)
    (hmsg : q.msgQueue[pos]? = some msg)
    (honly : ∀ i m, q.msgQueue[i]? = some m → m.identity = identify → i = pos)
    : q.markFinishedAt identify pos = some (q.markFinished identify) := by
  have hpos := (List.getElem?_eq_some_iff.mp hmsg).1
  have hmod : (pos : Int) % 18446744073709551616 = pos := by
    unfold vectorMaxSize at hsize
    omega
  have honly' : ∀ i m, q.msgQueue[i]? = some m → m.isOutstanding identify = true → i = pos := by
    intro i m hm hwaits
    simp only [OFPMsg.isOutstanding, decide_eq_true_eq] at hwaits
    exact honly i m hm hwaits.2.2
  unfold markFinishedAt
  rw [hmod, if_neg (by omega), Int.toNat_natCast, hmsg, markFinished_eq]
  simp only [OFPMsg.isOutstanding_iff]
  split
  . next hwaits =>
    rw [Marking.markFirst_one_eq_set hmsg hwaits honly', List.any_eq_true.mpr]
    . rfl
    . exact ⟨msg, List.mem_of_getElem? hmsg, hwaits⟩
  . next hwaits =>
    have hnone : ∀ m ∈ q.msgQueue, m.isOutstanding identify = false := by
      intro m hm
      rcases List.getElem?_of_mem hm with ⟨i, hi⟩
      rw [← Bool.not_eq_true]
      intro hm'
      rw [honly' i m hi hm', hmsg, Option.some_inj] at hi
      rw [hi] at hwaits
      contradiction
    rw [Marking.markFirst_of_none hnone, List.any_eq_false.mpr]
    simpa using hnone

end Queue

namespace Scheduler

-- no message was put under this identity before
def putsFresh (s : State) : Label → Bool
  | .putMsg arg mem fd garbage =>
    (s.posMap (Schedule.newOFPMsg mem arg fd s.next garbage).identity).isNone
  | _ => true

-- pos_map has this entry, or gets it with the next step of putMessage
def Recorded (s : State) (identity : Nat) (pos : MsgPos) : Prop :=
  s.posMap identity = some pos ∨ ∃ addr, s.put = .pushed addr identity pos

def Holds (msgs : List (List OFPMsg)) (identity : Nat) (pos : MsgPos) : Prop :=
  ∃ msg, (msgs[pos.qid]?.bind fun xs => xs[pos.pid]?) = some msg ∧ msg.identity = identity

/--
The completion by position does what the scan does, and stays inside the vector.
-/
def PositionsAgree (s : State) : Prop :=
  ∀ identity pos, s.posMap identity = some pos
    → ∃ q, s.queues[pos.qid]? = some q
        ∧ q.markFinishedAt identity pos.pid = some (q.markFinished identity)

theorem getElem?_stored {s : State} {i : Nat} {xs : List OFPMsg}
    : (stored s)[i]? = some xs ↔ ∃ q, s.queues[i]? = some q ∧ q.stored = xs := by
  unfold stored
  rw [List.getElem?_map, Option.map_eq_some_iff]

-- no entry stands in the way of the insertion that is due
def Pending (s : State) : Prop :=
  ∀ addr identity pos, s.put = .pushed addr identity pos → s.posMap identity = none

theorem Pending.recorded_unique {s : State} (h : Pending s) {identity : Nat} {pos pos' : MsgPos}
    (hpos : Recorded s identity pos) (hpos' : Recorded s identity pos') : pos = pos' := by
  rcases hpos with hpos | ⟨addr, hput⟩
  . rcases hpos' with hpos' | ⟨addr', hput'⟩
    . rw [hpos, Option.some_inj] at hpos'
      exact hpos'
    . rw [h addr' identity pos' hput'] at hpos
      contradiction
  . rcases hpos' with hpos' | ⟨addr', hput'⟩
    . rw [h addr identity pos hput] at hpos'
      contradiction
    . rw [hput] at hput'
      exact (PutPc.pushed.inj hput').2.2

/--
What a step does to the messages and to the positions that are recorded for them.
-/
inductive PlaceStep (s s' : State) : Label → Prop where
  | same {label : Label} :
    stored s' = stored s → (∀ identity pos, Recorded s' identity pos ↔ Recorded s identity pos)
      → PlaceStep s s' label
  | push {arg : OFPMsgArg} {mem : Mem} {fd : Int} {garbage qid : Nat} {q : Queue} :
    s.queues[qid]? = some q
      → stored s' = (stored s).set qid (q.stored ++ [Schedule.newOFPMsg mem arg fd s.next garbage])
      → (∀ identity pos, Recorded s' identity pos
          ↔ Recorded s identity pos
            ∨ identity = (Schedule.newOFPMsg mem arg fd s.next garbage).identity
              ∧ pos = ⟨qid, q.msgQueue.length⟩)
      → PlaceStep s s' (.putMsg arg mem fd garbage)
  | clean {now : Timeval} {i : Nat} {cleanNum : Int} {q : Queue} :
    s.run = .clean i cleanNum → s.queues[i]? = some q
      → stored s' = (stored s).set i ((q.msgQueue.filter fun msg => !msg.isDone).map OFPMsg.asPut)
      → (∀ identity pos, Recorded s' identity pos ↔ Recorded s identity pos)
      → PlaceStep s s' (.run now)

theorem recorded_insertPos {s : State} (hpending : Pending s) {addr identity : Nat} {pos : MsgPos}
    (hput : s.put = .pushed addr identity pos) (identity' : Nat) (pos' : MsgPos)
    : Recorded
          { s with
              posMap := Function.update s.posMap identity (some ((s.posMap identity).getD pos))
              put := .mapped addr } identity' pos'
        ↔ Recorded s identity' pos' := by
  unfold Recorded
  rw [hpending addr identity pos hput, Option.getD_none, hput]
  simp only [reduceCtorEq, exists_false, or_false, PutPc.pushed.injEq]
  by_cases hid : identity' = identity
  . subst hid
    rw [Function.update_self, hpending addr identity' pos hput]
    simp
  . rw [Function.update_of_ne hid]
    simp [Ne.symm hid]

theorem stored_eq_of_branch {s s' : State} {label : Label} (hs : Sized s) (h : Branch s label s')
    (hput : ∀ arg mem fd garbage, label ≠ .putMsg arg mem fd garbage)
    (hclean : ∀ i cleanNum, s.run ≠ .clean i cleanNum ∨ ∀ now, label ≠ .run now)
    : stored s' = stored s := by
  have hstep := storeStep_of_branch hs h
  generalize stored s' = msgs at *
  cases hstep with
  | same => rfl
  | push hqid hq => exact absurd rfl (hput _ _ _ _)
  | clean hrun hq =>
    cases hclean _ _ with
    | inl hne => exact absurd hrun hne
    | inr hne => exact absurd rfl (hne _)

theorem placeStep_of_branch {s s' : State} {label : Label} (hs : Sized s) (hpending : Pending s)
    (h : Branch s label s') : PlaceStep s s' label := by
  have hbranch := h
  cases h with
  | @push arg mem fd garbage qid q hput hqid hq hsize =>
    refine .push hq ?_ ?_
    . unfold stored
      rw [List.map_set]
      unfold Queue.stored
      rw [List.map_append]
      rfl
    . intro identity pos
      simp [Recorded, hput, eq_comm]
  | @clean now i cleanNum q res hrun hi hq hres =>
    refine .clean hrun hq ?_ fun _ _ => Iff.rfl
    rw [hs.clean_eq hq hres]
    unfold stored
    rw [List.map_set]
    rfl
  | insertPos hput => exact .same rfl (recorded_insertPos hpending hput)
  | readToBeSent hput =>
    refine .same (stored_eq_of_branch hs hbranch (by simp) (by simp)) ?_
    intro identity pos
    simp [Recorded, hput, State.update]
  | markFinished hq =>
    exact .same (stored_eq_of_branch hs hbranch (by simp) (by simp)) fun _ _ => Iff.rfl
  | nextQueue hrun | fetch hrun | mark hrun | finish hrun =>
    exact .same (stored_eq_of_branch hs hbranch (by simp) (by simp [hrun])) fun _ _ => Iff.rfl
  | _ => exact .same rfl fun _ _ => Iff.rfl

theorem Pending.of_branch {s s' : State} {label : Label} (h : Pending s) (hfresh : putsFresh s label = true)
    (hbranch : Branch s label s') : Pending s' := by
  intro addr identity pos hput'
  cases hbranch with
  | push hput hqid hq hsize =>
    simp only [PutPc.pushed.injEq] at hput'
    rw [← hput'.2.1]
    simpa [putsFresh] using hfresh
  | insertPos | readToBeSent => simp at hput'
  | _ => exact h addr identity pos hput'

theorem pending_of_reachable {ok : State → Label → Prop} {s : State}
    (hok : ∀ s label, ok s label → putsFresh s label = true) (h : machine.ReachableBy ok s)
    : Pending s := by
  apply Machine.ReachableBy.invariant _ _ h
  . rintro s ⟨name, now, rfl⟩ addr identity pos hput
    simp [State.init] at hput
  . intro s label s' hreach hs hlabel hstep
    apply hs.of_branch (hok s label hlabel) (branch_of_step hstep)

-- Every message is where its entry says, and every entry is one of a message.
def Coherent (s : State) : Prop :=
  ∀ identity pos, Recorded s identity pos ↔ Holds (stored s) identity pos

theorem holds_push {msgs : List (List OFPMsg)} {qid : Nat} {xs : List OFPMsg}
    (hxs : msgs[qid]? = some xs) (msg : OFPMsg) (identity : Nat) (pos : MsgPos)
    : Holds (msgs.set qid (xs ++ [msg])) identity pos
        ↔ Holds msgs identity pos ∨ identity = msg.identity ∧ pos = ⟨qid, xs.length⟩ := by
  have hqid := (List.getElem?_eq_some_iff.mp hxs).1
  rcases pos with ⟨i, pid⟩
  unfold Holds
  by_cases hi : i = qid
  . subst hi
    simp only [List.getElem?_set_self hqid, Option.bind_some, hxs, MsgPos.mk.injEq, true_and]
    rcases Nat.lt_trichotomy pid xs.length with hlt | heq | hgt
    . have hne : pid ≠ xs.length := by omega
      rw [List.getElem?_append_left hlt]
      simp [hne]
    . subst heq
      simp [eq_comm]
    . have hne : pid ≠ xs.length := by omega
      rw [List.getElem?_eq_none (by simp; omega), List.getElem?_eq_none (by omega)]
      simp [hne]
  . rw [List.getElem?_set_ne (Ne.symm hi)]
    simp [hi]

theorem Coherent.of_placeStep {s s' : State} {label : Label} (h : Coherent s)
    (hclean : cleansNothing s label = true) (hstep : PlaceStep s s' label) : Coherent s' := by
  intro identity pos
  cases hstep with
  | same hstored hrecorded => rw [hrecorded, hstored, h]
  | @push arg mem fd garbage qid q hq hstored hrecorded =>
    have hxs := getElem?_stored.mpr ⟨q, hq, rfl⟩
    have hlen : q.stored.length = q.msgQueue.length := List.length_map _
    rw [hrecorded, hstored, holds_push hxs, h, hlen]
  | @clean now i cleanNum q hrun hq hstored hrecorded =>
    have hkept : (q.msgQueue.filter fun msg => !msg.isDone) = q.msgQueue := by
      rw [List.filter_eq_self]
      intro msg hmsg
      rw [not_isDone_of_cleansNothing hclean hrun hq msg hmsg]
      rfl
    have hsame : stored s' = stored s := by
      rw [hstored, hkept]
      rcases List.getElem?_eq_some_iff.mp (getElem?_stored.mpr ⟨q, hq, rfl⟩) with ⟨hi, hget⟩
      unfold Queue.stored at hget
      rw [← hget, List.set_getElem_self]
    rw [hrecorded, hsame, h]

theorem coherent_of_reachableBy {s : State}
    (h : machine.ReachableBy
      (fun s label => putsFresh s label = true ∧ cleansNothing s label = true) s)
    : Coherent s := by
  apply Machine.ReachableBy.invariant _ _ h
  . rintro s ⟨name, now, rfl⟩ identity pos
    have hnone : ¬Holds (stored (.init name now)) identity pos := by
      rintro ⟨msg, hmsg, -⟩
      rw [Option.bind_eq_some_iff] at hmsg
      rcases hmsg with ⟨xs, hxs, hmsg⟩
      rcases getElem?_stored.mp hxs with ⟨q, hq, rfl⟩
      rw [State.init_queue hq] at hmsg
      simp [Queue.stored, Queue.new] at hmsg
    rw [iff_false_right hnone]
    simp [Recorded, State.init]
  . intro s label s' hreach hs hok hstep
    have hpending := pending_of_reachable (fun _ _ hok => hok.1) hreach
    apply hs.of_placeStep hok.2
    apply placeStep_of_branch (sized_of_reachable hreach.reachable) hpending (branch_of_step hstep)

theorem Coherent.positionsAgree {s : State} (h : Coherent s) (hs : Sized s) (hpending : Pending s)
    : PositionsAgree s := by
  intro identity pos hpos
  rcases (h identity pos).mp (.inl hpos) with ⟨m, hm, -⟩
  rw [Option.bind_eq_some_iff] at hm
  rcases hm with ⟨xs, hxs, hm⟩
  rcases getElem?_stored.mp hxs with ⟨q, hq, rfl⟩
  unfold Queue.stored at hm
  rw [List.getElem?_map, Option.map_eq_some_iff] at hm
  rcases hm with ⟨msg, hmsg, rfl⟩
  refine ⟨q, hq, Queue.markFinishedAt_of_only (hs.size q (List.mem_of_getElem? hq)) hmsg ?_⟩
  intro i m hm hid
  have hholds : Holds (stored s) identity ⟨pos.qid, i⟩ := by
    refine ⟨m.asPut, ?_, hid⟩
    rw [hxs]
    simp [Queue.stored, hm]
  have hrecorded := (h identity ⟨pos.qid, i⟩).mpr hholds
  rw [← hpending.recorded_unique hrecorded (.inl hpos)]

-- Whatever the length of a queue was, there is an entry for each place below it.
def Covered (s : State) : Prop :=
  ∀ i xs pid, (stored s)[i]? = some xs → pid < xs.length → ∃ identity, Recorded s identity ⟨i, pid⟩

theorem Covered.mono {s s' : State} (h : Covered s)
    (hrecorded : ∀ identity pos, Recorded s' identity pos ↔ Recorded s identity pos)
    (hlen : ∀ (i : Nat) (xs' : List OFPMsg), (stored s')[i]? = some xs'
      → ∃ xs : List OFPMsg, (stored s)[i]? = some xs ∧ xs'.length ≤ xs.length) : Covered s' := by
  intro i xs' pid hxs' hpid
  rcases hlen i xs' hxs' with ⟨xs, hxs, hle⟩
  rcases h i xs pid hxs (by omega) with ⟨identity, hid⟩
  exact ⟨identity, (hrecorded _ _).mpr hid⟩

theorem Covered.of_placeStep {s s' : State} {label : Label} (h : Covered s)
    (hstep : PlaceStep s s' label) : Covered s' := by
  cases hstep with
  | same hstored hrecorded =>
    apply h.mono hrecorded
    intro i xs hxs
    rw [hstored] at hxs
    exact ⟨xs, hxs, Nat.le_refl _⟩
  | @push arg mem fd garbage qid q hq hstored hrecorded =>
    intro i xs pid hxs hpid
    have hqid := getElem?_stored.mpr ⟨q, hq, rfl⟩
    rw [hstored] at hxs
    by_cases hi : i = qid
    . subst hi
      rw [List.getElem?_set_self (List.getElem?_eq_some_iff.mp hqid).1, Option.some_inj] at hxs
      rw [← hxs, List.length_append, List.length_singleton] at hpid
      have hlen : q.stored.length = q.msgQueue.length := List.length_map _
      cases Nat.lt_or_ge pid q.stored.length with
      | inl hlt =>
        rcases h i q.stored pid hqid hlt with ⟨identity, hid⟩
        exact ⟨identity, (hrecorded _ _).mpr (.inl hid)⟩
      | inr hge =>
        have heq : pid = q.msgQueue.length := by omega
        exact ⟨_, (hrecorded _ _).mpr (.inr ⟨rfl, by rw [heq]⟩)⟩
    . rw [List.getElem?_set_ne (Ne.symm hi)] at hxs
      rcases h i xs pid hxs hpid with ⟨identity, hid⟩
      exact ⟨identity, (hrecorded _ _).mpr (.inl hid)⟩
  | @clean now j cleanNum q hrun hq hstored hrecorded =>
    apply h.mono hrecorded
    intro i xs hxs
    have hj := getElem?_stored.mpr ⟨q, hq, rfl⟩
    rw [hstored] at hxs
    by_cases hi : i = j
    . subst hi
      rw [List.getElem?_set_self (List.getElem?_eq_some_iff.mp hj).1, Option.some_inj] at hxs
      refine ⟨q.stored, hj, ?_⟩
      rw [← hxs, List.length_map, Queue.stored, List.length_map]
      apply List.length_filter_le
    . rw [List.getElem?_set_ne (Ne.symm hi)] at hxs
      exact ⟨xs, hxs, Nat.le_refl _⟩

theorem covered_of_reachableBy {s : State}
    (h : machine.ReachableBy (fun s label => putsFresh s label = true) s) : Covered s := by
  apply Machine.ReachableBy.invariant _ _ h
  . rintro s ⟨name, now, rfl⟩ i xs pid hxs hpid
    rcases getElem?_stored.mp hxs with ⟨q, hq, rfl⟩
    rw [State.init_queue hq] at hpid
    simp [Queue.stored, Queue.new] at hpid
  . intro s label s' hreach hs hok hstep
    have hpending := pending_of_reachable (fun _ _ hok => hok) hreach
    apply hs.of_placeStep
    apply placeStep_of_branch (sized_of_reachable hreach.reachable) hpending (branch_of_step hstep)

-- the place behind the last message of a queue that was just cleaned
theorem exists_stale {s s' : State} {label : Label}
    (h : machine.ReachableBy (fun s label => putsFresh s label = true) s)
    (hput : ∀ addr identity pos, s.put ≠ .pushed addr identity pos)
    (hclean : cleansNothing s label = false) (hstep : step s label = some s')
    : ∃ identity pos q, s'.posMap identity = some pos ∧ s'.queues[pos.qid]? = some q
        ∧ q.markFinishedAt identity pos.pid = none := by
  have hs := sized_of_reachable h.reachable
  cases branch_of_step hstep with
  | @clean now i cleanNum q res hrun hi hq hres =>
    simp only [cleansNothing, hrun, hq, Option.all_some, List.all_eq_false] at hclean
    rw [hs.clean_eq hq hres]
    rcases hclean with ⟨msg, hmsg, hdone⟩
    have hlt : (q.msgQueue.filter fun msg => !msg.isDone).length < q.msgQueue.length := by
      rw [List.length_filter_lt_length_iff_exists]
      exact ⟨msg, hmsg, hdone⟩
    have hcovered := covered_of_reachableBy h i q.stored _ (getElem?_stored.mpr ⟨q, hq, rfl⟩)
      (lt_of_lt_of_eq hlt (List.length_map _).symm)
    rcases hcovered with ⟨identity, hmap | ⟨addr, hpushed⟩⟩
    . refine ⟨identity, _, _, hmap, List.getElem?_set_self (List.getElem?_eq_some_iff.mp hq).1, ?_⟩
      apply Queue.markFinishedAt_length
      have hsize := hs.size q (List.mem_of_getElem? hq)
      dsimp only
      omega
    . exact absurd hpushed (hput _ _ _)
  | cleanEnd hrun hi =>
    simp only [cleansNothing, hrun] at hclean
    rw [List.getElem?_eq_none (by rw [hs.queues]; omega)] at hclean
    simp at hclean
  | push | insertPos | readToBeSent | markFinished | write => simp [cleansNothing] at hclean
  | toClean hrun | noClean hrun | toPoll hrun | noCredit hrun | nextQueue hrun | fetch hrun
  | noMessage hrun | mark hrun | finish hrun | needTime hrun | takeCredit hrun | noSchedule hrun =>
    simp [cleansNothing, hrun] at hclean

/--
With distinct identities the positions are good as long as nothing was cleaned, and every call of
`cleanFinishMsg` that removes a message makes one of them point behind the end of its queue.
-/
theorem positions_agree {s : State}
    : (machine.ReachableBy
            (fun s label => putsFresh s label = true ∧ cleansNothing s label = true) s
          → PositionsAgree s)
        ∧ (machine.ReachableBy (fun s label => putsFresh s label = true) s
          → (∀ addr identity pos, s.put ≠ .pushed addr identity pos)
          → ∀ s' label, cleansNothing s label = false → step s label = some s'
          → ¬PositionsAgree s') := by
  constructor
  . intro h
    apply (coherent_of_reachableBy h).positionsAgree (sized_of_reachable h.reachable)
    apply pending_of_reachable (fun _ _ hok => hok.1) h
  . intro h hput s' label hclean hstep hagree
    rcases exists_stale h hput hclean hstep with ⟨identity, pos, q, hmap, hq, hnone⟩
    rcases hagree identity pos hmap with ⟨r, hr, heq⟩
    rw [hq, Option.some_inj] at hr
    rw [← hr, hnone] at heq
    contradiction

theorem positions_agree_twoRequests
    : ∃ s, s.posMap 7 = some ⟨0, 0⟩ ∧ s.posMap 8 = some ⟨0, 1⟩ ∧ s.sent.length = 1 ∧ PositionsAgree s := by
  have hrun := @Machine.exists_of_replay _ _ machine
    (fun s label => decide (putsFresh s label = true ∧ cleansNothing s label = true))
    (putMessage [4, 18, 0, 8, 0, 0, 0, 7] ++ putMessage [4, 18, 0, 8, 0, 0, 0, 8] ++ ticks 4
      ++ [.writev (some 8)] ++ ticks 1)
    (.init "SERVER" fun _ => ⟨0, 0⟩)
    (fun s => decide (s.posMap 7 = some ⟨0, 0⟩ ∧ s.posMap 8 = some ⟨0, 1⟩ ∧ s.sent.length = 1))
    (.init ⟨"SERVER", _, rfl⟩) (by decide +kernel)
  simp only [decide_eq_true_eq] at hrun
  rcases hrun with ⟨s, hreach, hseven, height, hsent⟩
  exact ⟨s, hseven, height, hsent, positions_agree.1 hreach⟩

-- The only message of queue 1 was sent and cleaned.
theorem positions_stale
    : ∃ s, machine.ReachableBy (fun s label => FromReader label ∧ putsFresh s label = true) s
        ∧ ¬PositionsAgree s := by
  have hrun := @exists_fromReader_of_replay putsFresh "CLIENT"
    (putMessage [4, 19, 0, 8, 0, 0, 0, 7] ++ ticks 16 ++ [.writev (some 8)] ++ ticks 5)
    (fun s => decide (s.posMap 7 = some ⟨1, 0⟩
      ∧ (s.queues[1]?.map fun q => (q.markFinishedAt 7 0).isNone) = some true))
    (by simp only [List.forall_mem_append, List.forall_mem_singleton]
        exact ⟨⟨⟨fromReader_putMessage _, fromReader_ticks 16⟩, trivial⟩, fromReader_ticks 5⟩)
    (by decide +kernel)
  rcases hrun with ⟨s, hreach, hstale⟩
  rw [decide_eq_true_eq, Option.map_eq_some_iff] at hstale
  rcases hstale with ⟨hmap, q, hq, hnone⟩
  refine ⟨s, hreach, ?_⟩
  intro hagree
  rcases hagree 7 ⟨1, 0⟩ hmap with ⟨r, hr, heq⟩
  rw [hq, Option.some_inj] at hr
  rw [Option.isNone_iff_eq_none] at hnone
  rw [← hr, Int.natCast_zero, hnone] at heq
  contradiction

end Scheduler
end OfpProxy
