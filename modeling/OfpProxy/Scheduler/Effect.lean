import OfpProxy.Scheduler.Branch

/-!
This module says once what a step of the scheduler can do to the messages, to the history and to the
program point of `run`. The invariants are derived from that.
-/

namespace OfpProxy
namespace Scheduler

theorem i32_add (x y : Int) : i32 (i32 x + y) = i32 (x + y) := by
  unfold i32
  rw [Int.bmod_add_bmod]

theorem add_i32 (x y : Int) : i32 (x + i32 y) = i32 (x + y) := by
  unfold i32
  rw [Int.add_bmod_bmod]

theorem add_count (x y : Int) : i32 (x + Queue.cleanFinishMsg.i32 y) = i32 (x + y) := add_i32 x y

theorem i32_i32 (x : Int) : i32 (i32 x) = i32 x := by
  unfold i32
  rw [Int.bmod_bmod]

structure Keeps (msg msg' : OFPMsg) : Prop where
  addr : msg'.addr = msg.addr
  len : msg'.len = msg.len
  buf : msg'.buf = msg.buf
  inProcess : msg'.inProcess = msg.inProcess
  finished : msg'.finished = true → msg.finished = true ∨ msg.inProcess = true

theorem Keeps.refl (msg : OFPMsg) : Keeps msg msg := ⟨rfl, rfl, rfl, rfl, .inl⟩

theorem keeps_refl (msgs : List OFPMsg) : List.Forall₂ Keeps msgs msgs := by
  induction msgs with
  | nil => exact .nil
  | cons msg msgs ih => exact .cons (.refl msg) ih

theorem keeps_map {f : OFPMsg → OFPMsg} {msgs : List OFPMsg} (h : ∀ msg ∈ msgs, Keeps msg (f msg))
    : List.Forall₂ Keeps msgs (msgs.map f) := by
  induction msgs with
  | nil => exact .nil
  | cons msg msgs ih =>
    rw [List.forall_mem_cons] at h
    exact .cons h.1 (ih h.2)

theorem keeps_map_addr {msgs msgs' : List OFPMsg} (h : List.Forall₂ Keeps msgs msgs')
    : msgs'.map OFPMsg.addr = msgs.map OFPMsg.addr := by
  induction h with
  | nil => rfl
  | cons hmsg _ ih => rw [List.map_cons, List.map_cons, hmsg.addr, ih]

theorem keeps_mem {msgs msgs' : List OFPMsg} (h : List.Forall₂ Keeps msgs msgs')
    : (∀ msg' ∈ msgs', ∃ msg ∈ msgs, Keeps msg msg') ∧ ∀ msg ∈ msgs, ∃ msg' ∈ msgs', Keeps msg msg' := by
  induction h with
  | nil => simp
  | cons hmsg _ ih =>
    simp only [List.forall_mem_cons, List.exists_mem_cons_iff]
    exact ⟨⟨.inl hmsg, fun m hm => .inr (ih.1 m hm)⟩, .inl hmsg, fun m hm => .inr (ih.2 m hm)⟩

inductive Move (s : State) : RunPc → Int → Prop where
  | toClean :
    s.run = .start → s.maxInProcess < 2 ∨ s.isSWToControl = true → Move s (.clean 0 0) s.maxInProcess
  | noClean :
    s.run = .start → ¬(s.maxInProcess < 2 ∨ s.isSWToControl = true) → Move s .loop s.maxInProcess
  | cleanEnd {i : Nat} {cleanNum : Int} :
    s.run = .clean i cleanNum → ¬i < Schedule.queueNum
      → Move s .loop (i32 (s.maxInProcess + cleanNum))
  | toPoll : s.run = .loop → s.maxInProcess > 0 → Move s (.poll 0) s.maxInProcess
  | noCredit : s.run = .loop → ¬s.maxInProcess > 0 → Move s .start s.maxInProcess
  | nextQueue {i : Nat} :
    s.run = .poll i → i < Schedule.queueNum → Move s (.poll (i + 1)) s.maxInProcess
  | fetch {i : Nat} {msg : OFPMsg} :
    s.run = .poll i → msg ∈ s.messages → msg.inProcess = false
      → Move s (.fetched msg.addr) s.maxInProcess
  | noMessage {i : Nat} :
    s.run = .poll i → ¬i < Schedule.queueNum → Move s .start s.maxInProcess
  | takeCredit :
    s.run = .sent → s.isSWToControl = false → Move s .loop (i32 (s.maxInProcess - 1))
  | noSchedule : s.run = .sent → s.isSWToControl = true → Move s .start s.maxInProcess

/--
What a step can do.
-/
inductive Effect (s : State) : Label → State → Prop where
  | push {label : Label} {msg : OFPMsg} {queues : List Queue} {put : PutPc} :
    msg.addr = s.next → msg.inProcess = false → msg.finished = false → msg.buf.length = msg.len
      → (messagesOf queues).Perm (msg :: s.messages)
      → Effect s label
          { s with
              queues := queues
              put := put
              next := s.next + 1
              pushed := s.pushed ++ [s.next] }
  | touch {label : Label} {queues : List Queue} {posMap : Nat → Option MsgPos} {put : PutPc} :
    List.Forall₂ Keeps s.messages (messagesOf queues)
      → Effect s label { s with queues := queues, posMap := posMap, put := put }
  | move {label : Label} {queues : List Queue} {run : RunPc} {maxInProcess : Int} :
    messagesOf queues = s.messages → Move s run maxInProcess
      → Effect s label { s with queues := queues, run := run, maxInProcess := maxInProcess }
  | clean {label : Label} {queues : List Queue} {done : List OFPMsg} {i : Nat} {cleanNum : Int} :
    s.run = .clean i cleanNum → s.messages.Perm (messagesOf queues ++ done)
      → (∀ msg ∈ done, msg.isDone = true)
      → Effect s label
          { s with
              queues := queues
              cleaned := s.cleaned ++ done.map OFPMsg.addr
              run := .clean (i + 1) (i32 (cleanNum + done.length)) }
  | mark {label : Label} {queues : List Queue} {addr : Nat} :
    s.run = .fetched addr
      → messagesOf queues
        = s.messages.map (fun msg => if msg.addr = addr then { msg with inProcess := true } else msg)
      → Effect s label { s with queues := queues, run := .marked addr }
  | write {addr : Nat} {msg : OFPMsg} {accepted : Option Nat} :
    s.run = .marked addr → s.find addr = some msg → (∀ n ∈ accepted, n ≤ msg.len)
      → Effect s (.writev accepted)
          { s with sent := s.sent ++ [⟨msg, accepted⟩], run := .written addr }
  | finish {label : Label} {queues : List Queue} {addr : Nat} {noTime : Bool} :
    s.run = .written addr
      → messagesOf queues
        = s.messages.map
            (fun msg => if msg.addr = addr ∧ noTime = true then { msg with finished := true } else msg)
      → Effect s label { s with queues := queues, run := .sent }

theorem perm_of_filter (p : OFPMsg → Bool) (before msgs after : List OFPMsg)
    : (before ++ msgs ++ after).Perm
        (before ++ msgs.filter (fun msg => !p msg) ++ after ++ msgs.filter p) := by
  have hsplit : msgs.Perm (msgs.filter (fun msg => !p msg) ++ msgs.filter p) :=
    (List.perm_append_comm.trans (List.filter_append_perm p msgs)).symm
  apply ((hsplit.append_left before).append_right after).trans
  rw [← List.append_assoc, List.append_assoc _ _ after, List.append_assoc _ after]
  apply List.perm_append_comm.append_left

theorem messagesOf_set {queues : List Queue} {i : Nat} {q : Queue} (h : queues[i]? = some q)
    : ∃ before after, messagesOf queues = before ++ q.msgQueue ++ after
        ∧ ∀ q', messagesOf (queues.set i q') = before ++ q'.msgQueue ++ after := by
  rw [List.getElem?_eq_some_iff] at h
  rcases h with ⟨hi, hq⟩
  refine ⟨messagesOf (queues.take i), messagesOf (queues.drop (i + 1)), ?_, ?_⟩
  . have hsplit : queues = queues.take i ++ q :: queues.drop (i + 1) := by
      rw [← hq, List.cons_getElem_drop_succ, List.take_append_drop]
    nth_rewrite 1 [hsplit]
    simp [messagesOf]
  . intro q'
    rw [List.set_eq_take_append_cons_drop, if_pos hi]
    simp [messagesOf]

theorem messages_update (s : State) (addr : Nat) (f : OFPMsg → OFPMsg)
    : messagesOf (s.update addr f).queues
        = s.messages.map (fun msg => if msg.addr = addr then f msg else msg) := by
  simp [messagesOf, State.update, State.messages, List.flatMap_map, List.map_flatMap]

structure Sized (s : State) : Prop where
  queues : s.queues.length = Schedule.queueNum
  size : ∀ q ∈ s.queues, q.msgQueue.length ≤ vectorMaxSize

theorem Sized.set {s s' : State} {i : Nat} {q : Queue} (h : Sized s)
    (hqueues : s'.queues = s.queues.set i q) (hq : q.msgQueue.length ≤ vectorMaxSize) : Sized s' := by
  constructor
  . rw [hqueues, List.length_set, h.queues]
  . rw [hqueues]
    intro q' hq'
    cases List.mem_or_eq_of_mem_set hq' with
    | inl hmem => apply h.size q' hmem
    | inr heq =>
      rw [heq]
      exact hq

theorem Sized.clean_eq {s : State} {i : Nat} {q : Queue} {res : Queue.Clean} (h : Sized s)
    (hq : s.queues[i]? = some q) (hres : q.cleanFinishMsg = some res)
    : res =
        { queue := { q with msgQueue := q.msgQueue.filter fun msg => !msg.isDone }
          recorded := q.msgQueue.filter OFPMsg.isDone
          count := Queue.cleanFinishMsg.i32 (q.msgQueue.filter OFPMsg.isDone).length } := by
  rw [Queue.cleanFinishMsg_eq (h.size q (List.mem_of_getElem? hq))] at hres
  exact (Option.some.inj hres).symm

theorem Sized.same {s s' : State} (h : Sized s) (hqueues : s'.queues = s.queues) : Sized s' := by
  constructor
  . rw [hqueues, h.queues]
  . rw [hqueues]
    apply h.size

theorem Sized.update {s s' : State} (h : Sized s) {addr : Nat} {f : OFPMsg → OFPMsg}
    (hqueues : s'.queues = (s.update addr f).queues) : Sized s' := by
  constructor
  . rw [hqueues, State.update, List.length_map, h.queues]
  . rw [hqueues]
    unfold State.update
    simp only [List.forall_mem_map, List.length_map]
    apply h.size

theorem Sized.of_branch {s s' : State} {label : Label} (hs : Sized s) (h : Branch s label s')
    : Sized s' := by
  cases h with
  | push hput hqid hq hsize =>
    apply hs.set rfl
    rw [List.length_append, List.length_singleton]
    exact hsize
  | readToBeSent hput => exact hs.update rfl
  | @markFinished qid identify q hq =>
    apply hs.set rfl
    rw [q.length_markFinished identify]
    apply hs.size q (List.mem_of_getElem? hq)
  | @clean now i cleanNum q res hrun hi hq hres =>
    rw [hs.clean_eq hq hres]
    apply hs.set rfl
    apply Nat.le_trans _ (hs.size q (List.mem_of_getElem? hq))
    apply List.length_filter_le
  | @nextQueue now i q hrun hi hq hfetch =>
    apply hs.set rfl
    rw [q.fetchMsg_msgQueue now]
    apply hs.size q (List.mem_of_getElem? hq)
  | @fetch now i q msg hrun hi hq hfetch =>
    apply hs.set rfl
    rw [q.fetchMsg_msgQueue now]
    apply hs.size q (List.mem_of_getElem? hq)
  | mark hrun hfind => exact hs.update rfl
  | finish hrun hfind hneed => exact hs.update rfl
  | _ => exact hs.same rfl

section Messages

variable {s : State} {i : Nat} {q : Queue}

theorem mem_messages (hq : s.queues[i]? = some q) {msg : OFPMsg} (hmsg : msg ∈ q.msgQueue)
    : msg ∈ s.messages :=
  List.mem_flatMap.mpr ⟨q, List.mem_of_getElem? hq, hmsg⟩

theorem messages_push (hq : s.queues[i]? = some q) (msg : OFPMsg)
    : (messagesOf (s.queues.set i { q with msgQueue := q.msgQueue ++ [msg] })).Perm
        (msg :: s.messages) := by
  rcases messagesOf_set hq with ⟨before, after, hmsgs, hset⟩
  rw [hset, State.messages, hmsgs]
  simp only [List.append_assoc, List.singleton_append]
  rw [← List.append_assoc, ← List.append_assoc before]
  apply List.perm_middle

theorem messages_fetch (hq : s.queues[i]? = some q) (now : Timeval)
    : messagesOf (s.queues.set i (q.fetchMsg now).2) = s.messages := by
  rcases messagesOf_set hq with ⟨before, after, hmsgs, hset⟩
  rw [hset, q.fetchMsg_msgQueue now, State.messages, hmsgs]

theorem messages_clean (hq : s.queues[i]? = some q)
    : s.messages.Perm
        (messagesOf
            (s.queues.set i { q with msgQueue := q.msgQueue.filter fun msg => !msg.isDone })
          ++ q.msgQueue.filter OFPMsg.isDone) := by
  rcases messagesOf_set hq with ⟨before, after, hmsgs, hset⟩
  rw [hset, State.messages, hmsgs]
  apply perm_of_filter OFPMsg.isDone before q.msgQueue after

theorem keeps_markFinished (hq : s.queues[i]? = some q) (identify : Nat)
    : List.Forall₂ Keeps s.messages (messagesOf (s.queues.set i (q.markFinished identify).2)) := by
  rcases messagesOf_set hq with ⟨before, after, hmsgs, hset⟩
  rw [hset, State.messages, hmsgs]
  cases q.markFinished_cases identify with
  | inl hsame =>
    rw [hsame]
    apply keeps_refl
  | inr hmarked =>
    rcases hmarked with ⟨xs, msg, ys, hq', hin, -, hmark⟩
    rw [hmark, hq']
    have hkeeps : Keeps msg { msg with finished := true } :=
      ⟨rfl, rfl, rfl, rfl, fun _ => .inr hin⟩
    have hqueue := List.rel_append (keeps_refl xs) (.cons hkeeps (keeps_refl ys))
    apply List.rel_append (List.rel_append (keeps_refl before) hqueue) (keeps_refl after)

end Messages

theorem effect_of_branch {s s' : State} {label : Label} (hs : Sized s) (h : Branch s label s')
    : Effect s label s' := by
  cases h with
  | @push arg mem fd garbage qid q hput hqid hq hsize =>
    apply @Effect.push s _ (Schedule.newOFPMsg mem arg fd s.next garbage)
    . rfl
    . rfl
    . rfl
    . apply Mem.length_bytes mem 0 arg.len
    . apply messages_push hq
  | insertPos hput => exact .touch (keeps_refl _)
  | readToBeSent hput =>
    apply Effect.touch
    rw [messages_update]
    apply keeps_map
    intro msg _
    split
    . exact ⟨rfl, rfl, rfl, rfl, .inl⟩
    . apply Keeps.refl
  | markFinished hq => exact .touch (keeps_markFinished hq _)
  | toClean hrun hclean => exact .move rfl (.toClean hrun hclean)
  | noClean hrun hclean => exact .move rfl (.noClean hrun hclean)
  | @clean now i cleanNum q res hrun hi hq hres =>
    rw [hs.clean_eq hq hres]
    dsimp only
    rw [add_count]
    apply Effect.clean hrun (messages_clean hq)
    intro msg hmsg
    rw [List.mem_filter] at hmsg
    exact hmsg.2
  | cleanEnd hrun hi => exact .move rfl (.cleanEnd hrun hi)
  | toPoll hrun hcredit => exact .move rfl (.toPoll hrun hcredit)
  | noCredit hrun hcredit => exact .move rfl (.noCredit hrun hcredit)
  | nextQueue hrun hi hq hfetch => exact .move (messages_fetch hq _) (.nextQueue hrun hi)
  | fetch hrun hi hq hfetch =>
    rcases Queue.fetchMsg_mem hfetch with ⟨hmem, hnew, -⟩
    exact .move (messages_fetch hq _) (.fetch hrun (mem_messages hq hmem) hnew)
  | noMessage hrun hi => exact .move rfl (.noMessage hrun hi)
  | mark hrun hfind => exact .mark hrun (messages_update s _ _)
  | write hrun hfind hacc => exact .write hrun hfind fun n hn => (hacc n hn).1
  | finish hrun hfind hneed =>
    apply @Effect.finish _ _ _ _ true hrun
    rw [messages_update]
    simp
  | needTime hrun hfind hneed =>
    apply @Effect.finish _ _ _ _ false hrun
    simp [State.messages]
  | takeCredit hrun hdir => exact .move rfl (.takeCredit hrun hdir)
  | noSchedule hrun hdir => exact .move rfl (.noSchedule hrun hdir)

theorem sized_of_reachable {s : State} (h : machine.Reachable s) : Sized s := by
  apply Machine.Reachable.invariant _ _ h
  . rintro s ⟨name, now, rfl⟩
    constructor
    . simp [State.init]
    . unfold State.init
      simp only [List.forall_mem_map]
      intro i _
      simp [Queue.new]
  . intro s label s' _ hs hstep
    apply hs.of_branch (branch_of_step hstep)

theorem effect_of_step {s s' : State} {label : Label} (hreach : machine.Reachable s)
    (h : machine.step s label = some s') : Effect s label s' := by
  apply effect_of_branch (sized_of_reachable hreach) (branch_of_step h)

end Scheduler
end OfpProxy
