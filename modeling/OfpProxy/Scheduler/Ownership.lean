import OfpProxy.Scheduler.Effect

/-!
This module shows that no message is lost, sent twice or cleaned before it was sent, whatever the
order in which the reader thread, `run` and the acknowledgements take their steps.
-/

namespace OfpProxy
namespace Scheduler

def State.sentAddrs (s : State) : List Nat := s.sent.map fun w => w.msg.addr

def State.addrs (s : State) : List Nat := s.messages.map OFPMsg.addr

def Held (s : State) : RunPc → Prop
  | .fetched addr => ∃ msg ∈ s.messages, msg.addr = addr ∧ msg.inProcess = false
  | .marked addr => addr ∉ s.sentAddrs ∧ addr ∈ s.addrs
  | .written addr => addr ∈ s.sentAddrs ∧ addr ∈ s.addrs
  | _ => True

theorem Held.mono {s s' : State} {run : RunPc} (h : Held s run) (hsent : s'.sentAddrs = s.sentAddrs)
    (hmsgs : ∀ msg ∈ s.messages,
      ∃ msg' ∈ s'.messages, msg'.addr = msg.addr ∧ msg'.inProcess = msg.inProcess)
    : Held s' run := by
  have haddrs : ∀ addr ∈ s.addrs, addr ∈ s'.addrs := by
    unfold State.addrs
    rw [List.forall_mem_map]
    intro msg hmsg
    rcases hmsgs msg hmsg with ⟨msg', hmsg', haddr, -⟩
    rw [← haddr]
    apply List.mem_map_of_mem hmsg'
  cases run with
  | fetched addr =>
    rcases h with ⟨msg, hmsg, haddr, hnew⟩
    rcases hmsgs msg hmsg with ⟨msg', hmsg', haddr', hin⟩
    exact ⟨msg', hmsg', haddr'.trans haddr, hin.trans hnew⟩
  | marked addr | written addr =>
    unfold Held at *
    rw [hsent]
    exact ⟨h.1, haddrs _ h.2⟩
  | start | clean i cleanNum | loop | poll i | sent => trivial

structure Owned (s : State) : Prop where
  nodup : s.pushed.Nodup
  fresh : ∀ addr ∈ s.pushed, addr < s.next
  perm : (s.addrs ++ s.cleaned).Perm s.pushed
  sentNodup : s.sentAddrs.Nodup
  sentPushed : ∀ addr ∈ s.sentAddrs, addr ∈ s.pushed
  cleanedSent : ∀ addr ∈ s.cleaned, addr ∈ s.sentAddrs
  started : ∀ msg ∈ s.messages,
    msg.inProcess = true ↔ msg.addr ∈ s.sentAddrs ∨ s.run = .marked msg.addr
  finished : ∀ msg ∈ s.messages, msg.finished = true → msg.inProcess = true
  held : Held s s.run

namespace Owned

theorem init (name : String) (now : Nat → Timeval) : Owned (.init name now) := by
  have hmsgs : (State.init name now).messages = [] := by
    simp [State.init, State.messages, messagesOf, List.flatMap_map, Queue.new]
  constructor
  . apply List.nodup_nil
  . simp [State.init]
  . rw [State.addrs, hmsgs]
    exact .refl _
  . apply List.nodup_nil
  . simp [State.init, State.sentAddrs]
  . simp [State.init]
  . simp [hmsgs]
  . simp [hmsgs]
  . trivial

theorem mem_pushed {s : State} (h : Owned s) {msg : OFPMsg} (hmsg : msg ∈ s.messages)
    : msg.addr ∈ s.pushed := by
  apply h.perm.subset
  rw [List.mem_append]
  exact .inl (List.mem_map_of_mem hmsg)

theorem push {s : State} {msg : OFPMsg} {queues : List Queue} {put : PutPc} (h : Owned s)
    (haddr : msg.addr = s.next) (hnew : msg.inProcess = false) (hfin : msg.finished = false)
    (hmsgs : (messagesOf queues).Perm (msg :: s.messages))
    : Owned
        { s with
            queues := queues
            put := put
            next := s.next + 1
            pushed := s.pushed ++ [s.next] } := by
  have hnext : s.next ∉ s.pushed := fun hmem => Nat.lt_irrefl _ (h.fresh _ hmem)
  have hmem : ∀ m, m ∈ messagesOf queues ↔ m = msg ∨ m ∈ s.messages := by
    intro m
    rw [hmsgs.mem_iff, List.mem_cons]
  constructor
  . rw [List.nodup_append]
    simp only [List.mem_singleton, List.nodup_singleton, h.nodup, true_and]
    intro addr haddr next hnext'
    have := h.fresh addr haddr
    omega
  . intro addr haddr
    rw [List.mem_append, List.mem_singleton] at haddr
    cases haddr with
    | inl hold => exact Nat.lt_succ_of_lt (h.fresh addr hold)
    | inr heq =>
      rw [heq]
      apply Nat.lt_succ_self
  . have hperm := (hmsgs.map OFPMsg.addr).append_right s.cleaned
    rw [List.map_cons, haddr, List.cons_append] at hperm
    apply (hperm.trans (h.perm.cons s.next)).trans
    exact (List.perm_append_singleton s.next s.pushed).symm
  . apply h.sentNodup
  . intro addr haddr
    apply List.mem_append_left _ (h.sentPushed addr haddr)
  . apply h.cleanedSent
  . intro m hm
    cases (hmem m).mp hm with
    | inr hold => exact h.started m hold
    | inl heq =>
      subst heq
      rw [hnew, haddr]
      simp only [Bool.false_eq_true, false_iff, not_or]
      constructor
      . intro hsent
        apply hnext (h.sentPushed _ hsent)
      . intro hrun
        have hheld := h.held
        rw [hrun] at hheld
        apply hnext
        apply h.perm.subset (List.mem_append_left _ hheld.2)
  . intro m hm hfinished
    cases (hmem m).mp hm with
    | inr hold => exact h.finished m hold hfinished
    | inl heq =>
      rw [heq, hfin] at hfinished
      simp at hfinished
  . refine h.held.mono rfl ?_
    intro m hm
    exact ⟨m, (hmem m).mpr (.inr hm), rfl, rfl⟩

theorem touch {s : State} {queues : List Queue} {posMap : Nat → Option MsgPos} {put : PutPc}
    (h : Owned s) (hmsgs : List.Forall₂ Keeps s.messages (messagesOf queues))
    : Owned { s with queues := queues, posMap := posMap, put := put } := by
  rcases keeps_mem hmsgs with ⟨hback, hforth⟩
  constructor
  . apply h.nodup
  . apply h.fresh
  . have hperm := h.perm
    unfold State.addrs at *
    rw [← keeps_map_addr hmsgs] at hperm
    exact hperm
  . apply h.sentNodup
  . apply h.sentPushed
  . apply h.cleanedSent
  . intro m' hm'
    rcases hback m' hm' with ⟨m, hm, hkeeps⟩
    rw [hkeeps.addr, hkeeps.inProcess]
    apply h.started m hm
  . intro m' hm' hfinished
    rcases hback m' hm' with ⟨m, hm, hkeeps⟩
    rw [hkeeps.inProcess]
    cases hkeeps.finished hfinished with
    | inl hold => exact h.finished m hm hold
    | inr hin => exact hin
  . refine h.held.mono rfl ?_
    intro m hm
    rcases hforth m hm with ⟨m', hm', hkeeps⟩
    exact ⟨m', hm', hkeeps.addr, hkeeps.inProcess⟩

theorem goOn {s : State} {run : RunPc} (h : Owned s) (maxInProcess : Int)
    (hunmarked : ∀ addr, s.run ≠ .marked addr ∧ run ≠ .marked addr) (hheld : Held s run)
    : Owned { s with run := run, maxInProcess := maxInProcess } := by
  constructor
  . apply h.nodup
  . apply h.fresh
  . apply h.perm
  . apply h.sentNodup
  . apply h.sentPushed
  . apply h.cleanedSent
  . intro m hm
    rw [h.started m hm]
    simp only [(hunmarked m.addr).1, (hunmarked m.addr).2, or_false]
    rfl
  . apply h.finished
  . exact hheld

theorem move {s : State} {queues : List Queue} {run : RunPc} {maxInProcess : Int} (h : Owned s)
    (hmsgs : messagesOf queues = s.messages) (hmove : Move s run maxInProcess)
    : Owned { s with queues := queues, run := run, maxInProcess := maxInProcess } := by
  have hkeeps : List.Forall₂ Keeps s.messages (messagesOf queues) := by
    rw [hmsgs]
    apply keeps_refl
  apply (h.touch hkeeps).goOn
  . intro addr
    cases hmove
    all_goals simp [*]
  . cases hmove with
    | fetch _ hmsg hnew =>
      refine ⟨_, ?_, rfl, hnew⟩
      change _ ∈ messagesOf queues
      rw [hmsgs]
      exact hmsg
    | _ => trivial

theorem clean {s : State} {queues : List Queue} {done : List OFPMsg} {i : Nat} {cleanNum : Int}
    (h : Owned s) (hrun : s.run = .clean i cleanNum) (hmsgs : s.messages.Perm (messagesOf queues ++ done))
    (hdone : ∀ msg ∈ done, msg.isDone = true) (run : RunPc) (hclean : ∃ i cleanNum, run = .clean i cleanNum)
    : Owned
        { s with
            queues := queues
            cleaned := s.cleaned ++ done.map OFPMsg.addr
            run := run } := by
  rcases hclean with ⟨i', cleanNum', rfl⟩
  have hkept : ∀ m ∈ messagesOf queues, m ∈ s.messages := by
    intro m hm
    rw [hmsgs.mem_iff]
    apply List.mem_append_left _ hm
  constructor
  . apply h.nodup
  . apply h.fresh
  . have hperm := (hmsgs.map OFPMsg.addr).append_right s.cleaned
    rw [List.map_append, List.append_assoc] at hperm
    apply List.Perm.trans _ h.perm
    apply List.Perm.trans _ hperm.symm
    apply List.perm_append_comm.append_left
  . apply h.sentNodup
  . apply h.sentPushed
  . intro addr haddr
    rw [List.mem_append] at haddr
    cases haddr with
    | inl hold => exact h.cleanedSent addr hold
    | inr hnew =>
      rcases List.mem_map.mp hnew with ⟨m, hm, rfl⟩
      have hin : m.inProcess = true := by
        have := hdone m hm
        unfold OFPMsg.isDone at this
        rw [Bool.and_eq_true] at this
        apply this.1
      rw [h.started m (hmsgs.mem_iff.mpr (List.mem_append_right _ hm)), hrun] at hin
      have hsent : m.addr ∈ s.sentAddrs := by simpa using hin
      exact hsent
  . intro m hm
    rw [h.started m (hkept m hm), hrun]
    simp
    rfl
  . intro m hm
    apply h.finished m (hkept m hm)
  . trivial

theorem mark {s : State} {queues : List Queue} {addr : Nat} (h : Owned s)
    (hrun : s.run = .fetched addr)
    (hmsgs : messagesOf queues
      = s.messages.map (fun msg => if msg.addr = addr then { msg with inProcess := true } else msg))
    : Owned { s with queues := queues, run := .marked addr } := by
  have hheld := h.held
  rw [hrun] at hheld
  rcases hheld with ⟨found, hfound, haddr, hnew⟩
  have haddrs : (messagesOf queues).map OFPMsg.addr = s.addrs := by
    rw [hmsgs, List.map_map]
    apply List.map_congr_left
    intro m _
    dsimp
    split <;> rfl
  have hunsent : addr ∉ s.sentAddrs := by
    intro hsent
    have := (h.started found hfound).mpr (.inl (haddr ▸ hsent))
    rw [hnew] at this
    simp at this
  constructor
  . apply h.nodup
  . apply h.fresh
  . have hperm := h.perm
    rw [← haddrs] at hperm
    exact hperm
  . apply h.sentNodup
  . apply h.sentPushed
  . apply h.cleanedSent
  . intro m' hm'
    change m' ∈ messagesOf queues at hm'
    rw [hmsgs] at hm'
    rcases List.mem_map.mp hm' with ⟨m, hm, rfl⟩
    split
    . next heq => simp [heq]
    . next hne =>
      rw [h.started m hm, hrun]
      simp only [reduceCtorEq, or_false, RunPc.marked.injEq, Ne.symm hne]
      rfl
  . intro m' hm'
    change m' ∈ messagesOf queues at hm'
    rw [hmsgs] at hm'
    rcases List.mem_map.mp hm' with ⟨m, hm, rfl⟩
    split
    . intro _
      rfl
    . apply h.finished m hm
  . refine ⟨hunsent, ?_⟩
    change addr ∈ (messagesOf queues).map OFPMsg.addr
    rw [haddrs, ← haddr]
    apply List.mem_map_of_mem hfound

theorem write {s : State} {addr : Nat} {msg : OFPMsg} {accepted : Option Nat} (h : Owned s)
    (hrun : s.run = .marked addr) (hfind : s.find addr = some msg)
    : Owned { s with sent := s.sent ++ [⟨msg, accepted⟩], run := .written addr } := by
  have hheld := h.held
  rw [hrun] at hheld
  have hmem : msg ∈ s.messages := List.mem_of_find?_eq_some hfind
  have haddr : msg.addr = addr := by simpa using List.find?_some hfind
  have hsent : ∀ a, a ∈ s.sentAddrs ++ [addr] ↔ a ∈ s.sentAddrs ∨ a = addr := by simp
  have hsentAddrs : (s.sent ++ [Write.mk msg accepted]).map (fun w => w.msg.addr)
      = s.sentAddrs ++ [addr] := by
    simp [State.sentAddrs, haddr]
  constructor
  . apply h.nodup
  . apply h.fresh
  . apply h.perm
  . unfold State.sentAddrs
    rw [hsentAddrs, List.nodup_append]
    simp only [List.mem_singleton, List.nodup_singleton, h.sentNodup, true_and]
    intro a ha b hb heq
    rw [heq, hb] at ha
    apply hheld.1 ha
  . unfold State.sentAddrs
    rw [hsentAddrs]
    intro a ha
    cases (hsent a).mp ha with
    | inl hold => exact h.sentPushed a hold
    | inr heq =>
      rw [heq, ← haddr]
      apply h.mem_pushed hmem
  . unfold State.sentAddrs
    rw [hsentAddrs]
    intro a ha
    exact (hsent a).mpr (.inl (h.cleanedSent a ha))
  . unfold State.sentAddrs
    rw [hsentAddrs]
    intro m hm
    rw [h.started m hm, hrun, hsent]
    simp [eq_comm]
  . apply h.finished
  . unfold Held State.sentAddrs
    rw [hsentAddrs]
    exact ⟨(hsent addr).mpr (.inr rfl), hheld.2⟩

theorem finish {s : State} {queues : List Queue} {addr : Nat} {noTime : Bool} (h : Owned s)
    (hrun : s.run = .written addr)
    (hmsgs : messagesOf queues
      = s.messages.map
          (fun msg => if msg.addr = addr ∧ noTime = true then { msg with finished := true } else msg))
    : Owned { s with queues := queues, run := .sent } := by
  have hheld := h.held
  rw [hrun] at hheld
  -- the mark only reaches the message that was just sent
  have hkeeps : List.Forall₂ Keeps s.messages (messagesOf queues) := by
    rw [hmsgs]
    apply keeps_map
    intro m hm
    split
    . next heq =>
      have hin := (h.started m hm).mpr (.inl (heq.1 ▸ hheld.1))
      exact ⟨rfl, rfl, rfl, rfl, fun _ => .inr hin⟩
    . exact .refl m
  apply (h.touch hkeeps).goOn s.maxInProcess
  . intro a
    simp [hrun]
  . trivial

theorem of_effect {s s' : State} {label : Label} (h : Owned s) (heffect : Effect s label s')
    : Owned s' := by
  cases heffect with
  | push haddr hnew hfin _ hmsgs => exact h.push haddr hnew hfin hmsgs
  | touch hmsgs => exact h.touch hmsgs
  | move hmsgs hmove => exact h.move hmsgs hmove
  | clean hrun hmsgs hdone => exact h.clean hrun hmsgs hdone _ ⟨_, _, rfl⟩
  | mark hrun hmsgs => exact h.mark hrun hmsgs
  | write hrun hfind _ => exact h.write hrun hfind
  | finish hrun hmsgs => exact h.finish hrun hmsgs

end Owned

theorem owned_of_reachable {s : State} (h : machine.Reachable s) : Owned s := by
  apply Machine.Reachable.invariant _ _ h
  . rintro s ⟨name, now, rfl⟩
    exact .init name now
  . intro s label s' hreach hs hstep
    apply hs.of_effect (effect_of_step hreach hstep)

theorem State.find_of_mem {s : State} {addr : Nat} (h : addr ∈ s.addrs)
    : ∃ msg, s.find addr = some msg := by
  rcases List.mem_map.mp h with ⟨msg, hmsg, haddr⟩
  rw [← Option.isSome_iff_exists, State.find, List.find?_isSome]
  exact ⟨msg, hmsg, by simp [haddr]⟩

/--
`run` never looks at a message that is gone: it can always go on, or have the kernel take the
message it has marked.
-/
theorem run_enabled {s : State} (h : machine.Reachable s) (now : Timeval)
    : (∃ s', machine.step s (.run now) = some s')
        ∨ ∃ addr msg, s.run = .marked addr ∧ s.find addr = some msg
          ∧ ∃ s', machine.step s (.writev (some msg.len)) = some s' := by
  have hsized := sized_of_reachable h
  have hheld := (owned_of_reachable h).held
  have hqueue : ∀ i < Schedule.queueNum, ∃ q ∈ s.queues, s.queues[i]? = some q := by
    intro i hi
    rw [← hsized.queues] at hi
    exact ⟨s.queues[i], List.getElem_mem hi, List.getElem?_eq_getElem hi⟩
  cases hrun : s.run with
  | marked addr =>
    rw [hrun] at hheld
    rcases s.find_of_mem hheld.2 with ⟨msg, hfind⟩
    apply Or.inr
    refine ⟨addr, msg, rfl, hfind, ?_⟩
    simp [machine, step, stepWritev, hrun, hfind]
  | clean i cleanNum =>
    apply Or.inl
    simp only [machine, step, stepRun, hrun]
    split
    . next hi =>
      rcases hqueue i hi with ⟨q, hmem, hq⟩
      simp [hq, Queue.cleanFinishMsg_eq (hsized.size q hmem)]
    . simp
  | poll i =>
    apply Or.inl
    simp only [machine, step, stepRun, hrun]
    split
    . next hi =>
      rcases hqueue i hi with ⟨q, -, hq⟩
      cases hfetch : (q.fetchMsg now).1 <;> simp [hq, hfetch]
    . simp
  | fetched addr =>
    rw [hrun] at hheld
    rcases hheld with ⟨msg, hmsg, haddr, -⟩
    rcases s.find_of_mem (List.mem_map.mpr ⟨msg, hmsg, haddr⟩) with ⟨found, hfind⟩
    apply Or.inl
    simp [machine, step, stepRun, hrun, hfind]
  | written addr =>
    rw [hrun] at hheld
    rcases s.find_of_mem hheld.2 with ⟨msg, hfind⟩
    apply Or.inl
    simp [machine, step, stepRun, hrun, hfind]
  | start | loop | sent =>
    apply Or.inl
    simp only [machine, step, stepRun, hrun]
    split <;> simp

/--
A message is written at most once, cleaned only after that, and until then it is in exactly one
queue exactly once.
-/
theorem message_conserved {s : State} (h : machine.Reachable s) {addr : Nat} (haddr : addr ∈ s.pushed)
    : s.sentAddrs.count addr ≤ 1 ∧ (addr ∈ s.cleaned → addr ∈ s.sentAddrs)
        ∧ (s.addrs.count addr = 1 ∧ addr ∉ s.cleaned
          ∨ s.addrs.count addr = 0 ∧ addr ∈ s.sentAddrs ∧ addr ∈ s.cleaned) := by
  have hs := owned_of_reachable h
  have hcount := hs.perm.count_eq addr
  rw [List.count_append, List.count_eq_one_of_mem hs.nodup haddr] at hcount
  refine ⟨List.nodup_iff_count_le_one.mp hs.sentNodup addr, hs.cleanedSent addr, ?_⟩
  cases Nat.eq_zero_or_pos (s.cleaned.count addr) with
  | inl hzero =>
    apply Or.inl
    exact ⟨by omega, List.count_eq_zero.mp hzero⟩
  | inr hpos =>
    have hcleaned := List.count_pos_iff.mp hpos
    apply Or.inr
    exact ⟨by omega, hs.cleanedSent addr hcleaned, hcleaned⟩

-- an echo request of 8 bytes for descriptor 5, which goes through putMessage without interruption
def echoRequest (xid : UInt8) : List Label :=
  [.putMsg { Schedule.initArg with qid := some importantQueueId, len := 8 }
      (.ofList [4, 2, 0, 8, 0, 0, 0, xid]) 5 0,
    .insertPos,
    .readToBeSent]

def ticks (n : Nat) : List Label := List.replicate n (.run ⟨1, 0⟩)

theorem exists_of_replay {name : String} {labels : List Label} {p : State → Bool}
    (h : (machine.replay (fun _ _ => true) (.init name fun _ => ⟨0, 0⟩) labels).map p = some true)
    : ∃ s, machine.Reachable s ∧ p s = true := by
  have hinit : machine.init (.init name fun _ => ⟨0, 0⟩) := ⟨name, _, rfl⟩
  rcases Machine.exists_of_replay (.init hinit) h with ⟨s, hreach, hp⟩
  exact ⟨s, hreach.reachable, hp⟩

theorem message_conserved_twoRequests
    : ∃ s, machine.Reachable s ∧ 0 ∈ s.pushed ∧ s.sentAddrs.count 0 ≤ 1
        ∧ (0 ∈ s.cleaned → 0 ∈ s.sentAddrs)
        ∧ (s.addrs.count 0 = 1 ∧ 0 ∉ s.cleaned
          ∨ s.addrs.count 0 = 0 ∧ 0 ∈ s.sentAddrs ∧ 0 ∈ s.cleaned) := by
  have hrun := @exists_of_replay "CLIENT"
    (echoRequest 1 ++ echoRequest 2 ++ ticks 15 ++ [.writev (some 8)] ++ ticks 5)
    (fun s => decide (0 ∈ s.pushed)) (by decide +kernel)
  rcases hrun with ⟨s, hreach, hpushed⟩
  rw [decide_eq_true_eq] at hpushed
  exact ⟨s, hreach, hpushed, message_conserved hreach hpushed⟩

end Scheduler
end OfpProxy
