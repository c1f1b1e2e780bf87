import OfpProxy.Machine.Ghost
import OfpProxy.Schedule.Outcome
import OfpProxy.Scheduler.Step

/-!
This module contains the history of a run of the scheduler: what was put, when each queue was polled,
and in which scan over the queues a message was handed to `Writev_nByte`.
-/

namespace OfpProxy

def Timeval.micros (t : Timeval) : Int := t.tvSec * 1000000 + t.tvUsec

def Queue.isWaiting (q : Queue) : Bool := q.msgQueue.any fun msg => !msg.inProcess

namespace Scheduler

structure Put where
  queue : Nat
  addr : Nat
  type : UInt8
  -- what stands where a flow-mod has its command
  command : UInt8
  deriving DecidableEq

structure Poll where
  queue : Nat
  time : Timeval
  -- there was a message with in_process = 0
  waiting : Bool
  fetched : Option Nat
  -- how many messages had been put by then
  puts : Nat
  deriving DecidableEq

-- the polls of a scan come from queue 0 on, the last one returned the message
structure Handed where
  addr : Nat
  scan : List Poll
  deriving DecidableEq

structure History where
  clock : Int
  puts : List Put
  polls : List Poll
  scan : List Poll
  handed : List Handed

def Handed.queue (r : Handed) : Option Nat := r.scan.getLast?.map Poll.queue

namespace History

def putsTo (h : History) (i : Nat) : List Nat := (h.puts.filter fun p => p.queue = i).map Put.addr

def handedTo (h : History) (i : Nat) : List Nat :=
  (h.handed.filter fun r => r.queue = some i).map Handed.addr

def handedAddrs (h : History) : List Nat := h.handed.map Handed.addr

def start (s : State) (h : History) : Prop :=
  h.puts = [] ∧ h.polls = [] ∧ h.scan = [] ∧ h.handed = []
    ∧ ∀ q ∈ s.queues, q.lastFetch.micros ≤ h.clock

def recordPut (s : State) (arg : OFPMsgArg) (mem : Mem) (h : History) : History :=
  match arg.qid with
  | none => h
  | some qid => { h with puts := h.puts ++ [⟨qid, s.next, mem 1, mem 25⟩] }

def pollOf (h : History) (i : Nat) (now : Timeval) (q : Queue) : Poll where
  queue := i
  time := now
  waiting := q.isWaiting
  fetched := (q.fetchMsg now).1.map OFPMsg.addr
  puts := h.puts.length

def recordPoll (s : State) (i : Nat) (now : Timeval) (h : History) : History :=
  match s.queues[i]? with
  | none => h
  | some q =>
    { h with
        polls := h.polls ++ [h.pollOf i now q]
        scan := h.scan ++ [h.pollOf i now q] }

def recordRun (s : State) (now : Timeval) (h : History) : History :=
  match s.run with
  | .loop => { h with scan := [] }
  | .poll i => recordPoll s i now h
  | _ => h

def recordWritev (s : State) (h : History) : History :=
  match s.run with
  | .marked addr => { h with handed := h.handed ++ [⟨addr, h.scan⟩] }
  | _ => h

def record (s : State) : Label → History → History
  | .putMsg arg mem _ _, h => recordPut s arg mem h
  | .run now, h => { recordRun s now h with clock := now.micros }
  | .writev _, h => recordWritev s h
  | _, h => h

theorem record_poll {s : State} {i : Nat} {q : Queue} (hrun : s.run = .poll i)
    (hq : s.queues[i]? = some q) (now : Timeval) (h : History)
    : h.record s (.run now)
        =
      { h with
          clock := now.micros
          polls := h.polls ++ [h.pollOf i now q]
          scan := h.scan ++ [h.pollOf i now q] } := by
  simp only [record, recordRun, recordPoll, hrun, hq]

section Record

variable (s : State) (now : Timeval) (arg : OFPMsgArg) (mem : Mem) (h : History)

@[simp]
theorem clock_recordPut : (recordPut s arg mem h).clock = h.clock := by
  unfold recordPut
  split <;> rfl

@[simp]
theorem polls_recordPut : (recordPut s arg mem h).polls = h.polls := by
  unfold recordPut
  split <;> rfl

@[simp]
theorem scan_recordPut : (recordPut s arg mem h).scan = h.scan := by
  unfold recordPut
  split <;> rfl

@[simp]
theorem handed_recordPut : (recordPut s arg mem h).handed = h.handed := by
  unfold recordPut
  split <;> rfl

@[simp]
theorem puts_recordRun : (recordRun s now h).puts = h.puts := by
  unfold recordRun recordPoll
  split
  . rfl
  . split <;> rfl
  . rfl

@[simp]
theorem handed_recordRun : (recordRun s now h).handed = h.handed := by
  unfold recordRun recordPoll
  split
  . rfl
  . split <;> rfl
  . rfl

@[simp]
theorem puts_recordWritev : (recordWritev s h).puts = h.puts := by
  unfold recordWritev
  split <;> rfl

@[simp]
theorem polls_recordWritev : (recordWritev s h).polls = h.polls := by
  unfold recordWritev
  split <;> rfl

@[simp]
theorem scan_recordWritev : (recordWritev s h).scan = h.scan := by
  unfold recordWritev
  split <;> rfl

end Record

@[simp]
theorem clock_recordWritev (s : State) (h : History) : (recordWritev s h).clock = h.clock := by
  unfold recordWritev
  split <;> rfl

end History

def observed : Machine (State × History) Label := machine.withRecord History.start History.record

theorem exists_micros_le (qs : List Queue) : ∃ clock, ∀ q ∈ qs, q.lastFetch.micros ≤ clock := by
  induction qs with
  | nil => exact ⟨0, by simp⟩
  | cons q qs ih =>
    rcases ih with ⟨clock, hclock⟩
    refine ⟨max q.lastFetch.micros clock, ?_⟩
    rw [List.forall_mem_cons]
    refine ⟨by omega, ?_⟩
    intro r hr
    have := hclock r hr
    omega

/--
Every run of the scheduler is one of those that `observed` records.
-/
theorem exists_history {s : State} (h : machine.Reachable s) : ∃ hist, observed.Reachable (s, hist) := by
  apply h.exists_record
  intro s _
  rcases exists_micros_le s.queues with ⟨clock, hclock⟩
  exact ⟨⟨clock, [], [], [], []⟩, rfl, rfl, rfl, rfl, hclock⟩

/--
The argument of `putMessage` is what `getOFPMsgArg` returned for some frame, with whatever value was
in `qid` where that is not assigned.
-/
def FromReader : Label → Prop
  | .putMsg arg mem _ _ =>
    ∃ exp self other conf frame res qid,
      Schedule.getOFPMsgArg exp self other conf frame = some res ∧ mem = res.msg
        ∧ arg = { res.arg with qid := some (res.arg.qid.getD qid) }
  | _ => True

def clockForward (h : History) : Label → Bool
  | .run now => h.clock ≤ now.micros
  | _ => true

def Proper (x : State × History) (label : Label) : Prop :=
  FromReader label ∧ clockForward x.2 label = true

theorem History.clock_le_record {s : State} {h : History} {label : Label}
    (hclock : clockForward h label = true) : h.clock ≤ (record s label h).clock := by
  cases label with
  | run now =>
    rw [clockForward, decide_eq_true_eq] at hclock
    exact hclock
  | putMsg arg mem fd garbage => simp [record]
  | writev accepted => simp [record]
  | _ => apply Int.le_refl

theorem FromReader.isPlain {arg : OFPMsgArg} {mem : Mem} {fd : Int} {garbage : Nat}
    (h : FromReader (.putMsg arg mem fd garbage)) (addr : Nat)
    : (Schedule.newOFPMsg mem arg fd addr garbage).IsPlain := by
  rcases h with ⟨exp, self, other, conf, frame, res, qid, hres, rfl, rfl⟩
  exact ⟨rfl, (Schedule.getOFPMsgArg_outcome hres).waitsBriefly, rfl⟩

structure Tended (h : History) (q : Queue) : Prop where
  lastFetch : q.lastFetch.micros ≤ h.clock
  plain : ∀ msg ∈ q.msgQueue, msg.IsPlain

theorem Tended.step {s : State} {h : History} {label : Label} {i : Nat} {q q' : Queue}
    (hq : Tended h q) (hok : Proper (s, h) label) (hstep : QueueStep s label i q q')
    : Tended (h.record s label) q' := by
  have hforward : h.clock ≤ (h.record s label).clock := History.clock_le_record hok.2
  have hclock := Int.le_trans hq.lastFetch hforward
  cases hstep with
  | push hqid =>
    refine ⟨hclock, ?_⟩
    rw [List.forall_mem_append, List.forall_mem_singleton]
    exact ⟨hq.plain, hok.1.isPlain _⟩
  | @fetch now _ _ hrun =>
    constructor
    . unfold Queue.fetchMsg
      split
      . apply Int.le_refl
      . exact hclock
    . rw [Queue.fetchMsg_msgQueue]
      apply hq.plain
  | clean hrun =>
    refine ⟨hclock, ?_⟩
    intro msg hmsg
    apply hq.plain msg (List.mem_of_mem_filter hmsg)
  | @touch _ _ _ msgs htarget hsame =>
    refine ⟨hclock, ?_⟩
    intro msg' hmsg'
    rcases same_mem hsame msg' hmsg' with ⟨msg, hmsg, hm⟩
    apply hm.isPlain (hq.plain msg hmsg)

theorem tended_of_reachableBy {x : State × History} (hx : observed.ReachableBy Proper x) {i : Nat}
    {q : Queue} (hq : x.1.queues[i]? = some q) : Tended x.2 q := by
  revert i q
  apply Machine.ReachableBy.invariant _ _ hx
  . rintro ⟨s, h⟩ ⟨⟨name, now, rfl⟩, hstart⟩ i q hq
    refine ⟨hstart.2.2.2.2 q (List.mem_of_getElem? hq), ?_⟩
    rw [State.init_queue hq]
    simp [Queue.new]
  . rintro ⟨s, h⟩ label ⟨s', h'⟩ hreach hs hok hstep i q' hq'
    rcases Machine.withRecord_step hstep with ⟨hstep', rfl⟩
    rcases queueStep_of_step (sized_of_reachable hreach.of_withRecord) hstep' hq' with
      ⟨q, hq, hqstep⟩
    apply (hs hq).step hok hqstep

theorem observed_init (name : String)
    : observed.init (.init name fun _ => ⟨0, 0⟩, ⟨0, [], [], [], []⟩) := by
  refine ⟨⟨name, _, rfl⟩, rfl, rfl, rfl, rfl, ?_⟩
  dsimp only [State.init]
  rw [List.forall_mem_map]
  intro i _
  apply Int.le_refl

theorem exists_observed_of_replay {name : String} {labels : List Label} {p : State × History → Bool}
    (h : (observed.replay (fun _ _ => true) (.init name fun _ => ⟨0, 0⟩, ⟨0, [], [], [], []⟩)
      labels).map p = some true)
    : ∃ x, observed.Reachable x ∧ p x = true := by
  rcases Machine.exists_of_replay (.init (observed_init name)) h with ⟨x, hreach, hp⟩
  exact ⟨x, hreach.reachable, hp⟩

theorem exists_proper_of_replay {name : String} {labels : List Label} {p : State × History → Bool}
    (hlabels : ∀ label ∈ labels, FromReader label)
    (h : (observed.replay (fun x label => clockForward x.2 label)
      (.init name fun _ => ⟨0, 0⟩, ⟨0, [], [], [], []⟩) labels).map p = some true)
    : ∃ x, observed.ReachableBy Proper x ∧ p x = true := by
  rw [Option.map_eq_some_iff] at h
  rcases h with ⟨x, hreplay, hp⟩
  exact ⟨x, Machine.reachableBy_of_replay_all (.init (observed_init name)) hlabels hreplay, hp⟩

theorem exists_fromReader_of_replay {ok : State → Label → Bool} {name : String} {labels : List Label}
    {p : State → Bool} (hlabels : ∀ label ∈ labels, FromReader label)
    (h : (machine.replay ok (.init name fun _ => ⟨0, 0⟩) labels).map p = some true)
    : ∃ s, machine.ReachableBy (fun s label => FromReader label ∧ ok s label = true) s ∧ p s = true := by
  rw [Option.map_eq_some_iff] at h
  rcases h with ⟨s, hreplay, hp⟩
  have hinit : machine.init (.init name fun _ => ⟨0, 0⟩) := ⟨name, _, rfl⟩
  exact ⟨s, Machine.reachableBy_of_replay_all (.init hinit) hlabels hreplay, hp⟩

-- `putMessage` for a frame from descriptor 5, without interruption, while no load was reported yet
def putMessage (frame : List UInt8) : List Label :=
  match Schedule.getOFPMsgArg (fun _ => 1) Schedule.idle Schedule.idle .idle (.ofList frame) with
  | none => []
  | some res =>
    [.putMsg { res.arg with qid := some (res.arg.qid.getD 0) } res.msg 5 0, .insertPos, .readToBeSent]

theorem fromReader_putMessage (frame : List UInt8) : ∀ label ∈ putMessage frame, FromReader label := by
  unfold putMessage
  split
  . simp
  . next res hres =>
    simp only [List.forall_mem_cons]
    exact ⟨⟨_, _, _, _, _, res, 0, hres, rfl, rfl⟩, trivial, trivial, by simp⟩

@[simp]
theorem fromReader_run (now : Timeval) : FromReader (.run now) := trivial

@[simp]
theorem fromReader_writev (accepted : Option Nat) : FromReader (.writev accepted) := trivial

theorem fromReader_ticks (n : Nat) : ∀ label ∈ ticks n, FromReader label := by
  intro label hlabel
  rw [List.eq_of_mem_replicate hlabel]
  apply fromReader_run

end Scheduler
end OfpProxy
