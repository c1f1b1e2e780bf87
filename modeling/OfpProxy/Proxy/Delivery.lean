import OfpProxy.Proxy.Content
import OfpProxy.Reader.Lemmas
import OfpProxy.Schedule.Forwarding

/-!
This module shows what arrives behind the proxy of a stream of well-formed frames, from the bytes that
come in on one socket to the bytes that the kernel has accepted on the other one.
-/

namespace OfpProxy

theorem Frame.frameLength_encode {frame : Frame} (h : 8 ≤ frame.length)
    : Reader.frameLength frame.encode = frame.length := by
  have hat := Mem.at_ofList frame.encode
  rw [← Frame.headerLength_of_at hat]
  apply Eq.symm
  apply Reader.headerLength_eq (k := frame.length) _ h
  . rw [frame.length_encode]
  . rw [← frame.length_encode, List.take_length]
    exact hat

namespace Scheduler

-- what was written as a whole, in the order it was written
def State.delivered (s : State) : List Nat :=
  (s.sent.filter Write.isComplete).map fun w => w.msg.addr

def State.bytesOf (s : State) (addr : Nat) : List UInt8 :=
  ((s.sent.find? fun w => w.msg.addr = addr).map Write.bytes).getD []

theorem bytesOf_of_mem {s : State} (hnodup : s.sentAddrs.Nodup) {w : Write} (hw : w ∈ s.sent)
    : s.bytesOf w.msg.addr = w.bytes := by
  have hfind : s.sent.find? (fun w' => w'.msg.addr = w.msg.addr) = some w := by
    rw [List.find?_eq_some_iff_append]
    refine ⟨by simp, ?_⟩
    rcases List.append_of_mem hw with ⟨before, after, hsplit⟩
    refine ⟨before, after, hsplit, ?_⟩
    intro w' hw'
    unfold State.sentAddrs at hnodup
    rw [hsplit, List.map_append, List.map_cons, List.nodup_append] at hnodup
    have hne := hnodup.2.2 _ (List.mem_map_of_mem hw') w.msg.addr (by simp)
    simpa using hne
  unfold State.bytesOf
  rw [hfind]
  rfl

theorem flatMap_bytes {out : Nat → List UInt8} {ws : List Write}
    (hwhole : ∀ w ∈ ws, w.accepted = none ∨ w.isComplete = true)
    (hout : ∀ w ∈ ws, out w.msg.addr = w.bytes)
    : ws.flatMap Write.bytes = (ws.filter Write.isComplete).flatMap fun w => out w.msg.addr := by
  induction ws with
  | nil => rfl
  | cons w ws ih =>
    rw [List.forall_mem_cons] at hwhole hout
    rw [List.flatMap_cons, ih hwhole.2 hout.2, List.filter_cons]
    by_cases hcomplete : w.isComplete = true
    . rw [if_pos hcomplete, List.flatMap_cons, hout.1]
    . rw [if_neg hcomplete]
      have hnone := hwhole.1.resolve_right hcomplete
      unfold Write.bytes
      rw [hnone]
      rfl

theorem accepted_eq_delivered {s : State} {fd : Int} (hnodup : s.sentAddrs.Nodup)
    (hfd : ∀ w ∈ s.sent, w.msg.fd = fd) (hwhole : ∀ w ∈ s.sent, w.accepted = none ∨ w.isComplete = true)
    : s.accepted fd = s.delivered.flatMap s.bytesOf := by
  have hwrites : s.writes fd = s.sent := by
    unfold State.writes
    rw [List.filter_eq_self]
    simpa using hfd
  unfold State.accepted State.delivered
  rw [hwrites, List.flatMap_map]
  apply flatMap_bytes hwhole
  intro w hw
  apply bytesOf_of_mem hnodup hw

theorem sent_of_step {s s' : State} {label : Label} (h : step s label = some s')
    (hlabel : ∀ accepted, label ≠ .writev accepted) : s'.sent = s.sent := by
  cases branch_of_step h with
  | write => exact absurd rfl (hlabel _)
  | _ => rfl

-- what was written completely or not at all, after one more write of this kind
theorem whole_of_writev {s s' : State} {accepted : Option Nat} (h : stepWritev s accepted = some s')
    (hok : accepted = none ∨ acceptsAll s (.writev accepted) = true)
    (hwhole : ∀ w ∈ s.sent, w.accepted = none ∨ w.isComplete = true)
    : ∀ w ∈ s'.sent, w.accepted = none ∨ w.isComplete = true := by
  cases branch_of_stepWritev h with
  | write hrun hfind _ =>
    rw [List.forall_mem_append, List.forall_mem_singleton]
    refine ⟨hwhole, ?_⟩
    rcases hok with hnone | hall
    . exact .inl hnone
    . simp only [acceptsAll, hrun, hfind, Option.all_some] at hall
      exact .inr hall

end Scheduler

namespace Proxy

-- The kernel takes a message as a whole, or not at all.
def writesWhole (p : Proxy) : Label → Bool
  | .writev d accepted =>
    accepted = none ∨ Scheduler.acceptsAll (p.side d).scheduler (.writev accepted) = true
  | _ => true

theorem SideStep.sent {exp : ℚ → ℚ} {d : Dir} {s s' : Side} {label : Label}
    (h : SideStep exp d s label s') (hlabel : ∀ accepted, label ≠ .writev d accepted)
    : s'.scheduler.sent = s.scheduler.sent := by
  cases h with
  | writev _ => exact absurd rfl (hlabel _)
  | same | ended | killed | respond | unmarked | mark _ => rfl
  | received hdelivered => rw [receiver_scheduler hdelivered]
  | overheard hdelivered =>
    rcases overhearer_scheduler hdelivered with hsame | ⟨-, qid, identify, hmark⟩
    . rw [hsame]
    . exact Scheduler.sent_of_step hmark (by simp)
  | put _ hput => exact (Scheduler.putMsg_frame hput).2
  | insertPos hstate => exact @Scheduler.sent_of_step _ _ .insertPos hstate (by simp)
  | readToBeSent hstate => exact @Scheduler.sent_of_step _ _ .readToBeSent hstate (by simp)
  | @run now _ _ _ hstate =>
    have hsent := @Scheduler.sent_of_step s.named _ (.run now) hstate (by simp)
    exact hsent

theorem SideStep.whole {exp : ℚ → ℚ} {p : Proxy} {d : Dir} {s' : Side} {label : Label}
    (h : SideStep exp d (p.side d) label s') (hok : writesWhole p label = true)
    (hwhole : ∀ w ∈ (p.side d).scheduler.sent, w.accepted = none ∨ w.isComplete = true)
    : ∀ w ∈ s'.scheduler.sent, w.accepted = none ∨ w.isComplete = true := by
  by_cases hlabel : ∃ accepted, label = .writev d accepted
  . rcases hlabel with ⟨accepted, rfl⟩
    cases h with
    | same => exact hwhole
    | writev hstate =>
      apply Scheduler.whole_of_writev hstate _ hwhole
      simpa [writesWhole] using hok
  . rw [h.sent fun accepted haccepted => hlabel ⟨accepted, haccepted⟩]
    exact hwhole

theorem whole_of_reachableBy {exp : ℚ → ℚ} {p : Proxy}
    (h : (machine exp).ReachableBy (fun p label => writesWhole p label = true) p) (d : Dir)
    : ∀ w ∈ (p.side d).scheduler.sent, w.accepted = none ∨ w.isComplete = true := by
  revert d
  apply Machine.ReachableBy.invariant _ _ h
  . rintro p ⟨m, now, fd, conf, events, mkfifo, opened, pipe, stdin, buf, respBuf, rfl⟩ d
    simp [doTcpTunnel, Side.start, Scheduler.State.init]
  . intro p label p' _ ih hok hstep d
    apply (sideStep_of_step hstep d).whole hok (ih d)

/--
What the reader has made of the stream so far: the frames it has received, and what is left. The scratch
buffer was large enough if it is for each frame.
-/
structure Fed (frames : List Frame) (more : List UInt8) (s : Side) : Prop where
  left : s.reader ≠ .ended
    → Socket.incoming s.events = (frames.drop s.received.length).flatMap Frame.encode ++ more
  length : s.received.length ≤ frames.length
  received : ∀ (i : Nat) msg frame, s.received[i]? = some msg → frames[i]? = some frame
    → msg.At 0 frame.encode
  scratch : (∀ frame ∈ frames, frame.FitsIn filterBufSize) → s.filterBuf.top ≤ filterBufSize

namespace Fed

variable {exp : ℚ → ℚ} {d : Dir} {frames : List Frame} {more : List UInt8} {s s' : Side} {label : Label}

theorem receive {other : Side} {conf : PolicyConfig} {r : Reader.ReadMsg} {res : Schedule.Parsed}
    (h : Fed frames more s) (h8 : ∀ frame ∈ frames, 8 ≤ frame.length)
    (hmore : more.length < max 8 (Reader.frameLength more))
    (hdelivered : Delivered exp s other conf r res) : Fed frames more (receiver s r res) := by
  have hleft := h.left (by rw [hdelivered.reading]; simp)
  have hret := hdelivered.pos
  cases hrest : frames.drop s.received.length with
  | nil =>
    -- what is left is no whole frame
    rw [hrest, List.flatMap_nil, List.nil_append] at hleft
    have hcut := (Reader.readOfpMsg_outcome s.events s.buf).cutOff (by rw [hleft]; exact hmore) r
      hdelivered.read
    omega
  | cons frame rest =>
    have hframe : frames[s.received.length]? = some frame := by
      have hhead := congrArg List.head? hrest
      rw [List.head?_drop] at hhead
      exact hhead
    have hlong := h8 frame (List.mem_of_getElem? hframe)
    let wire : Reader.WireFrame :=
      ⟨frame.encode, by rw [frame.length_encode]; exact hlong,
        by rw [Frame.frameLength_encode hlong, frame.length_encode]⟩
    rw [hrest, List.flatMap_cons, List.append_assoc] at hleft
    rcases @Reader.readOfpMsg_frame wire _ _ s.buf hleft with ⟨r', hr', -, hbytes, hleft', -⟩
    rw [hdelivered.read, Option.some_inj] at hr'
    subst hr'
    have hat : r.buf.At 0 frame.encode := by
      rw [Mem.bytes_eq_iff] at hbytes
      exact hbytes.2
    have hdrop : frames.drop (s.received.length + 1) = rest := by
      rw [← List.tail_drop, hrest, List.tail_cons]
    constructor
    . intro _
      simp only [receiver, List.length_append, List.length_singleton]
      rw [hleft', hdrop]
    . simp only [receiver, List.length_append, List.length_singleton]
      have := (List.getElem?_eq_some_iff.mp hframe).1
      omega
    . intro i msg frame' hmsg hframe'
      simp only [receiver, List.getElem?_append] at hmsg
      split at hmsg
      . exact h.received i msg frame' hmsg hframe'
      . next hi =>
        rw [List.getElem?_singleton] at hmsg
        split at hmsg
        . next hzero =>
          have heq : i = s.received.length := by omega
          rw [heq, hframe, Option.some_inj] at hframe'
          rw [← Option.some.inj hmsg, ← hframe']
          exact hat
        . contradiction
    . intro hfit
      apply Schedule.top_le_of_fitsIn hat (hfit frame (List.mem_of_getElem? hframe)) hdelivered.parsed
      exact h.scratch hfit

theorem step (h : Fed frames more s) (h8 : ∀ frame ∈ frames, 8 ≤ frame.length)
    (hmore : more.length < max 8 (Reader.frameLength more)) (hstep : SideStep exp d s label s')
    : Fed frames more s' := by
  cases hstep with
  | ended | killed => exact ⟨fun hne => absurd rfl hne, h.length, h.received, h.scratch⟩
  | received hdelivered => exact h.receive h8 hmore hdelivered
  | overheard hdelivered =>
    refine ⟨h.left, h.length, h.received, ?_⟩
    unfold Side.withSchedule
    rw [(Schedule.queuesKept_of_getOFPMsgArg hdelivered.parsed).scratch]
    exact h.scratch
  | put hreader _ =>
    exact ⟨fun _ => h.left (by rw [hreader]; simp), h.length, h.received, h.scratch⟩
  | _ => exact ⟨h.left, h.length, h.received, h.scratch⟩

end Fed

theorem source_of_sideStep {exp : ℚ → ℚ} {d : Dir} {s s' : Side} {label : Label}
    (h : SideStep exp d s label s') : s'.source = s.source := by
  cases h <;> rfl

theorem fed_of_reachable {exp : ℚ → ℚ} {p : Proxy} (h : (machine exp).Reachable p) {d : Dir}
    {frames : List Frame} {more : List UInt8}
    (hsource : (p.side d).source = frames.flatMap Frame.encode ++ more)
    (h8 : ∀ frame ∈ frames, 8 ≤ frame.length)
    (hmore : more.length < max 8 (Reader.frameLength more)) : Fed frames more (p.side d) := by
  revert hsource
  apply Machine.Reachable.invariant _ _ h
  . rintro p ⟨m, now, fd, conf, events, mkfifo, opened, pipe, stdin, buf, respBuf, rfl⟩ hsource
    refine ⟨fun _ => hsource, Nat.zero_le _, ?_, fun _ => Nat.zero_le _⟩
    simp [doTcpTunnel, Side.start]
  . intro p label p' _ ih hstep hsource
    have hside := sideStep_of_step hstep d
    rw [source_of_sideStep hside] at hsource
    exact (ih hsource).step h8 hmore hside

section Delivered

variable {exp : ℚ → ℚ} {frames : List Frame} {more : List UInt8} {s : Side} {w : Scheduler.Write}

theorem Conveyed.delivered_nodup (h : Conveyed exp s) : s.scheduler.delivered.Nodup :=
  h.kept.owned.sentNodup.sublist (List.Sublist.map _ List.filter_sublist)

theorem Conveyed.fd_of_sent (h : Conveyed exp s) (hw : w ∈ s.scheduler.sent) : w.msg.fd = s.fd := by
  rcases h.sent w hw with ⟨frame, -, self, other, conf, res, -, -, -, hfd⟩
  exact hfd

-- what is written is what `getOFPMsgArg` made of one of the frames
theorem exists_parsed_of_sent (hconveyed : Conveyed exp s) (hfed : Fed frames more s)
    (hw : w ∈ s.scheduler.sent)
    : ∃ frame mem self other conf res, frames[w.msg.addr]? = some frame ∧ mem.At 0 frame.encode
        ∧ Schedule.getOFPMsgArg exp self other conf mem = some res
        ∧ w.msg.buf = res.msg.bytes 0 res.arg.len := by
  rcases hconveyed.sent w hw with ⟨mem, hmem, self, other, conf, res, hres, -, hbuf, -⟩
  have hlt : w.msg.addr < frames.length :=
    Nat.lt_of_lt_of_le (List.getElem?_eq_some_iff.mp hmem).1 hfed.length
  have hframe := List.getElem?_eq_getElem hlt
  exact ⟨_, mem, self, other, conf, res, hframe, hfed.received _ mem _ hmem hframe, hres, hbuf⟩

theorem exists_frame_of_sent (hconveyed : Conveyed exp s) (hfed : Fed frames more s)
    (hw : w ∈ s.scheduler.sent)
    : ∃ frame, frames[w.msg.addr]? = some frame
        ∧ (w.msg.buf = frame.forwarded.encode ↔ frame.Survives) := by
  rcases exists_parsed_of_sent hconveyed hfed hw with
    ⟨frame, mem, self, other, conf, res, hframe, hat, hres, hbuf⟩
  rw [hbuf]
  exact ⟨frame, hframe, Schedule.getOFPMsgArg_forwarded hat hres⟩

end Delivered

end Proxy
end OfpProxy
