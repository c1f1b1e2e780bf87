import OfpProxy.Proxy.Order
import OfpProxy.Relay.Basic
import OfpProxy.Scheduler.Stream

/-!
This module shows that the proxy is a pair of relays, whatever its sockets and its clock do.
-/

namespace OfpProxy
namespace Proxy

-- an initial part of what `getOFPMsgArg` makes of the frame
def PieceOf (exp : ℚ → ℚ) (frame : Mem) (piece : List UInt8) : Prop :=
  ∃ self other conf res,
    Schedule.getOFPMsgArg exp self other conf frame = some res
      ∧ piece <+: res.msg.bytes 0 res.arg.len

def asRelay (s : Side) : Relay Mem UInt8 where
  arrived := s.received
  handed := s.scheduler.sentAddrs
  output := s.scheduler.accepted s.fd

theorem keeps_asRelay (s : Side) (i : Nat)
    : (asRelay s).keeps isImportant i = importantAt s.received i := rfl

theorem asRelay_eq {s s' : Side} (hreceived : s'.received = s.received)
    (hsent : s'.scheduler.sent = s.scheduler.sent) (hfd : s'.fd = s.fd) : asRelay s' = asRelay s := by
  unfold asRelay Scheduler.State.sentAddrs Scheduler.State.accepted Scheduler.State.writes
  rw [hreceived, hsent, hfd]

theorem output_of_writev {s s' : Scheduler.State} {accepted : Option Nat}
    (h : Scheduler.stepWritev s accepted = some s')
    : ∃ msg ∈ s.messages, s.run = .marked msg.addr ∧ s'.sentAddrs = s.sentAddrs ++ [msg.addr]
        ∧ s'.accepted msg.fd = s.accepted msg.fd ++ msg.buf.take (accepted.getD 0) := by
  rcases Scheduler.stepWritev_eq h with ⟨addr, msg, hrun, hfind, rfl⟩
  have haddr : msg.addr = addr := by simpa using List.find?_some hfind
  subst haddr
  refine ⟨msg, List.mem_of_find?_eq_some hfind, hrun, ?_, ?_⟩
  . simp [Scheduler.State.sentAddrs]
  . unfold Scheduler.State.accepted Scheduler.State.writes
    dsimp only
    rw [List.filter_append, List.flatMap_append, List.filter_cons_of_pos (by simp), List.filter_nil,
      List.flatMap_singleton]
    rfl

/--
What a step in this direction makes of its relay.
-/
def Relays (exp : ℚ → ℚ) (r r' : Relay Mem UInt8) : Prop :=
  ∃ label, Relay.Passes (PieceOf exp) r label ∧ Relay.step isImportant r label = some r'

-- the direction in which something is received or written
def Label.moves : Label → Option Dir
  | .receive d => some d
  | .writev d _ => some d
  | _ => none

section Step

variable {exp : ℚ → ℚ} {d : Dir} {s s' : Side} {label : Label}

theorem relays_writev {accepted : Option Nat} (hconveyed : Conveyed exp s) (hline : InLine s')
    (hconveyed' : Conveyed exp s')
    (hstate : Scheduler.stepWritev s.scheduler accepted = some s'.scheduler)
    (hreceived : s'.received = s.received) (hfd : s'.fd = s.fd)
    : Relays exp (asRelay s) (asRelay s') := by
  rcases output_of_writev hstate with ⟨msg, hmsg, hrun, hsent, haccepted⟩
  rcases hconveyed.messages msg hmsg with
    ⟨frame, hframe, self, other, conf, res, hres, hlen, hbuf, hmsgFd⟩
  change msg.fd = s.fd at hmsgFd
  change msg.buf = _ at hbuf
  have hnew : msg.addr ∉ s.scheduler.sentAddrs := by
    have hheld := hconveyed.kept.owned.held
    rw [hrun] at hheld
    exact hheld.1
  -- the order is that of the state behind the write
  have hmay : (asRelay s).mayHand isImportant msg.addr := by
    refine ⟨hnew, ?_⟩
    intro j hlt hj haddr
    rw [keeps_asRelay, ← hreceived] at hj haddr
    have hpair := Scheduler.Sorted.pair hline hconveyed'.kept (by decide) hlt hj haddr
      (by rw [hsent]; simp)
    rw [hsent] at hpair
    have hmem := hpair.subset List.mem_cons_self
    rw [List.mem_append, List.mem_singleton] at hmem
    rcases hmem with hold | hsame
    . exact hold
    . omega
  refine ⟨.hand msg.addr (msg.buf.take (accepted.getD 0)), ?_, ?_⟩
  . refine ⟨frame, hframe, self, other, conf, res, hres, ?_⟩
    rw [hbuf]
    apply List.take_prefix
  . rw [Relay.step, if_pos hmay]
    unfold asRelay
    dsimp only
    rw [hreceived, hfd, hsent, ← hmsgFd, haccepted]

theorem relays_of_sideStep (hconveyed : Conveyed exp s) (hline : InLine s') (hconveyed' : Conveyed exp s')
    (hstep : SideStep exp d s label s')
    : asRelay s' = asRelay s ∨ label.moves = some d ∧ Relays exp (asRelay s) (asRelay s') := by
  cases hstep with
  | same | ended | killed | respond | unmarked => exact .inl rfl
  | @received other conf r res hdelivered =>
    refine .inr ⟨rfl, .arrive r.buf, trivial, ?_⟩
    unfold asRelay
    rw [receiver_scheduler hdelivered]
    rfl
  | overheard hdelivered =>
    apply Or.inl
    rcases overhearer_scheduler hdelivered with hsame | ⟨-, qid, identify, hmark⟩
    . exact asRelay_eq rfl (by rw [hsame]) rfl
    . have hframe := (Scheduler.step_other_frame (by simp) (by simp) hmark).2
      exact asRelay_eq rfl hframe rfl
  | put hreader hput =>
    have hstep' : Scheduler.step s.scheduler (.putMsg _ _ _ _) = some _ := hput
    exact .inl (asRelay_eq rfl (Scheduler.step_other_frame (by simp) (by simp) hstep').2 rfl)
  | insertPos hstate =>
    have hstep' : Scheduler.step s.scheduler .insertPos = some _ := hstate
    exact .inl (asRelay_eq rfl (Scheduler.step_other_frame (by simp) (by simp) hstep').2 rfl)
  | readToBeSent hstate =>
    have hstep' : Scheduler.step s.scheduler .readToBeSent = some _ := hstate
    exact .inl (asRelay_eq rfl (Scheduler.step_other_frame (by simp) (by simp) hstep').2 rfl)
  | run hstate => exact .inl (asRelay_eq rfl (Scheduler.stepRun_frame hstate).2.2 rfl)
  | writev hstate => exact .inr ⟨rfl, relays_writev hconveyed hline hconveyed' hstate rfl rfl⟩
  | mark hq => exact .inl (asRelay_eq rfl rfl rfl)

theorem relays_of_step {p p' : Proxy} (h : (machine exp).Reachable p)
    (hstep : Proxy.step exp p label = some p') (d : Dir)
    : asRelay (p'.side d) = asRelay (p.side d)
        ∨ label.moves = some d ∧ Relays exp (asRelay (p.side d)) (asRelay (p'.side d)) := by
  have h' : (machine exp).Reachable p' := h.step trivial hstep
  apply relays_of_sideStep
  . apply conveyed_of_reachable h
  . apply inLine_of_reachable h'
  . apply conveyed_of_reachable h'
  . apply sideStep_of_step hstep

end Step

theorem simulates_relay (exp : ℚ → ℚ) (d : Dir)
    : Machine.Simulates (machine exp) (Relay.machine isImportant) (Relay.Passes (PieceOf exp))
        (fun _ => True) (fun p => asRelay (p.side d)) where
  init := by
    rintro p ⟨m, now, fd, conf, events, mkfifo, opened, pipe, stdin, buf, respBuf, rfl⟩
    rfl
  closed := fun _ _ _ _ _ => trivial
  step := by
    intro p label p' hreach _ hstep
    rcases relays_of_step hreach hstep d with hsame | ⟨-, hrelays⟩
    . exact .inl hsame
    . exact .inr hrelays

/--
The proxy refines two relays that run side by side and have nothing to do with each other. They hand on
pieces of what is rewritten, and the important messages keep their places.
-/
theorem refines_relays (exp : ℚ → ℚ)
    : Machine.Simulates (machine exp) (Machine.family fun _ : Dir => Relay.machine isImportant)
        (fun r label => Relay.Passes (PieceOf exp) (r label.1) label.2) (fun _ => True)
        (fun p d => asRelay (p.side d)) where
  init := by
    rintro p ⟨m, now, fd, conf, events, mkfifo, opened, pipe, stdin, buf, respBuf, rfl⟩ d
    rfl
  closed := fun _ _ _ _ _ => trivial
  step := by
    intro p label p' hreach _ hstep
    have hrelays := relays_of_step hreach hstep
    by_cases hall : ∀ d, asRelay (p'.side d) = asRelay (p.side d)
    . exact .inl (funext hall)
    . rw [not_forall] at hall
      rcases hall with ⟨d, hd⟩
      rcases hrelays d with hsame | ⟨hmoves, b, hpasses, hb⟩
      . exact absurd hsame hd
      . refine .inr ⟨(d, b), hpasses, Machine.family_step hb ?_⟩
        intro e he
        rcases hrelays e with hsame | ⟨hmoves', -⟩
        . exact hsame
        . rw [hmoves, Option.some_inj] at hmoves'
          exact absurd hmoves'.symm he

/--
Whatever the sockets and the clock do, the bytes on the destination socket are pieces of rewritten
messages, one for each message that was handed over, and the important ones come in order.
-/
theorem output_of_reachable {exp : ℚ → ℚ} {p : Proxy} (h : (machine exp).Reachable p) (d : Dir)
    : (∃ pieces : Nat → List UInt8,
        (p.side d).scheduler.accepted (p.side d).fd = (p.side d).scheduler.sentAddrs.flatMap pieces
          ∧ ∀ i ∈ (p.side d).scheduler.sentAddrs, ∃ frame, (p.side d).received[i]? = some frame
              ∧ PieceOf exp frame (pieces i))
        ∧ (p.side d).scheduler.sentAddrs.Nodup
        ∧ ∀ i j, i < j → importantAt (p.side d).received i = true
          → importantAt (p.side d).received j = true → j ∈ (p.side d).scheduler.sentAddrs
          → [i, j].Sublist (p.side d).scheduler.sentAddrs := by
  have hfaithful := Relay.faithful_of_reachableBy ((simulates_relay exp d).reachableBy h trivial)
  exact ⟨hfaithful.output, hfaithful.nodup, hfaithful.kept⟩

theorem output_of_reachable_twoHellos
    : ∃ p : Proxy, ∃ pieces : Nat → List UInt8,
        [0, 1].Sublist (p.side .serverToClient).scheduler.sentAddrs
          ∧ (p.side .serverToClient).scheduler.accepted (p.side .serverToClient).fd
            = (p.side .serverToClient).scheduler.sentAddrs.flatMap pieces := by
  -- the second message is cut short
  rcases @Machine.exists_of_replay _ _ (machine fun _ => 1) (fun _ _ => true)
      (forwardOne .serverToClient 4 8 ++ forwardOne .serverToClient 5 3) (commanded (hello ++ hello))
      (fun p => decide (importantAt (p.side .serverToClient).received 0 = true
        ∧ importantAt (p.side .serverToClient).received 1 = true
        ∧ 1 ∈ (p.side .serverToClient).scheduler.sentAddrs))
      (.init (init_commanded _)) (by decide +kernel) with
    ⟨p, hreach, hp⟩
  rw [decide_eq_true_eq] at hp
  rcases hp with ⟨hfirst, hsecond, hsent⟩
  rcases output_of_reachable hreach.reachable .serverToClient with ⟨⟨pieces, hpieces, -⟩, -, horder⟩
  exact ⟨p, pieces, horder 0 1 Nat.one_pos hfirst hsecond hsent, hpieces⟩

end Proxy
end OfpProxy
