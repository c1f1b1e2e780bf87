import OfpProxy.Machine.Ghost
import OfpProxy.Proxy.Step

/-!
This module shows that `Run_listen_resp` takes the identities from its pipe as they were written, when
each write to the pipe consists of whole identities and the pipe was there before. Otherwise `mkfifo`
makes it, and nothing is ever taken from it.
-/

namespace OfpProxy
namespace Proxy

/--
What there is to be read from a response pipe, and the identities taken from it so far.
-/
structure Pipe where
  atStart : List UInt8
  taken : List Nat

def recordTaken (p : Proxy) : Label → (Dir → Pipe) → Dir → Pipe
  | .respond d, pipes =>
    match (stepRespond p d).map fun p' : Proxy => (p'.side d).resp with
    | some (.marking identify _) =>
      Function.update pipes d { pipes d with taken := (pipes d).taken ++ [identify] }
    | _ => pipes
  | _, pipes => pipes

-- no identity is written in parts
def pipesStart (p : Proxy) (pipes : Dir → Pipe) : Prop :=
  ∀ d, pipes d = ⟨Socket.written (p.side d).pipe, []⟩ ∧ Socket.Whole 8 (p.side d).pipe

def listening (exp : ℚ → ℚ) : Machine (Proxy × (Dir → Pipe)) Label :=
  (machine exp).withRecord pipesStart recordTaken

-- The listener has not read anything in between.
structure Unheard (s s' : Side) : Prop where
  pipe : s'.pipe = s.pipe
  respFd : s'.respFd = s.respFd
  marking : ∀ identify i, s'.resp = .marking identify i → ∃ j, s.resp = .marking identify j

theorem Unheard.of_eq {s s' : Side} (hpipe : s'.pipe = s.pipe) (hrespFd : s'.respFd = s.respFd)
    (hresp : s'.resp = s.resp) : Unheard s s' where
  pipe := hpipe
  respFd := hrespFd
  marking := by
    intro identify i h
    rw [hresp] at h
    exact ⟨i, h⟩

section Step

variable {exp : ℚ → ℚ} {p p' : Proxy} {d e : Dir}

theorem unheard_of_set {side : Side} (hset : p'.side = (p.set d side).side)
    (h : Unheard (p.side d) side) (e : Dir) : Unheard (p.side e) (p'.side e) := by
  rw [hset]
  rcases d.eq_or_other e with rfl | rfl
  . rw [side_set]
    exact h
  . rw [side_set_other]
    exact .of_eq rfl rfl rfl

theorem unheard_of_receive (hstep : stepReceive exp p d = some p') (e : Dir)
    : Unheard (p.side e) (p'.side e) := by
  cases receive_of_step hstep with
  | ended =>
    apply unheard_of_set rfl
    exact .of_eq rfl rfl rfl
  | delivered =>
    rcases d.eq_or_other e with rfl | rfl
    . change Unheard _ (((p.set e _).set e.other _).side e)
      rw [side_set_set_other]
      exact .of_eq rfl rfl rfl
    . change Unheard _ (((p.set d _).set d.other _).side d.other)
      rw [side_set]
      exact .of_eq rfl rfl rfl

theorem unheard_of_run {now : Timeval} (hstep : stepRun p d now = some p') (e : Dir)
    : Unheard (p.side e) (p'.side e) := by
  simp only [stepRun, Option.map_eq_some_iff] at hstep
  rcases hstep with ⟨state, -, rfl⟩
  apply unheard_of_set rfl
  unfold Side.startListen
  split
  . constructor
    . rfl
    . rfl
    . intro identify i hmarking
      contradiction
  . exact .of_eq rfl rfl rfl

theorem unheard_of_mark (hstep : stepMark p d = some p') (e : Dir)
    : Unheard (p.side e) (p'.side e) := by
  unfold stepMark at hstep
  dsimp only at hstep
  split at hstep
  . next identify i hresp =>
    split at hstep
    . rw [← Option.some.inj hstep]
      apply unheard_of_set rfl
      refine ⟨rfl, rfl, ?_⟩
      intro identify' j hmarking
      contradiction
    . next q _ =>
      rw [← Option.some.inj hstep]
      apply unheard_of_set rfl
      refine ⟨rfl, rfl, ?_⟩
      intro identify' j hmarking
      dsimp only at hmarking
      split at hmarking
      . contradiction
      . rw [RespPc.marking.injEq] at hmarking
        rw [← hmarking.1]
        exact ⟨i, hresp⟩
  . contradiction

theorem unheard_of_step {label : Label} (hstep : step exp p label = some p')
    (hlabel : ∀ d, label ≠ .respond d) (e : Dir) : Unheard (p.side e) (p'.side e) := by
  cases label with
  | receive d => exact unheard_of_receive hstep e
  | put d qid garbage =>
    simp only [step, stepPut] at hstep
    split at hstep
    . split at hstep
      . contradiction
      . rw [← Option.some.inj hstep]
        apply unheard_of_set rfl
        exact .of_eq rfl rfl rfl
    . contradiction
  | insertPos d | readToBeSent d =>
    rcases exists_of_stepReader hstep with ⟨state, -, rfl⟩
    apply unheard_of_set rfl
    exact .of_eq rfl rfl rfl
  | run d now => exact unheard_of_run hstep e
  | writev d accepted =>
    simp only [step, stepWritev] at hstep
    split at hstep
    . contradiction
    . rw [Option.map_eq_some_iff] at hstep
      rcases hstep with ⟨state, -, rfl⟩
      apply unheard_of_set rfl
      exact .of_eq rfl rfl rfl
  | respond d => exact absurd rfl (hlabel d)
  | mark d => exact unheard_of_mark hstep e
  | kill =>
    simp only [step, stepKill] at hstep
    split at hstep
    . rw [← Option.some.inj hstep]
      apply unheard_of_set rfl
      exact .of_eq rfl rfl rfl
    . contradiction

end Step

/--
The identities taken from the fifo and what is left in it are what was there at the start, and the
queues are searched for the last one taken. With another descriptor the pipe stays as it is.
-/
structure Heard (s : Side) (pipe : Pipe) : Prop where
  whole : Socket.Whole 8 s.pipe
  bytes : s.respFd = .fifo
    → pipe.atStart = pipe.taken.flatMap (leBytes 8) ++ Socket.written s.pipe
  untouched : s.respFd ≠ .fifo → Socket.written s.pipe = pipe.atStart
  nothing : s.respFd = .invalid → pipe.taken = []
  marking : ∀ identify i, s.resp = .marking identify i → pipe.taken.getLast? = some identify

theorem Heard.unheard {s s' : Side} {pipe : Pipe} (h : Heard s pipe) (hstay : Unheard s s')
    : Heard s' pipe where
  whole := by
    rw [hstay.pipe]
    exact h.whole
  bytes := by
    rw [hstay.pipe, hstay.respFd]
    exact h.bytes
  untouched := by
    rw [hstay.pipe, hstay.respFd]
    exact h.untouched
  nothing := by
    rw [hstay.respFd]
    exact h.nothing
  marking := by
    intro identify i hmarking
    rcases hstay.marking identify i hmarking with ⟨j, hj⟩
    exact h.marking identify j hj

-- The identity is the value of the bytes that were read.
theorem leBytes_identify (respBuf : Mem) {bytes : List UInt8} (hlen : bytes.length = 8)
    : leBytes 8 ((respBuf.copyFrom 0 (.ofList bytes) 0 bytes.length).load64 0) = bytes := by
  rw [Mem.leBytes_load64, Mem.bytes_eq_iff]
  exact ⟨hlen.symm, Mem.copyFrom_at (Mem.at_ofList bytes) (Nat.le_refl _)⟩

section Read

variable {p : Proxy} {d : Dir} {pipe : Pipe} {r : Socket.Received}

theorem read_fifo (hfd : (p.side d).respFd = .fifo) (hwhole : Socket.Whole 8 (p.side d).pipe)
    (hread : Socket.read 8 (respEvents p d) = some r)
    : (afterRead (p.side d) r).pipe = r.events ∧ Socket.Whole 8 r.events
        ∧ Socket.written (p.side d).pipe = r.bytes ++ Socket.written r.events
        ∧ (r.rc = r.bytes.length ∧ r.bytes.length = 8 ∨ r.rc ≤ 0 ∧ r.bytes = []) := by
  have hevents : respEvents p d = (p.side d).pipe := by
    simp only [respEvents, hfd]
  rw [hevents] at hread
  exact ⟨if_pos hfd, Socket.read_whole hwhole hread⟩

theorem read_not_fifo (hfd : (p.side d).respFd ≠ .fifo)
    : (afterRead (p.side d) r).pipe = (p.side d).pipe := if_neg hfd

-- EBADF
theorem read_invalid (hfd : (p.side d).respFd = .invalid)
    (hread : Socket.read 8 (respEvents p d) = some r) : r.rc ≤ 0 := by
  have hevents : respEvents p d = [.error ebadf] := by
    simp only [respEvents, hfd]
  rw [hevents] at hread
  rw [← Option.some.inj hread]
  decide

theorem heard_of_taken {respBuf : Mem} (h : Heard (p.side d) pipe)
    (hread : Socket.read 8 (respEvents p d) = some r) (hrc : 0 < r.rc)
    (hbuf : respBuf = (p.side d).respBuf.copyFrom 0 (.ofList r.bytes) 0 r.bytes.length)
    : Heard { afterRead (p.side d) r with respBuf := respBuf, resp := .marking (respBuf.load64 0) 0 }
        { pipe with taken := pipe.taken ++ [respBuf.load64 0] } := by
  have hmarking : ∀ identify i, RespPc.marking (respBuf.load64 0) 0 = .marking identify i
      → (pipe.taken ++ [respBuf.load64 0]).getLast? = some identify := by
    intro identify i hmarking
    rw [RespPc.marking.injEq] at hmarking
    rw [← hmarking.1]
    exact List.getLast?_concat
  by_cases hfd : (p.side d).respFd = .fifo
  . rcases read_fifo hfd h.whole hread with ⟨hpipe, hwhole, hwritten, hcount⟩
    have hlen : r.bytes.length = 8 := by omega
    have hidentify := leBytes_identify (p.side d).respBuf hlen
    rw [← hbuf] at hidentify
    refine ⟨hpipe ▸ hwhole, ?_, absurd hfd, ?_, hmarking⟩
    . intro _
      dsimp only
      rw [hpipe, List.flatMap_append, List.flatMap_singleton, hidentify, List.append_assoc, ← hwritten]
      exact h.bytes hfd
    . intro hinvalid
      exact absurd (hfd.symm.trans hinvalid) (by decide)
  . have hpipe : (afterRead (p.side d) r).pipe = (p.side d).pipe := read_not_fifo hfd
    refine ⟨hpipe ▸ h.whole, fun hfifo => absurd hfifo hfd, fun _ => hpipe ▸ h.untouched hfd, ?_,
      hmarking⟩
    intro hinvalid
    have := read_invalid hinvalid hread
    omega

theorem heard_of_nothing (h : Heard (p.side d) pipe)
    (hread : Socket.read 8 (respEvents p d) = some r) (hrc : r.rc ≤ 0)
    : Heard (afterRead (p.side d) r) pipe := by
  have hmarking : ∀ identify i, (p.side d).resp = .marking identify i
      → pipe.taken.getLast? = some identify := h.marking
  by_cases hfd : (p.side d).respFd = .fifo
  . rcases read_fifo hfd h.whole hread with ⟨hpipe, hwhole, hwritten, hcount⟩
    have hnone : r.bytes = [] := by
      rcases hcount with ⟨hcount, hlen⟩ | ⟨-, hnone⟩
      . omega
      . exact hnone
    refine ⟨hpipe ▸ hwhole, ?_, absurd hfd, h.nothing, hmarking⟩
    intro _
    rw [hpipe, h.bytes hfd, hwritten, hnone]
    rfl
  . have hpipe : (afterRead (p.side d) r).pipe = (p.side d).pipe := read_not_fifo hfd
    exact ⟨hpipe ▸ h.whole, fun hfifo => absurd hfifo hfd, fun _ => hpipe ▸ h.untouched hfd, h.nothing,
      hmarking⟩

end Read

theorem heard_of_respond {p p' : Proxy} {pipes : Dir → Pipe} {d : Dir}
    (h : ∀ e, Heard (p.side e) (pipes e)) (hstep : stepRespond p d = some p') (e : Dir)
    : Heard (p'.side e) (recordTaken p (.respond d) pipes e) := by
  have hrecord : recordTaken p (.respond d) pipes
      = match some (p'.side d).resp with
        | some (.marking identify _) =>
          Function.update pipes d { pipes d with taken := (pipes d).taken ++ [identify] }
        | _ => pipes := by
    rw [recordTaken, hstep]
    rfl
  rw [hrecord]
  rcases respond_of_step hstep with ⟨hresp, r, hread, hrespond⟩
  cases hrespond with
  | taken hrc hbuf =>
    dsimp only
    rw [side_set]
    dsimp only
    rcases d.eq_or_other e with rfl | rfl
    . rw [side_set, Function.update_self]
      exact heard_of_taken (h e) hread hrc hbuf
    . rw [side_set_other, Function.update_of_ne d.other_ne]
      exact h d.other
  | nothing hrc =>
    have hstill : (afterRead (p.side d) r).resp = .waiting := hresp
    dsimp only
    rw [side_set, hstill]
    dsimp only
    rcases d.eq_or_other e with rfl | rfl
    . rw [side_set]
      exact heard_of_nothing (h e) hread hrc
    . rw [side_set_other]
      exact h d.other

/--
The identities that `Run_listen_resp` takes from a fifo are the ones that were written to it, in this
order. If `mkfifo` had to make it, or if it cannot be opened, then it stays as it is. The queues are
searched for the last identity taken.
-/
theorem identities_taken {exp : ℚ → ℚ} {x : Proxy × (Dir → Pipe)} (h : (listening exp).Reachable x)
    (d : Dir)
    : ((x.1.side d).respFd = .fifo
        → (x.2 d).atStart = (x.2 d).taken.flatMap (leBytes 8) ++ Socket.written (x.1.side d).pipe)
        ∧ ((x.1.side d).respFd ≠ .fifo → Socket.written (x.1.side d).pipe = (x.2 d).atStart)
        ∧ ((x.1.side d).respFd = .invalid → (x.2 d).taken = [])
        ∧ ∀ identify i, (x.1.side d).resp = .marking identify i
          → (x.2 d).taken.getLast? = some identify := by
  have hheard : ∀ e, Heard (x.1.side e) (x.2 e) := by
    apply Machine.Reachable.invariant _ _ h
    . rintro ⟨p, pipes⟩ ⟨⟨m, now, fd, conf, events, mkfifo, opened, pipe, stdin, buf, respBuf, rfl⟩,
        hstart⟩ e
      dsimp only at hstart ⊢
      rw [(hstart e).1]
      refine ⟨(hstart e).2, fun _ => rfl, fun _ => rfl, fun _ => rfl, ?_⟩
      intro identify i hmarking
      contradiction
    . rintro ⟨p, pipes⟩ label ⟨p', pipes'⟩ _ ih hstep
      rcases Machine.withRecord_step hstep with ⟨hstep', rfl⟩
      by_cases hlabel : ∃ d, label = .respond d
      . rcases hlabel with ⟨d, rfl⟩
        exact heard_of_respond ih hstep'
      . rw [not_exists] at hlabel
        intro e
        have hsame : recordTaken p label pipes = pipes := by
          unfold recordTaken
          split
          . exact absurd rfl (hlabel _)
          . rfl
        dsimp only
        rw [hsame]
        exact (ih e).unheard (unheard_of_step hstep' hlabel e)
  exact ⟨(hheard d).bytes, (hheard d).untouched, (hheard d).nothing, (hheard d).marking⟩

/--
A proxy that hears of a datapath, and of two messages the switch has processed. The other pipe is made by
`mkfifo`, and nine is typed in.
-/
def notified : Proxy :=
  doTcpTunnel (fun _ _ => 0) (fun _ => ⟨0, 0⟩) (fun _ => 5) .idle
    (fun _ => segment ([4, 6, 0, 32] ++ List.replicate 28 0)) (fun d => d = .clientToServer)
    (fun _ => true) (fun _ => segment (leBytes 8 5 ++ leBytes 8 7)) (segment (leBytes 8 9))
    (fun _ _ => 0) (fun _ _ => 0)

theorem identities_taken_twoIdentities
    : ∃ x, (listening fun _ => 1).Reachable x
        ∧ (x.2 .serverToClient).taken = [5, 7] ∧ (x.2 .clientToServer).taken = [9]
        ∧ (x.2 .serverToClient).atStart = leBytes 8 5 ++ leBytes 8 7
        ∧ Socket.written (x.1.side .clientToServer).pipe = (x.2 .clientToServer).atStart := by
  have hinit : (listening fun _ => 1).init
      (notified, fun d => ⟨Socket.written (notified.side d).pipe, []⟩) := by
    refine ⟨⟨_, _, _, _, _, _, _, _, _, _, _, rfl⟩, ?_⟩
    intro d
    refine ⟨rfl, ?_⟩
    intro byte bytes hmem
    have hpipe : (notified.side d).pipe = segment (leBytes 8 5 ++ leBytes 8 7) := rfl
    dsimp only at hmem
    rw [hpipe] at hmem
    simp only [segment, leBytes, List.cons_append, List.mem_singleton, Socket.Event.segment.injEq] at hmem
    rw [hmem.2]
    decide
  rcases @Machine.exists_of_replay _ _ (listening fun _ => 1) (fun _ _ => true)
      ([.receive .serverToClient, .put .serverToClient 0 0, .run .serverToClient ⟨0, 0⟩,
        .respond .serverToClient] ++ List.replicate 11 (.mark .serverToClient)
        ++ [.respond .serverToClient, .run .clientToServer ⟨0, 0⟩, .respond .clientToServer])
      _
      (fun x => decide ((x.2 .serverToClient).taken = [5, 7] ∧ (x.2 .clientToServer).taken = [9]
        ∧ (x.1.side .serverToClient).respFd = .fifo ∧ (x.1.side .clientToServer).respFd = .stdin
        ∧ Socket.written (x.1.side .serverToClient).pipe = []))
      (.init hinit) (by decide +kernel) with
    ⟨x, hreach, hx⟩
  rw [decide_eq_true_eq] at hx
  rcases hx with ⟨htaken, htaken', hfifo, hstdin, hempty⟩
  have hserver := (identities_taken hreach.reachable .serverToClient).1 hfifo
  have hclient := (identities_taken hreach.reachable .clientToServer).2.1 (by rw [hstdin]; decide)
  rw [htaken, hempty] at hserver
  exact ⟨x, hreach.reachable, htaken, htaken', hserver, hclient⟩

end Proxy
end OfpProxy
