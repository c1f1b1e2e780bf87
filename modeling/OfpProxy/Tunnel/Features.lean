import Mathlib.Logic.Function.Iterate
import OfpProxy.Schedule.Routing
import OfpProxy.Tunnel.Impl

/-!
This module shows what a series of FEATURES_REPLYs makes of resp_pipe. Each of them appends one more
character to the path of both schedules.
-/

namespace OfpProxy
namespace Schedule

-- resp_pipe, and what lies behind it, after one more dp_id was appended
def appendDpId (dpId : UInt8) (m : Mem) : Mem := (m.store (strlen m) dpId).store (strlen m + 1) 0

theorem strlen_eq {m : Mem} {n : Nat} (hn : n < 130) (hpath : ∀ i < n, m i ≠ 0) (hnul : m n = 0)
    : strlen m = n := by
  have hfind : (List.range 130).find? (fun i => decide (m i = 0)) = some n := by
    rw [List.find?_range_eq_some]
    refine ⟨by simpa using hnul, by simpa using hn, ?_⟩
    intro j hj
    simpa using hpath j hj
  unfold strlen
  dsimp only [respPipeSize, nameSize, respRecordNameSize]
  rw [hfind]
  rfl

section Reply

variable {exp : ℚ → ℚ} {self other : Schedule} {conf : PolicyConfig} {msg : Mem} {res : Parsed}

theorem getOFPMsgArg_featuresReply (h : getOFPMsgArg exp self other conf msg = some res)
    (htype : msg 1 = ofptFeaturesReply)
    : res.self.respPipe = appendDpId (msg 15 + 48) self.respPipe
        ∧ res.other.respPipe = appendDpId (msg 15 + 48) other.respPipe := by
  rcases exists_dispatch h with ⟨st, hst, rfl⟩
  unfold dispatch at hst
  simp only [htype] at hst
  rw [← Option.some.inj hst]
  exact ⟨rfl, rfl⟩

theorem getOFPMsgArg_respPipe (h : getOFPMsgArg exp self other conf msg = some res)
    (htype : msg 1 ≠ ofptFeaturesReply)
    : res.self.respPipe = self.respPipe ∧ res.other.respPipe = other.respPipe := by
  rcases exists_dispatch h with ⟨st, hst, rfl⟩
  by_cases hflow : msg 1 = ofptFlowMod
  . rw [dispatch_flowMod exp self other conf hflow, Option.map_eq_some_iff] at hst
    rcases hst with ⟨st', -, rfl⟩
    exact ⟨rfl, rfl⟩
  . by_cases hout : msg 1 = ofptPacketOut
    . rw [dispatch_packetOut exp self other conf hout, Option.map_eq_some_iff] at hst
      rcases hst with ⟨st', -, rfl⟩
      exact ⟨rfl, rfl⟩
    . cases kept_of_dispatch hst hflow hout with
      | featuresReply hfeatures => exact absurd hfeatures htype
      | statsReply _ =>
        refine ⟨rfl, ?_⟩
        unfold markRequest
        dsimp only
        split <;> rfl
      | _ => exact ⟨rfl, rfl⟩

end Reply
end Schedule

namespace Tunnel

def Event.frame : Event → Option Mem
  | .readClient msg | .readServer msg => some msg
  | .elsewhere _ _ _ => none

def Event.isFeaturesReply (event : Event) : Bool :=
  event.frame.any fun msg => msg 1 = ofptFeaturesReply

-- the last byte of the datapath id, as the digit it becomes
def Event.HasDpId (dpId : UInt8) (event : Event) : Prop :=
  ∀ msg ∈ event.frame, msg 1 = ofptFeaturesReply → msg 15 + 48 = dpId

theorem step_respPipe {exp : ℚ → ℚ} {dpId : UInt8} {event : Event} {t t' : Tunnel}
    (h : step exp t event = some t') (hdpid : event.HasDpId dpId)
    : t'.clientToServer.respPipe
          = (Schedule.appendDpId dpId)^[if event.isFeaturesReply then 1 else 0] t.clientToServer.respPipe
        ∧ t'.serverToClient.respPipe
          = (Schedule.appendDpId dpId)^[if event.isFeaturesReply then 1 else 0]
              t.serverToClient.respPipe := by
  cases event with
  | readClient msg =>
    simp only [step] at h
    split at h
    . contradiction
    . next res hres =>
      rw [← Option.some.inj h]
      by_cases htype : msg 1 = ofptFeaturesReply
      . rw [← hdpid msg rfl htype]
        simpa [Event.isFeaturesReply, Event.frame, htype] using
          Schedule.getOFPMsgArg_featuresReply hres htype
      . simpa [Event.isFeaturesReply, Event.frame, htype] using
          Schedule.getOFPMsgArg_respPipe hres htype
  | readServer msg =>
    simp only [step] at h
    split at h
    . contradiction
    . next res hres =>
      rw [← Option.some.inj h]
      by_cases htype : msg 1 = ofptFeaturesReply
      . rw [← hdpid msg rfl htype]
        simpa [Event.isFeaturesReply, Event.frame, htype] using
          (Schedule.getOFPMsgArg_featuresReply hres htype).symm
      . simpa [Event.isFeaturesReply, Event.frame, htype] using
          (Schedule.getOFPMsgArg_respPipe hres htype).symm
  | elsewhere clientToServer serverToClient conf =>
    rw [← Option.some.inj h]
    exact ⟨rfl, rfl⟩

abbrev run (exp : ℚ → ℚ) (t : Tunnel) (events : List Event) : Option Tunnel :=
  (machine exp).replay (fun _ _ => true) t events

theorem run_respPipe {exp : ℚ → ℚ} {dpId : UInt8} {events : List Event} {t t' : Tunnel}
    (h : run exp t events = some t') (hdpid : ∀ event ∈ events, event.HasDpId dpId)
    : t'.clientToServer.respPipe
          = (Schedule.appendDpId dpId)^[events.countP Event.isFeaturesReply] t.clientToServer.respPipe
        ∧ t'.serverToClient.respPipe
          = (Schedule.appendDpId dpId)^[events.countP Event.isFeaturesReply]
              t.serverToClient.respPipe := by
  induction events generalizing t with
  | nil =>
    rw [← Option.some.inj h]
    exact ⟨rfl, rfl⟩
  | cons event events ih =>
    rw [List.forall_mem_cons] at hdpid
    simp only [run, Machine.replay, if_true] at h
    split at h
    . contradiction
    . next s hs =>
      have hrest := ih h hdpid.2
      have hstep := step_respPipe hs hdpid.1
      rw [List.countP_cons, Function.iterate_add_apply, Function.iterate_add_apply, ← hstep.1, ← hstep.2]
      exact hrest

end Tunnel

/--
The path that was in `m`, followed by `dpId` and a NUL. Everything behind that is as before.
-/
structure Appended (path : List UInt8) (dpId : UInt8) (m m' : Mem) : Prop where
  bytes : m'.At 0 (path ++ [dpId, 0])
  inside : path.length + 2 ≤ Schedule.respPipeSize
  rest : ∀ j, path.length + 2 ≤ j → m' j = m j

section Path

variable {path : List UInt8} {dpId : UInt8} {m m' : Mem}

theorem strlen_of_at (hm : m.At 0 (path ++ [0])) (hpath : 0 ∉ path) (hlen : path.length < 130)
    : Schedule.strlen m = path.length := by
  rw [Mem.at_append, Mem.at_cons, Nat.zero_add] at hm
  apply Schedule.strlen_eq hlen
  . intro i hi hzero
    have hget := hm.1.get i hi
    rw [Nat.zero_add, hzero] at hget
    rw [hget] at hpath
    exact hpath (List.getElem_mem hi)
  . exact hm.2.1

theorem appendDpId_at (hm : m.At 0 (path ++ [0])) (hpath : 0 ∉ path) (hlen : path.length < 130)
    : (Schedule.appendDpId dpId m).At 0 (path ++ [dpId, 0])
        ∧ ∀ j, path.length + 2 ≤ j → Schedule.appendDpId dpId m j = m j := by
  unfold Schedule.appendDpId
  rw [strlen_of_at hm hpath hlen]
  constructor
  . rw [Mem.at_append] at *
    refine ⟨?_, ?_⟩
    . apply hm.1.of_eq
      intro j _ hj
      rw [Mem.store_apply, if_neg (by omega), Mem.store_apply, if_neg (by omega)]
    . simp [Mem.store_apply]
  . intro j hj
    rw [Mem.store_apply, if_neg (by omega), Mem.store_apply, if_neg (by omega)]

theorem Appended.once (hm : m.At 0 (path ++ [0])) (hpath : 0 ∉ path) (hlen : path.length ≤ 48)
    : Appended path dpId m (Schedule.appendDpId dpId m) := by
  rcases appendDpId_at hm hpath (by omega) with ⟨hat, hrest⟩
  exact ⟨hat, by unfold Schedule.respPipeSize; omega, hrest⟩

-- A NUL is appended where the NUL already was.
theorem Appended.again (h : Appended path 0 m m') (hpath : 0 ∉ path)
    : Appended path 0 m (Schedule.appendDpId 0 m') := by
  have hinside := h.inside
  unfold Schedule.respPipeSize at hinside
  have hat : m'.At 0 (path ++ [0]) := by
    have hbytes := h.bytes
    rw [Mem.at_append] at *
    exact ⟨hbytes.1, hbytes.2.1, trivial⟩
  have honce := @Appended.once path 0 m' hat hpath (by omega)
  refine ⟨honce.bytes, h.inside, ?_⟩
  intro j hj
  rw [honce.rest j hj, h.rest j hj]

theorem not_appended_twice (hm : m.At 0 (path ++ [0])) (hpath : 0 ∉ path) (hlen : path.length ≤ 48)
    (hdpid : dpId ≠ 0)
    : ¬Appended path dpId m (Schedule.appendDpId dpId (Schedule.appendDpId dpId m)) := by
  intro h
  have honce := (@appendDpId_at path dpId m hm hpath (by omega)).1
  have honce' : (Schedule.appendDpId dpId m).At 0 (path ++ [dpId] ++ [0]) := by simpa using honce
  have htwice := (@appendDpId_at _ dpId _ honce' (by simp [hpath, Ne.symm hdpid]) (by simp; omega)).1
  have hwant := h.bytes
  rw [Mem.at_append] at htwice hwant
  have hnul := hwant.2.2.1
  have hsecond := htwice.2.1
  rw [List.length_append, List.length_singleton, ← Nat.add_assoc, hnul] at hsecond
  exact hdpid (Eq.symm hsecond)

theorem iterate_appended (hm : m.At 0 (path ++ [0])) (hpath : 0 ∉ path) (hlen : path.length ≤ 48)
    {n : Nat} (hn : 0 < n) (hone : n ≤ 1 ∨ dpId = 0)
    : Appended path dpId m ((Schedule.appendDpId dpId)^[n] m) := by
  have honce := @Appended.once path dpId m hm hpath hlen
  rcases hone with hle | rfl
  . have heq : n = 1 := by omega
    rw [heq]
    exact honce
  . induction n with
    | zero => omega
    | succ n ih =>
      cases Nat.eq_zero_or_pos n with
      | inl hzero =>
        rw [hzero]
        exact honce
      | inr hpos =>
        rw [Function.iterate_succ_apply']
        apply (ih hpos).again hpath

theorem strcpy_at (m : Mem) (d : Nat) (s : List UInt8) : (m.strcpy d s).At d (s ++ [0]) := by
  apply Mem.copyFrom_at (Mem.at_ofList _)
  simp

end Path
theorem Appended.isSWToControl_eq {path : List UInt8} {dpId : UInt8} {s s' : Schedule}
    (h : Appended path dpId s.respPipe s'.respPipe) : s'.isSWToControl = s.isSWToControl := by
  have hname : s'.respPipe.bytes Schedule.respPipeSize 7 = s.respPipe.bytes Schedule.respPipeSize 7 := by
    apply List.ext_getElem
    . simp
    . intro i hi hi'
      rw [Mem.getElem_bytes, Mem.getElem_bytes]
      have hinside := h.inside
      apply h.rest
      omega
  unfold Schedule.isSWToControl
  rw [hname]

namespace Tunnel

/--
resp_pipe of both schedules is the path it began with, followed by `dpId`, and the direction that
each of them serves is what it was.
-/
structure RepliesKept (dpId : UInt8) (t t' : Tunnel) : Prop where
  client : Appended clientPipe dpId t.clientToServer.respPipe t'.clientToServer.respPipe
  server : Appended serverPipe dpId t.serverToClient.respPipe t'.serverToClient.respPipe
  clientDirection : t'.clientToServer.isSWToControl = t.clientToServer.isSWToControl
  serverDirection : t'.serverToClient.isSWToControl = t.serverToClient.isSWToControl

theorem pipes_of_init {exp : ℚ → ℚ} {t : Tunnel} (h : (machine exp).init t)
    : t.clientToServer.respPipe.At 0 (clientPipe ++ [0])
        ∧ t.serverToClient.respPipe.At 0 (serverPipe ++ [0]) := by
  rcases h with ⟨m, m', now, now', conf, rfl⟩
  constructor
  . apply strcpy_at (m.strcpy Schedule.respPipeSize (cString "CLIENT")) 0 clientPipe
  . apply strcpy_at (m'.strcpy Schedule.respPipeSize (cString "SERVER")) 0 serverPipe

theorem exists_countP_eq {α : Type} {p : α → Bool} {xs : List α} {n : Nat} (h : n ≤ xs.countP p)
    : ∃ before after, xs = before ++ after ∧ before.countP p = n := by
  induction xs generalizing n with
  | nil => exact ⟨[], [], rfl, by simpa [eq_comm] using h⟩
  | cons x xs ih =>
    cases n with
    | zero => exact ⟨[], x :: xs, rfl, rfl⟩
    | succ n =>
      rw [List.countP_cons] at h
      by_cases hx : p x = true
      . rw [if_pos hx] at h
        rcases ih (n := n) (by omega) with ⟨before, after, rfl, hcount⟩
        exact ⟨x :: before, after, rfl, by rw [List.countP_cons, hcount, if_pos hx]⟩
      . rw [if_neg hx] at h
        rcases ih h with ⟨before, after, rfl, hcount⟩
        exact ⟨x :: before, after, rfl, by rw [List.countP_cons, hcount, if_neg hx]⟩

section Run

variable {exp : ℚ → ℚ} {t t' : Tunnel} {events : List Event} {dpId : UInt8}

theorem repliesKept_of_run (hinit : (machine exp).init t) (hrun : run exp t events = some t')
    (hdpid : ∀ event ∈ events, event.HasDpId dpId) (hreply : 0 < events.countP Event.isFeaturesReply)
    (hone : events.countP Event.isFeaturesReply ≤ 1 ∨ dpId = 0) : RepliesKept dpId t t' := by
  rcases pipes_of_init hinit with ⟨hclient, hserver⟩
  rcases run_respPipe hrun hdpid with ⟨hclient', hserver'⟩
  have hc : Appended clientPipe dpId t.clientToServer.respPipe t'.clientToServer.respPipe := by
    rw [hclient']
    apply iterate_appended hclient (by decide) (by decide) hreply hone
  have hs : Appended serverPipe dpId t.serverToClient.respPipe t'.serverToClient.respPipe := by
    rw [hserver']
    apply iterate_appended hserver (by decide) (by decide) hreply hone
  exact ⟨hc, hs, hc.isSWToControl_eq, hs.isSWToControl_eq⟩

theorem not_repliesKept_of_two (hinit : (machine exp).init t) (hrun : run exp t events = some t')
    (hdpid : ∀ event ∈ events, event.HasDpId dpId) (htwo : events.countP Event.isFeaturesReply = 2)
    (hne : dpId ≠ 0) : ¬RepliesKept dpId t t' := by
  intro h
  have hclient := (run_respPipe hrun hdpid).1
  rw [htwo] at hclient
  have happended := h.client
  rw [hclient] at happended
  exact not_appended_twice (pipes_of_init hinit).1 (by decide) (by decide) hne happended

/--
For the FEATURES_REPLYs of one switch, resp_pipe is sound from the first one on exactly if there is no
second one, or if the character they append is NUL.
-/
theorem featuresReplies_kept_iff (hinit : (machine exp).init t) (hrun : run exp t events = some t')
    (hdpid : ∀ event ∈ events, event.HasDpId dpId)
    : (∀ before after s, events = before ++ after → run exp t before = some s
          → 0 < before.countP Event.isFeaturesReply → RepliesKept dpId t s)
        ↔ events.countP Event.isFeaturesReply ≤ 1 ∨ dpId = 0 := by
  constructor
  . intro hkept
    by_contra hnot
    push Not at hnot
    rcases exists_countP_eq (show 2 ≤ events.countP Event.isFeaturesReply by omega) with
      ⟨before, after, rfl, htwo⟩
    rw [run, Machine.replay_append, Option.bind_eq_some_iff] at hrun
    rcases hrun with ⟨s, hs, -⟩
    apply not_repliesKept_of_two hinit hs _ htwo hnot.2
    . apply hkept before after s rfl hs
      omega
    . intro event hevent
      apply hdpid event (List.mem_append_left _ hevent)
  . intro hone before after s hevents hs hreply
    subst hevents
    apply repliesKept_of_run hinit hs _ hreply
    . rw [List.countP_append] at hone
      cases hone with
      | inl hle => exact .inl (by omega)
      | inr hzero => exact .inr hzero
    . intro event hevent
      apply hdpid event (List.mem_append_left _ hevent)

end Run

def newTunnel : Tunnel := doTcpTunnel (fun _ => 0) (fun _ => 0) ⟨0, 0⟩ ⟨0, 0⟩ .idle

def echoRequest : Event := .readServer (.ofList [4, 2, 0, 8, 0, 0, 0, 1])

def featuresReply : Event :=
  .readClient (.ofList [4, 6, 0, 32, 0, 0, 0, 1, 0, 0, 0, 0, 0, 0, 0, 1])

theorem init_newTunnel : (machine fun _ => 1).init newTunnel := ⟨_, _, _, _, _, rfl⟩

theorem hasDpId_featuresReply : featuresReply.HasDpId 49 := by
  intro msg hmsg _
  rw [← Option.some.inj hmsg]
  decide

theorem hasDpId_echoRequest : echoRequest.HasDpId 49 := by
  intro msg hmsg htype
  rw [← Option.some.inj hmsg] at htype
  contradiction

theorem featuresReplies_kept_oneReply
    : ∃ t, run (fun _ => 1) newTunnel [echoRequest, featuresReply, echoRequest] = some t
        ∧ RepliesKept 49 newTunnel t := by
  have hsome : (run (fun _ => 1) newTunnel [echoRequest, featuresReply, echoRequest]).isSome = true := by
    decide +kernel
  rcases Option.isSome_iff_exists.mp hsome with ⟨t, ht⟩
  refine ⟨t, ht, ?_⟩
  have hkept := (featuresReplies_kept_iff init_newTunnel ht (by
    simp only [List.forall_mem_cons]
    exact ⟨hasDpId_echoRequest, hasDpId_featuresReply, hasDpId_echoRequest, by simp⟩)).mpr
      (.inl (by decide))
  apply hkept _ [] t (List.append_nil _).symm ht (by decide)

-- Ten replies put a NUL where the name of the controller's side began.
theorem featuresReplies_not_kept
    : (∃ t, run (fun _ => 1) newTunnel [featuresReply, featuresReply] = some t
          ∧ ¬RepliesKept 49 newTunnel t)
        ∧ newTunnel.serverToClient.isSWToControl = false
        ∧ (run (fun _ => 1) newTunnel (List.replicate 10 featuresReply)).map
            (fun t => t.serverToClient.isSWToControl) = some true := by
  refine ⟨?_, by decide +kernel, by decide +kernel⟩
  have hsome : (run (fun _ => 1) newTunnel [featuresReply, featuresReply]).isSome = true := by
    decide +kernel
  rcases Option.isSome_iff_exists.mp hsome with ⟨t, ht⟩
  refine ⟨t, ht, not_repliesKept_of_two init_newTunnel ht ?_ (by decide) (by decide)⟩
  simp only [List.forall_mem_cons]
  exact ⟨hasDpId_featuresReply, hasDpId_featuresReply, by simp⟩

end Tunnel
end OfpProxy
