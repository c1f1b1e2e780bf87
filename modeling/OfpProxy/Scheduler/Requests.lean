import OfpProxy.Scheduler.History
import OfpProxy.Scheduler.Response
import OfpProxy.Scheduler.Stored
import OfpProxy.Scheduler.Stream

/-!
This module shows which message a STATS_REPLY and an acknowledgement complete. Transaction ids and
cookies are the same kind of number to `markFinished`.
-/

namespace OfpProxy
namespace OFPMsg

def xid (msg : OFPMsg) : Nat := Schedule.dispatch.ntohl ((Mem.ofList msg.buf).load32 4)

def isStatsRequest (msg : OFPMsg) : Bool := 8 ≤ msg.buf.length ∧ msg.type = ofptStatsRequest

def IsNumbered (msg : OFPMsg) : Prop := msg.isStatsRequest = true → msg.identity = msg.xid

end OFPMsg

/--
At most one message has become finished: a STATS_REQUEST with transaction id `x` that is among the
messages `sent`.
-/
def CompletesOnlyRequest (sent : List Nat) (x : Nat) (msgs msgs' : List OFPMsg) : Prop :=
  msgs' = msgs
    ∨ ∃ i msg, msgs[i]? = some msg ∧ msgs' = msgs.set i msg.finish ∧ msg.isStatsRequest = true
        ∧ msg.xid = x ∧ msg.addr ∈ sent

def CompletesNoRequest (msgs msgs' : List OFPMsg) : Prop :=
  ∀ (i : Nat) (msg : OFPMsg), msgs[i]? = some msg → msg.isStatsRequest = true → msgs'[i]? = some msg

section Mark

variable {identify : Nat} {msgs : List OFPMsg}

theorem finish_ne {msg : OFPMsg} (h : msg.isOutstanding identify = true) : msg.finish ≠ msg := by
  intro heq
  have hdone := OFPMsg.isDone_of_isOutstanding h
  rw [heq, hdone.1] at hdone
  simp at hdone

theorem completesOnlyRequest_iff (sent : List Nat) (hnumbered : ∀ msg ∈ msgs, msg.IsNumbered)
    (rest : List OFPMsg)
    : CompletesOnlyRequest sent identify (msgs ++ rest)
          (Marking.markFirst (OFPMsg.isOutstanding identify) OFPMsg.finish 1 msgs ++ rest)
        ↔
      ∀ msg ∈ msgs.find? (OFPMsg.isOutstanding identify),
        msg.isStatsRequest = true ∧ msg.addr ∈ sent := by
  cases hfind : msgs.find? (OFPMsg.isOutstanding identify) with
  | none =>
    rw [mark_of_find_none hfind]
    simp [CompletesOnlyRequest]
  | some msg =>
    rcases mark_of_find hfind with ⟨hmsg, before, after, rfl, hmark⟩
    have hne := finish_ne hmsg
    rw [hmark, List.append_assoc, List.append_assoc, List.cons_append, List.cons_append]
    constructor
    . rintro (hsame | ⟨i, m, hm, hset, hrequest, -, hsent⟩)
      . simp [hne] at hsame
      . have hchanged := congrArg (fun xs => xs[before.length]?) hset
        by_cases hi : i = before.length
        . subst hi
          simp only [List.getElem?_append_right (Nat.le_refl _), Nat.sub_self,
            List.getElem?_cons_zero, Option.some.injEq] at hm
          simpa [hm] using ⟨hrequest, hsent⟩
        . rw [List.getElem?_set_ne hi] at hchanged
          simp [hne] at hchanged
    . intro hall
      rcases hall msg rfl with ⟨hrequest, hsent⟩
      have hid := hnumbered msg (by simp) hrequest
      unfold OFPMsg.isOutstanding at hmsg
      rw [decide_eq_true_eq] at hmsg
      refine .inr ⟨before.length, msg, by simp, by simp, hrequest, ?_, hsent⟩
      rw [← hid, hmsg.2.2]

theorem completesNoRequest_iff
    : CompletesNoRequest msgs
          (Marking.markFirst (OFPMsg.isOutstanding identify) OFPMsg.finish 1 msgs)
        ↔ (msgs.find? (OFPMsg.isOutstanding identify)).all (fun msg => !msg.isStatsRequest) = true := by
  cases hfind : msgs.find? (OFPMsg.isOutstanding identify) with
  | none =>
    rw [mark_of_find_none hfind]
    simp only [Option.all_none, iff_true]
    intro i msg hmsg _
    exact hmsg
  | some msg =>
    rcases mark_of_find hfind with ⟨hmsg, before, after, rfl, hmark⟩
    have hne := finish_ne hmsg
    rw [hmark, Option.all_some, Bool.not_eq_true']
    constructor
    . intro h
      rw [← Bool.not_eq_true]
      intro hrequest
      have hkept := h before.length msg (by simp) hrequest
      simp [hne] at hkept
    . intro hother i m hm hrequest
      by_cases hi : i = before.length
      . subst hi
        simp only [List.getElem?_append_right (Nat.le_refl _), Nat.sub_self,
          List.getElem?_cons_zero, Option.some.injEq] at hm
        rw [hm, hrequest] at hother
        contradiction
      . have hset : before ++ msg.finish :: after = (before ++ msg :: after).set before.length msg.finish
          := by simp
        rw [hset, List.getElem?_set_ne (Ne.symm hi)]
        exact hm

end Mark

namespace Schedule

theorem ntohl_lt (x : Nat) : dispatch.ntohl x < 4294967296 := by
  unfold dispatch.ntohl
  have hlow := ntohs_lt (x % 65536)
  have hhigh := ntohs_lt (x / 65536)
  omega

theorem getOFPMsgArg_statsRequest {exp : ℚ → ℚ} {self other : Schedule} {conf : PolicyConfig}
    {msg : Mem} {res : Parsed} (h : getOFPMsgArg exp self other conf msg = some res)
    (htype : msg 1 = ofptStatsRequest)
    : res.msg = msg ∧ res.arg.identify = some (dispatch.ntohl (msg.load32 4)) := by
  rcases exists_dispatch h with ⟨st, hst, rfl⟩
  unfold dispatch at hst
  simp only [htype] at hst
  rw [← Option.some.inj hst]
  exact ⟨rfl, rfl⟩

theorem getOFPMsgArg_statsReply (exp : ℚ → ℚ) (self other : Schedule) (conf : PolicyConfig)
    {msg : Mem} (htype : msg 1 = ofptStatsReply)
    : ∃ res, getOFPMsgArg exp self other conf msg = some res
        ∧ res.other = markRequest other (dispatch.ntohl (msg.load32 4)) := by
  unfold getOFPMsgArg dispatch
  simp only [htype]
  exact ⟨_, rfl, rfl⟩

end Schedule

namespace Scheduler

theorem FromReader.isNumbered {arg : OFPMsgArg} {mem : Mem} {fd : Int} {garbage : Nat}
    (h : FromReader (.putMsg arg mem fd garbage)) (addr : Nat)
    : (Schedule.newOFPMsg mem arg fd addr garbage).IsNumbered := by
  rcases h with ⟨exp, self, other, conf, frame, res, qid, hres, rfl, rfl⟩
  intro hrequest
  simp only [OFPMsg.isStatsRequest, Schedule.newOFPMsg, decide_eq_true_eq, Mem.length_bytes]
    at hrequest
  have hagree : Mem.Agree res.arg.len (.ofList (res.msg.bytes 0 res.arg.len)) res.msg := by
    have hat := (Mem.at_ofList (res.msg.bytes 0 res.arg.len)).agree (res.msg.at_bytes 0 res.arg.len)
    rwa [Mem.length_bytes] at hat
  have htype : res.msg 1 = ofptStatsRequest := by
    rw [hagree 1 (by omega)]
    exact hrequest.2
  rw [(Schedule.getOFPMsgArg_outcome hres).type] at htype
  rcases Schedule.getOFPMsgArg_statsRequest hres htype with ⟨hmsg, hid⟩
  unfold OFPMsg.xid
  simp only [Schedule.newOFPMsg, hid, Option.getD_some]
  rw [← hagree.load32 (by omega), hmsg]

/--
Whatever else than a STATS_REQUEST is put in its queue has an identity of more than 32 bits.
-/
def keepsApart : Label → Bool
  | .putMsg arg mem fd garbage =>
    let msg := Schedule.newOFPMsg mem arg fd 0 garbage
    arg.qid = some multiPartRequestQueueId → msg.isStatsRequest ∨ 4294967296 ≤ msg.identity
  | _ => true

theorem numbered_of_reachable {s : State} (h : machine.ReachableBy (fun _ label => FromReader label) s)
    : ∀ msg ∈ s.messages, msg.IsNumbered := by
  intro msg hmsg
  rcases List.mem_flatMap.mp hmsg with ⟨q, hq, hmem⟩
  rcases List.getElem?_of_mem hq with ⟨i, hi⟩
  apply stored_of_reachableBy (P := fun _ => OFPMsg.IsNumbered) _ h hi msg hmem
  intro s arg mem fd garbage qid hreader _
  apply hreader.isNumbered

theorem apart_of_reachable {s : State}
    (h : machine.ReachableBy (fun _ label => FromReader label ∧ keepsApart label = true) s) {q : Queue}
    (hq : s.queues[multiPartRequestQueueId]? = some q)
    : ∀ msg ∈ q.msgQueue, msg.isStatsRequest = true ∨ 4294967296 ≤ msg.identity := by
  intro msg hmsg
  apply stored_of_reachableBy
    (P := fun i msg => i = multiPartRequestQueueId
      → msg.isStatsRequest = true ∨ 4294967296 ≤ msg.identity) _ h hq msg hmsg rfl
  rintro s arg mem fd garbage qid ⟨-, hapart⟩ hqid rfl
  simp only [keepsApart, decide_eq_true_eq] at hapart
  apply hapart hqid

theorem messagesOf_markRequest {other : Schedule} {q : Queue}
    (hq : other.queues[multiPartRequestQueueId]? = some q) (identify : Nat)
    : ∃ rest, messagesOf other.queues = q.msgQueue ++ rest
        ∧ messagesOf (Schedule.markRequest other identify).queues
          = Marking.markFirst (OFPMsg.isOutstanding identify) OFPMsg.finish 1 q.msgQueue ++ rest := by
  unfold Schedule.markRequest
  rw [hq]
  cases hqueues : other.queues with
  | nil => simp [hqueues] at hq
  | cons r queues =>
    rw [hqueues] at hq
    have hr : r = q := Option.some.inj hq
    subst hr
    refine ⟨messagesOf queues, rfl, ?_⟩
    simp only [multiPartRequestQueueId, List.set_cons_zero, messagesOf_cons, Queue.markFinished_eq]

-- what the STATS_REPLY `msg` does to the queues of the opposite direction
def ReplyCompletesOnlyRequest (s : State) (msg : Mem) : Prop :=
  ∀ exp self other conf, other.queues = s.queues
    → ∃ res, Schedule.getOFPMsgArg exp self other conf msg = some res
        ∧ CompletesOnlyRequest s.sentAddrs (Schedule.dispatch.ntohl (msg.load32 4)) s.messages
            (messagesOf res.other.queues)

def ResponseCompletesNoRequest (s : State) (identify : Nat) : Prop :=
  CompletesNoRequest s.messages (messagesOf (listenResp identify s.queues).2)

-- the message in the queue of the requests that waits for `identify` and comes first
def State.firstOutstanding (s : State) (identify : Nat) : Option OFPMsg :=
  match s.queues[multiPartRequestQueueId]? with
  | none => none
  | some q => q.msgQueue.find? (OFPMsg.isOutstanding identify)

theorem exists_requestQueue {s : State} (h : machine.Reachable s)
    : ∃ q, s.queues[multiPartRequestQueueId]? = some q := by
  have hsize := (sized_of_reachable h).queues
  refine ⟨_, List.getElem?_eq_getElem ?_⟩
  rw [hsize]
  decide

-- the first one of them, if there is one, is a request that run is done with
def State.awaitsReply (s : State) (identify : Nat) : Bool :=
  (s.firstOutstanding identify).all fun msg => msg.isStatsRequest && decide (s.run ≠ .marked msg.addr)

theorem marksWritten_eq (s : State) (identify : Nat)
    : marksWritten s (.markFinished multiPartRequestQueueId identify)
        = (s.firstOutstanding identify).all fun msg => s.run ≠ .marked msg.addr := by
  unfold marksWritten State.firstOutstanding
  dsimp only
  cases s.queues[multiPartRequestQueueId]? with
  | none => rfl
  | some q => rfl

-- What is in process was sent, unless `run` is about to write it.
theorem Owned.mem_sentAddrs_iff {s : State} (h : Owned s) {msg : OFPMsg} (hmsg : msg ∈ s.messages)
    (hin : msg.inProcess = true) : msg.addr ∈ s.sentAddrs ↔ s.run ≠ .marked msg.addr := by
  constructor
  . intro hsent hrun
    have hheld := h.held
    rw [hrun] at hheld
    exact hheld.1 hsent
  . intro hrun
    exact ((h.started msg hmsg).mp hin).resolve_right hrun

theorem completesOnlyRequest_markRequest {s : State} {other : Schedule}
    (h : machine.ReachableBy (fun _ label => FromReader label) s) (hother : other.queues = s.queues)
    (identify : Nat)
    : CompletesOnlyRequest s.sentAddrs identify s.messages
          (messagesOf (Schedule.markRequest other identify).queues)
        ↔ s.awaitsReply identify = true := by
  have howned := owned_of_reachable h.reachable
  rcases exists_requestQueue h.reachable with ⟨q, hq⟩
  have hmem : ∀ msg ∈ q.msgQueue, msg ∈ s.messages := fun msg hmsg => mem_messages hq hmsg
  have hnumbered : ∀ msg ∈ q.msgQueue, msg.IsNumbered := by
    intro msg hmsg
    apply numbered_of_reachable h msg (hmem msg hmsg)
  have hq' := hq
  rw [← hother] at hq'
  rcases messagesOf_markRequest hq' identify with ⟨rest, hbefore, hafter⟩
  have hmsgs : s.messages = q.msgQueue ++ rest := by
    rw [State.messages, ← hother, hbefore]
  rw [hafter, hmsgs, completesOnlyRequest_iff s.sentAddrs hnumbered]
  unfold State.awaitsReply State.firstOutstanding
  simp only [hq, Option.all_eq_true, Bool.and_eq_true, decide_eq_true_eq]
  apply forall_congr'
  intro msg
  apply imp_congr_right
  intro hfind
  have hout := List.find?_some hfind
  simp only [OFPMsg.isOutstanding, decide_eq_true_eq] at hout
  rw [howned.mem_sentAddrs_iff (hmem msg (List.mem_of_find?_eq_some hfind)) hout.1]

theorem replyCompletes_iff {s : State} {msg : Mem}
    (h : machine.ReachableBy (fun _ label => FromReader label) s) (htype : msg 1 = ofptStatsReply)
    : ReplyCompletesOnlyRequest s msg
        ↔ s.awaitsReply (Schedule.dispatch.ntohl (msg.load32 4)) = true := by
  constructor
  . intro hreply
    let other := { Schedule.idle with queues := s.queues }
    rcases hreply (fun _ => 1) .idle other .idle rfl with ⟨res, hres, honly⟩
    rcases Schedule.getOFPMsgArg_statsReply (fun _ => 1) .idle other .idle htype with
      ⟨res', hres', heq⟩
    rw [hres, Option.some_inj] at hres'
    rw [hres', heq] at honly
    exact (completesOnlyRequest_markRequest h rfl _).mp honly
  . intro hawaits exp self other conf hother
    rcases Schedule.getOFPMsgArg_statsReply exp self other conf htype with ⟨res, hres, heq⟩
    refine ⟨res, hres, ?_⟩
    rw [heq]
    exact (completesOnlyRequest_markRequest h hother _).mpr hawaits

theorem responseCompletes_iff (s : State) (identify : Nat)
    : ResponseCompletesNoRequest s identify
        ↔ (s.messages.find? (OFPMsg.isOutstanding identify)).all (fun msg => !msg.isStatsRequest)
          = true := by
  unfold ResponseCompletesNoRequest State.messages
  rw [(listenResp_spec identify s.queues).2]
  apply completesNoRequest_iff

theorem firstOutstanding_of_apart {s : State}
    (h : machine.ReachableBy (fun _ label => FromReader label ∧ keepsApart label = true) s) {identify : Nat}
    (hlt : identify < 4294967296)
    : (s.firstOutstanding identify).all OFPMsg.isStatsRequest = true := by
  rw [Option.all_eq_true]
  intro msg hmsg
  unfold State.firstOutstanding at hmsg
  split at hmsg
  . contradiction
  . next q hq =>
    have hout := List.find?_some hmsg
    simp only [OFPMsg.isOutstanding, decide_eq_true_eq] at hout
    cases apart_of_reachable h hq msg (List.mem_of_find?_eq_some hmsg) with
    | inl hrequest => exact hrequest
    | inr hlarge => omega

theorem find_outstanding_of_large {s : State}
    (h : machine.ReachableBy (fun _ label => FromReader label) s) {identify : Nat}
    (hlarge : 4294967296 ≤ identify)
    : (s.messages.find? (OFPMsg.isOutstanding identify)).all (fun msg => !msg.isStatsRequest)
        = true := by
  rw [Option.all_eq_true]
  intro msg hmsg
  rw [Bool.not_eq_true', ← Bool.not_eq_true]
  intro hrequest
  have hout := List.find?_some hmsg
  simp only [OFPMsg.isOutstanding, decide_eq_true_eq] at hout
  have hid := numbered_of_reachable h msg (List.mem_of_find?_eq_some hmsg) hrequest
  have hlt := Schedule.ntohl_lt ((Mem.ofList msg.buf).load32 4)
  unfold OFPMsg.xid at hid
  omega

theorem awaitsReply_of_apart {s : State}
    (h : machine.ReachableBy (fun _ label => FromReader label ∧ keepsApart label = true) s) {identify : Nat}
    (hlt : identify < 4294967296)
    : s.awaitsReply identify = marksWritten s (.markFinished multiPartRequestQueueId identify) := by
  have hrequest := firstOutstanding_of_apart h hlt
  rw [marksWritten_eq, State.awaitsReply]
  cases hfirst : s.firstOutstanding identify with
  | none => rfl
  | some msg =>
    rw [hfirst, Option.all_some] at hrequest
    rw [Option.all_some, Option.all_some, hrequest, Bool.true_and]

/--
As long as nothing else in the queue of the requests goes by a number of 32 bits, a STATS_REPLY
completes nothing but its own request if and only if that one is not still to be written, and an
acknowledgement of more than 32 bits completes no request.
-/
theorem statsReply_completes {s : State}
    : (machine.ReachableBy (fun _ label => FromReader label ∧ keepsApart label = true) s
          → (∀ msg : Mem, msg 1 = ofptStatsReply
                → (ReplyCompletesOnlyRequest s msg
                    ↔ marksWritten s (.markFinished multiPartRequestQueueId
                        (Schedule.dispatch.ntohl (msg.load32 4))) = true))
              ∧ ∀ identify, 4294967296 ≤ identify → ResponseCompletesNoRequest s identify)
        ∧ (machine.ReachableBy (fun _ label => FromReader label) s
          → (∀ msg : Mem, msg 1 = ofptStatsReply
                → (ReplyCompletesOnlyRequest s msg
                    ↔ s.awaitsReply (Schedule.dispatch.ntohl (msg.load32 4)) = true))
              ∧ ∀ identify,
                ResponseCompletesNoRequest s identify
                  ↔ (s.messages.find? (OFPMsg.isOutstanding identify)).all
                      (fun msg => !msg.isStatsRequest) = true) := by
  refine ⟨fun h => ⟨?_, ?_⟩, fun h => ⟨?_, ?_⟩⟩
  . intro msg htype
    rw [replyCompletes_iff (h.mono fun _ _ hok => hok.1) htype,
      awaitsReply_of_apart h (Schedule.ntohl_lt _)]
  . intro identify hlarge
    rw [responseCompletes_iff]
    apply find_outstanding_of_large (h.mono fun _ _ hok => hok.1) hlarge
  . intro msg htype
    apply replyCompletes_iff h htype
  . intro identify
    apply responseCompletes_iff

def sentStatsRequest : List Label :=
  putMessage [4, 18, 0, 16, 0, 0, 0, 7, 0, 0, 0, 0, 0, 0, 0, 0] ++ ticks 4 ++ [.writev (some 16)]
    ++ ticks 1

theorem fromReader_sentStatsRequest : ∀ label ∈ sentStatsRequest, FromReader label := by
  unfold sentStatsRequest
  simp only [List.forall_mem_append, List.forall_mem_singleton, fromReader_writev]
  exact ⟨⟨⟨fromReader_putMessage _, fromReader_ticks 4⟩, trivial⟩, fromReader_ticks 1⟩

theorem statsReply_completes_sentRequest
    : ∃ s, (s.firstOutstanding 7).isSome = true
        ∧ ReplyCompletesOnlyRequest s (.ofList [4, 19, 0, 8, 0, 0, 0, 7])
        ∧ ResponseCompletesNoRequest s 4294967303 := by
  have hrun := @exists_fromReader_of_replay (fun _ => keepsApart) "SERVER" sentStatsRequest
    (fun s => (s.firstOutstanding 7).isSome
      && marksWritten s (.markFinished multiPartRequestQueueId 7))
    fromReader_sentStatsRequest (by decide +kernel)
  rcases hrun with ⟨s, hreach, hs⟩
  rw [Bool.and_eq_true] at hs
  have hcompletes := statsReply_completes.1 hreach
  exact ⟨s, hs.1, (hcompletes.1 _ rfl).mpr hs.2, hcompletes.2 4294967303 (by decide)⟩

-- A flow-mod that deletes rules goes into the same queue, under its cookie.
theorem statsReply_completes_flowMod
    : ∃ s, machine.ReachableBy (fun _ label => FromReader label) s
        ∧ ¬ReplyCompletesOnlyRequest s (.ofList [4, 19, 0, 8, 0, 0, 0, 7])
        ∧ ∃ msg, s.firstOutstanding 7 = some msg ∧ msg.type = ofptFlowMod := by
  have hrun := @exists_fromReader_of_replay (fun _ _ => true) "SERVER"
    (putMessage ([4, 14, 0, 56, 0, 0, 0, 1, 7] ++ List.replicate 16 0 ++ [3] ++ List.replicate 30 0)
      ++ ticks 4 ++ [.writev (some 56)] ++ ticks 1)
    (fun s => (s.firstOutstanding 7).any fun msg => msg.type = ofptFlowMod)
    (by simp only [List.forall_mem_append, List.forall_mem_singleton]
        exact ⟨⟨⟨fromReader_putMessage _, fromReader_ticks 4⟩, trivial⟩, fromReader_ticks 1⟩)
    (by decide +kernel)
  rcases hrun with ⟨s, hreach, hfirst⟩
  have hreach' := hreach.mono fun _ _ hok => hok.1
  rw [Option.any_eq_true] at hfirst
  rcases hfirst with ⟨msg, hmsg, htype⟩
  rw [decide_eq_true_eq] at htype
  refine ⟨s, hreach', ?_, msg, hmsg, htype⟩
  rw [replyCompletes_iff hreach' rfl]
  have hxid : Schedule.dispatch.ntohl ((Mem.ofList [4, 19, 0, 8, 0, 0, 0, 7]).load32 4) = 7 := by
    decide
  rw [hxid, State.awaitsReply, hmsg, Option.all_some]
  simp [OFPMsg.isStatsRequest, htype, ofptFlowMod, ofptStatsRequest]

end Scheduler
end OfpProxy
