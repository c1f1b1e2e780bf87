import OfpProxy.Priority.Share
import OfpProxy.Rewrite.Lemmas.Tagged
import OfpProxy.Schedule.Throttle

/-!
This module shows what `getOFPMsgArg` reports to the priority manager, and that it asks it for the
load of the last report.
-/

namespace OfpProxy

namespace PolicyConfig

-- one report, for the window that the clock says
def report (conf : PolicyConfig) (uep : UEPMsg) : PolicyConfig :=
  (conf.getNowWindowId.2).updateSplitOfUEP uep

theorem windowId_lt (conf : PolicyConfig) : conf.getNowWindowId.1 < 65536 := by
  unfold getNowWindowId PriorityManager.getNowWindowId u16
  dsimp only
  omega

end PolicyConfig

/--
What is reported while a message is processed.
-/
inductive Reports (conf : PolicyConfig) : PolicyConfig → List UEPMsg → Prop where
  | nothing : Reports conf conf []
  | concat {conf' : PolicyConfig} {log : List UEPMsg} {uep : UEPMsg} :
    Reports conf conf' log → uep.Small → uep.window = conf'.getNowWindowId.1
      → Reports conf (conf'.report uep) (log ++ [uep])

theorem Reports.updates {conf conf' : PolicyConfig} {log : List UEPMsg} (h : Reports conf conf' log)
    : conf'.updates = conf.updates ++ log := by
  induction h with
  | nothing => rw [List.append_nil]
  | @concat conf' log uep _ _ _ ih =>
    change conf'.updates ++ [uep] = _
    rw [ih, List.append_assoc]

-- the last report is the one that is returned
def Returns (conf conf' : PolicyConfig) (uep : UEPMsg) : Prop :=
  ∃ log, Reports conf conf' log ∧ uep = log.getLast?.getD {}

namespace copyValidActionToBuf

theorem returns_body {msg : Mem} {filterActionType pos : Nat} {conf : PolicyConfig} {st : ActionCopy}
    (h : Returns conf st.conf st.uep)
    : Returns conf (body msg filterActionType pos st).conf (body msg filterActionType pos st).uep := by
  rcases h with ⟨log, hlog, huep⟩
  unfold body
  dsimp only
  split
  . have hsmall : (tagOfAction msg pos st.conf.getNowWindowId.1).Small := by
      refine ⟨st.conf.windowId_lt, ?_⟩
      apply Mem.load16_lt
    refine ⟨_, hlog.concat hsmall rfl, ?_⟩
    rw [List.getLast?_concat, Option.getD_some]
  . exact ⟨log, hlog, huep⟩

theorem returns_loop {msg : Mem} {filterActionType fin fuel pos : Nat} {st st' : ActionCopy}
    (hloop : loop msg filterActionType fin fuel pos st = some st') {conf : PolicyConfig}
    (hst : Returns conf st.conf st.uep) : Returns conf st'.conf st'.uep := by
  rw [loop_eq_run, Walk.run_eq_some_iff] at hloop
  rcases hloop with ⟨ps, -, -, rfl⟩
  clear * - hst
  induction ps generalizing st with
  | nil => exact hst
  | cons p ps ih => exact ih (returns_body hst)

theorem returns_result {msg : Mem} {pos len filterActionType : Nat} {valueTag : UInt8}
    {buf : FilterBuf} {conf : PolicyConfig} {res : CopyValid}
    (hres : copyValidActionToBuf msg pos len filterActionType valueTag buf conf = some res)
    : Returns conf res.conf res.uep := by
  unfold copyValidActionToBuf at hres
  dsimp only at hres
  split at hres
  . contradiction
  . next st hst =>
    rw [← Option.some.inj hres]
    apply returns_loop hst
    exact ⟨[], .nothing, rfl⟩

end copyValidActionToBuf

theorem returns_packInst {msg : Mem} {inst filterInstType filterActionType newInstLen kickLen : Nat}
    {valueTag : UInt8} {buf : FilterBuf} {conf : PolicyConfig} {res : PackInst}
    (h : packInstExceptType msg inst filterInstType filterActionType valueTag buf newInstLen kickLen
      conf = some res)
    : Returns conf res.conf res.uep := by
  unfold packInstExceptType at h
  dsimp only at h
  split at h
  . rw [← Option.some.inj h]
    exact ⟨[], .nothing, rfl⟩
  . split at h
    . contradiction
    . split at h
      . contradiction
      . next hcopy =>
        rw [← Option.some.inj h]
        exact copyValidActionToBuf.returns_result hcopy

/--
What is reported for a message, and that a message which does not go to the first queue goes to a
throttled one exactly if the load of the last report is dangerous.
-/
structure Judged (exp : ℚ → ℚ) (conf : PolicyConfig) (arg : OFPMsgArg) (conf' : PolicyConfig)
    (log : List UEPMsg) : Prop where
  reports : Reports conf conf' log
  decided : ∀ last, log.getLast? = some last → arg.qid ≠ some importantQueueId →
    arg.uepid = last.uepid
      ∧ (arg.IsThrottled ↔
          PriorityManager.isDangerous
            (conf'.priorityManager.getUEPPriorityOfSplitK exp last.window last.uepid) = true)

namespace Judged

variable {exp : ℚ → ℚ} {conf : PolicyConfig}

theorem nothing (arg : OFPMsgArg) : Judged exp conf arg conf [] where
  reports := .nothing
  decided := by simp

theorem of_important {arg : OFPMsgArg} {conf' : PolicyConfig} {log : List UEPMsg}
    (h : Reports conf conf' log) (hqid : arg.qid = some importantQueueId)
    : Judged exp conf arg conf' log where
  reports := h
  decided := fun _ _ hne => absurd hqid hne

end Judged

open FlowModProcessed in
theorem doOfpFlowmodProcessed_judged {exp : ℚ → ℚ} {st st' : Processed}
    (h : doOfpFlowmodProcessed exp st = some st')
    : ∃ log, Judged exp st.conf st'.arg st'.conf log := by
  cases branch_of_processed h with
  | notAdd _ => exact ⟨[], .nothing _⟩
  | noInst _ _ => exact ⟨[], .nothing _⟩
  | @inst _ _ res _ _ hpack =>
    rcases returns_packInst hpack with ⟨log, hlog, huep⟩
    refine ⟨log, hlog, ?_⟩
    intro last hlast _
    rw [hlast, Option.getD_some] at huep
    unfold filtered route OFPMsgArg.IsThrottled
    dsimp only
    rw [huep]
    refine ⟨rfl, ?_⟩
    split
    . next hsafe => simpa [flowModQueue1Id, flowModQueue2Id, poQueue2Id] using hsafe
    . next hdangerous => simpa using hdangerous

open PacketOutProcessed in
theorem doOfpPacketoutProcessed_judged {exp : ℚ → ℚ} {st st' : Processed}
    (h : doOfpPacketoutProcessed exp st = some st')
    : ∃ log, Judged exp st.conf st'.arg st'.conf log := by
  rw [processed_eq, Option.map_eq_some_iff] at h
  rcases h with ⟨res, hres, rfl⟩
  rcases copyValidActionToBuf.returns_result hres with ⟨log, hlog, huep⟩
  refine ⟨log, hlog, ?_⟩
  intro last hlast hne
  rw [hlast, Option.getD_some] at huep
  unfold probe at *
  dsimp only at *
  split at hne
  . exact absurd rfl hne
  . next hplain =>
    rw [if_neg hplain]
    unfold route at *
    split at hne
    . next hkick =>
      rw [if_pos hkick]
      unfold OFPMsgArg.IsThrottled
      dsimp only
      rw [huep]
      refine ⟨rfl, ?_⟩
      split
      . next hsafe => simpa [poQueue1Id, flowModQueue2Id, poQueue2Id] using hsafe
      . next hdangerous => simpa using hdangerous
    . exact absurd rfl hne

namespace Schedule

theorem dispatch_judged {exp : ℚ → ℚ} {self other : Schedule} {conf : PolicyConfig} {msg : Mem}
    {res : Parsed} (h : dispatch exp self other conf msg = some res)
    : ∃ log, Judged exp conf res.arg res.conf log := by
  by_cases hflow : msg 1 = ofptFlowMod
  . rw [dispatch_flowMod exp self other conf hflow, Option.map_eq_some_iff] at h
    rcases h with ⟨st, hst, rfl⟩
    exact doOfpFlowmodProcessed_judged hst
  . by_cases hout : msg 1 = ofptPacketOut
    . rw [dispatch_packetOut exp self other conf hout, Option.map_eq_some_iff] at h
      rcases h with ⟨st, hst, rfl⟩
      exact doOfpPacketoutProcessed_judged hst
    . by_cases hrequest : msg 1 = ofptStatsRequest
      . unfold dispatch at h
        rw [hrequest] at h
        rw [← Option.some.inj h]
        refine ⟨_, .of_important (Reports.nothing.concat ?_ rfl) rfl⟩
        exact ⟨conf.windowId_lt, (by omega : 1 < 65536)⟩
      . cases kept_of_dispatch h hflow hout with
        | statsRequest htype => exact absurd htype hrequest
        | _ => exact ⟨[], .nothing _⟩

theorem getOFPMsgArg_judged {exp : ℚ → ℚ} {self other : Schedule} {conf : PolicyConfig} {msg : Mem}
    {res : Parsed} (h : getOFPMsgArg exp self other conf msg = some res)
    : ∃ log, Judged exp conf res.arg res.conf log := by
  rcases exists_dispatch h with ⟨st, hst, rfl⟩
  rcases dispatch_judged hst with ⟨log, hjudged⟩
  exact ⟨log, hjudged.reports, hjudged.decided⟩

end Schedule
end OfpProxy
