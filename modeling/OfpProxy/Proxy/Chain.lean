import OfpProxy.Proxy.Delivery

/-!
This module shows what happens behind two proxies of which the second one reads what the first one
writes.
-/

namespace OfpProxy

theorem Frame.eight_le_forwarded {frame : Frame} (h : 8 ≤ frame.length)
    : 8 ≤ frame.forwarded.length := by
  cases frame with
  | flowModAdd f =>
    have hlen := f.length_forwarded
    simp only [Frame.forwarded, Frame.length]
    omega
  | packetOut p =>
    simp only [Frame.forwarded, Frame.length, PacketOut.length]
    omega
  | other => exact h

/--
A frame that the proxy passes on without its tags and otherwise unchanged.
-/
structure Frame.IsPassed (frame : Frame) : Prop where
  long : 8 ≤ frame.length
  fits : frame.FitsIn filterBufSize
  survives : frame.Survives

namespace Proxy

-- the elements at some of the indices of a list
def pick {α : Type} (xs : List α) (is : List Nat) : List α := is.filterMap fun i => xs[i]?

theorem pick_range {α : Type} (xs : List α) : pick xs (List.range xs.length) = xs := by
  induction xs using List.reverseRecOn with
  | nil => rfl
  | append_singleton xs x ih =>
    have hfront : pick (xs ++ [x]) (List.range xs.length) = pick xs (List.range xs.length) := by
      apply List.filterMap_congr
      intro i hi
      apply List.getElem?_append_left (List.mem_range.mp hi)
    unfold pick at *
    rw [List.length_append, List.length_singleton, List.range_succ, List.filterMap_append, hfront, ih]
    simp

theorem pick_subperm {α : Type} (xs : List α) {is : List Nat} (h : is.Nodup)
    : (pick xs is).Subperm xs := by
  have hfilter : pick xs (is.filter fun i => i < xs.length) = pick xs is := by
    unfold pick
    rw [List.filterMap_filter]
    apply List.filterMap_congr
    intro i _
    by_cases hi : i < xs.length
    . simp [hi]
    . simp [hi]
  have hsub : (is.filter fun i => i < xs.length).Subperm (List.range xs.length) := by
    apply List.subperm_of_subset (h.sublist List.filter_sublist)
    intro i hi
    simpa using (List.mem_filter.mp hi).2
  rcases hsub with ⟨js, hperm, hsublist⟩
  have hpicked : (pick xs js).Sublist (pick xs (List.range xs.length)) := hsublist.filterMap _
  rw [pick_range] at hpicked
  rw [← hfilter]
  exact ⟨pick xs js, hperm.filterMap _, hpicked⟩

theorem flatMap_pick {α β : Type} {xs : List α} {f : Nat → List β} {g : α → List β} {is : List Nat}
    (h : ∀ i ∈ is, ∃ x, xs[i]? = some x ∧ f i = g x) : is.flatMap f = (pick xs is).flatMap g := by
  induction is with
  | nil => rfl
  | cons i is ih =>
    rw [List.forall_mem_cons] at h
    rcases h.1 with ⟨x, hx, hf⟩
    unfold pick at *
    rw [List.flatMap_cons, ih h.2, hf, List.filterMap_cons_some hx, List.flatMap_cons]

/--
The frames behind the proxy, in the order they were written.
-/
def deliveredFrames (frames : List Frame) (s : Side) : List Frame :=
  pick (frames.map Frame.forwarded) s.scheduler.delivered

section Delivered

variable {exp : ℚ → ℚ} {frames : List Frame} {more : List UInt8} {s : Side}

-- every message was written completely or not at all, and this is what is in each of them
theorem accepted_eq_pick (hconveyed : Conveyed exp s)
    (hwhole : ∀ w ∈ s.scheduler.sent, w.accepted = none ∨ w.isComplete = true)
    (hbuf : ∀ w ∈ s.scheduler.sent, ∃ frame, frames[w.msg.addr]? = some frame
      ∧ w.msg.buf = frame.encode)
    : s.scheduler.accepted s.fd = (pick frames s.scheduler.delivered).flatMap Frame.encode := by
  have hnodup := hconveyed.kept.owned.sentNodup
  rw [Scheduler.accepted_eq_delivered hnodup (fun w hw => hconveyed.fd_of_sent hw) hwhole]
  apply flatMap_pick
  intro i hi
  rcases List.mem_map.mp hi with ⟨w, hw, rfl⟩
  rw [List.mem_filter] at hw
  rw [Scheduler.bytesOf_of_mem hnodup hw.1,
    Scheduler.Write.bytes_of_isComplete hw.2 (hconveyed.kept.filled.sent w hw.1)]
  exact hbuf w hw.1

theorem sent_forwarded (hconveyed : Conveyed exp s) (hfed : Fed frames more s)
    (hsurvives : ∀ frame ∈ frames, frame.Survives) {w : Scheduler.Write} (hw : w ∈ s.scheduler.sent)
    : ∃ frame, (frames.map Frame.forwarded)[w.msg.addr]? = some frame ∧ w.msg.buf = frame.encode := by
  rcases exists_frame_of_sent hconveyed hfed hw with ⟨frame, hframe, hiff⟩
  refine ⟨frame.forwarded, ?_, hiff.mpr (hsurvives frame (List.mem_of_getElem? hframe))⟩
  rw [List.getElem?_map, hframe, Option.map_some]

theorem sent_clean (hconveyed : Conveyed exp s) (hfed : Fed frames more s)
    (hclean : ∀ frame ∈ frames, frame.NothingToStrip) {w : Scheduler.Write} (hw : w ∈ s.scheduler.sent)
    : ∃ frame, frames[w.msg.addr]? = some frame ∧ w.msg.buf = frame.encode := by
  rcases exists_parsed_of_sent hconveyed hfed hw with
    ⟨frame, mem, self, other, conf, res, hframe, hat, hres, hbuf⟩
  have hnothing := hclean frame (List.mem_of_getElem? hframe)
  rw [hbuf]
  exact ⟨frame, hframe, Schedule.getOFPMsgArg_clean hat hnothing hres⟩

end Delivered

/--
What the second of two proxies puts out, of which the first one reads `frames`.
-/
structure Twice (frames : List Frame) (first second : Side) : Prop where
  delivered : ∃ out : List Frame, second.scheduler.accepted second.fd = out.flatMap Frame.encode
    ∧ out.Subperm (deliveredFrames frames first)
  rewritten : (deliveredFrames frames first).Subperm (frames.map Frame.forwarded)
  firstScratch : first.filterBuf.top ≤ filterBufSize
  secondScratch : second.filterBuf.top ≤ filterBufSize

theorem twice_of_reachableBy {exp exp' : ℚ → ℚ} {p q : Proxy}
    (hp : (machine exp).ReachableBy (fun p label => writesWhole p label = true) p)
    (hq : (machine exp').ReachableBy (fun q label => writesWhole q label = true) q) {d : Dir}
    {frames : List Frame} {more : List UInt8}
    (hsource : (p.side d).source = frames.flatMap Frame.encode ++ more)
    (hframes : ∀ frame ∈ frames, frame.IsPassed)
    (hmore : more.length < max 8 (Reader.frameLength more))
    (hbehind : (q.side d).source = (p.side d).scheduler.accepted (p.side d).fd)
    : Twice frames (p.side d) (q.side d) := by
  have hconveyed := conveyed_of_reachable hp.reachable d
  have hfed := fed_of_reachable hp.reachable hsource (fun f hf => (hframes f hf).long) hmore
  have haccepted : (p.side d).scheduler.accepted (p.side d).fd
      = (deliveredFrames frames (p.side d)).flatMap Frame.encode :=
    accepted_eq_pick hconveyed (whole_of_reachableBy hp d) fun w hw =>
      sent_forwarded hconveyed hfed (fun f hf => (hframes f hf).survives) hw
  have hforwarded : ∀ frame ∈ deliveredFrames frames (p.side d),
      ∃ f ∈ frames, f.forwarded = frame := by
    intro frame hframe
    apply List.mem_map.mp
    apply (pick_subperm _ hconveyed.delivered_nodup).subset hframe
  -- behind the first proxy nothing is left to strip
  have hconveyed' := conveyed_of_reachable hq.reachable d
  have hfed' : Fed (deliveredFrames frames (p.side d)) [] (q.side d) := by
    apply fed_of_reachable hq.reachable _ _ (by decide)
    . rw [hbehind, haccepted, List.append_nil]
    . intro frame hframe
      rcases hforwarded frame hframe with ⟨f, hf, rfl⟩
      apply Frame.eight_le_forwarded (hframes f hf).long
  constructor
  . refine ⟨pick (deliveredFrames frames (p.side d)) (q.side d).scheduler.delivered, ?_, ?_⟩
    . apply accepted_eq_pick hconveyed' (whole_of_reachableBy hq d)
      intro w hw
      apply sent_clean hconveyed' hfed' _ hw
      intro frame hframe
      rcases hforwarded frame hframe with ⟨f, hf, rfl⟩
      apply f.nothingToStrip_forwarded
    . apply pick_subperm _ hconveyed'.delivered_nodup
  . apply pick_subperm _ hconveyed.delivered_nodup
  . apply hfed.scratch
    intro f hf
    exact (hframes f hf).fits
  . apply hfed'.scratch
    intro frame hframe
    rcases hforwarded frame hframe with ⟨f, hf, rfl⟩
    apply (hframes f hf).fits.forwarded

/--
Two proxies in a row do what one of them does to frames that survive it: what comes out are rewritten
frames, each of them at most once, in some order, and the second proxy leaves them as they are. The same
goes for the way back.
-/
theorem delivered_twice {exp exp' : ℚ → ℚ} {p q : Proxy}
    (hp : (machine exp).ReachableBy (fun p label => writesWhole p label = true) p)
    (hq : (machine exp').ReachableBy (fun q label => writesWhole q label = true) q) (d : Dir)
    {frames back : List Frame} {more moreBack : List UInt8}
    (hsource : (p.side d).source = frames.flatMap Frame.encode ++ more)
    (hback : (q.side d.other).source = back.flatMap Frame.encode ++ moreBack)
    (hframes : ∀ frame ∈ frames ++ back, frame.IsPassed)
    (hmore : more.length < max 8 (Reader.frameLength more))
    (hmoreBack : moreBack.length < max 8 (Reader.frameLength moreBack))
    (hbehind : (q.side d).source = (p.side d).scheduler.accepted (p.side d).fd)
    (hbefore : (p.side d.other).source = (q.side d.other).scheduler.accepted (q.side d.other).fd)
    : Twice frames (p.side d) (q.side d) ∧ Twice back (q.side d.other) (p.side d.other) := by
  rw [List.forall_mem_append] at hframes
  constructor
  . apply twice_of_reachableBy hp hq hsource hframes.1 hmore hbehind
  . apply twice_of_reachableBy hq hp hback hframes.2 hmoreBack hbefore

theorem delivered_twice_taggedPacketOut
    : ∃ p q, (machine fun _ => 1).Reachable p ∧ (machine fun _ => 1).Reachable q
        ∧ (q.side .serverToClient).source = (p.side .serverToClient).scheduler.accepted 5
        ∧ (q.side .serverToClient).scheduler.delivered = [0]
        ∧ ∃ out : List Frame, (q.side .serverToClient).scheduler.accepted 5 = out.flatMap Frame.encode
          ∧ out.Subperm [Frame.packetOut taggedPacketOut.strip] := by
  rcases @Machine.exists_of_replay _ _ (machine fun _ => 1) writesWhole
      (forwardOne .serverToClient 6 taggedPacketOut.strip.length) (commanded taggedPacketOut.encode)
      (fun p => decide ((p.side .serverToClient).scheduler.accepted 5 = taggedPacketOut.strip.encode
        ∧ (p.side .serverToClient).scheduler.delivered = [0] ∧ (p.side .serverToClient).fd = 5
        ∧ (p.side .serverToClient).source = taggedPacketOut.encode
        ∧ (p.side .clientToServer).source = []))
      (.init (init_commanded _)) (by decide +kernel) with
    ⟨p, hp, hpstate⟩
  rcases @Machine.exists_of_replay _ _ (machine fun _ => 1) writesWhole
      (forwardOne .serverToClient 4 taggedPacketOut.strip.length)
      (commanded taggedPacketOut.strip.encode)
      (fun q => decide ((q.side .serverToClient).source = taggedPacketOut.strip.encode
        ∧ (q.side .serverToClient).scheduler.delivered = [0] ∧ (q.side .serverToClient).fd = 5
        ∧ (q.side .clientToServer).source = []
        ∧ (q.side .clientToServer).scheduler.accepted (q.side .clientToServer).fd = []))
      (.init (init_commanded _)) (by decide +kernel) with
    ⟨q, hq, hqstate⟩
  rw [decide_eq_true_eq] at hpstate hqstate
  rcases hpstate with ⟨haccepted, hdelivered, hfd, hsource, hnone⟩
  rcases hqstate with ⟨hbehind, hdelivered', hfd', hback, hnothing⟩
  have hpassed : ∀ frame ∈ [Frame.packetOut taggedPacketOut] ++ [], frame.IsPassed := by
    rw [List.append_nil, List.forall_mem_singleton]
    exact ⟨by decide, by decide, trivial⟩
  rcases @delivered_twice _ _ p q hp hq .serverToClient [.packetOut taggedPacketOut] [] [] []
      (by rw [hsource]; exact (List.append_nil _).symm) hback hpassed (by decide) (by decide)
      (by rw [hbehind, hfd, haccepted]) (hnone.trans hnothing.symm) with
    ⟨htwice, -⟩
  rcases htwice.delivered with ⟨out, hout, hsub⟩
  rw [hfd'] at hout
  unfold deliveredFrames at hsub
  rw [hdelivered] at hsub
  exact ⟨p, q, hp.reachable, hq.reachable, by rw [hbehind, haccepted], hdelivered', out, hout, hsub⟩

end Proxy
end OfpProxy
