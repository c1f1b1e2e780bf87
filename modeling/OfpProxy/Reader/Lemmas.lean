import OfpProxy.Reader.Impl

/-!
This module shows what `read_ofp_msg` makes of the bytes that come in, however they are split: a
whole frame, nothing, or, when the header announces less than itself, part of a frame.
-/

namespace OfpProxy
namespace Reader

open Socket

def frameLength (s : List UInt8) : Nat := (s.getD 2 0).toNat * 256 + (s.getD 3 0).toNat

theorem frameLength_lt (s : List UInt8) : frameLength s < 65536 := by
  have h1 := (s.getD 2 0).toNat_lt
  have h0 := (s.getD 3 0).toNat_lt
  unfold frameLength
  omega

theorem headerLength_eq {buf : Mem} {s : List UInt8} {k : Nat} (h : buf.At 0 (s.take k)) (hk : 8 ≤ k)
    (hle : k ≤ s.length) : headerLength buf = frameLength s := by
  have hlen : (s.take k).length = k := by
    rw [List.length_take]
    omega
  have h2 := h.get 2 (by omega)
  have h3 := h.get 3 (by omega)
  rw [List.getElem_take, Nat.zero_add] at h2 h3
  unfold headerLength frameLength
  rw [Mem.ntohs_load16, h2, h3]
  simp [List.getD_eq_getElem?_getD, show 2 < s.length by omega, show 3 < s.length by omega]

structure Reading (s : List UInt8) (events : List Event) (buf : Mem) (k : Nat) (rc : Int)
    (requests : List (Nat × Nat)) : Prop where
  le : k ≤ s.length
  got : buf.At 0 (s.take k)
  left : incoming events = s.drop k
  pending : k < 8 ∨ (8 ≤ k ∧ k < frameLength s) ∨ (k = 8 ∧ frameLength s < 8)
  rc_pos : 8 ≤ k → 0 < rc
  requests : ∀ r ∈ requests, 0 < r.2 ∧ r.1 + r.2 ≤ max 8 (frameLength s)

structure Outcome (s : List UInt8) (o : Option ReadMsg) : Prop where
  cutOff : s.length < max 8 (frameLength s) → ∀ res, o = some res → res.ret ≤ 0
  tooShort : 8 ≤ s.length → frameLength s < 8 → ∃ res, o = some res ∧ 0 < res.ret
  whole : 8 ≤ frameLength s → frameLength s ≤ s.length → ∃ res,
    o = some res ∧ res.ret = frameLength s ∧ res.buf.At 0 (s.take (frameLength s))
      ∧ incoming res.events = s.drop (frameLength s)
      ∧ ∀ r ∈ res.requests, 0 < r.2 ∧ r.1 + r.2 ≤ frameLength s

def target (s : List UInt8) (k : Nat) : Nat := if k < 8 then 8 else frameLength s

theorem target_le (s : List UInt8) (k : Nat) : target s k ≤ max 8 (frameLength s) := by
  unfold target
  split <;> omega

namespace Reading

variable {s : List UInt8} {events : List Event} {buf : Mem} {k : Nat} {rc : Int}
variable {requests : List (Nat × Nat)}

theorem msgLen_eq (h : Reading s events buf k rc requests)
    : (if k < headerSize then headerSize else headerLength buf) = target s k := by
  unfold headerSize target
  split
  . rfl
  . rw [headerLength_eq h.got (by omega) h.le]

theorem count_eq (h : Reading s events buf k rc requests) (hlong : ¬target s k < 8)
    : u32 ((target s k : Nat) - k) = target s k - k ∧ k < target s k := by
  have hlt := frameLength_lt s
  have hpending := h.pending
  have hk : k < target s k ∧ target s k < 65536 := by
    unfold target at *
    split
    . omega
    . next hheader =>
      rw [if_neg hheader] at hlong
      omega
  unfold u32
  omega

theorem next {bytes : List UInt8} {events' : List Event} (h : Reading s events buf k rc requests)
    (hsplit : incoming events = bytes ++ incoming events')
    : k + bytes.length ≤ s.length
        ∧ (buf.copyFrom k (.ofList bytes) 0 bytes.length).At 0 (s.take (k + bytes.length))
        ∧ incoming events' = s.drop (k + bytes.length) := by
  have hleft := h.left
  have hle := h.le
  rw [hsplit] at hleft
  have hlen := congrArg List.length hleft
  rw [List.length_append, List.length_drop] at hlen
  have hbytes : (s.drop k).take bytes.length = bytes := by
    rw [← hleft, List.take_left]
  have hklen : (s.take k).length = k := by
    rw [List.length_take]
    omega
  refine ⟨by omega, ?_, ?_⟩
  . rw [List.take_add, Mem.at_append, hklen, hbytes]
    constructor
    . rw [Mem.copyFrom_frame (by omega)]
      apply h.got
    . rw [Nat.zero_add]
      apply Mem.copyFrom_at (Mem.at_ofList bytes) (Nat.le_refl _)
  . rw [← List.drop_drop, ← hleft, List.drop_left]

theorem outcome_tooShort (h : Reading s events buf k rc requests) (hshort : target s k < 8)
    (events' : List Event) (requests' : List (Nat × Nat))
    : Outcome s (some ⟨rc, buf, events', requests'⟩) := by
  have hk : ¬k < 8 := by
    intro hk
    unfold target at hshort
    rw [if_pos hk] at hshort
    omega
  have hle := h.le
  have hrc := h.rc_pos (by omega)
  unfold target at hshort
  rw [if_neg hk] at hshort
  constructor
  . intro hcut
    omega
  . intro _ _
    exact ⟨_, rfl, hrc⟩
  . intro hlong
    omega

theorem outcome_cutOff (h : Reading s events buf k rc requests) (hlong : ¬target s k < 8)
    (hnothing : incoming events = []) {o : Option ReadMsg} (ho : ∀ res, o = some res → res.ret ≤ 0)
    : Outcome s o := by
  have hlt := (h.count_eq hlong).2
  have hlen := congrArg List.length h.left
  rw [hnothing, List.length_nil, List.length_drop] at hlen
  have hle := h.le
  unfold target at *
  split at hlong
  . next hk =>
    rw [if_pos hk] at hlt
    constructor
    . exact fun _ => ho
    . intro h8
      omega
    . intro h8 hwhole
      omega
  . next hk =>
    rw [if_neg hk] at hlt
    constructor
    . exact fun _ => ho
    . intro _ h8
      omega
    . intro _ hwhole
      omega

theorem requests_le (h : Reading s events buf k rc requests) (hlong : ¬target s k < 8)
    : ∀ r ∈ requests ++ [(k, target s k - k)], 0 < r.2 ∧ r.1 + r.2 ≤ max 8 (frameLength s) := by
  have hmax := target_le s k
  have hlt := (h.count_eq hlong).2
  intro r hr
  rw [List.mem_append, List.mem_singleton] at hr
  cases hr with
  | inl hold => apply h.requests r hold
  | inr hnew =>
    subst hnew
    dsimp only
    omega

theorem outcome_done {n : Nat} (h8 : 8 ≤ n) (hn : frameLength s = n) (hle : n ≤ s.length)
    (hgot : buf.At 0 (s.take n)) (hleft : incoming events = s.drop n)
    (hreq : ∀ r ∈ requests, 0 < r.2 ∧ r.1 + r.2 ≤ max 8 (frameLength s))
    : Outcome s (some ⟨n, buf, events, requests⟩) := by
  constructor
  . intro hcut
    omega
  . intro _ hshort
    omega
  . intro _ _
    rw [hn]
    refine ⟨_, rfl, rfl, hgot, hleft, ?_⟩
    intro r hr
    have := hreq r hr
    omega

-- the bytes that are still missing may be those of the header, or of the rest of the frame
theorem pending_of_more {more : Nat} (hgot : buf.At 0 (s.take (k + more)))
    (hle : k + more ≤ s.length) (htarget : k + more ≤ target s k)
    (hmore : ¬(headerSize ≤ k + more ∧ headerLength buf = k + more))
    : k + more < 8 ∨ (8 ≤ k + more ∧ k + more < frameLength s)
        ∨ (k + more = 8 ∧ frameLength s < 8) := by
  unfold headerSize at hmore
  cases Nat.lt_or_ge (k + more) 8 with
  | inl h8 => exact .inl h8
  | inr h8 =>
    rw [headerLength_eq hgot h8 hle] at hmore
    apply Or.inr
    unfold target at htarget
    split at htarget <;> omega

end Reading

theorem loop_outcome {s : List UInt8} {events : List Event} {buf : Mem} {k : Nat} {rc : Int}
    {requests : List (Nat × Nat)} (h : Reading s events buf k rc requests)
    : Outcome s (readOfpMsg.loop events buf k rc requests) := by
  unfold readOfpMsg.loop
  rw [h.msgLen_eq]
  dsimp only
  split
  . next hshort => apply h.outcome_tooShort hshort
  . next hlong =>
    rcases h.count_eq hlong with ⟨hcount, hlt⟩
    rw [hcount]
    cases hincoming : incoming events with
    | nil =>
      apply h.outcome_cutOff hlong hincoming
      intro res hres
      split at hres
      . simp at hres
      . next r hread =>
        have hrc := read_of_nothing hincoming hread
        split at hres
        . split at hres
          all_goals
            simp only [Option.some.injEq] at hres
            subst hres
            exact hrc
        . rw [if_pos (by omega)] at hres
          simp only [Option.some.injEq] at hres
          subst hres
          exact hrc
    | cons byte bytes =>
      rcases @read_of_incoming (target s k - k) events (by omega) (by simp [hincoming]) with
        ⟨r, hread, hrc, hpos, hle, hsplit⟩
      rcases h.next hsplit with ⟨hk, hgot, hleft⟩
      have hreq := h.requests_le hlong
      split
      . next hnone =>
        rw [hread] at hnone
        simp at hnone
      . next r' hread' =>
        rw [hread] at hread'
        simp only [Option.some.injEq] at hread'
        subst hread'
        rw [if_neg (by omega), if_neg (by omega)]
        have hk' : u32 ((k : Nat) + r.rc) = k + r.bytes.length := by
          have := target_le s k
          have := frameLength_lt s
          unfold u32
          omega
        rw [hk']
        split
        . next hdone =>
          rcases hdone with ⟨h8, hlen⟩
          unfold headerSize at h8
          rw [headerLength_eq hgot h8 hk] at hlen
          apply Reading.outcome_done h8 hlen hk hgot hleft hreq
        . next hmore =>
          have hpending := Reading.pending_of_more hgot hk (by omega) hmore
          apply loop_outcome
          exact ⟨hk, hgot, hleft, hpending, fun _ => by omega, hreq⟩
termination_by (incoming events).length
decreasing_by
  apply incoming_lt_of_read hread
  omega

theorem readOfpMsg_outcome (events : List Event) (buf : Mem)
    : Outcome (incoming events) (readOfpMsg events buf) := by
  apply loop_outcome
  exact ⟨by omega, trivial, rfl, .inl (by omega), fun _ => by omega, by simp⟩

/--
The bytes of a frame, with its own length in the header.
-/
structure WireFrame where
  bytes : List UInt8
  eight_le : 8 ≤ bytes.length
  length_eq : frameLength bytes = bytes.length

theorem frameLength_append {xs : List UInt8} (ys : List UInt8) (h : 8 ≤ xs.length)
    : frameLength (xs ++ ys) = frameLength xs := by
  unfold frameLength
  simp only [List.getD_eq_getElem?_getD]
  rw [List.getElem?_append_left (by omega), List.getElem?_append_left (by omega)]

theorem readOfpMsg_frame {frame : WireFrame} {more : List UInt8} {events : List Event} (buf : Mem)
    (h : incoming events = frame.bytes ++ more)
    : ∃ res,
        readOfpMsg events buf = some res ∧ res.ret = frame.bytes.length
          ∧ res.buf.bytes 0 frame.bytes.length = frame.bytes ∧ incoming res.events = more
          ∧ ∀ r ∈ res.requests, 0 < r.2 ∧ r.1 + r.2 ≤ frame.bytes.length ∧ r.1 + r.2 ≤ 65535 := by
  have h8 := frame.eight_le
  have hlt := frameLength_lt frame.bytes
  have hlen : frameLength (incoming events) = frame.bytes.length := by
    rw [h, frameLength_append more h8, frame.length_eq]
  have hout := (readOfpMsg_outcome events buf).whole (by omega)
    (by rw [hlen, h, List.length_append]; omega)
  rw [hlen, h, List.take_left, List.drop_left] at hout
  rcases hout with ⟨res, hres, hret, hgot, hleft, hreq⟩
  refine ⟨res, hres, hret, hgot.bytes_eq, hleft, ?_⟩
  intro r hr
  have := hreq r hr
  have := frame.length_eq
  omega

/--
Successive calls return exactly the frames that come in, however they are split.
-/
theorem calls_frames {frames : List WireFrame} {more : List UInt8} {events : List Event}
    {bufs : List Mem} (h : incoming events = frames.flatMap WireFrame.bytes ++ more)
    (hbufs : bufs.length = frames.length)
    : ∃ ress,
        calls bufs events = some ress ∧ ress.length = frames.length
          ∧ ∀ (n : Nat) (frame : WireFrame), frames[n]? = some frame →
              ∃ res, ress[n]? = some res ∧ res.ret = frame.bytes.length
                ∧ res.buf.bytes 0 frame.bytes.length = frame.bytes
                ∧ incoming res.events = (frames.drop (n + 1)).flatMap WireFrame.bytes ++ more
                ∧ ∀ r ∈ res.requests,
                    0 < r.2 ∧ r.1 + r.2 ≤ frame.bytes.length ∧ r.1 + r.2 ≤ 65535 := by
  induction frames generalizing events bufs with
  | nil =>
    rw [List.length_nil, List.length_eq_zero_iff] at hbufs
    subst hbufs
    exact ⟨[], rfl, rfl, by simp⟩
  | cons frame frames ih =>
    cases bufs with
    | nil => simp at hbufs
    | cons buf bufs =>
      rw [List.flatMap_cons, List.append_assoc] at h
      rcases readOfpMsg_frame buf h with ⟨res, hres, hret, hbytes, hleft, hreq⟩
      rcases ih hleft (by simpa using hbufs) with ⟨ress, hress, hlen, hframes⟩
      refine ⟨res :: ress, ?_, by simp [hlen], ?_⟩
      . simp only [calls, hres, hress]
      . intro n frame' hn
        cases n with
        | zero =>
          simp only [List.getElem?_cons_zero, Option.some.injEq] at hn
          subst hn
          exact ⟨res, rfl, hret, hbytes, hleft, hreq⟩
        | succ n => exact hframes n frame' hn

def splitEvents : List Event :=
  [.segment 4 [2, 0], .segment 12 [0, 0, 0, 7, 0xAA, 0xBB, 0xCC, 0xDD, 4], .segment 0 [0, 8, 0, 0],
    .segment 0 [8]]

theorem calls_splitEvents
    : ∃ ress, calls [fun _ => 0, fun _ => 1] splitEvents = some ress ∧ ress.length = 2 := by
  rcases @calls_frames
      [⟨[4, 2, 0, 12, 0, 0, 0, 7, 0xAA, 0xBB, 0xCC, 0xDD], by decide, by decide⟩,
        ⟨[4, 0, 0, 8, 0, 0, 0, 8], by decide, by decide⟩]
      [] splitEvents [fun _ => 0, fun _ => 1] (by decide) rfl with
    ⟨ress, hress, hlen, -⟩
  exact ⟨ress, hress, hlen⟩

/--
What a call that returned ought to have done: a frame was put, or the connection is closed.
-/
structure Sound (events : List Event) (out : ReadMsg) : Prop where
  broken : (¬∃ frame : WireFrame, frame.bytes <+: incoming events) →
    out.ret ≤ 0 ∧ ∀ fd, readClient fd out = .closeBoth ∧ readServer fd out = .closeBoth
  whole : 0 < out.ret → ∃ frame : WireFrame,
    out.ret = frame.bytes.length ∧ out.buf.bytes 0 frame.bytes.length = frame.bytes
      ∧ incoming events = frame.bytes ++ incoming out.events

theorem turn_of_ret_le {out : ReadMsg} (fd : Int) (h : out.ret ≤ 0) : turn fd out = .closeBoth := by
  unfold turn
  split
  . rfl
  . rw [if_pos (by omega)]

theorem Sound.of_ret_le {events : List Event} {out : ReadMsg} (h : out.ret ≤ 0) : Sound events out where
  broken := fun _ => ⟨h, fun fd => ⟨turn_of_ret_le fd h, turn_of_ret_le fd h⟩⟩
  whole := fun hpos => by omega

/--
A broken frame is never forwarded if and only if its header does not announce fewer bytes than
it has itself, or does not arrive as a whole.
-/
theorem readOfpMsg_sound_iff (events : List Event) (buf : Mem)
    : (∀ out, readOfpMsg events buf = some out → Sound events out)
        ↔
      (8 ≤ (incoming events).length → 8 ≤ frameLength (incoming events)) := by
  have hout := readOfpMsg_outcome events buf
  constructor
  . intro h h8
    apply Decidable.byContradiction
    intro hshort
    rcases hout.tooShort h8 (by omega) with ⟨res, hres, hpos⟩
    rcases (h res hres).whole hpos with ⟨frame, -, -, hsplit⟩
    have hlen := frame.eight_le
    rw [hsplit, frameLength_append _ hlen, frame.length_eq] at hshort
    omega
  . intro hheader out hres
    cases Nat.lt_or_ge (incoming events).length (max 8 (frameLength (incoming events))) with
    | inl hcut => exact .of_ret_le (hout.cutOff hcut out hres)
    | inr hwhole =>
      have h8 := hheader (by omega)
      rcases hout.whole h8 (by omega) with ⟨res, hres', hret, hgot, hleft, -⟩
      rw [hres] at hres'
      simp only [Option.some.injEq] at hres'
      subst hres'
      have hsplit := List.take_append_drop (frameLength (incoming events)) (incoming events)
      have hlen : ((incoming events).take (frameLength (incoming events))).length
          = frameLength (incoming events) := by
        rw [List.length_take]
        omega
      generalize htake : (incoming events).take (frameLength (incoming events)) = bytes at *
      have hframe : frameLength bytes = bytes.length := by
        rw [hlen, ← hsplit, frameLength_append _ (by omega)]
      let frame : WireFrame := ⟨bytes, by omega, hframe⟩
      constructor
      . intro hnone
        apply absurd _ hnone
        exact ⟨frame, ⟨_, hsplit⟩⟩
      . intro _
        refine ⟨frame, ?_, hgot.bytes_eq, ?_⟩
        . rw [hret, ← hlen]
        . rw [hleft]
          apply hsplit.symm

def shortHeader : List Event := [.segment 4 [0, 0, 5, 0, 0, 0, 1]]

theorem readOfpMsg_sound_fails
    : ∃ out, readOfpMsg shortHeader (fun _ => 0) = some out
        ∧ readClient 7 out = .putMessage out.buf 8 7 ∧ ¬Sound shortHeader out := by
  have hrun : (readOfpMsg shortHeader fun _ => 0).map ReadMsg.ret = some 8 := by decide +kernel
  rw [Option.map_eq_some_iff] at hrun
  rcases hrun with ⟨out, hout, hret⟩
  refine ⟨out, hout, ?_, ?_⟩
  . simp [readClient, turn, hret]
  . intro hsound
    rcases hsound.whole (by omega) with ⟨frame, -, -, hsplit⟩
    have h8 := frame.eight_le
    have hlen := frame.length_eq
    rw [← frameLength_append (incoming out.events) h8, ← hsplit] at hlen
    have hfive : frameLength (incoming shortHeader) = 5 := by decide
    omega

end Reader
end OfpProxy
