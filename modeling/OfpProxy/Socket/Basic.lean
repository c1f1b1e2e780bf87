import Mathlib.Data.List.Basic

/-!
This module contains the receiving end of a stream socket: what the peer and the network do is a
list of events, and `read` takes what the next one has to offer.
-/

namespace OfpProxy
namespace Socket

inductive Event where
  -- some bytes arrive in one piece
  | segment (byte : UInt8) (bytes : List UInt8)
  | closed
  | error (errno : Int)
  deriving DecidableEq

-- The bytes that arrive before anything goes wrong.
def incoming : List Event → List UInt8
  | .segment byte bytes :: events => byte :: bytes ++ incoming events
  | _ => []

structure Received where
  rc : Int
  bytes : List UInt8
  errno : Int
  events : List Event
  deriving DecidableEq

/--
A `read` of at most `count` bytes, with `none` for a call that blocks for good.
-/
def read (count : Nat) : List Event → Option Received
  | [] => none
  | .segment byte bytes :: events =>
    let taken := (byte :: bytes).take count
    match (byte :: bytes).drop count with
    | [] => some ⟨taken.length, taken, 0, events⟩
    | byte' :: bytes' => some ⟨taken.length, taken, 0, .segment byte' bytes' :: events⟩
  | .closed :: events => some ⟨0, [], 0, events⟩
  | .error errno :: events => some ⟨-1, [], errno, events⟩

theorem read_segment (count : Nat) (byte : UInt8) (bytes : List UInt8) (events : List Event)
    : ∃ r,
        read count (.segment byte bytes :: events) = some r ∧ r.rc = r.bytes.length
          ∧ r.bytes = (byte :: bytes).take count
          ∧ incoming (.segment byte bytes :: events) = r.bytes ++ incoming r.events := by
  have hsplit := List.take_append_drop count (byte :: bytes)
  have hincoming : incoming (.segment byte bytes :: events) = byte :: bytes ++ incoming events := rfl
  cases hdrop : (byte :: bytes).drop count with
  | nil =>
    rw [hdrop, List.append_nil] at hsplit
    refine ⟨⟨((byte :: bytes).take count).length, _, 0, events⟩, ?_, rfl, rfl, ?_⟩
    . simp only [read, hdrop]
    . rw [hincoming]
      dsimp only
      rw [hsplit]
  | cons byte' bytes' =>
    rw [hdrop] at hsplit
    refine
      ⟨⟨((byte :: bytes).take count).length, _, 0, .segment byte' bytes' :: events⟩, ?_, rfl, rfl, ?_⟩
    . simp only [read, hdrop]
    . change byte :: bytes ++ incoming events
        = (byte :: bytes).take count ++ (byte' :: bytes' ++ incoming events)
      rw [← List.append_assoc, hsplit]

theorem read_of_incoming {count : Nat} {events : List Event} (hcount : 0 < count)
    (h : incoming events ≠ [])
    : ∃ r,
        read count events = some r ∧ r.rc = r.bytes.length ∧ 0 < r.bytes.length
          ∧ r.bytes.length ≤ count ∧ incoming events = r.bytes ++ incoming r.events := by
  cases events with
  | nil => simp [incoming] at h
  | cons event events =>
    cases event with
    | segment byte bytes =>
      rcases read_segment count byte bytes events with ⟨r, hr, hrc, hbytes, hsplit⟩
      have hlen : r.bytes.length = min count (bytes.length + 1) := by
        rw [hbytes, List.length_take, List.length_cons]
      exact ⟨r, hr, hrc, by omega, by omega, hsplit⟩
    | closed => simp [incoming] at h
    | error errno => simp [incoming] at h

theorem read_of_nothing {count : Nat} {events : List Event} {r : Received} (h : incoming events = [])
    (hr : read count events = some r) : r.rc ≤ 0 := by
  cases events with
  | nil => simp [read] at hr
  | cons event events =>
    cases event with
    | segment byte bytes => simp [incoming] at h
    | closed =>
      simp only [read, Option.some.injEq] at hr
      subst hr
      apply Int.le_refl 0
    | error errno =>
      simp only [read, Option.some.injEq] at hr
      subst hr
      dsimp only
      omega

theorem incoming_lt_of_read {count : Nat} {events : List Event} {r : Received}
    (h : read count events = some r) (hrc : 0 < r.rc)
    : (incoming r.events).length < (incoming events).length := by
  cases Nat.eq_zero_or_pos (incoming events).length with
  | inl hzero =>
    have := read_of_nothing (List.length_eq_zero_iff.mp hzero) h
    omega
  | inr hpos =>
    cases events with
    | nil => simp [incoming] at hpos
    | cons event events =>
      cases event with
      | segment byte bytes =>
        rcases read_segment count byte bytes events with ⟨r', hr', hrc', -, hsplit⟩
        rw [h] at hr'
        simp only [Option.some.injEq] at hr'
        subst hr'
        rw [hsplit, List.length_append]
        omega
      | closed => simp [incoming] at hpos
      | error errno => simp [incoming] at hpos

-- All bytes there are, also those behind an end of file.
def written : List Event → List UInt8
  | [] => []
  | .segment byte bytes :: events => byte :: bytes ++ written events
  | _ :: events => written events

/--
What arrives in one piece consists of whole records of `count` bytes.
-/
def Whole (count : Nat) (events : List Event) : Prop :=
  ∀ byte bytes, .segment byte bytes ∈ events → count ∣ bytes.length + 1

theorem Whole.tail {count : Nat} {event : Event} {events : List Event} (h : Whole count (event :: events))
    : Whole count events := by
  intro byte bytes hmem
  apply h byte bytes (List.mem_cons_of_mem event hmem)

theorem read_whole {count : Nat} {events : List Event} {r : Received} (h : Whole count events)
    (hr : read count events = some r)
    : Whole count r.events ∧ written events = r.bytes ++ written r.events
        ∧ (r.rc = r.bytes.length ∧ r.bytes.length = count ∨ r.rc ≤ 0 ∧ r.bytes = []) := by
  cases events with
  | nil => contradiction
  | cons event events =>
    cases event with
    | closed | error errno =>
      rw [← Option.some.inj hr]
      refine ⟨h.tail, rfl, .inr ⟨?_, rfl⟩⟩
      dsimp only
      omega
    | segment byte bytes =>
      have hdvd := h byte bytes List.mem_cons_self
      have hle := Nat.le_of_dvd (Nat.succ_pos _) hdvd
      have htaken : ((byte :: bytes).take count).length = count := by
        rw [List.length_take, List.length_cons]
        omega
      have hsplit := List.take_append_drop count (byte :: bytes)
      have hwritten : written (.segment byte bytes :: events) = byte :: bytes ++ written events := rfl
      unfold read at hr
      dsimp only at hr
      split at hr
      . next hdrop =>
        rw [← Option.some.inj hr]
        rw [hdrop, List.append_nil] at hsplit
        refine ⟨h.tail, ?_, .inl ⟨rfl, htaken⟩⟩
        rw [hwritten]
        dsimp only
        rw [hsplit]
      . next byte' bytes' hdrop =>
        rw [← Option.some.inj hr]
        have hrest : bytes'.length + 1 = bytes.length + 1 - count := by
          rw [← List.length_cons, ← hdrop, List.length_drop, List.length_cons]
        refine ⟨?_, ?_, .inl ⟨rfl, htaken⟩⟩
        . intro first more hmem
          rw [List.mem_cons, Event.segment.injEq] at hmem
          rcases hmem with ⟨rfl, rfl⟩ | hmem
          . rw [hrest]
            apply Nat.dvd_sub hdvd (Nat.dvd_refl count)
          . apply h first more (List.mem_cons_of_mem _ hmem)
        . rw [hdrop] at hsplit
          change byte :: bytes ++ written events
            = (byte :: bytes).take count ++ (byte' :: bytes' ++ written events)
          rw [← List.append_assoc, hsplit]

end Socket
end OfpProxy
