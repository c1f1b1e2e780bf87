import OfpProxy.Priority.Window

/-!
This module shows what the ring holds after calls whose window ids never go back: each slot has the
calls of the last window that used it.
-/

namespace OfpProxy
namespace Call

def entries (calls : List Call) : List (UEPID × Nat) := calls.map fun c => (c.uep, c.number.toNat)

@[simp]
theorem entries_concat (calls : List Call) (c : Call)
    : entries (calls ++ [c]) = entries calls ++ [(c.uep, c.number.toNat)] := by
  simp [entries]

-- The window ids do not go back.
def InOrder (calls : List Call) : Prop := calls.Pairwise fun c d => c.splitId.toNat ≤ d.splitId.toNat

instance (calls : List Call) : Decidable (InOrder calls) :=
  inferInstanceAs (Decidable (calls.Pairwise _))

def ofWindow (calls : List Call) (splitId : Nat) : List Call :=
  calls.filter fun c => c.splitId.toNat = splitId

-- The tail behind the last window id is 0, so every call for that window starts afresh.
def held (calls : List Call) (splitId : Nat) : List Call :=
  let cs := ofWindow calls splitId
  if splitId = 4294967295 then cs.drop (cs.length - 1) else cs

def lastOfSlot (bufferSize : Nat) (calls : List Call) (slot : Nat) : Option Call :=
  (calls.filter fun c => c.splitId.toNat % bufferSize = slot).getLast?

def heldBySlot (bufferSize : Nat) (calls : List Call) (slot : Nat) : List Call :=
  match lastOfSlot bufferSize calls slot with
  | none => []
  | some c => held calls c.splitId.toNat

theorem held_concat_of_ne {calls : List Call} {c : Call} {splitId : Nat}
    (h : c.splitId.toNat ≠ splitId) : held (calls ++ [c]) splitId = held calls splitId := by
  unfold held ofWindow
  rw [List.filter_append, List.filter_cons_of_neg (by simpa using h), List.filter_nil,
    List.append_nil]

theorem held_concat_last {calls : List Call} {c : Call} (h : c.splitId.toNat = 4294967295)
    : held (calls ++ [c]) c.splitId.toNat = [c] := by
  unfold held ofWindow
  rw [List.filter_append, List.filter_cons_of_pos (by simp), List.filter_nil]
  simp [h]

theorem held_concat_of_lt {calls : List Call} {c : Call} (h : c.splitId.toNat < 4294967295)
    : held (calls ++ [c]) c.splitId.toNat = held calls c.splitId.toNat ++ [c] := by
  unfold held ofWindow
  rw [if_neg (by omega), if_neg (by omega), List.filter_append, List.filter_cons_of_pos (by simp),
    List.filter_nil]

theorem held_eq_nil {calls : List Call} {splitId : Nat}
    (h : ∀ c ∈ calls, c.splitId.toNat ≠ splitId) : held calls splitId = [] := by
  have hnone : ofWindow calls splitId = [] := by
    unfold ofWindow
    rw [List.filter_eq_nil_iff]
    simpa using h
  simp [held, hnone]

theorem held_eq_ofWindow {calls : List Call} {splitId : Nat} (h : splitId ≠ 4294967295)
    : held calls splitId = ofWindow calls splitId := by
  unfold held
  rw [if_neg h]

theorem heldBySlot_concat_of_ne {bufferSize slot : Nat} {calls : List Call} {c : Call}
    (h : c.splitId.toNat % bufferSize ≠ slot)
    : heldBySlot bufferSize (calls ++ [c]) slot = heldBySlot bufferSize calls slot := by
  have hlast : lastOfSlot bufferSize (calls ++ [c]) slot = lastOfSlot bufferSize calls slot := by
    unfold lastOfSlot
    rw [List.filter_append, List.filter_cons_of_neg (by simpa using h), List.filter_nil,
      List.append_nil]
  unfold heldBySlot
  rw [hlast]
  cases hd : lastOfSlot bufferSize calls slot with
  | none => rfl
  | some d =>
    have hmem := List.mem_of_getLast? hd
    rw [List.mem_filter, decide_eq_true_eq] at hmem
    apply held_concat_of_ne
    intro heq
    rw [heq] at h
    apply h hmem.2

theorem heldBySlot_concat_self {bufferSize : Nat} {calls : List Call} {c : Call}
    : heldBySlot bufferSize (calls ++ [c]) (c.splitId.toNat % bufferSize)
        =
      held (calls ++ [c]) c.splitId.toNat := by
  have hlast : lastOfSlot bufferSize (calls ++ [c]) (c.splitId.toNat % bufferSize) = some c := by
    unfold lastOfSlot
    rw [List.filter_append, List.filter_cons_of_pos (by simp), List.filter_nil, List.getLast?_concat]
  unfold heldBySlot
  rw [hlast]

end Call

namespace PriorityManager

/--
What a run of calls in order of their windows leaves behind.
-/
structure Forward (calls : List Call) (pm : PriorityManager) : Prop where
  window : 1 ≤ pm.windowBuffer.windowSize
  slots : ∀ slot, (pm.windowBuffer.buffer slot).Records
    (Call.entries (Call.heldBySlot pm.windowBuffer.bufferSize calls slot))
  tail : calls = [] → pm.windowBuffer.tail = 0
  span : ∀ d, calls.getLast? = some d → pm.windowBuffer.head = d.splitId.toNat
    ∧ pm.windowBuffer.tail = u32 (d.splitId.toNat + 1)
  sorted : ∀ d, calls.getLast? = some d → ∀ c ∈ calls, c.splitId.toNat ≤ d.splitId.toNat

theorem Forward.new {windowSize : Nat} (bufferSize : Nat) (start : Timeval) (h : 1 ≤ windowSize)
    : Forward [] (new windowSize bufferSize start) where
  window := h
  slots := fun _ => .empty
  tail := fun _ => rfl
  span := by simp
  sorted := by simp

theorem Forward.last_of_live {calls : List Call} {pm : PriorityManager} (hf : Forward calls pm)
    {splitId : Nat} (h : pm.isLive splitId = true)
    : splitId < 4294967295 ∧ ∃ d, calls.getLast? = some d ∧ d.splitId.toNat = splitId := by
  have hspan : ¬splitId < pm.windowBuffer.head ∧ splitId < pm.windowBuffer.tail := by
    simpa [isLive, RingBuffer.aheadofHead, RingBuffer.aheadoftail] using h
  cases hd : calls.getLast? with
  | none =>
    rw [List.getLast?_eq_none_iff] at hd
    rw [hf.tail hd] at hspan
    omega
  | some d =>
    rcases hf.span d hd with ⟨hhead, htail⟩
    have hlt := d.splitId.toNat_lt
    unfold u32 at htail
    exact ⟨by omega, d, rfl, by omega⟩

theorem Forward.not_behindHead {calls : List Call} {pm : PriorityManager} (hf : Forward calls pm)
    {c : Call} (hc : ∀ d ∈ calls, d.splitId.toNat ≤ c.splitId.toNat)
    : pm.isBehindHead c.splitId.toNat = false := by
  by_contra h
  have hspan : c.splitId.toNat < pm.windowBuffer.head
      ∧ c.splitId.toNat < pm.windowBuffer.tail := by
    simpa [isBehindHead, RingBuffer.aheadofHead, RingBuffer.aheadoftail] using h
  cases hd : calls.getLast? with
  | none =>
    rw [List.getLast?_eq_none_iff] at hd
    rw [hf.tail hd] at hspan
    omega
  | some d =>
    have hle := hc d (List.mem_of_getLast? hd)
    rw [(hf.span d hd).1] at hspan
    omega

-- A window at or behind the tail was not called for yet, unless it is the last there is.
theorem Forward.held_of_ahead {calls : List Call} {pm : PriorityManager} (hf : Forward calls pm)
    {c : Call} (hc : ∀ d ∈ calls, d.splitId.toNat ≤ c.splitId.toNat)
    (h : pm.windowBuffer.aheadoftail c.splitId.toNat = false)
    : Call.held (calls ++ [c]) c.splitId.toNat = [c] := by
  have htail : pm.windowBuffer.tail ≤ c.splitId.toNat := by
    simpa [RingBuffer.aheadoftail] using h
  have hlt := c.splitId.toNat_lt
  by_cases hlast : c.splitId.toNat = 4294967295
  . apply Call.held_concat_last hlast
  . rw [Call.held_concat_of_lt (by omega), Call.held_eq_nil]
    . rfl
    . intro e he
      cases hd : calls.getLast? with
      | none =>
        rw [List.getLast?_eq_none_iff] at hd
        simp [hd] at he
      | some d =>
        have hle := hf.sorted d hd e he
        rw [(hf.span d hd).2] at htail
        have hcd := hc d (List.mem_of_getLast? hd)
        unfold u32 at htail
        omega

theorem Forward.records {calls : List Call} {pm : PriorityManager} (hf : Forward calls pm)
    {c : Call} (hc : ∀ d ∈ calls, d.splitId.toNat ≤ c.splitId.toNat)
    : ((pm.splitBefore c.splitId.toNat).addUEP c.uep c.number.toNat).Records
        (Call.entries (Call.held (calls ++ [c]) c.splitId.toNat)) := by
  unfold splitBefore
  rcases pm.cases_of_splitId c.splitId.toNat with h | h | h
  . rcases hf.last_of_live h with ⟨hlt, d, hd, hid⟩
    rcases List.getLast?_eq_some_iff.mp hd with ⟨past, rfl⟩
    have hslot := hf.slots (d.splitId.toNat % pm.windowBuffer.bufferSize)
    rw [Call.heldBySlot_concat_self, hid] at hslot
    rw [if_pos h, Call.held_concat_of_lt hlt, Call.entries_concat]
    apply hslot.addUEP _ c.number.toNat_lt
  . have hlive : pm.isLive c.splitId.toNat = false := by simp [isLive, h]
    rw [hlive, if_neg (by simp), hf.held_of_ahead hc h]
    apply Split.Records.empty.addUEP _ c.number.toNat_lt
  . rw [hf.not_behindHead hc] at h
    contradiction

theorem Forward.head_tail {calls : List Call} {pm : PriorityManager} (hf : Forward calls pm)
    {c : Call} (hc : ∀ d ∈ calls, d.splitId.toNat ≤ c.splitId.toNat)
    : (pm.update c).windowBuffer.head = c.splitId.toNat
        ∧ (pm.update c).windowBuffer.tail = u32 (c.splitId.toNat + 1) := by
  rcases pm.cases_of_splitId c.splitId.toNat with h | h | h
  . rcases hf.last_of_live h with ⟨_, d, hd, hid⟩
    rw [update_of_live h, ← hid]
    apply hf.span d hd
  . rw [update_of_ahead h]
    dsimp only
    rw [RingBuffer.head_putdData_updateHeadTail _ _ _ hf.window, RingBuffer.tail_putdData]
    exact ⟨rfl, rfl⟩
  . rw [hf.not_behindHead hc] at h
    contradiction

theorem Forward.update {calls : List Call} {pm : PriorityManager} (hf : Forward calls pm) {c : Call}
    (hc : ∀ d ∈ calls, d.splitId.toNat ≤ c.splitId.toNat)
    : Forward (calls ++ [c]) (pm.update c) where
  window := by
    rw [update_windowBuffer_windowSize]
    apply hf.window
  slots := by
    intro slot
    have hslotOf : pm.slotOf c.splitId.toNat = c.splitId.toNat % pm.windowBuffer.bufferSize := by
      simp [slotOf, hf.not_behindHead hc]
    rw [update_buffer, update_windowBuffer_bufferSize, hslotOf]
    by_cases hslot : slot = c.splitId.toNat % pm.windowBuffer.bufferSize
    . rw [hslot, Function.update_self, Call.heldBySlot_concat_self]
      apply hf.records hc
    . rw [Function.update_of_ne hslot, Call.heldBySlot_concat_of_ne (Ne.symm hslot)]
      apply hf.slots
  tail := by simp
  span := by
    intro d hd
    rw [List.getLast?_concat, Option.some.injEq] at hd
    subst hd
    apply hf.head_tail hc
  sorted := by
    intro d hd e he
    rw [List.getLast?_concat, Option.some.injEq] at hd
    subst hd
    rw [List.mem_append, List.mem_singleton] at he
    rcases he with he | rfl
    . apply hc e he
    . apply Nat.le_refl

theorem forward_updateAll {calls : List Call} (hs : Call.InOrder calls) {windowSize : Nat}
    (bufferSize : Nat) (start : Timeval) (h : 1 ≤ windowSize)
    : Forward calls ((new windowSize bufferSize start).updateAll calls) := by
  induction calls using List.reverseRecOn with
  | nil => apply Forward.new bufferSize start h
  | append_singleton past c ih =>
    rw [Call.InOrder, List.pairwise_append] at hs
    rw [updateAll_concat]
    apply Forward.update (ih hs.1)
    intro d hd
    apply hs.2.2 d hd c (List.mem_singleton_self c)

/--
The split of the last window has the calls for that window in it and nothing of an older one.
-/
theorem records_lastWindow {calls : List Call} {last : Call} (hs : Call.InOrder calls)
    (hlast : calls.getLast? = some last) (hid : last.splitId.toNat < 4294967295) {windowSize : Nat}
    (bufferSize : Nat) (start : Timeval) (h : 1 ≤ windowSize)
    : let pm := (new windowSize bufferSize start).updateAll calls
      (pm.windowBuffer.getData last.splitId.toNat).Records
        (Call.entries (Call.ofWindow calls last.splitId.toNat)) := by
  have hslots := (forward_updateAll hs bufferSize start h).slots
  rcases List.getLast?_eq_some_iff.mp hlast with ⟨past, rfl⟩
  have hslot := hslots (last.splitId.toNat % bufferSize)
  rw [updateAll_windowBuffer_bufferSize] at hslot
  change Split.Records _ (Call.entries (Call.heldBySlot bufferSize _ _)) at hslot
  rw [Call.heldBySlot_concat_self, Call.held_eq_ofWindow (by omega)] at hslot
  dsimp only
  rw [RingBuffer.getData, updateAll_windowBuffer_bufferSize]
  apply hslot

theorem records_lastWindow_reused
    : let pm := (new 1 20 ⟨0, 0⟩).updateAll [⟨0, {}, 7⟩, ⟨20, {}, 3⟩, ⟨20, {}, 2⟩]
      (pm.windowBuffer.getData 20).Records [({}, 3), ({}, 2)] := by
  have hs : Call.InOrder [⟨0, {}, 7⟩, ⟨20, {}, 3⟩, ⟨20, {}, 2⟩] := by decide
  have hlast : ([⟨0, {}, 7⟩, ⟨20, {}, 3⟩, ⟨20, {}, 2⟩] : List Call).getLast? = some ⟨20, {}, 2⟩ := rfl
  exact records_lastWindow hs hlast (by decide) 20 ⟨0, 0⟩ (Nat.le_refl 1)

end PriorityManager
end OfpProxy
