import OfpProxy.Rewrite.Lemmas.Frame
import OfpProxy.Rewrite.Lemmas.Match
import OfpProxy.Walk.Basic

/-!
This module shows what the rewriting functions make of a frame whose nested length fields have any
values. Everything is put in terms of the bytes that were received.
-/

namespace OfpProxy

theorem u16_emod (x : Int) : (u16 x : Int) = x % 65536 := by
  unfold u16
  omega

theorem u16_lt (x : Int) : u16 x < 65536 := by
  unfold u16
  omega

def actionLen (msg : Mem) (action : Nat) : Nat := ntohs (msg.load16 (action + 2))

theorem copyValidActionToBuf.loop_eq_run (msg : Mem) (filterActionType fin fuel pos : Nat)
    (st : ActionCopy)
    : loop msg filterActionType fin fuel pos st
        =
      Walk.run (actionLen msg) fin (body msg filterActionType) fuel pos st := by
  induction fuel generalizing pos st with
  | zero => rfl
  | succ fuel ih =>
    rw [loop, Walk.run, ih]
    rfl

namespace FlowModProcessed

def matchLength (msg : Mem) : Nat := ntohs (msg.load16 (mat + 2))

def totalLength (msg : Mem) : Nat := padTo8 (matchLength msg)

def isTaggedItem (msg : Mem) (pos : Nat) : Bool :=
  ntohs (msg.load16 pos) = 0x8000 ∧ msg (pos + 2) = 0x36 ∧ msg (pos + 4) = 0x7F

def itemLen (msg : Mem) (pos : Nat) : Nat := 4 + (msg (pos + 3)).toNat

-- the bytes of the tagged items that begin in front of the last four bytes of the match
def taggedFrom (msg : Mem) (ins pos : Nat) : Nat :=
  if pos + 4 < ins then
    (if isTaggedItem msg pos then itemLen msg pos else 0) + taggedFrom msg ins (pos + itemLen msg pos)
  else
    0
termination_by ins - pos
decreasing_by
  unfold itemLen
  omega

def taggedBytes (msg : Mem) : Nat := taggedFrom msg (mat + totalLength msg) (mat + 4)

-- the length field of the new match, and what it is grown to
def leftLength (msg : Mem) : Nat := u16 (matchLength msg - taggedBytes msg)

def newLength (msg : Mem) : Nat := padTo8 (leftLength msg)

def exceptLength (msg : Mem) : Nat :=
  if leftLength msg % 8 = 0 then u16 (taggedBytes msg) else u16 (totalLength msg - newLength msg)

def firstInstLength (msg : Mem) : Nat := ntohs (msg.load16 (mat + totalLength msg + 2))

/--
The bytes behind the match once it was rewritten: as many bytes as the first instruction claims to
have come from where it stood, unless the new match is the longer one.
-/
def behindMatch (msg : Mem) : Mem := fun i =>
  if newLength msg ≤ totalLength msg ∧ i < mat + newLength msg + firstInstLength msg then
    msg (i + (totalLength msg - newLength msg))
  else
    msg i

-- the first instruction and the list of actions behind its head, as they stand there
def instStart (msg : Mem) : Nat := mat + newLength msg

def instLength (msg : Mem) : Nat := ntohs ((behindMatch msg).load16 (instStart msg + 2))

def listLength (msg : Mem) : Nat := u16 (instLength msg - 8)

def FiltersActions (msg : Mem) : Prop :=
  msg command = ofpfcAdd ∧ hasInst msg (totalLength msg) = true
    ∧ (behindMatch msg).load16 (instStart msg) = 0x0400

theorem totalLength_mod (msg : Mem) : totalLength msg % 8 = 0 := by
  unfold totalLength padTo8 u16
  rw [and_seven]
  dsimp only
  split <;> omega

theorem newLength_mod (msg : Mem) : newLength msg % 8 = 0 := by
  unfold newLength padTo8 u16
  rw [and_seven]
  dsimp only
  split <;> omega

end FlowModProcessed

namespace packMathchExceptType

open FlowModProcessed

theorem loop_of_isTagged {msg : Mem} {ins pos : Nat} (new tick : Nat) (buf : FilterBuf)
    (hpos : pos + 4 < ins) (htag : isTaggedItem msg pos = true)
    : loop msg 0x8000 0x36 0x7F ins pos new buf tick
        =
      loop msg 0x8000 0x36 0x7F ins (pos + itemLen msg pos) new buf
        (u16 (tick + itemLen msg pos)) := by
  rw [isTaggedItem, decide_eq_true_iff] at htag
  rw [loop, if_pos hpos]
  dsimp only
  rw [if_pos htag]
  rfl

theorem loop_of_notTagged {msg : Mem} {ins pos : Nat} (new tick : Nat) (buf : FilterBuf)
    (hpos : pos + 4 < ins) (htag : ¬isTaggedItem msg pos = true)
    : loop msg 0x8000 0x36 0x7F ins pos new buf tick
        =
      loop msg 0x8000 0x36 0x7F ins (pos + itemLen msg pos) (new + itemLen msg pos)
        (copyItem msg pos new buf) tick := by
  rw [isTaggedItem, decide_eq_true_iff] at htag
  apply loop_of_copied hpos htag

theorem loop_tick (msg : Mem) (ins pos new tick : Nat) (buf : FilterBuf) (htick : tick < 65536)
    : (loop msg 0x8000 0x36 0x7F ins pos new buf tick).2 = u16 (tick + taggedFrom msg ins pos) := by
  fun_induction taggedFrom msg ins pos generalizing new tick buf with
  | case1 pos hpos ih =>
    by_cases htag : isTaggedItem msg pos = true
    . rw [loop_of_isTagged new tick buf hpos htag, ih new _ buf (u16_lt _), if_pos htag]
      have := u16_emod (tick + itemLen msg pos)
      unfold u16 at *
      omega
    . rw [loop_of_notTagged new tick buf hpos htag, ih _ tick _ htick, if_neg htag, Nat.zero_add]
  | case2 pos hpos =>
    rw [loop, if_neg hpos]
    unfold u16
    omega

theorem loop_frame (msg : Mem) (ins pos new tick : Nat) (buf : FilterBuf) (hle : pos + 4 ≤ ins)
    : taggedFrom msg ins pos ≤ ins - 4 - pos
        ∨ ∀ j, new + (ins - 4 - pos) ≤ j
            → (loop msg 0x8000 0x36 0x7F ins pos new buf tick).1.mem j = buf.mem j := by
  fun_induction taggedFrom msg ins pos generalizing new tick buf with
  | case1 pos hpos ih =>
    by_cases hin : pos + itemLen msg pos + 4 ≤ ins
    . by_cases htag : isTaggedItem msg pos = true
      . rw [loop_of_isTagged new tick buf hpos htag, if_pos htag]
        cases ih new (u16 (tick + itemLen msg pos)) buf hin with
        | inl htagged =>
          left
          omega
        | inr hframe =>
          right
          intro j hj
          apply hframe
          omega
      . rw [loop_of_notTagged new tick buf hpos htag, if_neg htag]
        cases ih (new + itemLen msg pos) tick (copyItem msg pos new buf) hin with
        | inl htagged =>
          left
          omega
        | inr hframe =>
          right
          intro j hj
          rw [hframe j (by omega), copyItem_apply, if_neg]
          change ¬(new ≤ j ∧ j < new + itemLen msg pos)
          omega
    . have hend : taggedFrom msg ins (pos + itemLen msg pos) = 0 := by
        rw [taggedFrom, if_neg (by omega)]
      by_cases htag : isTaggedItem msg pos = true
      . right
        intro j hj
        rw [loop_of_isTagged new tick buf hpos htag, loop, if_neg (by omega)]
      . left
        rw [if_neg htag, hend]
        omega
  | case2 pos hpos =>
    left
    omega

end packMathchExceptType

namespace FlowModProcessed

theorem leftLength_eq (msg : Mem)
    : (if 0x7 &&& matchLength msg ≠ 0 then
        u16 (u16 (totalLength msg - u16 (taggedBytes msg)) - (8 - (0x7 &&& matchLength msg : Nat)))
      else
        u16 (totalLength msg - u16 (taggedBytes msg)))
        =
      leftLength msg := by
  have hold : matchLength msg < 65536 := ntohs_lt _
  unfold leftLength totalLength padTo8 u16
  simp only [and_seven]
  split <;> omega

theorem exceptLength_eq (msg : Mem) (h : 0x7 &&& leftLength msg ≠ 0)
    : u16 (u16 (taggedBytes msg)
          - (8 - (0x7 &&& leftLength msg : Nat)
            - (if 0x7 &&& matchLength msg ≠ 0 then 8 - (0x7 &&& matchLength msg) else 0 : Nat)))
        =
      exceptLength msg := by
  have hold : matchLength msg < 65536 := ntohs_lt _
  rw [and_seven] at h
  unfold exceptLength newLength totalLength padTo8
  simp only [and_seven]
  rw [if_neg h, if_pos h]
  unfold leftLength u16 at *
  split <;> omega

-- the loop over the items of the match, from the buffer it is given
def packedItems (msg : Mem) (buf : FilterBuf) : FilterBuf × Nat :=
  packMathchExceptType.loop msg 0x8000 0x36 0x7F (mat + totalLength msg) (mat + 4) 4 buf 0

theorem packedItems_snd (msg : Mem) (buf : FilterBuf)
    : (packedItems msg buf).2 = u16 (taggedBytes msg) := by
  have htick := packMathchExceptType.loop_tick msg (mat + totalLength msg) (mat + 4) 4 0 buf (by decide)
  rw [Int.natCast_zero, Int.zero_add] at htick
  exact htick

theorem packMathchExceptType_eq (msg : Mem) (buf : FilterBuf)
    : packMathchExceptType msg mat 0x8000 0x36 0x7F buf
        =
      { uep := {}
        buf :=
          ((packedItems msg buf).1.store16 0 (msg.load16 mat)).store16 2 (htons (leftLength msg))
        newLen := newLength msg
        exceptLen := exceptLength msg } := by
  have hlen : ntohs (msg.load16 (mat + 2)) = matchLength msg := rfl
  have htotal : padTo8 (matchLength msg) = totalLength msg := rfl
  have hitems : packMathchExceptType.loop msg 0x8000 0x36 0x7F (mat + totalLength msg) (mat + 4) 4 buf 0
      = ((packedItems msg buf).1, u16 (taggedBytes msg)) := by
    rw [← packedItems_snd msg buf]
    rfl
  have hleft := leftLength_eq msg
  unfold packMathchExceptType
  simp only [hlen, htotal, hitems, hleft]
  split
  . next hpad =>
    rw [exceptLength_eq msg hpad, newLength, padTo8, if_pos hpad]
  . next hpad =>
    rw [newLength, padTo8, if_neg hpad, exceptLength]
    rw [Decidable.not_not, and_seven] at hpad
    rw [if_pos hpad]

theorem taggedBytes_of_short {msg : Mem} (h : totalLength msg ≤ 8) : taggedBytes msg = 0 := by
  rw [taggedBytes, taggedFrom, if_neg (by omega)]

theorem newLength_le {msg : Mem} (h : taggedBytes msg ≤ matchLength msg)
    : newLength msg ≤ totalLength msg := by
  have hold : matchLength msg < 65536 := ntohs_lt _
  have hleft : leftLength msg = matchLength msg - taggedBytes msg := u16_sub h hold
  cases Nat.lt_or_ge (matchLength msg + padding (matchLength msg)) 65536 with
  | inl hlt =>
    have hle : leftLength msg + padding (leftLength msg)
        ≤ matchLength msg + padding (matchLength msg) := padded_mono (by omega)
    rw [newLength, totalLength, padTo8_eq hlt, padTo8_eq (by omega)]
    exact hle
  | inr hge =>
    have htotal : totalLength msg = 0 := padTo8_eq_zero hold hge
    rw [taggedBytes_of_short (by omega), Nat.sub_zero] at hleft
    rw [newLength, hleft]
    exact Nat.le_refl (totalLength msg)

theorem totalLength_le (msg : Mem) : totalLength msg ≤ matchLength msg + 7 := by
  unfold totalLength padTo8 u16
  rw [and_seven]
  dsimp only
  split <;> omega

-- A match that grows has items behind its last four bytes, so that zeros stand there in the buffer.
theorem packedItems_of_grown {msg : Mem} {buf : FilterBuf} (h : totalLength msg < newLength msg) {j : Nat}
    (hj : totalLength msg ≤ j + 4) : 8 < totalLength msg ∧ (packedItems msg buf).1.mem j = buf.mem j := by
  have htagged : matchLength msg < taggedBytes msg := by
    rw [← Nat.not_le]
    intro hle
    have := newLength_le hle
    omega
  have hlong : 8 < totalLength msg := by
    rw [← Nat.not_le]
    intro hshort
    have := taggedBytes_of_short hshort
    omega
  refine ⟨hlong, ?_⟩
  have hle := totalLength_le msg
  cases packMathchExceptType.loop_frame msg (mat + totalLength msg) (mat + 4) 4 0 buf (by omega) with
  | inl hfew =>
    change taggedBytes msg ≤ _ at hfew
    omega
  | inr hframe =>
    apply hframe
    omega

def matchPacked (st : Processed) : PackMatch :=
  packMathchExceptType st.msg mat 0x8000 0x36 0x7F (st.buf.memset (totalLength st.msg + 10))

theorem matchPacked_newLen (st : Processed) : (matchPacked st).newLen = newLength st.msg := by
  rw [matchPacked, packMathchExceptType_eq]

theorem matchPacked_exceptLen (st : Processed) : (matchPacked st).exceptLen = exceptLength st.msg := by
  rw [matchPacked, packMathchExceptType_eq]

-- the frame with the new match in front of the old instructions
def withNewMatch (st : Processed) : Mem :=
  (st.msg.store16 2 (htons (u16 (headerLength st.msg - (matchPacked st).exceptLen)))).copyFrom mat
    (matchPacked st).buf.mem 0 (matchPacked st).newLen

theorem rewriteMatch_instStart (exp : ℚ → ℚ) (st : Processed)
    : mat + (rewriteMatch exp st).2 = instStart st.msg := by
  rw [instStart, ← matchPacked_newLen]
  rfl

theorem rewriteMatch_msg (exp : ℚ → ℚ) (st : Processed)
    : (rewriteMatch exp st).1.msg =
        if hasInst st.msg (totalLength st.msg) then
          (withNewMatch st).move (mat + newLength st.msg) (mat + totalLength st.msg)
            (ntohs ((withNewMatch st).load16 (mat + totalLength st.msg + 2)))
        else
          withNewMatch st := by
  rw [← matchPacked_newLen]
  rfl

theorem withNewMatch_behind (st : Processed) {j : Nat} (hj : mat + newLength st.msg ≤ j)
    : withNewMatch st j = st.msg j := by
  unfold mat at hj
  rw [withNewMatch, matchPacked_newLen, Mem.copyFrom_outside _ _ (by unfold mat; omega),
    Mem.store16_ne _ _ (by omega) (by omega)]

theorem withNewMatch_of_grown {st : Processed} (h : totalLength st.msg < newLength st.msg) {j : Nat}
    (h1 : totalLength st.msg ≤ j + 4) (h2 : j < totalLength st.msg + 8)
    : withNewMatch st (mat + j) = 0 := by
  have hmod := totalLength_mod st.msg
  have hmod' := newLength_mod st.msg
  rcases @packedItems_of_grown _ (st.buf.memset (totalLength st.msg + 10)) h _ h1 with
    ⟨hlong, hitems⟩
  rw [withNewMatch, matchPacked_newLen, Mem.copyFrom_apply, if_pos (by omega), matchPacked,
    packMathchExceptType_eq]
  simp only [FilterBuf.store16]
  rw [Mem.store16_ne _ _ (by omega) (by omega), Mem.store16_ne _ _ (by omega) (by omega),
    show 0 + (mat + j - mat) = j by omega, hitems]
  simp only [FilterBuf.memset]
  rw [Mem.fill_apply, if_pos (by omega)]

theorem headerLength_rewriteMatch (exp : ℚ → ℚ) (st : Processed)
    : headerLength (rewriteMatch exp st).1.msg = u16 (headerLength st.msg - exceptLength st.msg) := by
  have hnew : headerLength (withNewMatch st) = u16 (headerLength st.msg - exceptLength st.msg) := by
    have hfront : (withNewMatch st).At 2
        (be16 (u16 (headerLength st.msg - (matchPacked st).exceptLen))) := by
      rw [withNewMatch, Mem.copyFrom_frame (by simp [mat])]
      apply Mem.store16_htons_at
    rw [← matchPacked_exceptLen]
    apply hfront.ntohs_load16 (u16_lt _)
  rw [rewriteMatch_msg]
  split
  . rw [← hnew]
    unfold headerLength Mem.load16
    rw [Mem.move_before _ (by unfold mat; omega), Mem.move_before _ (by unfold mat; omega)]
  . exact hnew

-- how many bytes are moved behind the new match
theorem movedLength_eq (st : Processed)
    : ntohs ((withNewMatch st).load16 (mat + totalLength st.msg + 2)) =
        if newLength st.msg ≤ totalLength st.msg then firstInstLength st.msg else 0 := by
  split
  . next hle =>
    unfold firstInstLength Mem.load16
    rw [withNewMatch_behind _ (by omega), withNewMatch_behind _ (by omega)]
  . next hlt =>
    rw [Mem.ntohs_load16, Nat.add_assoc, Nat.add_assoc, withNewMatch_of_grown (by omega) (by omega)
      (by omega), withNewMatch_of_grown (by omega) (by omega) (by omega)]
    rfl

theorem rewriteMatch_behind (exp : ℚ → ℚ) {st : Processed}
    (hinst : hasInst st.msg (totalLength st.msg) = true) {j : Nat} (hj : instStart st.msg ≤ j)
    : (rewriteMatch exp st).1.msg j = behindMatch st.msg j := by
  unfold instStart at hj
  rw [rewriteMatch_msg, if_pos hinst, movedLength_eq]
  unfold behindMatch
  split
  . next hle =>
    rw [Mem.move_apply _ (by omega)]
    by_cases hin : j < mat + newLength st.msg + firstInstLength st.msg
    . rw [if_pos ⟨hj, hin⟩, if_pos ⟨hle, hin⟩, withNewMatch_behind _ (by omega)]
      congr 1
      omega
    . rw [if_neg (fun h => hin h.2), if_neg (fun h => hin h.2), withNewMatch_behind _ hj]
  . next hlt =>
    rw [if_neg (fun h => hlt h.1)]
    exact withNewMatch_behind _ hj

theorem load16_rewriteMatch (exp : ℚ → ℚ) {st : Processed}
    (hinst : hasInst st.msg (totalLength st.msg) = true) {j : Nat} (hj : instStart st.msg ≤ j)
    : (rewriteMatch exp st).1.msg.load16 j = (behindMatch st.msg).load16 j := by
  unfold Mem.load16
  rw [rewriteMatch_behind exp hinst hj, rewriteMatch_behind exp hinst (by omega)]

end FlowModProcessed
end OfpProxy
