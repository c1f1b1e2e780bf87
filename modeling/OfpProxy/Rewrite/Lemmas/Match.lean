import OfpProxy.OpenFlow.Frame
import OfpProxy.Rewrite.Impl.Match

/-!
This module shows what `pack_mathch_except_type` does to a well-formed match.
-/

namespace OfpProxy

theorem and_seven (n : Nat) : 0x7 &&& n = n % 8 := by
  rw [Nat.and_comm]
  apply Nat.and_two_pow_sub_one_eq_mod n 3

theorem padTo8_eq {n : Nat} (h : n + padding n < 65536) : padTo8 n = n + padding n := by
  unfold padTo8 padding at *
  rw [and_seven]
  dsimp
  split
  . rw [u16_of_lt] <;> omega
  . omega

theorem padTo8_eq_zero {n : Nat} (h1 : n < 65536) (h2 : 65536 ≤ n + padding n) : padTo8 n = 0 := by
  unfold padTo8 padding u16 at *
  rw [and_seven]
  dsimp
  split <;> omega

theorem OxmItem.at_encode {msg : Mem} {pos : Nat} {item : OxmItem} (h : msg.At pos item.encode)
    : ntohs (msg.load16 pos) = item.oxmClass.toNat ∧ msg (pos + 2) = item.oxmFieldId
        ∧ (msg (pos + 3)).toNat = item.value.length
        ∧ msg (pos + 4) = item.value.head item.value_ne_nil ∧ msg.At (pos + 4) item.value := by
  simp only [OxmItem.encode, Mem.at_append, Mem.at_cons, Mem.at_nil, length_be16, List.length_append,
    List.length_cons, List.length_nil] at h
  rcases h with ⟨⟨hcls, hfield, hlen, -⟩, hval⟩
  have hlt := item.length_lt
  refine ⟨hcls.ntohs_load16 item.oxmClass.toNat_lt, hfield, ?_, ?_, hval⟩
  . rw [show pos + 3 = pos + 2 + 1 by omega, hlen]
    simp
    omega
  . have hpos := List.length_pos_iff.mpr item.value_ne_nil
    have hget := hval.get 0 hpos
    rw [List.getElem_zero] at hget
    exact hget

namespace packMathchExceptType

theorem loop_of_tagged {msg : Mem} {ins pos new tick : Nat} {buf : FilterBuf} {item : OxmItem}
    (hitem : msg.At pos item.encode) (hpos : pos + 4 < ins) (htag : item.isTagged)
    : loop msg 0x8000 0x36 0x7F ins pos new buf tick
        =
      loop msg 0x8000 0x36 0x7F ins (pos + item.len) new buf (u16 (tick + item.len)) := by
  rcases OxmItem.at_encode hitem with ⟨hcls, hfield, hlen, hhead, -⟩
  simp only [OxmItem.isTagged, decide_eq_true_eq] at htag
  rw [loop, if_pos hpos]
  simp only [hcls, hfield, hlen, hhead, htag]
  simp [OxmItem.len]

def copyItem (msg : Mem) (pos new : Nat) (buf : FilterBuf) : FilterBuf :=
  let buf := buf.store16 new (msg.load16 pos)
  let buf := buf.store (new + 2) (msg (pos + 2))
  let buf := buf.store (new + 3) (msg (pos + 3))
  buf.copyFrom (new + 4) msg (pos + 4) (msg (pos + 3)).toNat

theorem copyItem_apply (msg : Mem) (pos new j : Nat) (buf : FilterBuf)
    : (copyItem msg pos new buf).mem j =
        if new ≤ j ∧ j < new + (4 + (msg (pos + 3)).toNat) then
          msg (pos + (j - new))
        else
          buf.mem j := by
  simp only [copyItem, FilterBuf.store16, FilterBuf.store, FilterBuf.copyFrom, Mem.copyFrom_apply,
    Mem.store_apply, Mem.store16_load16_apply]
  split
  . rw [if_pos (by omega)]
    congr 1
    omega
  . split
    . rw [if_pos (by omega), show pos + (j - new) = pos + 3 by omega]
    . split
      . rw [if_pos (by omega), show pos + (j - new) = pos + 2 by omega]
      . split
        . rw [if_pos (by omega)]
        . rw [if_neg (by omega)]

theorem copyItem_top (msg : Mem) (pos new : Nat) (buf : FilterBuf)
    : (copyItem msg pos new buf).top = max buf.top (new + (4 + (msg (pos + 3)).toNat)) := by
  simp only [copyItem, FilterBuf.store16, FilterBuf.store, FilterBuf.copyFrom]
  omega

theorem loop_of_copied {msg : Mem} {ins pos new tick : Nat} {buf : FilterBuf} (hpos : pos + 4 < ins)
    (hne : ¬(ntohs (msg.load16 pos) = 0x8000 ∧ msg (pos + 2) = 0x36 ∧ msg (pos + 4) = 0x7F))
    : loop msg 0x8000 0x36 0x7F ins pos new buf tick
        =
      loop msg 0x8000 0x36 0x7F ins (pos + (4 + (msg (pos + 3)).toNat))
        (new + (4 + (msg (pos + 3)).toNat)) (copyItem msg pos new buf) tick := by
  rw [loop, if_pos hpos]
  dsimp
  rw [if_neg hne]
  rfl

theorem loop_of_untagged {msg : Mem} {ins pos new tick : Nat} {buf : FilterBuf} {item : OxmItem}
    (hitem : msg.At pos item.encode) (hpos : pos + 4 < ins) (htag : item.isTagged = false)
    : loop msg 0x8000 0x36 0x7F ins pos new buf tick
        =
      loop msg 0x8000 0x36 0x7F ins (pos + item.len) (new + item.len) (copyItem msg pos new buf)
        tick := by
  rcases OxmItem.at_encode hitem with ⟨hcls, hfield, hlen, hhead, -⟩
  simp only [OxmItem.isTagged, decide_eq_false_iff_not] at htag
  rw [loop_of_copied hpos, hlen]
  . rfl
  . rw [hcls, hfield, hhead]
    intro h
    apply htag
    rcases h with ⟨hc, hf, hv⟩
    exact ⟨UInt16.toNat_inj.mp hc, hf, hv⟩

theorem copyItem_at {msg : Mem} {pos new : Nat} {buf : FilterBuf} {item : OxmItem}
    (hitem : msg.At pos item.encode)
    : (copyItem msg pos new buf).mem.At new item.encode := by
  have hlen := (OxmItem.at_encode hitem).2.2.1
  rw [Mem.at_iff_get]
  intro i hi
  rw [OxmItem.length_encode, OxmItem.len] at hi
  rw [copyItem_apply, hlen, if_pos (by omega), show pos + (new + i - new) = pos + i by omega]
  apply hitem.get

theorem copyItem_outside {msg : Mem} {pos new j : Nat} {buf : FilterBuf} {item : OxmItem}
    (hitem : msg.At pos item.encode) (hj : j < new ∨ new + item.len ≤ j)
    : (copyItem msg pos new buf).mem j = buf.mem j := by
  have hlen := (OxmItem.at_encode hitem).2.2.1
  unfold OxmItem.len at hj
  rw [copyItem_apply, hlen, if_neg (by omega)]

theorem loop_items {msg : Mem} {ins pos new tick : Nat} {buf : FilterBuf} {items : List OxmItem}
    (hitems : msg.At pos (OxmItem.codec.encodeAll items))
    (hins : pos + (OxmItem.codec.encodeAll items).length ≤ ins)
    (htick : tick + taggedLength items < 65536)
    : ∃ buf',
        loop msg 0x8000 0x36 0x7F ins pos new buf tick
            =
          loop msg 0x8000 0x36 0x7F ins (pos + (OxmItem.codec.encodeAll items).length)
            (new + (OxmItem.codec.encodeAll (untaggedItems items)).length) buf'
            (tick + taggedLength items)
          ∧ buf'.mem.At new (OxmItem.codec.encodeAll (untaggedItems items))
          ∧ (∀ j, j < new ∨ new + (OxmItem.codec.encodeAll (untaggedItems items)).length ≤ j
              → buf'.mem j = buf.mem j)
          ∧ buf'.top
              ≤ max buf.top (new + (OxmItem.codec.encodeAll (untaggedItems items)).length) := by
  induction items generalizing pos new tick buf with
  | nil => exact ⟨buf, rfl, trivial, fun _ _ => rfl, by omega⟩
  | cons item items ih =>
    rw [Codec.encodeAll_cons, Mem.at_append] at hitems
    rcases hitems with ⟨hitem, hitems⟩
    have h5 := item.five_le_len
    have henc : (OxmItem.codec.encode item).length = item.len := item.length_encode
    rw [Codec.encodeAll_cons, List.length_append, henc] at hins
    rw [henc] at hitems
    cases htag : item.isTagged with
    | true =>
      have hlen : taggedLength (item :: items) = item.len + taggedLength items := by
        simp [taggedLength, htag, henc]
      have hkeep : untaggedItems (item :: items) = untaggedItems items := by
        simp [untaggedItems, htag]
      rw [hlen] at htick
      rw [loop_of_tagged hitem (by omega) htag, u16_add (by omega), hlen, hkeep,
        Codec.encodeAll_cons, List.length_append, henc, ← Nat.add_assoc, ← Nat.add_assoc]
      apply ih hitems <;> omega
    | false =>
      have hlen : taggedLength (item :: items) = taggedLength items := by
        simp [taggedLength, htag]
      have hkeep : untaggedItems (item :: items) = item :: untaggedItems items := by
        simp [untaggedItems, htag]
      rw [hlen] at htick
      rw [loop_of_untagged hitem (by omega) htag, hlen, hkeep]
      simp only [Codec.encodeAll_cons, List.length_append, henc, ← Nat.add_assoc]
      rcases @ih _ (new + item.len) tick (copyItem msg pos new buf) hitems (by omega) htick
        with ⟨buf', hloop, hat, hframe, htop⟩
      refine ⟨buf', hloop, ?_, ?_, ?_⟩
      . rw [Mem.at_append, henc]
        refine ⟨?_, hat⟩
        apply (copyItem_at hitem).of_eq
        intro j h1 h2
        rw [item.length_encode] at h2
        apply hframe
        omega
      . intro j hj
        rw [hframe j (by omega)]
        apply copyItem_outside hitem
        omega
      . rw [copyItem_top, (OxmItem.at_encode hitem).2.2.1] at htop
        unfold OxmItem.len at *
        omega

-- With more than four bytes of padding the loop takes the first four of them for one more item.
theorem loop_padding {msg : Mem} {ins pos new tick : Nat} {buf : FilterBuf} (hle : ins ≤ pos + 7)
    (hzero : ∀ j, pos ≤ j → j < ins → msg j = 0)
    (hbuf : ∀ j, new ≤ j → j + pos < new + ins → buf.mem j = 0)
    : ∃ buf',
        loop msg 0x8000 0x36 0x7F ins pos new buf tick = (buf', tick)
          ∧ (∀ j, buf'.mem j = buf.mem j) ∧ buf'.top ≤ max buf.top (new + (ins - pos)) := by
  cases Nat.lt_or_ge (pos + 4) ins with
  | inl hlt =>
    have h0 := hzero pos (by omega) (by omega)
    have h1 := hzero (pos + 1) (by omega) (by omega)
    have h3 := hzero (pos + 3) (by omega) (by omega)
    refine ⟨copyItem msg pos new buf, ?_, ?_, ?_⟩
    . rw [loop_of_copied hlt, h3, loop, if_neg]
      . simp
        omega
      . simp [Mem.ntohs_load16, h0, h1]
    . intro j
      rw [copyItem_apply, h3]
      split
      . next hj =>
        simp only [UInt8.toNat_zero] at hj
        rw [hbuf j (by omega) (by omega)]
        apply hzero <;> omega
      . rfl
    . rw [copyItem_top, h3]
      simp
      omega
  | inr hge =>
    refine ⟨buf, ?_, fun _ => rfl, by omega⟩
    rw [loop, if_neg (by omega)]

end packMathchExceptType

theorem OfpMatch.at_encode {msg : Mem} {off : Nat} {mat : OfpMatch} (h : msg.At off mat.encode)
    : ntohs (msg.load16 off) = mat.type.toNat ∧ ntohs (msg.load16 (off + 2)) = mat.length
        ∧ msg.At (off + 4) (OxmItem.codec.encodeAll mat.items)
        ∧ ∀ j, off + mat.length ≤ j → j < off + mat.paddedLength → msg j = 0 := by
  simp only [OfpMatch.encode, Mem.at_append, length_be16, List.length_append, Mem.at_replicate] at h
  rcases h with ⟨⟨⟨htype, hlen⟩, hitems⟩, hpad⟩
  refine ⟨htype.ntohs_load16 mat.type.toNat_lt, hlen.ntohs_load16 mat.length_lt, hitems, ?_⟩
  intro j h1 h2
  unfold OfpMatch.paddedLength at h2
  unfold OfpMatch.length at *
  apply hpad <;> omega

namespace packMathchExceptType

theorem loop_match {msg : Mem} {matchMsg : Nat} {mat : OfpMatch} {buf : FilterBuf}
    (hmat : msg.At matchMsg mat.encode) (hbuf : ∀ i < mat.paddedLength, buf.mem i = 0)
    : ∃ buf',
        loop msg 0x8000 0x36 0x7F (matchMsg + mat.paddedLength) (matchMsg + 4) 4 buf 0
            =
          (buf', taggedLength mat.items)
          ∧ buf'.mem.At 4 (OxmItem.codec.encodeAll (untaggedItems mat.items))
          ∧ (∀ j, mat.untagged.length ≤ j → buf'.mem j = buf.mem j)
          ∧ buf'.top ≤ max buf.top mat.paddedLength := by
  rcases OfpMatch.at_encode hmat with ⟨-, -, hitems, hpad⟩
  have hlt := mat.length_lt
  have hkeep := length_untaggedItems mat.items
  have hp : padding mat.length < 8 := Nat.mod_lt _ (by omega)
  have hL : mat.length = 4 + (OxmItem.codec.encodeAll mat.items).length := rfl
  have hN : mat.untagged.length
      = 4 + (OxmItem.codec.encodeAll (untaggedItems mat.items)).length := rfl
  have hP : mat.paddedLength = mat.length + padding mat.length := rfl
  generalize hins : matchMsg + mat.paddedLength = ins
  rcases @loop_items msg ins _ 4 0 buf _ hitems (by omega) (by omega) with
    ⟨buf1, hloop1, hat1, hframe1, htop1⟩
  rcases @loop_padding msg ins (matchMsg + mat.length) mat.untagged.length (taggedLength mat.items) buf1
      (by omega) (by intro j h1 h2; apply hpad <;> omega)
      (by intro j h1 h2; rw [hframe1 j (by omega)]; apply hbuf; omega) with
    ⟨buf2, hloop2, hmem2, htop2⟩
  refine ⟨buf2, ?_, ?_, ?_, ?_⟩
  . rw [hloop1, ← hloop2]
    congr 1 <;> omega
  . apply hat1.of_eq
    intro j h1 h2
    apply hmem2
  . intro j hj
    rw [hmem2, hframe1 j (by omega)]
  . omega

end packMathchExceptType

theorem padTo8_add_sub {len tick new : Nat} (hsum : tick + new = len)
    (hlt : len + padding len < 65536)
    : (if 0x7 &&& len ≠ 0 then
        u16 (u16 ((padTo8 len : Nat) - tick) - (8 - (0x7 &&& len : Nat)))
      else
        u16 ((padTo8 len : Nat) - tick))
        =
      new := by
  rw [padTo8_eq hlt, and_seven]
  unfold padding at *
  split
  . rw [u16_of_lt (by rw [u16_of_lt] <;> omega) (by rw [u16_of_lt] <;> omega), u16_of_lt] <;> omega
  . rw [u16_of_lt] <;> omega

theorem padded_mono {n k : Nat} (h : n ≤ k) : n + padding n ≤ k + padding k := by
  unfold padding
  omega

theorem oldPad_eq (len : Nat) : (if len % 8 ≠ 0 then 8 - len % 8 else 0) = padding len := by
  unfold padding
  split <;> omega

theorem OfpMatch.at_of_header {msg : Mem} {matchMsg : Nat} {mat : OfpMatch} {buf : FilterBuf}
    (htype : msg.At matchMsg (be16 mat.type.toNat))
    (hitems : buf.mem.At 4 (OxmItem.codec.encodeAll mat.items))
    (hzero : ∀ j, mat.length ≤ j → j < mat.paddedLength → buf.mem j = 0)
    : ((buf.store16 0 (msg.load16 matchMsg)).store16 2 (htons mat.length)).mem.At 0 mat.encode := by
  have hL : mat.length = 4 + (OxmItem.codec.encodeAll mat.items).length := rfl
  have hP : mat.paddedLength = mat.length + padding mat.length := rfl
  simp only [FilterBuf.store16, OfpMatch.encode, Mem.at_append, length_be16, List.length_append,
    Nat.zero_add, Nat.reduceAdd]
  refine ⟨⟨⟨?_, ?_⟩, ?_⟩, ?_⟩
  . rw [Mem.store16_frame (by simp)]
    apply Mem.store16_load16_at htype rfl
  . apply Mem.store16_htons_at
  . rw [Mem.store16_frame (by omega), Mem.store16_frame (by omega)]
    exact hitems
  . rw [Mem.store16_frame (by omega), Mem.store16_frame (by omega), Mem.at_replicate]
    intro j h1 h2
    apply hzero <;> omega

-- What `packMathchExceptType` reports as removed. The padding is left out of it when the bytes that
-- stay need none.
def OfpMatch.exceptLen (mat : OfpMatch) : Nat :=
  if mat.untagged.length % 8 = 0 then
    taggedLength mat.items
  else
    mat.paddedLength - mat.untagged.paddedLength

theorem OfpMatch.untagged_paddedLength_le (mat : OfpMatch)
    : mat.untagged.paddedLength ≤ mat.paddedLength := by
  have := mat.length_untagged
  apply padded_mono
  omega

theorem OfpMatch.exceptLen_le (mat : OfpMatch)
    : mat.exceptLen + mat.untagged.paddedLength ≤ mat.paddedLength := by
  have hsum := mat.length_untagged
  have hle := mat.untagged_paddedLength_le
  unfold exceptLen
  split
  . unfold paddedLength padding
    omega
  . omega

theorem OfpMatch.exceptLen_eq_iff (mat : OfpMatch)
    : mat.exceptLen + mat.untagged.paddedLength = mat.paddedLength
        ↔ mat.length % 8 = 0 ∨ mat.untagged.length % 8 ≠ 0 := by
  have hsum := mat.length_untagged
  have hle := mat.untagged_paddedLength_le
  unfold exceptLen
  split
  . unfold paddedLength padding at *
    omega
  . omega

theorem packMathchExceptType_spec {msg : Mem} {matchMsg : Nat} {mat : OfpMatch} {buf : FilterBuf}
    {res : PackMatch} (hmat : msg.At matchMsg mat.encode)
    (hbuf : ∀ i < mat.paddedLength, buf.mem i = 0) (hlt : mat.paddedLength < 65536)
    (hres : packMathchExceptType msg matchMsg 0x8000 0x36 0x7F buf = res)
    : res.uep = {} ∧ res.newLen = mat.untagged.paddedLength
        ∧ res.exceptLen = mat.exceptLen ∧ res.buf.mem.At 0 mat.untagged.encode
        ∧ res.buf.top ≤ max buf.top mat.paddedLength := by
  rcases OfpMatch.at_encode hmat with ⟨-, hlen, -, -⟩
  have htype : msg.At matchMsg (be16 mat.untagged.type.toNat) := by
    simp only [OfpMatch.encode, Mem.at_append] at hmat
    apply hmat.1.1.1
  rcases packMathchExceptType.loop_match hmat hbuf with ⟨buf', hloop, hat, hframe, htop⟩
  have hsum := mat.length_untagged
  have hnew := padTo8_add_sub hsum hlt
  have hP : mat.paddedLength = mat.length + padding mat.length := rfl
  have hQ : mat.untagged.paddedLength = mat.untagged.length + padding mat.untagged.length := rfl
  have hN := mat.untagged.four_le_length
  unfold OfpMatch.exceptLen
  have hle := mat.untagged_paddedLength_le
  unfold packMathchExceptType at hres
  rw [hP] at hloop
  rw [padTo8_eq hlt] at hnew
  simp only [hlen] at hres
  simp only [padTo8_eq hlt] at hres
  simp only [hloop] at hres
  simp only [hnew] at hres
  simp only [and_seven] at hres
  simp only [oldPad_eq] at hres
  have hbytes := OfpMatch.at_of_header htype hat (by
    intro j h1 h2
    rw [hframe j h1]
    apply hbuf
    omega)
  have htop' : max (max buf'.top 2) 4 ≤ max buf.top mat.paddedLength := by
    have := mat.four_le_length
    omega
  split at hres
  . next hmod =>
    have hmod' : padding mat.untagged.length = 8 - mat.untagged.length % 8 := by
      unfold padding
      omega
    rw [if_neg hmod]
    subst hres
    refine ⟨rfl, ?_, ?_, hbytes, htop'⟩
    . dsimp only
      rw [u16_of_lt] <;> omega
    . dsimp only
      rw [u16_of_lt] <;> omega
  . next hmod =>
    have hmod' : padding mat.untagged.length = 0 := by
      unfold padding
      omega
    rw [if_pos (by omega)]
    subst hres
    refine ⟨rfl, ?_, rfl, hbytes, htop'⟩
    dsimp only
    omega

-- A match that ends less than eight bytes below 65536 is taken for an empty one.
theorem packMathchExceptType_of_long {msg : Mem} {matchMsg : Nat} {mat : OfpMatch} {buf : FilterBuf}
    (hmat : msg.At matchMsg mat.encode) (hlong : 65536 ≤ mat.paddedLength)
    : (packMathchExceptType msg matchMsg 0x8000 0x36 0x7F buf).newLen = 0 := by
  rcases OfpMatch.at_encode hmat with ⟨-, hlen, -, -⟩
  have hlt := mat.length_lt
  change mat.length < 65536 at hlt
  have hpad : 65536 - mat.length = 8 - mat.length % 8 ∧ mat.length % 8 ≠ 0 := by
    unfold OfpMatch.paddedLength padding at hlong
    omega
  have hnew : u16 (u16 ((0 : Nat) - (0 : Nat)) - (8 - (mat.length % 8 : Nat))) = mat.length := by
    unfold u16
    omega
  have hzero : u16 (mat.length + (8 - (mat.length % 8 : Nat))) = 0 := by
    unfold u16
    omega
  have hloop : packMathchExceptType.loop msg 0x8000 0x36 0x7F (matchMsg + 0) (matchMsg + 4) 4 buf 0
      = (buf, 0) := by
    rw [packMathchExceptType.loop, if_neg (by omega)]
  unfold packMathchExceptType
  simp only [hlen]
  simp only [padTo8_eq_zero hlt hlong]
  simp only [hloop]
  simp only [and_seven]
  simp only [if_pos hpad.2]
  simp only [hnew]
  simp only [if_pos hpad.2]
  exact hzero

end OfpProxy
