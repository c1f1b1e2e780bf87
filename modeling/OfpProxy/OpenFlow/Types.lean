import OfpProxy.Codec.Tlv
import OfpProxy.Memory.Copy

/-!
This module contains the OpenFlow structures the proxy looks into: the match with its OXM items,
actions and instructions. Each one carries the length conditions that make it well formed.
-/

namespace OfpProxy

structure OxmItem where
  oxmClass : UInt16
  oxmFieldId : UInt8
  value : List UInt8
  value_ne_nil : value ≠ []
  length_lt : value.length < 256
  deriving DecidableEq

namespace OxmItem

def len (item : OxmItem) : Nat := 4 + item.value.length

def encode (item : OxmItem) : List UInt8 :=
  be16 item.oxmClass.toNat ++ [item.oxmFieldId, UInt8.ofNat item.value.length] ++ item.value

@[simp]
theorem length_encode (item : OxmItem) : item.encode.length = item.len := by
  simp [encode, len]
  omega

theorem five_le_len (item : OxmItem) : 5 ≤ item.len := by
  have : 0 < item.value.length := by
    rw [List.length_pos_iff]
    apply item.value_ne_nil
  unfold len
  omega

theorem decode_ne_nil {l : UInt8} {rest : List UInt8} (h : 1 ≤ l.toNat ∧ l.toNat ≤ rest.length)
    : rest.take l.toNat ≠ [] := by
  rw [← List.length_pos_iff, List.length_take]
  omega

theorem decode_length_lt (l : UInt8) (rest : List UInt8) : (rest.take l.toNat).length < 256 := by
  have hlt := l.toNat_lt
  rw [List.length_take]
  omega

def decode : List UInt8 → Option (OxmItem × List UInt8)
  | c1 :: c0 :: field :: l :: rest =>
    if h : 1 ≤ l.toNat ∧ l.toNat ≤ rest.length then
      some
        (⟨UInt16.ofNat (c1.toNat * 256 + c0.toNat), field, rest.take l.toNat, decode_ne_nil h,
          decode_length_lt l rest⟩, rest.drop l.toNat)
    else
      none
  | _ => none

theorem decode_encode (item : OxmItem) (rest : List UInt8)
    : decode (item.encode ++ rest) = some (item, rest) := by
  have hlen := item.length_lt
  have hcls := item.oxmClass.toNat_lt
  have hpos : 1 ≤ item.value.length := by
    have := item.five_le_len
    unfold len at this
    omega
  have hl : (UInt8.ofNat item.value.length).toNat = item.value.length := by
    simp
    omega
  simp only [encode, be16, List.cons_append, List.nil_append, decode]
  simp only [toNat_be16 hcls, hl]
  rw [dif_pos]
  . simp
  . simp
    omega

theorem encode_of_decode (bs : List UInt8) (item : OxmItem) (rest : List UInt8)
    (h : decode bs = some (item, rest)) : bs = item.encode ++ rest := by
  unfold decode at h
  split at h
  . next c1 c0 field l tl =>
    have h1 := c1.toNat_lt
    have h0 := c0.toNat_lt
    split at h
    . next hle =>
      simp only [Option.some.injEq, Prod.mk.injEq] at h
      rcases h with ⟨rfl, rfl⟩
      have hcls : (UInt16.ofNat (c1.toNat * 256 + c0.toNat)).toNat = c1.toNat * 256 + c0.toNat := by
        simp
        omega
      have hln : min l.toNat tl.length = l.toNat := by
        omega
      simp only [encode, List.length_take, hcls, hln, be16_of_bytes, UInt8.ofNat_toNat]
      simp
    . simp at h
  . simp at h

def codec : Codec OxmItem where
  encode := encode
  decode := decode
  encode_ne_nil item := by simp [encode, be16]
  decode_encode := decode_encode
  encode_of_decode := encode_of_decode

end OxmItem

def padding (length : Nat) : Nat := (8 - length % 8) % 8

structure OfpMatch where
  type : UInt16
  items : List OxmItem
  length_lt : 4 + (OxmItem.codec.encodeAll items).length < 65536

namespace OfpMatch

def length (mat : OfpMatch) : Nat := 4 + (OxmItem.codec.encodeAll mat.items).length

def paddedLength (mat : OfpMatch) : Nat := mat.length + padding mat.length

def encode (mat : OfpMatch) : List UInt8 :=
  be16 mat.type.toNat ++ be16 mat.length ++ OxmItem.codec.encodeAll mat.items ++
    List.replicate (padding mat.length) 0

@[simp]
theorem length_encode (mat : OfpMatch) : mat.encode.length = mat.paddedLength := by
  simp [encode, paddedLength, length]
  omega

theorem four_le_length (mat : OfpMatch) : 4 ≤ mat.length := by
  unfold length
  omega

end OfpMatch

structure Action extends Tlv where
  four_le : 4 ≤ body.length
  deriving DecidableEq

namespace Action

def codec : Codec Action :=
  Tlv.codec.pmap (fun t => if h : 4 ≤ t.body.length then some ⟨t, h⟩ else none) Action.toTlv
    (by intro a; simp [a.four_le])
    (by
      intro t a h
      split at h
      . simp only [Option.some.injEq] at h
        rw [← h]
      . simp at h)

@[simp]
theorem length_encode (a : Action) : (codec.encode a).length = a.len := a.toTlv.length_encode

theorem eight_le_len (a : Action) : 8 ≤ a.len := by
  have := a.four_le
  unfold Tlv.len
  omega

end Action

def ofpitApplyActions : UInt16 := 4

inductive Instruction where
  | applyActions (pad : Block 4) (actions : List Action)
      (length_lt : 8 + (Action.codec.encodeAll actions).length < 65536)
  | other (tlv : Tlv) (type_ne : tlv.type ≠ ofpitApplyActions)
  deriving DecidableEq

namespace Instruction

def toTlv : Instruction → Tlv
  | applyActions pad actions length_lt =>
    ⟨ofpitApplyActions, pad.val ++ Action.codec.encodeAll actions, by
      rw [List.length_append, pad.property]
      omega⟩
  | other tlv _ => tlv

def ofTlv (t : Tlv) : Option Instruction :=
  if htype : t.type = ofpitApplyActions then
    if hpad : 4 ≤ t.body.length then
      match hact : Action.codec.decodeAll (t.body.drop 4) with
      | none => none
      | some actions =>
        have hlen : 8 + (Action.codec.encodeAll actions).length < 65536 := by
          have := t.length_lt
          rw [← (Action.codec.decodeAll_eq_some_iff _ _).mp hact, List.length_drop]
          omega
        some (applyActions ⟨t.body.take 4, by simpa using hpad⟩ actions hlen)
    else
      none
  else
    some (other t htype)

theorem ofTlv_toTlv (i : Instruction) : ofTlv i.toTlv = some i := by
  cases i with
  | applyActions pad actions hlen =>
    rcases pad with ⟨pad, hpad⟩
    generalize ht : (applyActions ⟨pad, hpad⟩ actions hlen).toTlv = t
    have htype : t.type = ofpitApplyActions := by rw [← ht]; rfl
    have hbody : t.body = pad ++ Action.codec.encodeAll actions := by rw [← ht]; rfl
    have hdrop : t.body.drop 4 = Action.codec.encodeAll actions := by
      rw [hbody, ← hpad, List.drop_left]
    have htake : t.body.take 4 = pad := by
      rw [hbody, ← hpad, List.take_left]
    have hact := (Action.codec.decodeAll_eq_some_iff _ _).mpr hdrop
    unfold ofTlv
    rw [dif_pos htype, dif_pos (by rw [hbody, List.length_append]; omega)]
    split
    . next hnone =>
      rw [hact] at hnone
      simp at hnone
    . next actions' hsome =>
      rw [hact] at hsome
      simp only [Option.some.injEq] at hsome
      subst hsome
      simp [htake]
  | other tlv htype => simp [ofTlv, toTlv, htype]

theorem toTlv_ofTlv (t : Tlv) (i : Instruction) (h : ofTlv t = some i) : i.toTlv = t := by
  unfold ofTlv at h
  split at h
  . next htype =>
    split at h
    . split at h
      . simp at h
      . next actions hact =>
        simp only [Option.some.injEq] at h
        subst h
        rcases t with ⟨type, body, hlen⟩
        simp only at htype hact
        simp only [toTlv, Tlv.mk.injEq]
        rw [← (Action.codec.decodeAll_eq_some_iff _ _).mp hact]
        exact ⟨htype.symm, List.take_append_drop 4 body⟩
    . simp at h
  . simp only [Option.some.injEq] at h
    subst h
    rfl

def codec : Codec Instruction := Tlv.codec.pmap ofTlv toTlv ofTlv_toTlv toTlv_ofTlv

theorem encode_applyActions (pad : Block 4) (actions : List Action)
    (hlen : 8 + (Action.codec.encodeAll actions).length < 65536)
    : codec.encode (applyActions pad actions hlen)
        =
      be16 4 ++ be16 (8 + (Action.codec.encodeAll actions).length) ++ pad.val
        ++ Action.codec.encodeAll actions := by
  have hpad := pad.property
  have hbody : 4 + (pad.val ++ Action.codec.encodeAll actions).length
      = 8 + (Action.codec.encodeAll actions).length := by
    rw [List.length_append]
    omega
  change be16 4 ++ be16 (4 + (pad.val ++ Action.codec.encodeAll actions).length)
    ++ (pad.val ++ Action.codec.encodeAll actions) = _
  rw [hbody, List.append_assoc, List.append_assoc, List.append_assoc]

def len (i : Instruction) : Nat := i.toTlv.len

@[simp]
theorem length_encode (i : Instruction) : (codec.encode i).length = i.len := i.toTlv.length_encode

theorem len_applyActions (pad : Block 4) (actions : List Action)
    (hlen : 8 + (Action.codec.encodeAll actions).length < 65536)
    : (applyActions pad actions hlen).len = 8 + (Action.codec.encodeAll actions).length := by
  simp [len, toTlv, Tlv.len, pad.property]
  omega

end Instruction
end OfpProxy
