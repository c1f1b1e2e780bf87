import OfpProxy.Codec.Basic
import OfpProxy.Memory.Basic

/-!
This module contains the two type-length-value headers of OpenFlow as codecs: a 16-bit type with a
16-bit length that counts the header, and the OXM header whose 8-bit length does not.
-/

namespace OfpProxy

abbrev Block (n : Nat) := { bs : List UInt8 // bs.length = n }

structure Tlv where
  type : UInt16
  body : List UInt8
  length_lt : 4 + body.length < 65536
  deriving DecidableEq

namespace Tlv

def len (t : Tlv) : Nat := 4 + t.body.length

def encode (t : Tlv) : List UInt8 := be16 t.type.toNat ++ be16 t.len ++ t.body

@[simp]
theorem length_encode (t : Tlv) : t.encode.length = t.len := by
  simp [encode, len]
  omega

theorem len_lt (t : Tlv) : t.len < 65536 := t.length_lt

def decode : List UInt8 → Option (Tlv × List UInt8)
  | t1 :: t0 :: l1 :: l0 :: rest =>
    let len := l1.toNat * 256 + l0.toNat
    if 4 ≤ len ∧ len - 4 ≤ rest.length then
      have hlen : 4 + (rest.take (len - 4)).length < 65536 := by
        have h1 := l1.toNat_lt
        have h0 := l0.toNat_lt
        simp only [List.length_take]
        omega
      some (⟨UInt16.ofNat (t1.toNat * 256 + t0.toNat), rest.take (len - 4), hlen⟩, rest.drop (len - 4))
    else
      none
  | _ => none

theorem decode_encode (t : Tlv) (rest : List UInt8) : decode (t.encode ++ rest) = some (t, rest) := by
  have hlen := t.length_lt
  have hty := t.type.toNat_lt
  have hsub : t.len - 4 = t.body.length := by
    simp [len]
  simp only [encode, be16, List.cons_append, List.nil_append, decode]
  simp only [toNat_be16 t.len_lt, toNat_be16 hty, hsub]
  rw [if_pos]
  . simp
  . simp [len]

theorem encode_of_decode (bs : List UInt8) (t : Tlv) (rest : List UInt8)
    (h : decode bs = some (t, rest)) : bs = t.encode ++ rest := by
  unfold decode at h
  split at h
  . next t1 t0 l1 l0 tl =>
    have h1 := t1.toNat_lt
    have h0 := t0.toNat_lt
    dsimp at h
    split at h
    . next hle =>
      simp only [Option.some.injEq, Prod.mk.injEq] at h
      rcases h with ⟨rfl, rfl⟩
      have hty : (UInt16.ofNat (t1.toNat * 256 + t0.toNat)).toNat = t1.toNat * 256 + t0.toNat := by
        simp
        omega
      have hln : 4 + min (l1.toNat * 256 + l0.toNat - 4) tl.length = l1.toNat * 256 + l0.toNat := by
        omega
      simp only [encode, len, List.length_take, hty, hln, be16_of_bytes]
      simp
    . simp at h
  . simp at h

theorem at_encode {m : Mem} {pos : Nat} {t : Tlv} (h : m.At pos t.encode)
    : ntohs (m.load16 pos) = t.type.toNat ∧ ntohs (m.load16 (pos + 2)) = t.len
        ∧ m.At (pos + 4) t.body := by
  simp only [encode, Mem.at_append, length_be16, List.length_append] at h
  rcases h with ⟨⟨htype, hlen⟩, hbody⟩
  exact ⟨htype.ntohs_load16 t.type.toNat_lt, hlen.ntohs_load16 t.len_lt, hbody⟩

theorem four_le_len (t : Tlv) : 4 ≤ t.len := by
  unfold len
  omega

def codec : Codec Tlv where
  encode := encode
  decode := decode
  encode_ne_nil t := by simp [encode, be16]
  decode_encode := decode_encode
  encode_of_decode := encode_of_decode

end Tlv
end OfpProxy
