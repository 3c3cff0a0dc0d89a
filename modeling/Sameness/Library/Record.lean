import Sameness.Library.Cpp

/-!
# Records of fixed-width fields

A record whose fields have fixed widths is laid out field after field. `Record widths` are the
values of such a record, `Record.encode` its bytes, and `Record.decode` reads it at an offset of
a buffer, each field behind the widths of those before it. The two maps are inverse:
`decode_encode` for a record anywhere in a buffer, `encode_decode` for a buffer that is long
enough.
-/

open Bytes Cpp

/-- The values of the fields of a record, by their widths in bytes. -/
def Record : List ℕ → Type
  | [] => Unit
  | n :: widths => BitVec (8 * n) × Record widths

namespace Record

/-- The bytes of a record, field by field. -/
def encode (o : ByteOrder) : {widths : List ℕ} → Record widths → List UInt8
  | [], () => []
  | n :: _, (v, r) => o.encode n v.toNat ++ encode o r

/-- The record at an offset of a buffer. -/
def decode (o : ByteOrder) (buf : List UInt8) : (widths : List ℕ) → ℕ → Record widths
  | [], _ => ()
  | n :: widths, off => (BitVec.ofNat (8 * n) (word o off n buf), decode o buf widths (off + n))

variable {o : ByteOrder}

@[simp]
theorem length_encode {widths : List ℕ} (r : Record widths) :
    (encode o r).length = widths.sum := by
  induction widths with
  | nil => rfl
  | cons n widths ih =>
    obtain ⟨v, r⟩ := r
    rw [encode, List.length_append, ByteOrder.length_encode, ih, List.sum_cons]

private theorem pow_width (n : ℕ) : 2 ^ (8 * n) = 256 ^ n := by rw [pow_mul]; rfl

/-- **Decoding an encoded record** gives it back, wherever in a buffer it is. -/
theorem decode_encode {widths : List ℕ} (r : Record widths) (pre rest : List UInt8) :
    decode o (pre ++ (encode o r ++ rest)) widths pre.length = r := by
  induction widths generalizing pre with
  | nil => rfl
  | cons n widths ih =>
    obtain ⟨v, r⟩ := r
    have hlen : (o.encode n v.toNat).length = n := ByteOrder.length_encode _ _ _
    have hword : word o pre.length n (pre ++ (o.encode n v.toNat ++ (encode o r ++ rest))) =
        v.toNat := by
      have hlt : v.toNat < 256 ^ n := by
        rw [← pow_width]
        exact v.isLt
      rw [word, List.drop_left, List.take_left' hlen, ByteOrder.decode_encode_of_lt o hlt]
    -- the other fields come behind the bytes of this one
    have hrest := ih r (pre ++ o.encode n v.toNat)
    rw [List.length_append, hlen, List.append_assoc] at hrest
    rw [encode, List.append_assoc, decode, hword, hrest, BitVec.ofNat_toNat, BitVec.setWidth_eq]

/-- **Encoding a decoded record** gives back the bytes that were read. -/
theorem encode_decode {buf : List UInt8} {widths : List ℕ} {off : ℕ}
    (h : off + widths.sum ≤ buf.length) :
    encode o (decode o buf widths off) = (buf.drop off).take widths.sum := by
  induction widths generalizing off with
  | nil => rfl
  | cons n widths ih =>
    rw [List.sum_cons] at h ⊢
    have hlen : ((buf.drop off).take n).length = n := by
      rw [List.length_take, List.length_drop]
      omega
    have himage : o.encode n (BitVec.ofNat (8 * n) (word o off n buf)).toNat =
        (buf.drop off).take n := by
      have hback := ByteOrder.encode_decode o ((buf.drop off).take n)
      rw [hlen] at hback
      rw [BitVec.toNat_ofNat, pow_width, ByteOrder.encode_mod, word, hback]
    rw [decode, encode, himage, ih (by omega), List.take_add, List.drop_drop]

end Record
