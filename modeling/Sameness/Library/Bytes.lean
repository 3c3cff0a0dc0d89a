import Mathlib.Data.Nat.Digits.Lemmas
import Mathlib.Tactic.Ring

/-!
# Fixed-width byte images of naturals

A machine word of `n` bytes is laid out in memory either least significant byte first or
most significant byte first. `ByteOrder.encode o n v` is the image of `v` under the byte
order `o`, and `ByteOrder.decode o l` reads an image back; the value of a byte list is the
`Nat.ofDigits` of mathlib at base `256`, so injectivity and bounds come from there.

* `ByteOrder.decode_encode` and `ByteOrder.encode_decode`: the two maps are inverse, modulo
  the width.
* `shiftOut_eq_encode` and `foldl_shiftIn`: the shift loops of hand-written serializers
  compute the big-endian image and read it back. `shiftOutLow_eq_encode` and `foldl_shiftInLow`
  are about the loops that start at the other end.
-/

namespace Bytes

/-- The value of a byte list, least significant byte first. -/
def value (l : List UInt8) : ℕ := Nat.ofDigits 256 (l.map UInt8.toNat)

/-- The `n` low bytes of `v`, least significant byte first. -/
def digits : ℕ → ℕ → List UInt8
  | 0, _ => []
  | n + 1, v => UInt8.ofNat v :: digits n (v / 256)

@[simp]
theorem value_nil : value [] = 0 := rfl

@[simp]
theorem value_cons (b : UInt8) (l : List UInt8) : value (b :: l) = b.toNat + 256 * value l := by
  simp [value, Nat.ofDigits_cons]

theorem value_append (l l' : List UInt8) :
    value (l ++ l') = value l + 256 ^ l.length * value l' := by
  simp [value, Nat.ofDigits_append]

theorem value_lt (l : List UInt8) : value l < 256 ^ l.length := by
  have h : ∀ x ∈ l.map UInt8.toNat, x < 256 := by
    intro x hx
    obtain ⟨b, -, rfl⟩ := List.mem_map.mp hx
    exact b.toNat_lt
  simpa [value] using Nat.ofDigits_lt_base_pow_length (by norm_num) h

/-- The low bytes of a list stand for its value modulo their width. -/
theorem value_take (l : List UInt8) (n : ℕ) : value (l.take n) = value l % 256 ^ n := by
  induction l generalizing n with
  | nil => rw [List.take_nil, value_nil, Nat.zero_mod]
  | cons b l ih =>
    rcases n with _ | n
    · rw [List.take_zero, value_nil, pow_zero, Nat.mod_one]
    · have hb : b.toNat < 256 := b.toNat_lt
      rw [List.take_succ_cons, value_cons, value_cons, ih, pow_succ' 256 n, Nat.mod_mul,
        Nat.add_mul_mod_self_left, Nat.mod_eq_of_lt hb, Nat.add_mul_div_left _ _ (by norm_num),
        Nat.div_eq_of_lt hb, Nat.zero_add]

/-- The high bytes of a list stand for the quotient. -/
theorem value_drop (l : List UInt8) (n : ℕ) : value (l.drop n) = value l / 256 ^ n := by
  induction l generalizing n with
  | nil => rw [List.drop_nil, value_nil, Nat.zero_div]
  | cons b l ih =>
    rcases n with _ | n
    · rw [List.drop_zero, pow_zero, Nat.div_one]
    · have hb : b.toNat < 256 := b.toNat_lt
      rw [List.drop_succ_cons, ih, value_cons, pow_succ' 256 n, ← Nat.div_div_eq_div_mul,
        Nat.add_mul_div_left _ _ (by norm_num), Nat.div_eq_of_lt hb, Nat.zero_add]

@[simp]
theorem length_digits (n v : ℕ) : (digits n v).length = n := by
  induction n generalizing v with
  | zero => rfl
  | succ n ih => simp [digits, ih]

/-- The digits of a value recover it modulo the width. -/
theorem value_digits (n v : ℕ) : value (digits n v) = v % 256 ^ n := by
  induction n generalizing v with
  | zero => simp [digits, Nat.mod_one]
  | succ n ih =>
    have hb : v % 2 ^ 8 = v % 256 := rfl
    rw [digits, value_cons, ih, UInt8.toNat_ofNat', hb, pow_succ' 256 n, Nat.mod_mul]

/-- The value of a byte list determines it at its length. -/
theorem digits_value (l : List UInt8) : digits l.length (value l) = l := by
  induction l with
  | nil => rfl
  | cons b l ih =>
    have hb : b.toNat < 256 := b.toNat_lt
    rw [List.length_cons, digits, value_cons, Nat.add_mul_div_left _ _ (by norm_num),
      Nat.div_eq_of_lt hb, Nat.zero_add, ih]
    congr 1
    exact UInt8.toNat.inj (by rw [UInt8.toNat_ofNat']; omega)

/-! ### Byte orders -/

/-- The order in which a machine lays out the bytes of a word. -/
inductive ByteOrder where
  | little
  | big
  deriving DecidableEq, Repr

namespace ByteOrder

/-- The `n`-byte memory image of `v`. -/
def encode : ByteOrder → ℕ → ℕ → List UInt8
  | little, n, v => digits n v
  | big, n, v => (digits n v).reverse

/-- The value a memory image stands for. -/
def decode : ByteOrder → List UInt8 → ℕ
  | little, l => value l
  | big, l => value l.reverse

@[simp]
theorem length_encode (o : ByteOrder) (n v : ℕ) : (o.encode n v).length = n := by
  cases o <;> simp [encode]

/-- Reading an image back recovers the value modulo the width. -/
theorem decode_encode (o : ByteOrder) (n v : ℕ) : o.decode (o.encode n v) = v % 256 ^ n := by
  cases o <;> simp [encode, decode, value_digits]

theorem decode_encode_of_lt (o : ByteOrder) {n v : ℕ} (h : v < 256 ^ n) :
    o.decode (o.encode n v) = v := by
  rw [decode_encode, Nat.mod_eq_of_lt h]

/-- An image is the image of the value it stands for. -/
theorem encode_decode (o : ByteOrder) (l : List UInt8) : o.encode l.length (o.decode l) = l := by
  cases o with
  | little => exact digits_value l
  | big =>
    have h := digits_value l.reverse
    rw [List.length_reverse] at h
    rw [encode, decode, h, List.reverse_reverse]

/-- What an image of the value's own width stands for is the value exactly if the image is its
image. -/
theorem decode_eq_iff (o : ByteOrder) {l : List UInt8} {n v : ℕ} (hl : l.length = n)
    (hv : v < 256 ^ n) : o.decode l = v ↔ l = o.encode n v := by
  subst hl
  constructor
  · rintro rfl
    exact (encode_decode o l).symm
  · intro h
    rw [h, decode_encode_of_lt o hv]

/-- Two byte orders lay out a value alike only where its image is a palindrome. -/
theorem encode_eq_encode_iff (o o' : ByteOrder) (n v : ℕ) :
    o.encode n v = o'.encode n v ↔ o = o' ∨ (o.encode n v).reverse = o.encode n v := by
  rcases o with _ | _ <;> rcases o' with _ | _
  · exact iff_of_true rfl (.inl rfl)
  · rw [or_iff_right (by decide), eq_comm]
    rfl
  · rw [or_iff_right (by decide), encode, encode, List.reverse_reverse, eq_comm]
  · exact iff_of_true rfl (.inl rfl)

/-- What a reader of the other byte order makes of an image. -/
theorem decode_encode_of_ne {o o' : ByteOrder} (h : o ≠ o') (n v : ℕ) :
    o'.decode (o.encode n v) = value (digits n v).reverse := by
  rcases o with _ | _ <;> rcases o' with _ | _
  · exact absurd rfl h
  · rfl
  · rfl
  · exact absurd rfl h

/-- The first bytes of a little-endian image stand for the remainder. -/
theorem little_decode_take (l : List UInt8) (m : ℕ) :
    little.decode (l.take m) = little.decode l % 256 ^ m := value_take l m

/-- The first bytes of a big-endian image stand for the quotient. -/
theorem big_decode_take {l : List UInt8} {m : ℕ} (h : m ≤ l.length) :
    big.decode (l.take m) = big.decode l / 256 ^ (l.length - m) := by
  rw [decode, decode, ← value_drop, List.drop_reverse, Nat.sub_sub_self h]

theorem decode_lt (o : ByteOrder) (l : List UInt8) : o.decode l < 256 ^ l.length := by
  cases o with
  | little => exact value_lt l
  | big => simpa [decode] using value_lt l.reverse

end ByteOrder

/-! ### Shift loops

Serializers write a word with a loop of descending shifts and read it back by shifting an
accumulator and putting in the next byte. Both loops compute the big-endian image. -/

/-- The loop that pushes the bytes of a word, most significant first: for `i` from `n - 1`
down to `0`, the byte `(v >> 8 i) & 0xFF`. -/
def shiftOut {w : ℕ} (n : ℕ) (v : BitVec w) : List UInt8 :=
  (List.range n).reverse.map fun i => UInt8.ofBitVec (((v >>> (i * 8)) &&& 0xFF).setWidth 8)

/-- One round of the loop that reads a word back: shift the accumulator, put in the byte. -/
def shiftIn {w : ℕ} (acc : BitVec w) (b : UInt8) : BitVec w :=
  (acc <<< 8) ||| b.toBitVec.setWidth w

private theorem ofBitVec_shift {w : ℕ} (hw : 8 ≤ w) (v : BitVec w) (i : ℕ) :
    UInt8.ofBitVec (((v >>> (i * 8)) &&& 0xFF).setWidth 8) = UInt8.ofNat (v.toNat / 256 ^ i) := by
  have hmask : 255 % 2 ^ w = 2 ^ 8 - 1 :=
    Nat.mod_eq_of_lt (lt_of_lt_of_le (by norm_num) (Nat.pow_le_pow_right (by norm_num) hw))
  have hpow : 2 ^ (i * 8) = 256 ^ i := by rw [Nat.mul_comm, pow_mul]; rfl
  refine UInt8.toNat.inj ?_
  have h : (((v >>> (i * 8)) &&& 0xFF).setWidth 8).toNat = v.toNat / 256 ^ i % 2 ^ 8 := by
    rw [BitVec.toNat_setWidth, BitVec.toNat_and, BitVec.toNat_ushiftRight,
      Nat.shiftRight_eq_div_pow, hpow]
    change (v.toNat / 256 ^ i &&& 255 % 2 ^ w) % 2 ^ 8 = _
    rw [hmask, Nat.and_two_pow_sub_one_eq_mod, Nat.mod_mod]
  simpa using h

private theorem digits_eq_map (n v : ℕ) :
    digits n v = (List.range n).map fun i => UInt8.ofNat (v / 256 ^ i) := by
  induction n generalizing v with
  | zero => rfl
  | succ n ih =>
    rw [digits, ih, List.range_succ_eq_map, List.map_cons, List.map_map]
    simp [Function.comp_def, Nat.div_div_eq_div_mul, pow_succ']

/-- The descending-shift loop writes the big-endian image. -/
theorem shiftOut_eq_encode {w : ℕ} (hw : 8 ≤ w) (n : ℕ) (v : BitVec w) :
    shiftOut n v = ByteOrder.big.encode n v.toNat := by
  rw [shiftOut, ByteOrder.encode, digits_eq_map, ← List.map_reverse]
  exact List.map_congr_left fun i _ => ofBitVec_shift hw v i

/-- On the word `n`, a round of the read loop computes `256 n + b`, modulo the width. -/
theorem shiftIn_ofNat {w : ℕ} (hw : 8 ≤ w) (n : ℕ) (b : UInt8) :
    shiftIn (BitVec.ofNat w n) b = BitVec.ofNat w (n * 256 + b.toNat) := by
  obtain ⟨k, rfl⟩ : ∃ k, w = k + 8 := ⟨w - 8, by omega⟩
  have hb : b.toNat < 2 ^ 8 := b.toNat_lt
  have hb' : b.toNat < 2 ^ (k + 8) := lt_of_lt_of_le hb (Nat.pow_le_pow_right (by norm_num) hw)
  -- the shifted accumulator has its low byte free, so the bitwise or is a sum
  have hshift : (n % 2 ^ (k + 8)) <<< 8 % 2 ^ (k + 8) = 2 ^ 8 * (n % 2 ^ k) := by
    rw [Nat.shiftLeft_eq, pow_add, Nat.mul_mod_mul_right, Nat.mod_mul_right_mod, Nat.mul_comm]
  have hsum : 2 ^ 8 * (n % 2 ^ k) + b.toNat = (n * 256 + b.toNat) % 2 ^ (k + 8) := by
    have hlow : (n * 256 + b.toNat) % 2 ^ 8 = b.toNat := by omega
    have hhigh : (n * 256 + b.toNat) / 2 ^ 8 = n := by omega
    rw [pow_add, Nat.mul_comm (2 ^ k), Nat.mod_mul, hlow, hhigh, Nat.add_comm]
  refine BitVec.eq_of_toNat_eq ?_
  simp only [shiftIn, BitVec.toNat_or, BitVec.toNat_shiftLeft, BitVec.toNat_ofNat,
    BitVec.toNat_setWidth, UInt8.toNat_toBitVec]
  rw [hshift, Nat.mod_eq_of_lt hb', ← Nat.two_pow_add_eq_or_of_lt hb, hsum]

private theorem foldl_value (l : List UInt8) (acc : ℕ) :
    l.foldl (fun acc b => acc * 256 + b.toNat) acc
      = acc * 256 ^ l.length + ByteOrder.big.decode l := by
  induction l generalizing acc with
  | nil => simp [ByteOrder.decode]
  | cons b l ih =>
    simp only [List.foldl_cons, ih, ByteOrder.decode, List.reverse_cons, value_append,
      List.length_reverse, List.length_cons, value_cons, value_nil]
    ring

/-- The accumulate-and-shift loop reads the big-endian value, modulo the width. -/
theorem foldl_shiftIn {w : ℕ} (hw : 8 ≤ w) (l : List UInt8) :
    l.foldl shiftIn (0 : BitVec w) = BitVec.ofNat w (ByteOrder.big.decode l) := by
  have h : l.foldl shiftIn (BitVec.ofNat w 0)
      = BitVec.ofNat w (l.foldl (fun acc b => acc * 256 + b.toNat) 0) :=
    List.foldl_hom (BitVec.ofNat w) fun acc b => shiftIn_ofNat hw acc b
  rw [foldl_value] at h
  simpa using h

/-! ### Ascending loops

Others count up, from the least significant byte to the most significant one. These loops
compute the little-endian image, also where the shift of a signed word copies its sign. -/

/-- The loop that pushes the bytes of a signed word, least significant first: for `i` from `0`
to `n - 1`, the byte `(v >> 8 i) & 0xFF`. -/
def shiftOutLow {w : ℕ} (n : ℕ) (v : BitVec w) : List UInt8 :=
  (List.range n).map fun i => UInt8.ofBitVec ((v.sshiftRight (i * 8) &&& 0xFF).setWidth 8)

/-- One round of the loop that reads a word back: put the byte in at its place, which is
counted along. -/
def shiftInLow {w : ℕ} (acc : ℕ × BitVec w) (b : UInt8) : ℕ × BitVec w :=
  (acc.1 + 1, acc.2 ||| b.toBitVec.setWidth w <<< (acc.1 * 8))

/-- The copies of the sign do not reach a byte of the word. -/
private theorem setWidth_sshiftRight {w k : ℕ} (hk : k + 8 ≤ w) (v : BitVec w) :
    (v.sshiftRight k &&& 0xFF).setWidth 8 = ((v >>> k) &&& 0xFF).setWidth 8 := by
  refine BitVec.eq_of_getLsbD_eq fun i hi => ?_
  have hlow : k + i < w := by omega
  have hi' : ¬w ≤ i := by omega
  rw [BitVec.getLsbD_setWidth, BitVec.getLsbD_setWidth, BitVec.getLsbD_and, BitVec.getLsbD_and,
    BitVec.getLsbD_sshiftRight, BitVec.getLsbD_ushiftRight, if_pos hlow, decide_eq_false hi',
    Bool.not_false, Bool.true_and]

/-- The ascending loop writes the little-endian image. -/
theorem shiftOutLow_eq_encode {w n : ℕ} (hn : n * 8 ≤ w) (v : BitVec w) :
    shiftOutLow n v = ByteOrder.little.encode n v.toNat := by
  rw [shiftOutLow, ByteOrder.encode, digits_eq_map]
  refine List.map_congr_left fun i hi => ?_
  have hlt : i < n := List.mem_range.mp hi
  rw [setWidth_sshiftRight (by omega), ofBitVec_shift (by omega)]

/-- On a word of `i` bytes, a round of the read loop adds the next byte above them. -/
theorem shiftInLow_ofNat {w i n : ℕ} (hn : n < 256 ^ i) (b : UInt8) :
    shiftInLow (i, BitVec.ofNat w n) b = (i + 1, BitVec.ofNat w (n + 256 ^ i * b.toNat)) := by
  have hpow : 256 ^ i = 2 ^ (i * 8) := by rw [Nat.mul_comm, pow_mul]; rfl
  rw [hpow] at hn ⊢
  have hbyte : b.toBitVec.setWidth w <<< (i * 8) = BitVec.ofNat w (2 ^ (i * 8) * b.toNat) := by
    refine BitVec.eq_of_toNat_eq ?_
    rw [BitVec.toNat_shiftLeft, BitVec.toNat_setWidth, BitVec.toNat_ofNat, Nat.shiftLeft_eq,
      Nat.mod_mul_mod, Nat.mul_comm, UInt8.toNat_toBitVec]
  rw [shiftInLow, hbyte, ← BitVec.ofNat_or, Nat.or_comm, ← Nat.two_pow_add_eq_or_of_lt hn,
    Nat.add_comm n]

private theorem foldl_shiftInLow_ofNat {w : ℕ} (l : List UInt8) {i n : ℕ} (hn : n < 256 ^ i) :
    l.foldl shiftInLow (i, BitVec.ofNat w n) =
      (i + l.length, BitVec.ofNat w (n + 256 ^ i * value l)) := by
  induction l generalizing i n with
  | nil => simp
  | cons b l ih =>
    have hb : b.toNat < 256 := b.toNat_lt
    have hnext : n + 256 ^ i * b.toNat < 256 ^ (i + 1) := by
      calc n + 256 ^ i * b.toNat < 256 ^ i + 256 ^ i * b.toNat := Nat.add_lt_add_right hn _
        _ = 256 ^ i * (b.toNat + 1) := by ring
        _ ≤ 256 ^ i * 256 := Nat.mul_le_mul_left _ hb
        _ = 256 ^ (i + 1) := (pow_succ 256 i).symm
    have hvalue : n + 256 ^ i * b.toNat + 256 ^ (i + 1) * value l =
        n + 256 ^ i * value (b :: l) := by
      rw [value_cons]
      ring
    rw [List.foldl_cons, shiftInLow_ofNat hn, ih hnext, hvalue, List.length_cons, Nat.add_assoc,
      Nat.add_comm 1]

/-- The ascending loop reads the little-endian value, modulo the width. -/
theorem foldl_shiftInLow {w : ℕ} (l : List UInt8) :
    l.foldl shiftInLow (0, (0 : BitVec w)) =
      (l.length, BitVec.ofNat w (ByteOrder.little.decode l)) := by
  have h := foldl_shiftInLow_ofNat (w := w) l (i := 0) (n := 0) one_pos
  simpa [ByteOrder.decode] using h

/-- An image shows the low bytes of the value only. -/
theorem ByteOrder.encode_mod (o : ByteOrder) (n v : ℕ) :
    o.encode n (v % 256 ^ n) = o.encode n v := by
  have h := ByteOrder.encode_decode o (o.encode n v)
  rwa [ByteOrder.decode_encode, ByteOrder.length_encode] at h

end Bytes
