import Sameness.Library.Cpp
import Sameness.Library.Framing

/-!
# The event packet and its codec

`EventPacket` is the unit of the wire protocol between client and server: a type byte, a
64-bit timestamp, the declared payload size and the payload. `toBytes` is the serializer of
`EventPacket.cpp`; `fromBytes` is its decoder, written as a `Reader` so that the reads it
makes from an untrusted buffer can be counted. The decoder has no bounds check of its own:
it reads 13 header bytes and then as many payload bytes as the header declares.

The main results describe the decoder on every buffer that has a header:
`run_fromBytes_of_le` where the declared payload is present, `run_fromBytes_of_lt` where it
is not, and `fromBytes_toBytes`/`toBytes_ofBuffer` are the two halves of the round trip.
-/

namespace Sameness

open Bytes Cpp

/-- `enum class SamenessEventType : uint8_t`. The underlying type is fixed, so every byte is
a value of the enumeration, named or not. -/
structure SamenessEventType where
  value : UInt8
  deriving DecidableEq, Repr

namespace SamenessEventType

def keyPress : SamenessEventType := ⟨1⟩
def keyRelease : SamenessEventType := ⟨2⟩
def mouseMove : SamenessEventType := ⟨3⟩
def mouseButtonPress : SamenessEventType := ⟨4⟩
def mouseButtonRelease : SamenessEventType := ⟨5⟩

end SamenessEventType

/-- `struct EventPacket`. -/
structure EventPacket where
  type : SamenessEventType
  timestamp : UInt64
  payloadSize : UInt32
  payload : List UInt8
  deriving DecidableEq, Repr

namespace EventPacket

/-- The declared payload size is the payload's. -/
def Sized (p : EventPacket) : Prop := p.payloadSize.toNat = p.payload.length

instance (p : EventPacket) : Decidable p.Sized := inferInstanceAs (Decidable (_ = _))

/-- The size of the header: one type byte, eight timestamp bytes, four size bytes. -/
def headerSize : ℕ := 13

/-- `EventPacket::toBytes`. -/
def toBytes (p : EventPacket) : List UInt8 :=
  [p.type.value]
    ++ shiftOut 8 p.timestamp.toBitVec
    ++ shiftOut 4 p.payloadSize.toBitVec
    ++ p.payload

/-- `EventPacket::fromBytes`. The offset runs from the type byte over the two accumulating
loops to the start of the payload. -/
def fromBytes : Reader UInt8 EventPacket := do
  let type ← Reader.get 0
  let timestamp ← Reader.fold shiftIn 1 8 (0 : BitVec 64)
  let payloadSize ← Reader.fold shiftIn 9 4 (0 : BitVec 32)
  let payload ← Reader.slice 13 payloadSize.toNat
  pure { type := ⟨type⟩, timestamp := ⟨timestamp⟩, payloadSize := ⟨payloadSize⟩, payload }

/-- The payload size that the header of a buffer declares. -/
def declaredSize (b : List UInt8) : ℕ := ByteOrder.big.decode ((b.drop 9).take 4)

/-- The packet that a buffer with a complete header and payload stands for. -/
def ofBuffer (b : List UInt8) : EventPacket where
  type := ⟨b.headD 0⟩
  timestamp := UInt64.ofNat (ByteOrder.big.decode ((b.drop 1).take 8))
  payloadSize := UInt32.ofNat (declaredSize b)
  payload := (b.drop 13).take (declaredSize b)

/-! ### The encoder -/

theorem toBytes_eq (p : EventPacket) :
    p.toBytes = p.type.value :: (ByteOrder.big.encode 8 p.timestamp.toNat
      ++ (ByteOrder.big.encode 4 p.payloadSize.toNat ++ p.payload)) := by
  simp only [toBytes, shiftOut_eq_encode (by norm_num : 8 ≤ 64),
    shiftOut_eq_encode (by norm_num : 8 ≤ 32), List.cons_append, List.nil_append,
    List.append_assoc]
  rfl

@[simp]
theorem length_toBytes (p : EventPacket) : p.toBytes.length = headerSize + p.payload.length := by
  rw [toBytes_eq]
  simp only [List.length_cons, List.length_append, ByteOrder.length_encode, headerSize]
  omega

theorem toBytes_ne_nil (p : EventPacket) : p.toBytes ≠ [] := by
  rw [toBytes_eq]
  exact List.cons_ne_nil _ _

/-! ### The decoder -/

theorem declaredSize_lt (b : List UInt8) : declaredSize b < 2 ^ 32 := by
  have hlen : ((b.drop 9).take 4).length ≤ 4 := List.length_take_le _ _
  calc declaredSize b < 256 ^ ((b.drop 9).take 4).length := ByteOrder.decode_lt _ _
    _ ≤ 256 ^ 4 := Nat.pow_le_pow_right (by norm_num) hlen
    _ = 2 ^ 32 := by norm_num

@[simp]
theorem toNat_payloadSize_ofBuffer (b : List UInt8) :
    (ofBuffer b).payloadSize.toNat = declaredSize b :=
  UInt32.toNat_ofNat_of_lt' (declaredSize_lt b)

/-- The header loops succeed on every buffer that has a header, and what is left is the
slice that the header declares. -/
private theorem run_fromBytes_header {b : List UInt8} (h : headerSize ≤ b.length) :
    fromBytes.run b = ((Reader.slice 13 (declaredSize b)).run b).map fun payload =>
      { ofBuffer b with payload } := by
  rw [headerSize] at h
  have hhead : b[0] = b.headD 0 := by
    rw [List.headD_eq_head?_getD, List.head?_eq_getElem?, List.getElem?_eq_getElem,
      Option.getD_some]
  have hsize : (BitVec.ofNat 32 (declaredSize b)).toNat = declaredSize b :=
    Nat.mod_eq_of_lt (declaredSize_lt b)
  rw [fromBytes, Reader.run_bind_ok (Reader.run_get (by omega)),
    Reader.run_bind_ok (Reader.run_fold (by omega) _),
    Reader.run_bind_ok (Reader.run_fold (by omega) _), foldl_shiftIn (by norm_num),
    foldl_shiftIn (by norm_num), Reader.run_bind, hhead, ← declaredSize, hsize]
  cases (Reader.slice 13 (declaredSize b)).run b <;> rfl

/-- Where the declared payload is present, the decoder returns the packet. -/
theorem run_fromBytes_of_le {b : List UInt8} (h : headerSize + declaredSize b ≤ b.length) :
    fromBytes.run b = .ok (ofBuffer b) := by
  rw [headerSize] at h
  rw [run_fromBytes_header (by rw [headerSize]; omega), Reader.run_slice h]
  rfl

/-- **The decoder trusts the header.** Where the header declares more payload than follows
it, the decoder reads the first cell beyond the buffer. -/
theorem run_fromBytes_of_lt {b : List UInt8} (h : headerSize ≤ b.length)
    (hlt : b.length < headerSize + declaredSize b) :
    fromBytes.run b = .error ⟨b.length, b.length⟩ := by
  rw [run_fromBytes_header h]
  rw [headerSize] at h hlt
  rw [Reader.run_slice_error h hlt]
  rfl

/-- A decoded packet always carries the payload it declares. -/
theorem sized_ofBuffer {b : List UInt8} (h : headerSize + declaredSize b ≤ b.length) :
    (ofBuffer b).Sized := by
  rw [headerSize] at h
  rw [Sized, toNat_payloadSize_ofBuffer, ofBuffer, List.length_take, List.length_drop]
  omega

/-! ### Round trips -/

private theorem drop_header (p : EventPacket) (s : List UInt8) :
    (p.toBytes ++ s).drop 1 = ByteOrder.big.encode 8 p.timestamp.toNat
      ++ (ByteOrder.big.encode 4 p.payloadSize.toNat ++ (p.payload ++ s)) := by
  rw [toBytes_eq]
  simp only [List.cons_append, List.append_assoc, List.drop_succ_cons, List.drop_zero]

private theorem drop_toBytes_append (p : EventPacket) (s : List UInt8) (n : ℕ) :
    (p.toBytes ++ s).drop (n + 9) =
      (ByteOrder.big.encode 4 p.payloadSize.toNat ++ (p.payload ++ s)).drop n := by
  have hsplit : n + 9 = 1 + (8 + n) := by omega
  rw [hsplit, ← List.drop_drop, drop_header, ← List.drop_drop,
    List.drop_left' (ByteOrder.length_encode _ _ _)]

theorem declaredSize_toBytes_append (p : EventPacket) (s : List UInt8) :
    declaredSize (p.toBytes ++ s) = p.payloadSize.toNat := by
  have h := drop_toBytes_append p s 0
  rw [Nat.zero_add, List.drop_zero] at h
  rw [declaredSize, h, List.take_left' (ByteOrder.length_encode _ _ _),
    ByteOrder.decode_encode_of_lt _ (by simpa using p.payloadSize.toNat_lt)]

theorem ofBuffer_toBytes_append {p : EventPacket} (hp : p.Sized) (s : List UInt8) :
    ofBuffer (p.toBytes ++ s) = p := by
  have htype : (p.toBytes ++ s).headD 0 = p.type.value := by
    rw [toBytes_eq]
    rfl
  have htime : ((p.toBytes ++ s).drop 1).take 8 = ByteOrder.big.encode 8 p.timestamp.toNat := by
    rw [drop_header, List.take_left' (ByteOrder.length_encode _ _ _)]
  have hload : ((p.toBytes ++ s).drop 13).take p.payloadSize.toNat = p.payload := by
    rw [drop_toBytes_append p s 4, List.drop_left' (ByteOrder.length_encode _ _ _), hp,
      List.take_left]
  rw [ofBuffer, declaredSize_toBytes_append, htype, htime, hload,
    ByteOrder.decode_encode_of_lt _ (by simpa using p.timestamp.toNat_lt), UInt64.ofNat_toNat,
    UInt32.ofNat_toNat]

theorem declaredSize_toBytes (p : EventPacket) : declaredSize p.toBytes = p.payloadSize.toNat := by
  have h := declaredSize_toBytes_append p []
  rwa [List.append_nil] at h

/-- The buffer of a packet stands for it. -/
theorem ofBuffer_toBytes {p : EventPacket} (hp : p.Sized) : ofBuffer p.toBytes = p := by
  have h := ofBuffer_toBytes_append hp []
  rwa [List.append_nil] at h

/-- Decoding an encoded packet gives the packet back, whatever follows it. -/
theorem fromBytes_toBytes {p : EventPacket} (hp : p.Sized) (s : List UInt8) :
    fromBytes.run (p.toBytes ++ s) = .ok p := by
  rw [run_fromBytes_of_le, ofBuffer_toBytes_append hp]
  rw [declaredSize_toBytes_append, List.length_append, length_toBytes, hp]
  exact Nat.le_add_right _ _

/-- A buffer is its type byte, its header fields and its payload. -/
private theorem eq_fields {b : List UInt8} (h : headerSize ≤ b.length) :
    b = b.headD 0 :: ((b.drop 1).take 8 ++ ((b.drop 9).take 4 ++ b.drop 13)) := by
  rw [headerSize] at h
  have hcons : b = b.headD 0 :: b.drop 1 := by
    cases b with
    | nil => simp at h
    | cons x l => rfl
  have h9 : (b.drop 1).drop 8 = b.drop 9 := by rw [List.drop_drop]
  have h13 : (b.drop 9).drop 4 = b.drop 13 := by rw [List.drop_drop]
  conv_lhs => rw [hcons, ← List.take_append_drop 8 (b.drop 1), h9,
    ← List.take_append_drop 4 (b.drop 9), h13]

/-- Encoding the packet a buffer stands for gives the buffer back, if the payload ends where
the buffer does. -/
theorem toBytes_ofBuffer {b : List UInt8} (h : headerSize + declaredSize b = b.length) :
    (ofBuffer b).toBytes = b := by
  have hlen : headerSize ≤ b.length := by omega
  rw [headerSize] at h
  have htime : ByteOrder.big.encode 8 (ofBuffer b).timestamp.toNat = (b.drop 1).take 8 := by
    have h8 : ((b.drop 1).take 8).length = 8 := by
      rw [List.length_take, List.length_drop]
      omega
    have hlt : ByteOrder.big.decode ((b.drop 1).take 8) < 2 ^ 64 := by
      calc _ < 256 ^ ((b.drop 1).take 8).length := ByteOrder.decode_lt _ _
        _ = 2 ^ 64 := by rw [h8]; norm_num
    have henc := ByteOrder.encode_decode .big ((b.drop 1).take 8)
    rw [h8] at henc
    rw [ofBuffer, UInt64.toNat_ofNat_of_lt' hlt, henc]
  have hsize : ByteOrder.big.encode 4 (ofBuffer b).payloadSize.toNat = (b.drop 9).take 4 := by
    have h4 : ((b.drop 9).take 4).length = 4 := by
      rw [List.length_take, List.length_drop]
      omega
    have henc := ByteOrder.encode_decode .big ((b.drop 9).take 4)
    rw [h4] at henc
    rw [toNat_payloadSize_ofBuffer, declaredSize, henc]
  have hload : (ofBuffer b).payload = b.drop 13 := by
    refine List.take_of_length_le ?_
    rw [List.length_drop]
    omega
  rw [toBytes_eq, htime, hsize, hload]
  exact (eq_fields hlen).symm

/-- A buffer encodes a sized packet exactly when its payload ends where the buffer does. -/
theorem exists_toBytes_eq_iff {b : List UInt8} :
    (∃ p : EventPacket, p.Sized ∧ p.toBytes = b) ↔ headerSize + declaredSize b = b.length := by
  constructor
  · rintro ⟨p, hp, rfl⟩
    have h := declaredSize_toBytes_append p []
    rw [List.append_nil] at h
    rw [h, length_toBytes, hp]
  · exact fun h => ⟨ofBuffer b, sized_ofBuffer h.le, toBytes_ofBuffer h⟩

/-- The encoding determines a sized packet. -/
theorem toBytes_injective {p q : EventPacket} (hp : p.Sized) (hq : q.Sized)
    (h : p.toBytes = q.toBytes) : p = q := by
  rw [← ofBuffer_toBytes_append hp [], ← ofBuffer_toBytes_append hq [], h]

/-- **Codec round trip.** Encoding then decoding is the identity on sized packets whatever
bytes follow, the encoding is a header longer than the payload, and decoding then encoding
is the identity on the buffers whose length field is the length of what follows the
header. -/
theorem codec_roundTrip :
    (∀ p : EventPacket, p.Sized → ∀ s, fromBytes.run (p.toBytes ++ s) = .ok p) ∧
      (∀ p : EventPacket, p.Sized → p.toBytes.length = 13 + p.payloadSize.toNat) ∧
      ∀ b : List UInt8, 13 ≤ b.length → declaredSize b = b.length - 13 →
        ∃ p, fromBytes.run b = .ok p ∧ p.toBytes = b := by
  refine ⟨fun p hp s => fromBytes_toBytes hp s, fun p hp => ?_, fun b hb hd => ?_⟩
  · rw [length_toBytes, hp, headerSize]
  · have h : headerSize + declaredSize b = b.length := by
      rw [headerSize]
      omega
    exact ⟨ofBuffer b, run_fromBytes_of_le h.le, toBytes_ofBuffer h⟩

/-- A key press with trailing bytes, and the same key press as a buffer. -/
theorem codec_roundTrip_keyPress :
    let p : EventPacket := ⟨.keyPress, 7, 4, [30, 0, 0, 0]⟩
    fromBytes.run (p.toBytes ++ [1, 2]) = .ok p ∧ p.toBytes.length = 13 + p.payloadSize.toNat ∧
      ∃ q, fromBytes.run p.toBytes = .ok q ∧ q.toBytes = p.toBytes := by
  intro p
  exact ⟨codec_roundTrip.1 p (by decide) [1, 2], codec_roundTrip.2.1 p (by decide),
    codec_roundTrip.2.2 p.toBytes (by decide) (by decide)⟩

/-! ### Packets of another size -/

/-- What the encoding of a packet stands for, whatever it declares and whatever follows: the
payload goes on into what follows, or is cut. -/
theorem ofBuffer_toBytes_append_any (p : EventPacket) (s : List UInt8) :
    ofBuffer (p.toBytes ++ s) =
      { p with payload := (p.payload ++ s).take p.payloadSize.toNat } := by
  have htype : (p.toBytes ++ s).headD 0 = p.type.value := by
    rw [toBytes_eq]
    rfl
  have htime : ((p.toBytes ++ s).drop 1).take 8 = ByteOrder.big.encode 8 p.timestamp.toNat := by
    rw [drop_header, List.take_left' (ByteOrder.length_encode _ _ _)]
  have hload : (p.toBytes ++ s).drop 13 = p.payload ++ s := by
    rw [drop_toBytes_append p s 4, List.drop_left' (ByteOrder.length_encode _ _ _)]
  rw [ofBuffer, declaredSize_toBytes_append, htype, htime, hload,
    ByteOrder.decode_encode_of_lt _ (by simpa using p.timestamp.toNat_lt), UInt64.ofNat_toNat,
    UInt32.ofNat_toNat]

/-- **Decoding any encoding.** The encoder does not compare the declared size with the payload.
The decoder takes as much as is declared, from the payload and from what follows it, and reads
outside the buffer if that is not there; so a packet comes back from its own encoding exactly if
it declares the size of its payload. -/
theorem run_fromBytes_toBytes_append (p : EventPacket) (s : List UInt8) :
    (fromBytes.run (p.toBytes ++ s) =
      if p.payloadSize.toNat ≤ (p.payload ++ s).length then
        .ok { p with payload := (p.payload ++ s).take p.payloadSize.toNat }
      else .error ⟨(p.toBytes ++ s).length, (p.toBytes ++ s).length⟩) ∧
      (fromBytes.run p.toBytes = .ok p ↔ p.Sized) := by
  have hrun : ∀ s, fromBytes.run (p.toBytes ++ s) =
      if p.payloadSize.toNat ≤ (p.payload ++ s).length then
        .ok { p with payload := (p.payload ++ s).take p.payloadSize.toNat }
      else .error ⟨(p.toBytes ++ s).length, (p.toBytes ++ s).length⟩ := by
    intro s
    have hlen : (p.toBytes ++ s).length = headerSize + (p.payload ++ s).length := by
      rw [List.length_append, length_toBytes, List.length_append, Nat.add_assoc]
    split_ifs with hle
    · rw [run_fromBytes_of_le, ofBuffer_toBytes_append_any]
      rw [declaredSize_toBytes_append, hlen]
      exact Nat.add_le_add_left hle _
    · refine run_fromBytes_of_lt (by rw [hlen]; exact Nat.le_add_right _ _) ?_
      rw [declaredSize_toBytes_append, hlen]
      omega
  refine ⟨hrun s, fun hok => ?_, fun hsized => ?_⟩
  · have hself := hrun []
    rw [List.append_nil, List.append_nil, hok] at hself
    split_ifs at hself with hle
    have hpayload := congrArg payload (Except.ok.inj hself)
    rw [Sized, hpayload, List.length_take, Nat.min_eq_left hle]
  · have hback := fromBytes_toBytes hsized []
    rwa [List.append_nil] at hback

/-! ### Streams -/

/-- The length field makes a packet end by itself. -/
def selfDelimiting : SelfDelimiting {p | p.Sized} toBytes where
  first := ofBuffer
  first_append hp rest := ofBuffer_toBytes_append hp rest
  encode_ne_nil _ := toBytes_ne_nil _

/-- **Streams have one reading.** The concatenation of encodings determines the packets, and
no encoding is a proper prefix of another. -/
theorem uniquelyDecodable :
    (∀ ps qs : List EventPacket, (∀ p ∈ ps, p.Sized) → (∀ q ∈ qs, q.Sized) →
        ps.flatMap toBytes = qs.flatMap toBytes → ps = qs) ∧
      ∀ p q : EventPacket, p.Sized → q.Sized →
        ¬(p.toBytes <+: q.toBytes ∧ p.toBytes ≠ q.toBytes) := by
  refine ⟨fun ps qs hps hqs h => selfDelimiting.flatMap_inj hps hqs h, fun p q hp hq h => ?_⟩
  obtain ⟨hpre, hne⟩ := h
  exact hne (congrArg toBytes (selfDelimiting.eq_of_prefix hp hq hpre))

/-- A key press and a packet without a payload, twice over. -/
theorem uniquelyDecodable_keyPress :
    let p : EventPacket := ⟨.keyPress, 7, 4, [30, 0, 0, 0]⟩
    let q : EventPacket := ⟨.keyPress, 7, 0, []⟩
    [p, q] = [p, q] ∧ ¬(q.toBytes <+: p.toBytes ∧ q.toBytes ≠ p.toBytes) := by
  intro p q
  exact ⟨uniquelyDecodable.1 [p, q] [p, q] (by decide) (by decide) rfl,
    uniquelyDecodable.2 q p (by decide) (by decide)⟩

end EventPacket

end Sameness
