import Sameness.Library.Record

/-!
# The event of `event.h` and its codec

The header declares an event that is not the one of the protocol: it is laid out from the least
significant byte up, and its timestamp is a `time_point`, which goes over the wire as a count of
milliseconds. None of the programs includes the header.

Both functions are those of a record of seven fields (`toBytes_eq`, `fromBytes_eq`), except for
the clock. Encoding drops what is less than a millisecond. Decoding checks the length only and
multiplies whatever count the buffer holds into ticks, which may overflow
(`decodesSafely_iff`).
-/

namespace Sameness

namespace Wire

open Bytes Cpp

/-- `enum class EventType : uint8_t`. The underlying type is fixed, so every byte is a value of
the enumeration, named or not. -/
structure EventType where
  value : UInt8
  deriving DecidableEq, Repr

/-- `struct Event`. The timestamp is the tick count of the `time_point`. -/
structure Event where
  type : EventType
  timestamp : Int64
  keycode : UInt16
  modifiers : UInt16
  x : Int16
  y : Int16
  wheelDelta : Int16
  deriving DecidableEq, Repr

/-- `std::runtime_error`. -/
structure RuntimeError where
  what : String
  deriving DecidableEq, Repr

/-! ### The clock -/

/-- `std::chrono::system_clock`, by the ticks it counts in a millisecond. -/
structure SystemClock where
  ticksPerMillisecond : ℕ
  pos : 0 < ticksPerMillisecond

namespace SystemClock

variable (clock : SystemClock)

/-- `duration_cast<milliseconds>(timestamp.time_since_epoch()).count()`, which truncates. -/
def milliseconds (timestamp : Int64) : Int64 :=
  Int64.ofInt (timestamp.toInt.tdiv clock.ticksPerMillisecond)

/-- `time_point(milliseconds(ts))`: the word becomes a signed count, and the count is multiplied
into ticks. -/
def timePoint (ts : BitVec 64) : Except (Stop RuntimeError) Int64 :=
  int64 (clock.ticksPerMillisecond * ts.toInt)

end SystemClock

namespace Event

/-! ### The codec -/

/-- `push_back(v & 0xFF)` and `push_back((v >> 8) & 0xFF)`, for an `int`. -/
def pushPair (v : BitVec 32) : List UInt8 :=
  [UInt8.ofBitVec ((v &&& 0xFF).setWidth 8),
    UInt8.ofBitVec ((v.sshiftRight 8 &&& 0xFF).setWidth 8)]

/-- `Event::toBytes`. The 16-bit fields are promoted to `int`, the signed ones with their
sign. -/
def toBytes (clock : SystemClock) (e : Event) : List UInt8 :=
  [e.type.value]
    ++ shiftOutLow 8 (clock.milliseconds e.timestamp).toBitVec
    ++ pushPair (e.keycode.toBitVec.setWidth 32)
    ++ pushPair (e.modifiers.toBitVec.setWidth 32)
    ++ pushPair (e.x.toBitVec.signExtend 32)
    ++ pushPair (e.y.toBitVec.signExtend 32)
    ++ pushPair (e.wheelDelta.toBitVec.signExtend 32)

/-- `bytes[pos] | (bytes[pos + 1] << 8)`, narrowed to 16 bits. -/
def getPair (pos : ℕ) : Reader UInt8 (BitVec 16) := do
  let lo ← Reader.get pos
  let hi ← Reader.get (pos + 1)
  pure ((lo.toBitVec.setWidth 32 ||| hi.toBitVec.setWidth 32 <<< 8).setWidth 16)

/-- The size that `fromBytes` asks for. -/
def minSize : ℕ := 19

/-- `Event::fromBytes`. The position runs from the type byte over the loop to the last of the
pairs. -/
def fromBytes (clock : SystemClock) (bytes : List UInt8) : Except (Stop RuntimeError) Event := do
  if bytes.length < minSize then .error (.thrown ⟨"Invalid event data size"⟩)
  else
    let type ← readFrom bytes (Reader.get 0)
    let ts ← readFrom bytes (Reader.fold shiftInLow 1 8 (0, (0 : BitVec 64)))
    let timestamp ← clock.timePoint ts.2
    let keycode ← readFrom bytes (getPair 9)
    let modifiers ← readFrom bytes (getPair 11)
    let x ← readFrom bytes (getPair 13)
    let y ← readFrom bytes (getPair 15)
    let wheelDelta ← readFrom bytes (getPair 17)
    .ok { type := ⟨type⟩, timestamp, keycode := ⟨keycode⟩, modifiers := ⟨modifiers⟩
          x := ⟨⟨x⟩⟩, y := ⟨⟨y⟩⟩, wheelDelta := ⟨⟨wheelDelta⟩⟩ }

/-! ### The record -/

/-- The widths of the fields. -/
abbrev layout : List ℕ := [1, 8, 2, 2, 2, 2, 2]

/-- The fields of an event as they go over the wire. -/
def record (clock : SystemClock) (e : Event) : Record layout :=
  (e.type.value.toBitVec, (clock.milliseconds e.timestamp).toBitVec, e.keycode.toBitVec,
    e.modifiers.toBitVec, e.x.toBitVec, e.y.toBitVec, e.wheelDelta.toBitVec, ())

/-- The event with the fields, at a time. -/
def ofRecord (timestamp : Int64) : Record layout → Event
  | (type, _, keycode, modifiers, x, y, wheelDelta, ()) =>
    ⟨⟨⟨type⟩⟩, timestamp, ⟨keycode⟩, ⟨modifiers⟩, ⟨⟨x⟩⟩, ⟨⟨y⟩⟩, ⟨⟨wheelDelta⟩⟩⟩

/-- The millisecond count of the fields. -/
def count (r : Record layout) : BitVec 64 := r.2.1

theorem ofRecord_record (clock : SystemClock) (timestamp : Int64) (e : Event) :
    ofRecord timestamp (e.record clock) = { e with timestamp := timestamp } := rfl

theorem record_ofRecord {clock : SystemClock} {timestamp : Int64} {r : Record layout}
    (h : (clock.milliseconds timestamp).toBitVec = count r) :
    (ofRecord timestamp r).record clock = r := by
  obtain ⟨type, ts, keycode, modifiers, x, y, wheelDelta, ⟨⟩⟩ := r
  rw [record]
  simp only [ofRecord]
  rw [h]
  rfl

/-! ### The encoder -/

/-- A pair is the image of the low half of the `int`. -/
theorem pushPair_eq_encode (v : BitVec 32) :
    pushPair v = ByteOrder.little.encode 2 (v.setWidth 16).toNat := by
  have hloop : pushPair v = shiftOutLow 2 v := by
    rw [shiftOutLow, List.range_succ, List.range_succ, List.range_zero]
    simp [pushPair]
  rw [hloop, shiftOutLow_eq_encode (by decide), ← ByteOrder.encode_mod, BitVec.toNat_setWidth]
  rfl

/-- Promotion keeps the low half. -/
private theorem setWidth_setWidth (v : BitVec 16) : (v.setWidth 32).setWidth 16 = v := by
  rw [BitVec.setWidth_setWidth_of_le _ (by decide), BitVec.setWidth_eq]

private theorem setWidth_signExtend (v : BitVec 16) : (v.signExtend 32).setWidth 16 = v := by
  refine BitVec.eq_of_getLsbD_eq fun i hi => ?_
  have hi' : i < 32 := by omega
  rw [BitVec.getLsbD_setWidth, BitVec.getLsbD_signExtend, decide_eq_true hi, decide_eq_true hi',
    if_pos hi, Bool.true_and, Bool.true_and]

/-- **The bytes of an event** are those of its record. -/
theorem toBytes_eq (clock : SystemClock) (e : Event) :
    e.toBytes clock = Record.encode .little (e.record clock) := by
  have htype : [e.type.value] = ByteOrder.little.encode 1 e.type.value.toBitVec.toNat := by
    simp [ByteOrder.encode, digits]
  rw [toBytes, htype, shiftOutLow_eq_encode le_rfl]
  simp only [pushPair_eq_encode, setWidth_setWidth, setWidth_signExtend, List.append_assoc]
  rw [← List.append_nil (ByteOrder.little.encode 2 e.wheelDelta.toBitVec.toNat)]
  rfl

@[simp]
theorem length_toBytes (clock : SystemClock) (e : Event) : (e.toBytes clock).length = minSize := by
  rw [toBytes_eq, Record.length_encode]
  rfl

/-! ### The decoder -/

section Decoder

variable {clock : SystemClock} {bytes : List UInt8}

private theorem readFrom_get {ε : Type} {pos : ℕ} (h : pos < bytes.length) :
    (readFrom bytes (Reader.get pos) : Except (Stop ε) UInt8) =
      .ok ⟨BitVec.ofNat 8 (word .little pos 1 bytes)⟩ := by
  refine readFrom_ok ?_
  rw [Reader.run_get h]
  have hone : (bytes.drop pos).take 1 = [bytes[pos]] := by
    rw [List.drop_eq_getElem_cons h, List.take_succ_cons, List.take_zero]
  rw [word, hone]
  simp [ByteOrder.decode]

private theorem readFrom_fold {ε : Type} {w pos n : ℕ} (h : pos + n ≤ bytes.length) :
    (readFrom bytes (Reader.fold shiftInLow pos n (0, (0 : BitVec w))) :
        Except (Stop ε) (ℕ × BitVec w)) =
      .ok (((bytes.drop pos).take n).length, BitVec.ofNat w (word .little pos n bytes)) := by
  refine readFrom_ok ?_
  rw [Reader.run_fold h, foldl_shiftInLow]
  rfl

/-- A pair is what the loop reads from two bytes. -/
private theorem readFrom_getPair {ε : Type} {pos : ℕ} (h : pos + 2 ≤ bytes.length) :
    (readFrom bytes (getPair pos) : Except (Stop ε) (BitVec 16)) =
      .ok (BitVec.ofNat 16 (word .little pos 2 bytes)) := by
  have hlo : pos < bytes.length := by omega
  have hhi : pos + 1 < bytes.length := by omega
  have htwo : (bytes.drop pos).take 2 = [bytes[pos], bytes[pos + 1]] := by
    rw [List.drop_eq_getElem_cons hlo, List.drop_eq_getElem_cons hhi, List.take_succ_cons,
      List.take_succ_cons, List.take_zero]
  have hloop : bytes[pos].toBitVec.setWidth 32 ||| bytes[pos + 1].toBitVec.setWidth 32 <<< 8 =
      BitVec.ofNat 32 (word .little pos 2 bytes) := by
    have hfold : ([bytes[pos], bytes[pos + 1]].foldl shiftInLow (0, (0 : BitVec 32))).2 =
        BitVec.ofNat 32 (ByteOrder.little.decode [bytes[pos], bytes[pos + 1]]) := by
      rw [foldl_shiftInLow]
    rw [word, htwo, ← hfold]
    simp [shiftInLow]
  refine readFrom_ok ?_
  rw [getPair, Reader.run_bind_ok (Reader.run_get hlo), Reader.run_bind_ok (Reader.run_get hhi),
    Reader.run_pure, hloop]
  simp

/-- **The event of a buffer** is that of the record at its start, where its time is a
`time_point`. -/
theorem fromBytes_eq (h : minSize ≤ bytes.length) :
    fromBytes clock bytes =
      (clock.timePoint (count (Record.decode .little bytes layout 0))).map fun timestamp =>
        ofRecord timestamp (Record.decode .little bytes layout 0) := by
  rw [minSize] at h
  rw [fromBytes, if_neg (by rw [minSize]; omega), readFrom_get (by omega),
    readFrom_fold (by omega), readFrom_getPair (by omega), readFrom_getPair (by omega),
    readFrom_getPair (by omega), readFrom_getPair (by omega), readFrom_getPair (by omega)]
  simp only [bind, Except.bind]
  rw [count, Record.decode, Record.decode]
  rcases clock.timePoint (BitVec.ofNat 64 (word .little 1 8 bytes)) with stop | timestamp
  · rfl
  · rfl

end Decoder

/-! ### The clock of a decoded event -/

section Clock

variable (clock : SystemClock)

/-- Neither a truncated quotient nor its multiple is further from zero than the dividend. -/
private theorem inInt64_tdiv {t k : ℤ} (ht : InInt64 t) (hk : 0 < k) :
    InInt64 (t.tdiv k) ∧ InInt64 (k * t.tdiv k) := by
  have hbounds : ∀ u : ℤ, 0 ≤ u → 0 ≤ u.tdiv k ∧ u.tdiv k ≤ k * u.tdiv k ∧ k * u.tdiv k ≤ u := by
    intro u hu
    have hquot : 0 ≤ u.tdiv k := Int.tdiv_nonneg hu hk.le
    exact ⟨hquot, le_mul_of_one_le_left hquot hk, Int.mul_tdiv_self_le hu⟩
  obtain ⟨hmin, hmax⟩ := ht
  rcases le_total 0 t with hpos | hneg
  · obtain ⟨hquot, hmul, hle⟩ := hbounds t hpos
    exact ⟨⟨by omega, by omega⟩, by omega, by omega⟩
  · have hmirror := hbounds (-t) (by omega)
    rw [Int.neg_tdiv, mul_neg] at hmirror
    obtain ⟨hquot, hmul, hle⟩ := hmirror
    exact ⟨⟨by omega, by omega⟩, by omega, by omega⟩

private theorem inInt64_toInt (t : Int64) : InInt64 t.toInt := ⟨t.le_toInt, t.toInt_lt⟩

private theorem ticks_pos : (0 : ℤ) < clock.ticksPerMillisecond := Int.natCast_pos.mpr clock.pos

theorem toInt_milliseconds (timestamp : Int64) :
    (clock.milliseconds timestamp).toInt = timestamp.toInt.tdiv clock.ticksPerMillisecond :=
  toInt_ofInt64 (inInt64_tdiv (inInt64_toInt timestamp) (ticks_pos clock)).1

/-- A time that was made from a count of milliseconds is that many milliseconds. -/
theorem milliseconds_ofInt {ts : BitVec 64}
    (h : InInt64 (clock.ticksPerMillisecond * ts.toInt)) :
    (clock.milliseconds (Int64.ofInt (clock.ticksPerMillisecond * ts.toInt))).toBitVec = ts := by
  rw [SystemClock.milliseconds, toInt_ofInt64 h, Int.mul_tdiv_cancel_left _ (ticks_pos clock).ne']
  exact BitVec.ofInt_toInt

/-- Encoding the event of a record gives the bytes of the record. -/
theorem toBytes_ofRecord {r : Record layout}
    (h : InInt64 (clock.ticksPerMillisecond * (count r).toInt)) :
    (ofRecord (Int64.ofInt (clock.ticksPerMillisecond * (count r).toInt)) r).toBytes clock =
      Record.encode .little r := by
  rw [toBytes_eq, record_ofRecord (milliseconds_ofInt clock h)]

end Clock

/-! ### Decoded buffers -/

/-- The count of milliseconds that a buffer holds. -/
def millisecondsAt (bytes : List UInt8) : ℤ := (BitVec.ofNat 64 (word .little 1 8 bytes)).toInt

/-- It is that of the record at the start of the buffer. -/
theorem millisecondsAt_eq (bytes : List UInt8) :
    millisecondsAt bytes = (count (Record.decode .little bytes layout 0)).toInt := rfl

section Buffers

variable {clock : SystemClock} {bytes : List UInt8}

theorem fromBytes_of_short (h : bytes.length < minSize) :
    fromBytes clock bytes = .error (.thrown ⟨"Invalid event data size"⟩) := if_pos h

/-- A count that is too large for the clock overflows. -/
theorem fromBytes_of_not_inInt64 (h : minSize ≤ bytes.length)
    (hcount : ¬InInt64 (clock.ticksPerMillisecond * millisecondsAt bytes)) :
    fromBytes clock bytes = .error (.undefined (.signedOverflow
      (clock.ticksPerMillisecond * millisecondsAt bytes))) := by
  rw [millisecondsAt_eq] at hcount ⊢
  rw [fromBytes_eq h, SystemClock.timePoint, int64_of_not_inInt64 hcount]
  rfl

/-- Any other count is decoded. -/
theorem fromBytes_of_decode {r : Record layout} (h : minSize ≤ bytes.length)
    (hr : Record.decode .little bytes layout 0 = r)
    (hcount : InInt64 (clock.ticksPerMillisecond * (count r).toInt)) :
    fromBytes clock bytes =
      .ok (ofRecord (Int64.ofInt (clock.ticksPerMillisecond * (count r).toInt)) r) := by
  rw [fromBytes_eq h, hr, SystemClock.timePoint, int64_of_inInt64 hcount]
  rfl

/-- No buffer is read outside its bounds. -/
theorem fromBytes_inside (bytes : List UInt8) (read : OutOfBounds) :
    fromBytes clock bytes ≠ .error (.undefined (.outOfBounds read)) := by
  intro houtside
  rcases Nat.lt_or_ge bytes.length minSize with hshort | hlen
  · rw [fromBytes_of_short hshort] at houtside
    cases houtside
  · by_cases hcount : InInt64 (clock.ticksPerMillisecond * millisecondsAt bytes)
    · rw [millisecondsAt_eq] at hcount
      rw [fromBytes_of_decode hlen rfl hcount] at houtside
      cases houtside
    · rw [fromBytes_of_not_inInt64 hlen hcount] at houtside
      cases houtside

end Buffers

/-! ### Round trips -/

/-- **Events round-trip**, whatever bytes follow, but for what their times are past a
millisecond. -/
theorem event_roundTrip (clock : SystemClock) (e : Event) :
    (e.toBytes clock).length = minSize ∧
      ∀ s, ∃ e', fromBytes clock (e.toBytes clock ++ s) = .ok e' ∧
        { e' with timestamp := e.timestamp } = e ∧
        e'.timestamp.toInt =
          clock.ticksPerMillisecond * e.timestamp.toInt.tdiv clock.ticksPerMillisecond ∧
        e'.toBytes clock = e.toBytes clock := by
  refine ⟨length_toBytes clock e, fun s => ?_⟩
  have hsize : minSize ≤ (e.toBytes clock ++ s).length := by
    rw [List.length_append, length_toBytes]
    exact Nat.le_add_right _ _
  have hrecord : Record.decode .little (e.toBytes clock ++ s) layout 0 = e.record clock := by
    rw [toBytes_eq]
    exact Record.decode_encode (e.record clock) [] s
  have hcount : (count (e.record clock)).toInt = _ := toInt_milliseconds clock e.timestamp
  have hmul := (inInt64_tdiv (inInt64_toInt e.timestamp) (ticks_pos clock)).2
  rw [← hcount] at hmul ⊢
  refine ⟨_, fromBytes_of_decode hsize hrecord hmul, ofRecord_record clock _ e,
    toInt_ofInt64 hmul, ?_⟩
  rw [toBytes_ofRecord clock hmul, toBytes_eq]

/-- The clock of libstdc++, which counts nanoseconds. -/
def nanoseconds : SystemClock := ⟨1000000, by decide⟩

/-- A mouse move, which is the type 4, a millisecond and a half before the epoch. -/
example : (⟨⟨4⟩, -1500000, 0, 0, -2, 300, 0⟩ : Event).toBytes nanoseconds =
    [4, 255, 255, 255, 255, 255, 255, 255, 255, 0, 0, 0, 0, 254, 255, 44, 1, 0, 0] := by decide

/-- The buffer is decoded, without a read outside it and without an overflow, and the event has
its bytes. -/
def DecodesSafely (clock : SystemClock) (bytes : List UInt8) : Prop :=
  ∃ e, fromBytes clock bytes = .ok e ∧ e.toBytes clock = bytes.take minSize

/-- **When a buffer is decoded safely.** The reads always stay inside; the count of milliseconds
must be one that the clock can hold. -/
theorem decodesSafely_iff {clock : SystemClock} {bytes : List UInt8} (h : minSize ≤ bytes.length) :
    DecodesSafely clock bytes ↔
      InInt64 (clock.ticksPerMillisecond * millisecondsAt bytes) := by
  constructor
  · rintro ⟨e, he, -⟩
    by_contra hcount
    rw [fromBytes_of_not_inInt64 h hcount] at he
    cases he
  · intro hcount
    rw [millisecondsAt_eq] at hcount
    have hfits : 0 + layout.sum ≤ bytes.length := h
    refine ⟨_, fromBytes_of_decode h rfl hcount, ?_⟩
    rw [toBytes_ofRecord clock hcount, Record.encode_decode hfits]
    rfl

/-- A key pressed in November 2023. -/
theorem decodesSafely_2023 :
    DecodesSafely nanoseconds
      [0, 0, 104, 229, 207, 139, 1, 0, 0, 30, 0, 0, 0, 0, 0, 0, 0, 0, 0] :=
  (decodesSafely_iff (by decide)).mpr (by decide)

/-- The latest count of milliseconds. -/
theorem not_decodesSafely_latest :
    ¬DecodesSafely nanoseconds
      [0, 255, 255, 255, 255, 255, 255, 255, 127, 30, 0, 0, 0, 0, 0, 0, 0, 0, 0] := by
  rintro ⟨e, he, -⟩
  rw [fromBytes_of_not_inInt64 (by decide) (by decide)] at he
  cases he

end Event

end Wire

end Sameness
