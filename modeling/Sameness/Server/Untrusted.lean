import Sameness.Server.Loop

/-!
# Untrusted chunks

The server accepts any peer, so a chunk can hold any bytes. Two properties that a round of
the receive loop should have on every chunk, and exactly when it has them:

* `DecodesInBounds`: the round never ends in a read outside the chunk, and a chunk that declares
  more payload than it has is rejected as a mismatch. The decoder takes the declared size on trust
  and the check comes after the copy, so this fails exactly on the chunks that declare too much.
* `AcceptsGrammar`: the round calls an injector exactly for the encodings of packets of a
  known type and skips every other chunk. The decoder cuts the payload at the declared size,
  so bytes after it go unnoticed; and the chunks above are not skipped.

Both are decided by one comparison between the chunk's length and the size it declares.
-/

namespace Sameness

open Bytes Cpp Eff EventPacket

variable {o : ByteOrder} {P : Platform}

/-! ### Reads -/

/-- A round never reads outside the chunk, in whatever state the server is, and it rejects a chunk
that declares more payload than follows its header. -/
structure DecodesInBounds (o : ByteOrder) (P : Platform) (c : Chunk) : Prop where
  inBounds : ∀ s read,
    (exec (handleData o P c.data) s).1 ≠ .error (.undefined (.outOfBounds read))
  mismatch : headerSize ≤ c.data.length → c.data.length < headerSize + declaredSize c.data →
    ∀ s, ∃ got, exec (handleData o P c.data) s =
      (.ok (), s.skipped (.payloadSizeMismatch (declaredSize c.data) got))

/-- The only read outside a chunk is the copy of a payload that is not there. -/
theorem exec_handleData_ne_outOfBounds {data : List UInt8}
    (h : data.length < headerSize ∨ headerSize + declaredSize data ≤ data.length)
    (s : ServerState) (read : OutOfBounds) :
    (exec (handleData o P data) s).1 ≠ .error (.undefined (.outOfBounds read)) := by
  rcases h with hshort | hle
  · rw [exec_handleData, if_pos hshort]
    exact nofun
  · rw [exec_handleData_of_le hle, exec_dispatch]
    rcases handler? (ofBuffer data).type with _ | h
    · exact nofun
    · exact Platform.inject_ne_outOfBounds read

/-- A chunk that declares more than it has is read outside. -/
theorem exec_handleData_of_lt {data : List UInt8} (hheader : headerSize ≤ data.length)
    (hlt : data.length < headerSize + declaredSize data) (s : ServerState) :
    exec (handleData o P data) s =
      (.error (.undefined (.outOfBounds ⟨data.length, data.length⟩)), s) := by
  rw [exec_handleData, if_neg (Nat.not_lt.mpr hheader), if_pos hlt]

/-- **In-bounds decoding.** A round decodes in bounds exactly when the chunk has no header,
or all the payload that its header declares. -/
theorem decodesInBounds_iff (o : ByteOrder) (P : Platform) (c : Chunk) :
    DecodesInBounds o P c ↔
      c.data.length < 13 ∨ 13 + declaredSize c.data ≤ c.data.length := by
  constructor
  · intro hbounds
    by_contra hover
    obtain ⟨hheader, hlt⟩ := not_or.mp hover
    refine hbounds.inBounds {} ⟨c.data.length, c.data.length⟩ ?_
    rw [exec_handleData_of_lt (Nat.le_of_not_lt hheader) (Nat.lt_of_not_le hlt)]
  · intro hc
    refine ⟨exec_handleData_ne_outOfBounds hc, fun hheader hlt => ?_⟩
    rw [headerSize] at hheader hlt
    omega

/-- Thirteen bytes that declare a payload of five. -/
def overdeclared : Chunk :=
  ⟨[1, 0, 0, 0, 0, 0, 0, 0, 0, 0, 0, 0, 5], by decide, by decide⟩

/-- The decoder reads index 13 of a chunk of 13 bytes. -/
theorem not_decodesInBounds_overdeclared : ¬DecodesInBounds .little .uiohook overdeclared := by
  intro hbounds
  exact hbounds.inBounds {} ⟨13, 13⟩ (by decide)

/-! ### Acceptance -/

/-- The chunk is the encoding of a packet of the type that `h` is for. -/
def Encodes (data : List UInt8) (h : Handler) (pkt : EventPacket) : Prop :=
  pkt.Sized ∧ pkt.type = h.type ∧ data = pkt.toBytes

/-- A round calls an injector exactly on the encodings of packets of a known type, and then
the one for the packet's type, once and with the packet; it skips every other chunk. -/
def AcceptsGrammar (o : ByteOrder) (P : Platform) (c : Chunk) : Prop :=
  ∀ s, (∀ h pkt, Encodes c.data h pkt →
      (exec (handleData o P c.data) s).2.dispatched = s.dispatched ++ [(h, pkt)]) ∧
    ((¬∃ h pkt, Encodes c.data h pkt) →
      ∃ r, exec (handleData o P c.data) s = (.ok (), s.skipped r))

/-- An encoding is exactly as long as its header says. -/
theorem Encodes.length_eq {data : List UInt8} {h : Handler} {pkt : EventPacket}
    (he : Encodes data h pkt) : headerSize + declaredSize data = data.length :=
  exists_toBytes_eq_iff.mp ⟨pkt, he.1, he.2.2.symm⟩

/-- An encoding encodes the packet that its buffer stands for. -/
theorem Encodes.eq_ofBuffer {data : List UInt8} {h : Handler} {pkt : EventPacket}
    (he : Encodes data h pkt) : pkt = ofBuffer data :=
  toBytes_injective he.1 (sized_ofBuffer he.length_eq.le)
    (by rw [toBytes_ofBuffer he.length_eq, he.2.2])

/-- A chunk whose packet has a known type reaches an injector, whatever follows the packet. -/
theorem dispatches_of_known {data : List UInt8} {h : Handler}
    (hle : headerSize + declaredSize data ≤ data.length)
    (hh : handler? (ofBuffer data).type = some h) : dispatches data = some (h, ofBuffer data) := by
  rw [dispatches, if_neg (Nat.not_lt.mpr hle), hh, Option.map_some]

/-- A chunk whose packet has an unknown type is skipped. -/
theorem exec_handleData_of_unknown {data : List UInt8}
    (hle : headerSize + declaredSize data ≤ data.length)
    (hh : handler? (ofBuffer data).type = none) (s : ServerState) :
    exec (handleData o P data) s =
      (.ok (), s.skipped (.unknownEventType (ofBuffer data).type.value)) := by
  rw [exec_handleData_of_le hle, exec_dispatch, hh]

/-- A chunk that ends with its declared payload is treated as the grammar asks. -/
private theorem acceptsGrammar_of_eq {c : Chunk}
    (heq : headerSize + declaredSize c.data = c.data.length) : AcceptsGrammar o P c := by
  intro s
  rcases hh : handler? (ofBuffer c.data).type with _ | h
  · refine ⟨fun h' pkt he => ?_, fun _ => ⟨_, exec_handleData_of_unknown heq.le hh s⟩⟩
    have hsome := handler?_eq_some_iff.mpr he.2.1
    rw [he.eq_ofBuffer, hh] at hsome
    cases hsome
  · refine ⟨fun h' pkt he => ?_, fun hnone => ?_⟩
    · have hsome := handler?_eq_some_iff.mpr he.2.1
      rw [he.eq_ofBuffer, hh] at hsome
      rw [dispatched_handleData, dispatches_of_known heq.le hh, he.eq_ofBuffer,
        Option.some.inj hsome, Option.toList_some]
    · exact absurd ⟨h, ofBuffer c.data, sized_ofBuffer heq.le, handler?_eq_some_iff.mp hh,
        (toBytes_ofBuffer heq).symm⟩ hnone

/-- A chunk that is skipped without an injector being called, and is no encoding. -/
private theorem acceptsGrammar_of_skipped {c : Chunk}
    (hne : headerSize + declaredSize c.data ≠ c.data.length)
    (hskip : ∀ s, ∃ r, exec (handleData o P c.data) s = (.ok (), s.skipped r)) :
    AcceptsGrammar o P c :=
  fun s => ⟨fun _ _ he => absurd he.length_eq hne, fun _ => hskip s⟩

/-- A chunk that is no encoding must be skipped. -/
private theorem AcceptsGrammar.skipped {c : Chunk} (hc : AcceptsGrammar o P c)
    (hne : headerSize + declaredSize c.data ≠ c.data.length) :
    ∃ r, exec (handleData o P c.data) {} = (.ok (), ({} : ServerState).skipped r) :=
  (hc {}).2 fun ⟨_, _, he⟩ => hne he.length_eq

/-- A chunk with bytes after a packet of a known type is not skipped. -/
private theorem not_acceptsGrammar_of_lt {c : Chunk} {h : Handler}
    (hlt : headerSize + declaredSize c.data < c.data.length)
    (hh : handler? (ofBuffer c.data).type = some h) : ¬AcceptsGrammar o P c := by
  intro hc
  obtain ⟨r, hr⟩ := hc.skipped hlt.ne
  have hcall := dispatched_handleData (o := o) (P := P) c.data {}
  rw [hr, dispatches_of_known hlt.le hh] at hcall
  cases hcall

/-- **The server accepts exactly the wire grammar** on the chunks without a header, on those
that end with their declared payload, and on those that go on after it but have an unknown
type, and on no others. -/
theorem acceptsGrammar_iff (o : ByteOrder) (P : Platform) (c : Chunk) :
    AcceptsGrammar o P c ↔
      c.data.length < 13 ∨ c.data.length = 13 + declaredSize c.data ∨
        (13 + declaredSize c.data < c.data.length ∧
          ¬(1 ≤ (c.data.headD 0).toNat ∧ (c.data.headD 0).toNat ≤ 5)) := by
  have htype : handler? (ofBuffer c.data).type = none ↔
      ¬(1 ≤ (c.data.headD 0).toNat ∧ (c.data.headD 0).toNat ≤ 5) := by
    rw [← Option.not_isSome_iff_eq_none, handler?_isSome_iff]
    rfl
  rcases Nat.lt_or_ge c.data.length 13 with hshort | hheader
  · have hskip : ∀ s, exec (handleData o P c.data) s =
        (.ok (), s.skipped (.tooSmall c.data.length)) := fun s => by
      rw [exec_handleData, headerSize, if_pos hshort]
    exact iff_of_true
      (acceptsGrammar_of_skipped (by rw [headerSize]; omega) fun s => ⟨_, hskip s⟩) (.inl hshort)
  rcases Nat.lt_trichotomy c.data.length (13 + declaredSize c.data) with hlt | heq | hgt
  · -- the decoder leaves the chunk, which is not skipping it
    refine iff_of_false (fun hc => ?_) (by omega)
    obtain ⟨r, hr⟩ := hc.skipped (by rw [headerSize]; omega)
    rw [exec_handleData_of_lt hheader hlt] at hr
    cases hr
  · exact iff_of_true (acceptsGrammar_of_eq heq.symm) (.inr (.inl heq))
  · rcases hh : handler? (ofBuffer c.data).type with _ | h
    · refine iff_of_true (acceptsGrammar_of_skipped (by rw [headerSize]; omega) fun s => ?_)
        (.inr (.inr ⟨hgt, htype.mp hh⟩))
      exact ⟨_, exec_handleData_of_unknown hgt.le hh s⟩
    · have hknown : ¬handler? (ofBuffer c.data).type = none := by simp [hh]
      rw [htype] at hknown
      exact iff_of_false (not_acceptsGrammar_of_lt hgt hh) (by omega)

/-- A key press followed by one more byte. -/
def trailing : Chunk :=
  ⟨[1, 0, 0, 0, 0, 0, 0, 0, 0, 0, 0, 0, 4, 30, 0, 0, 0, 255], by decide, by decide⟩

/-- The server injects the key although the chunk is no encoding. -/
theorem not_acceptsGrammar_trailing : ¬AcceptsGrammar .little .uiohook trailing :=
  not_acceptsGrammar_of_lt (h := .injectKeyPress) (by decide) (by decide)

end Sameness
