import Sameness.Link.EndToEnd

/-!
# The mouse on the fallback

Between little-endian machines, the fallback injector reads a mouse packet with other field
widths than the client writes it with. For a move both use two 32-bit words, and the injector
narrows them to 16 bits; for a button the client writes a byte and two 32-bit words, and the
injector reads three 16-bit words from the same bytes.

`Faithful` asks that the posted event be of the same kind, with the same button and with the
coordinates relative to the host's right edge. `Representable` is when it is: a move must
arrive with a horizontal coordinate of 16 bits, and a button at the one point where the
misread fields vanish. `faithful_iff` puts the field arithmetic together; the payload enters it
through its value as one little-endian number, from which a word is a quotient and a
remainder (`word_little`).
-/

namespace Sameness

open Bytes Cpp Eff Uiohook

/-- Moves, and presses and releases of a button whose number fits a byte, at coordinates that
are not negative. -/
def OnScreen : EventData → Prop
  | .mouseMoved mouse => 0 ≤ mouse.x.toInt ∧ 0 ≤ mouse.y.toInt
  | .mousePressed mouse | .mouseReleased mouse =>
    0 ≤ mouse.x.toInt ∧ 0 ≤ mouse.y.toInt ∧
      1 ≤ mouse.button.toNat ∧ mouse.button.toNat ≤ 255
  | _ => False

/-- The posted event is the host's, seen from the host's right edge. -/
def SameMouse (width : ℤ) : EventData → EventData → Prop
  | .mouseMoved mouse, .mouseMoved mouse' =>
    mouse'.x.toInt = mouse.x.toInt - width ∧ mouse'.y.toInt = mouse.y.toInt
  | .mousePressed mouse, .mousePressed mouse' =>
    mouse'.button = mouse.button ∧ mouse'.x.toInt = mouse.x.toInt - width ∧
      mouse'.y.toInt = mouse.y.toInt
  | .mouseReleased mouse, .mouseReleased mouse' =>
    mouse'.button = mouse.button ∧ mouse'.x.toInt = mouse.x.toInt - width ∧
      mouse'.y.toInt = mouse.y.toInt
  | _, _ => False

/-- The fallback server, in the state `t`, posts the host's event for the bytes. -/
def Faithful (width : ℤ) (data : EventData) (t : ServerState) (bytes : List UInt8) : Prop :=
  ∃ event, (exec (handleData .little .uiohook bytes) t).2.desktop.posted =
      t.desktop.posted ++ [⟨.uiohook event, true⟩] ∧
    SameMouse width data event.data

/-- The events that the narrower fields can carry. -/
def Representable (width : ℤ) : EventData → Prop
  | .mouseMoved mouse => -32768 ≤ mouse.x.toInt - width ∧ mouse.x.toInt - width ≤ 32767
  | .mousePressed mouse | .mouseReleased mouse => mouse.x.toInt = width ∧ mouse.y.toInt = 0
  | _ => False

instance (data : EventData) : Decidable (OnScreen data) :=
  match data with
  | .mouseMoved _ | .mousePressed _ | .mouseReleased _ => inferInstanceAs (Decidable (_ ∧ _))
  | .hookEnabled | .hookDisabled | .keyTyped _ | .keyPressed _ | .keyReleased _
  | .mouseClicked _ | .mouseDragged _ | .mouseWheel _ => inferInstanceAs (Decidable False)

instance (width : ℤ) (data : EventData) : Decidable (Representable width data) :=
  match data with
  | .mouseMoved _ | .mousePressed _ | .mouseReleased _ => inferInstanceAs (Decidable (_ ∧ _))
  | .hookEnabled | .hookDisabled | .keyTyped _ | .keyPressed _ | .keyReleased _
  | .mouseClicked _ | .mouseDragged _ | .mouseWheel _ => inferInstanceAs (Decidable False)

/-! ### Fields -/

/-- A little-endian word is a remainder of a quotient. -/
theorem word_little (off n : ℕ) (buf : List UInt8) :
    word .little off n buf = value buf / 256 ^ off % 256 ^ n := by
  rw [word, ByteOrder.decode, value_take, value_drop]

/-- The value of the image of an `int32_t`. -/
theorem value_int32Bytes {c : Client} (hc : c.byteOrder = .little) (z : ℤ) :
    (value (c.int32Bytes z) : ℤ) = z % 2 ^ 32 := by
  have hlt : (UInt32.ofInt z).toNat < 256 ^ 4 := (UInt32.ofInt z).toNat_lt
  rw [Client.int32Bytes, hc, ByteOrder.encode, value_digits, Nat.mod_eq_of_lt hlt, toNat_ofInt]

/-- The value of the two coordinates, for a vertical one that is not negative. -/
theorem value_coords {c : Client} (hc : c.byteOrder = .little) {mouse : MouseEventData}
    (hy : 0 ≤ mouse.y.toInt) :
    (value (c.coords mouse) : ℤ) =
      (mouse.x.toInt - c.hostScreenWidth.toInt) % 2 ^ 32 + 2 ^ 32 * mouse.y.toInt := by
  have hlt := mouse.y.toInt_lt
  have hmod : mouse.y.toInt % 2 ^ 32 = mouse.y.toInt := by omega
  rw [Client.coords, value_append, Client.int32Bytes, ByteOrder.length_encode,
    ← Client.int32Bytes, Nat.cast_add, Nat.cast_mul, value_int32Bytes hc, value_int32Bytes hc,
    hmod]
  norm_num

/-- An `int32_t` of the payload narrowed to 16 bits. -/
private theorem toInt_narrow (n : ℕ) :
    (Int16.ofInt (Int32.ofNat n).toInt).toInt = (n : ℤ).bmod (2 ^ 16) := by
  rw [Int16.toInt_ofInt, Int32.toInt_ofNat']
  exact Int.bmod_bmod_of_dvd (by decide)

/-- Narrowing two 32-bit words keeps the coordinates if the first has 16 bits. -/
private theorem narrowed_iff {X Y : ℤ} {V : ℕ} (hY : 0 ≤ Y ∧ Y < 2 ^ 15)
    (hV : (V : ℤ) = X % 2 ^ 32 + 2 ^ 32 * Y) :
    (((V / 256 ^ 0 % 256 ^ 4 : ℕ) : ℤ).bmod (2 ^ 16) = X ∧
        ((V / 256 ^ 4 % 256 ^ 4 : ℕ) : ℤ).bmod (2 ^ 16) = Y) ↔ -32768 ≤ X ∧ X ≤ 32767 := by
  have hx : (V / 256 ^ 0 % 256 ^ 4 : ℕ) = (X % 2 ^ 32).toNat := by omega
  have hy : (V / 256 ^ 4 % 256 ^ 4 : ℕ) = Y.toNat := by omega
  rw [hx, hy, Int.bmod_def, Int.bmod_def]
  split_ifs <;> omega

/-- Reading a byte and two 32-bit words as three 16-bit words keeps the fields only where the
coordinates vanish: the first must leave its low byte clear, and is then its own 256th part. -/
private theorem misread_iff {X Y : ℤ} {b V : ℕ} (hb : 1 ≤ b ∧ b ≤ 255) (hY : 0 ≤ Y ∧ Y < 2 ^ 15)
    (hV : (V : ℤ) = X % 2 ^ 32 + 2 ^ 32 * Y) :
    ((b + 256 * V) / 256 ^ 0 % 256 ^ 2 = b ∧
        (((b + 256 * V) / 256 ^ 2 % 256 ^ 2 : ℕ) : ℤ).bmod (2 ^ 16) = X ∧
        (((b + 256 * V) / 256 ^ 4 % 256 ^ 2 : ℕ) : ℤ).bmod (2 ^ 16) = Y) ↔ X = 0 ∧ Y = 0 := by
  rw [Int.bmod_def, Int.bmod_def]
  constructor
  · -- the signs of the two coordinates are split by `bmod`
    rintro ⟨hbutton, hx, hy⟩
    split_ifs at hx hy <;> omega
  · rintro ⟨rfl, rfl⟩
    split_ifs <;> omega

/-! ### The posted event -/

/-- Where the server posts one event, it is faithful if that event is. -/
private theorem faithful_iff_of_posted {width : ℤ} {data : EventData} {t : ServerState}
    {bytes : List UInt8} {event : Event}
    (hdesktop : (exec (handleData .little .uiohook bytes) t).2.desktop =
      Platform.uiohook.posted [.uiohook event] t.desktop) :
    Faithful width data t bytes ↔ SameMouse width data event.data := by
  rw [Faithful, hdesktop]
  constructor
  · rintro ⟨event', hposted, hsame⟩
    have hevent := List.append_cancel_left hposted
    cases hevent
    exact hsame
  · exact fun hsame => ⟨event, rfl, hsame⟩

/-- The fields of a move, as the fallback reads them. -/
private theorem sameMouse_move {c : Client} (hc : c.byteOrder = .little)
    {mouse : MouseEventData} (hy : 0 ≤ mouse.y.toInt) :
    ((Int16.ofInt (Int32.ofNat (word .little 0 4 (c.coords mouse))).toInt).toInt =
          mouse.x.toInt - c.hostScreenWidth.toInt ∧
        (Int16.ofInt (Int32.ofNat (word .little 4 4 (c.coords mouse))).toInt).toInt =
          mouse.y.toInt) ↔
      -32768 ≤ mouse.x.toInt - c.hostScreenWidth.toInt ∧
        mouse.x.toInt - c.hostScreenWidth.toInt ≤ 32767 := by
  rw [toInt_narrow, toInt_narrow, word_little, word_little]
  exact narrowed_iff ⟨hy, mouse.y.toInt_lt⟩ (value_coords hc hy)

/-- The fields of a button packet, as the fallback reads them. -/
private theorem sameMouse_button {c : Client} (hc : c.byteOrder = .little)
    {mouse : MouseEventData} (hy : 0 ≤ mouse.y.toInt) (hb : 1 ≤ mouse.button.toNat)
    (hb' : mouse.button.toNat ≤ 255) :
    (UInt16.ofNat (word .little 0 2 (mouse.button.toUInt8 :: c.coords mouse)) = mouse.button ∧
      (Int16.ofNat (word .little 2 2 (mouse.button.toUInt8 :: c.coords mouse))).toInt =
        mouse.x.toInt - c.hostScreenWidth.toInt ∧
      (Int16.ofNat (word .little 4 2 (mouse.button.toUInt8 :: c.coords mouse))).toInt =
        mouse.y.toInt) ↔
      mouse.x.toInt = c.hostScreenWidth.toInt ∧ mouse.y.toInt = 0 := by
  have hbyte : mouse.button.toUInt8.toNat = mouse.button.toNat := by
    rw [UInt16.toNat_toUInt8]
    omega
  have hnumber : ∀ n : ℕ, n < 256 ^ 2 →
      (UInt16.ofNat n = mouse.button ↔ n = mouse.button.toNat) := by
    intro n hn
    rw [← UInt16.toNat_inj, UInt16.toNat_ofNat_of_lt' hn]
  rw [word_little, word_little, word_little, value_cons, hbyte,
    hnumber _ (Nat.mod_lt _ (by decide)), Int16.toInt_ofNat', Int16.toInt_ofNat']
  have h := misread_iff ⟨hb, hb'⟩ ⟨hy, mouse.y.toInt_lt⟩ (value_coords hc hy)
  rw [Int.sub_eq_zero] at h
  exact h

/-- The event that the server posts for a forwarded packet is faithful exactly if it is
representable. -/
theorem faithful_iff_of_forwarded {c : Client} (hc : c.byteOrder = .little) {now : UInt64}
    {data : EventData} {pkt : EventPacket} (hpkt : c.forwarded now data = some pkt)
    (hscreen : OnScreen data) (t : ServerState) :
    Faithful c.hostScreenWidth.toInt data t pkt.toBytes ↔
      Representable c.hostScreenWidth.toInt data := by
  have hsized := Client.sized_forwarded hpkt
  have hmove : ∀ mouse, 8 ≤ (c.coords mouse).length := fun mouse =>
    (Client.length_coords mouse).ge
  have hbutton : ∀ (b : UInt8) mouse, 6 ≤ (b :: c.coords mouse).length := fun b mouse => by
    rw [Client.length_button_coords]
    decide
  obtain ⟨k, rfl, -⟩ | ⟨k, rfl, -⟩ | ⟨m, rfl, rfl⟩ | ⟨m, rfl, rfl⟩ | ⟨m, rfl, rfl⟩ :=
    Client.forwarded_eq_some hpkt
  · cases hscreen
  · cases hscreen
  · obtain ⟨-, hy, hb, hb'⟩ := hscreen
    rw [faithful_iff_of_posted (posted_of_packet hsized rfl (hbutton _ m) rfl trivial)]
    exact sameMouse_button hc hy hb hb'
  · obtain ⟨-, hy, hb, hb'⟩ := hscreen
    rw [faithful_iff_of_posted (posted_of_packet hsized rfl (hbutton _ m) rfl trivial)]
    exact sameMouse_button hc hy hb hb'
  · obtain ⟨-, hy⟩ := hscreen
    rw [faithful_iff_of_posted (posted_of_packet hsized rfl (hmove m) rfl trivial)]
    exact sameMouse_move hc hy

/-- **When the fallback mouse is faithful.** Exactly for the moves whose relative horizontal
coordinate has 16 bits, and the presses and releases at the top of the host's right edge. -/
theorem faithful_iff {c : Client} (hc : c.byteOrder = .little) {s : ClientState}
    {call : HookCall} {event : Event} {bytes : List UInt8}
    (h : Forwards c s call event bytes) (hscreen : OnScreen event.data) (t : ServerState) :
    Faithful c.hostScreenWidth.toInt event.data t bytes ↔
      Representable c.hostScreenWidth.toInt event.data := by
  obtain ⟨pkt, hpkt, rfl⟩ := h.packet
  exact faithful_iff_of_forwarded hc hpkt hscreen t

/-- A move just left of the right edge of the host's screen, and the bytes of its packet. -/
def edgeMove : Event := ⟨0, 0, .mouseMoved { button := 0, clicks := 0, x := 1919, y := 500 }⟩

def edgeMoveBytes : List UInt8 :=
  EventPacket.toBytes ⟨.mouseMove, 0, 8, [255, 255, 255, 255, 244, 1, 0, 0]⟩

theorem faithful_edgeMove : Faithful 1920 edgeMove.data {} edgeMoveBytes :=
  have hfwd : Forwards defaultClient (.fresh defaultClient 1080 20) ⟨0, some edgeMove⟩ edgeMove
      edgeMoveBytes := ⟨rfl, by decide, by decide⟩
  (faithful_iff rfl hfwd (by decide) {}).mpr (by decide)

/-- The press of the left button is posted as another button's, at another place. -/
theorem not_faithful_leftPress :
    Forwards defaultClient crossed ⟨0, some leftPress⟩ leftPress leftPressPacket.toBytes ∧
      OnScreen leftPress.data ∧ ¬Faithful 1920 leftPress.data {} leftPressPacket.toBytes := by
  refine ⟨forwards_leftPress, by decide, fun h => ?_⟩
  have hpoint := (faithful_iff_of_forwarded rfl forwarded_leftPress (by decide) {}).mp h
  exact absurd hpoint (by decide)

end Sameness
