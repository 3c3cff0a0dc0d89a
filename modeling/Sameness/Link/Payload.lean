import Sameness.Link.EndToEnd
import Sameness.Server.Keyboard

/-!
# Payloads between machines

The payloads are raw copies of machine words: the client lays them out in its byte order, and
an injector reads them in the server's. `received` is the coordinate that is read where the
client wrote another, and `received_eq_self_iff` says when the two are the same.

The injectors read a key in three ways (`Platform.keyCode`). `keyCode_encode_iff` is the exact
condition under which it is the key that was pressed: the four-byte readers need the client's
byte order to be the server's, and the fallback, which reads the first two bytes only, needs
the client's to be the little-endian one. What is posted is a matter of the values that are read
(`DecodesAs.offers`).
-/

namespace Sameness

open Bytes Cpp Eff Uiohook

/-! ### Coordinates -/

/-- The coordinate that is read where the client wrote `z`. -/
def received (c : Client) (o : ByteOrder) (z : ℤ) : ℤ :=
  (Int32.ofNat (o.decode (c.int32Bytes z))).toInt

section Coordinates

variable {c : Client} {o : ByteOrder}

/-- Four bytes stand for an `int32_t` exactly if they are its image. -/
theorem toInt_decode_eq_iff {l : List UInt8} (hl : l.length = 4) {z : ℤ} (hz : InInt z) :
    (Int32.ofNat (o.decode l)).toInt = z ↔ l = o.encode 4 (UInt32.ofInt z).toNat := by
  have hlt : o.decode l < 2 ^ 32 := by
    have h := ByteOrder.decode_lt o l
    rwa [hl] at h
  have hnat := toNat_ofInt z
  have hword : Int32.size = 2 ^ 32 := rfl
  rw [← ByteOrder.decode_eq_iff o hl (UInt32.ofInt z).toNat_lt, Int32.toInt_ofNat', Int.bmod_def,
    hword]
  obtain ⟨hmin, hmax⟩ := hz
  constructor
  · intro h
    split_ifs at h <;> omega
  · intro h
    split_ifs <;> omega

/-- A coordinate arrives exactly if the byte orders agree or its image is a palindrome. -/
theorem received_eq_self_iff {z : ℤ} (hz : InInt z) :
    received c o z = z ↔ c.byteOrder = o ∨ (c.int32Bytes z).reverse = c.int32Bytes z := by
  have hlen : (c.int32Bytes z).length = 4 := ByteOrder.length_encode _ _ _
  rw [received, toInt_decode_eq_iff hlen hz]
  exact ByteOrder.encode_eq_encode_iff _ _ _ _

/-- The words of the coordinates of a mouse move. -/
theorem word_coords (mouse : MouseEventData) :
    word o 0 4 (c.coords mouse) =
        o.decode (c.int32Bytes (mouse.x.toInt - c.hostScreenWidth.toInt)) ∧
      word o 4 4 (c.coords mouse) = o.decode (c.int32Bytes mouse.y.toInt) := by
  have hlen : ∀ z, (c.int32Bytes z).length = 4 := fun z => ByteOrder.length_encode _ _ _
  constructor
  · rw [word, List.drop_zero, Client.coords, List.take_left' (hlen _)]
  · rw [word, Client.coords, List.drop_left' (hlen _), List.take_of_length_le (hlen _).le]

/-- The coordinates that an injector reads from a mouse move. -/
theorem int32_coords {pkt : EventPacket} {mouse : MouseEventData}
    (h : pkt.payload = c.coords mouse) :
    Platform.int32 o 0 pkt = received c o (mouse.x.toInt - c.hostScreenWidth.toInt) ∧
      Platform.int32 o 4 pkt = received c o mouse.y.toInt := by
  obtain ⟨hx, hy⟩ := word_coords (o := o) (c := c) mouse
  rw [Platform.int32, Platform.int32, h, hx, hy]
  exact ⟨rfl, rfl⟩

/-- The coordinates that an injector reads behind the button. -/
theorem int32_button {pkt : EventPacket} {b : UInt8} {mouse : MouseEventData}
    (h : pkt.payload = b :: c.coords mouse) :
    Platform.int32 o 1 pkt = received c o (mouse.x.toInt - c.hostScreenWidth.toInt) ∧
      Platform.int32 o 5 pkt = received c o mouse.y.toInt := by
  obtain ⟨hx, hy⟩ := word_coords (o := o) (c := c) mouse
  rw [word] at hx hy
  rw [Platform.int32, Platform.int32, word, word, h, List.drop_succ_cons, List.drop_succ_cons, hx,
    hy]
  exact ⟨rfl, rfl⟩

end Coordinates

/-! ### Keys -/

section Keys

variable {o o' : ByteOrder}

/-- When an injector of byte order `o'` reads the code that was laid out in the order `o`. -/
def Platform.ReadsKey (P : Platform) (o o' : ByteOrder) (code : UInt16) : Prop :=
  match P with
  | uiohook => o = .little ∧ (o' = .little ∨ code.toNat % 256 = code.toNat / 256)
  | _ => o = o'

/-- The image of a code of 16 bits. -/
private theorem digits_code (code : UInt16) :
    digits 4 code.toNat =
      [UInt8.ofNat code.toNat, UInt8.ofNat (code.toNat / 256), 0, 0] := by
  have hlt := code.toNat_lt
  have hhigh : code.toNat / 256 / 256 = 0 := by omega
  rw [digits, digits, digits, digits, digits, hhigh]
  rfl

/-- The bytes of a code. -/
private theorem toNat_bytes (code : UInt16) :
    (UInt8.ofNat code.toNat).toNat = code.toNat % 256 ∧
      (UInt8.ofNat (code.toNat / 256)).toNat = code.toNat / 256 := by
  have hlt := code.toNat_lt
  constructor
  · rw [UInt8.toNat_ofNat']
  · rw [UInt8.toNat_ofNat', Nat.mod_eq_of_lt (by omega)]

/-- Four bytes read in the other byte order leave the low half clear. -/
private theorem ofNat_word_four_iff {code : UInt16} (hcode : code ≠ 0) :
    UInt16.ofNat (word o' 0 4 (o.encode 4 code.toNat)) = code ↔ o = o' := by
  have hword : word o' 0 4 (o.encode 4 code.toNat) = o'.decode (o.encode 4 code.toNat) := by
    rw [word, List.drop_zero, List.take_of_length_le (ByteOrder.length_encode _ _ _).le]
  rw [hword]
  by_cases ho : o = o'
  · subst ho
    have hlt : code.toNat < 256 ^ 4 := lt_trans code.toNat_lt (by decide)
    rw [ByteOrder.decode_encode_of_lt _ hlt, UInt16.ofNat_toNat]
    exact iff_of_true rfl rfl
  · refine iff_of_false (fun h => hcode ?_) ho
    obtain ⟨hlow, hhigh⟩ := toNat_bytes code
    rw [← h, ByteOrder.decode_encode_of_ne ho, digits_code]
    refine UInt16.toNat.inj ?_
    rw [UInt16.toNat_ofNat']
    simp only [List.reverse_cons, List.reverse_nil, List.nil_append, List.cons_append, value_cons,
      value_nil, hlow, hhigh]
    change (0 + 256 * (0 + 256 * _)) % 2 ^ 16 = 0
    omega

/-- Two bytes are the code only at the start of a little-endian image. -/
private theorem ofNat_word_two_iff {code : UInt16} (hcode : code ≠ 0) :
    UInt16.ofNat (word o' 0 2 (o.encode 4 code.toNat)) = code ↔
      o = .little ∧ (o' = .little ∨ code.toNat % 256 = code.toNat / 256) := by
  obtain ⟨hlow, hhigh⟩ := toNat_bytes code
  have hlt := code.toNat_lt
  rw [← UInt16.toNat_inj, UInt16.toNat_ofNat', word, List.drop_zero]
  rcases o with _ | _
  · rw [ByteOrder.encode, digits_code]
    change o'.decode [UInt8.ofNat code.toNat, UInt8.ofNat (code.toNat / 256)] % 2 ^ 16 = _ ↔ _
    rcases o' with _ | _
    · refine iff_of_true ?_ ⟨rfl, .inl rfl⟩
      rw [ByteOrder.decode, value_cons, value_cons, value_nil, hlow, hhigh]
      omega
    · rw [ByteOrder.decode, List.reverse_cons, List.reverse_singleton, List.singleton_append,
        value_cons, value_cons, value_nil, hlow, hhigh, and_iff_right rfl, or_iff_right (by decide)]
      omega
  · -- the first two bytes of the big-endian image are clear
    rw [ByteOrder.encode, digits_code]
    refine iff_of_false (fun h => hcode ?_) fun h => absurd h.1 (by decide)
    have hzero : o'.decode [0, 0] = 0 := by cases o' <;> rfl
    change o'.decode [0, 0] % 2 ^ 16 = _ at h
    rw [hzero] at h
    exact UInt16.toNat.inj h.symm

/-- **When a key arrives.** -/
theorem keyCode_encode_iff {P : Platform} {pkt : EventPacket} {code : UInt16} (hcode : code ≠ 0)
    (h : pkt.payload = o.encode 4 code.toNat) :
    P.keyCode o' pkt = code ↔ P.ReadsKey o o' code := by
  have hfour : UInt16.ofNat (word o' 0 4 pkt.payload) = code ↔ o = o' := by
    rw [h, ofNat_word_four_iff hcode]
  cases P with
  | uiohook => rw [Platform.keyCode, h, ofNat_word_two_iff hcode, Platform.ReadsKey]
  | macOS os => exact hfour
  | windows os => exact hfour

end Keys

/-! ### From the hook to the injector -/

/-- The packet of a key. -/
theorem forwarded_key (c : Client) (now : UInt64) (down : Bool) (keyboard : KeyboardEventData) :
    c.forwarded now (if down then .keyPressed keyboard else .keyReleased keyboard) =
      some ⟨if down then .keyPress else .keyRelease, now, 4,
        c.byteOrder.encode 4 keyboard.keycode.toNat⟩ := by
  cases down <;> rfl

/-- The events of a key are for the key and for no other. -/
theorem keyAction_keyEvents (P : Platform) (down : Bool) (time : UInt64) (code : UInt16) :
    ∀ e ∈ P.keyEvents down time code, (keyAction e).map Prod.fst = some code := by
  rcases P with os | os | _
  · exact List.forall_mem_singleton.mpr rfl
  · cases down
    · exact List.forall_mem_singleton.mpr rfl
    · exact List.forall_mem_cons.mpr ⟨rfl, List.forall_mem_singleton.mpr rfl⟩
  · cases down <;> exact List.forall_mem_singleton.mpr rfl

/-- **Keys arrive.** Between little-endian machines the server calls the function for a press or
for a release, and the function offers the operating system events for exactly the key. -/
theorem key_delivered {c : Client} (hc : c.byteOrder = .little) {s : ClientState}
    {call : HookCall} {event : Event} {bytes : List UInt8} (h : Forwards c s call event bytes)
    {down : Bool} {keyboard : KeyboardEventData}
    (hkey : event.data = if down then .keyPressed keyboard else .keyReleased keyboard)
    (P : Platform) (t : ServerState) :
    ∃ pkt : EventPacket, bytes = pkt.toBytes ∧
      exec (handleData .little P bytes) t =
        ((P.offer (Platform.keyHandler down) (P.keyEvents down call.now keyboard.keycode)
            t.desktop).1,
          t.called (Platform.keyHandler down) pkt
            (P.offer (Platform.keyHandler down) (P.keyEvents down call.now keyboard.keycode)
              t.desktop).2) ∧
      ∀ e ∈ P.keyEvents down call.now keyboard.keycode,
        (keyAction e).map Prod.fst = some keyboard.keycode := by
  obtain ⟨pkt, hpkt, rfl⟩ := h.packet
  have hsized := Client.sized_forwarded hpkt
  have hcode : keyboard.keycode ≠ 0 := by
    have hadmits := h.admits
    rw [hkey] at hadmits
    cases down <;> exact hadmits
  rw [hkey, forwarded_key] at hpkt
  obtain rfl := Option.some.inj hpkt
  refine ⟨_, rfl, ?_, keyAction_keyEvents P down call.now keyboard.keycode⟩
  have hreads : P.ReadsKey c.byteOrder .little keyboard.keycode := by
    rw [hc]
    cases P with
    | uiohook => exact ⟨rfl, .inl rfl⟩
    | _ => rfl
  have hlen : P.minPayload (Platform.keyHandler down) ≤
      (c.byteOrder.encode 4 keyboard.keycode.toNat).length := by
    rw [ByteOrder.length_encode]
    exact P.minPayload_keyHandler_le down
  refine exec_handleData_of_events hsized ?_ hlen ?_ t
  · cases down <;> rfl
  · rw [Platform.events_keyHandler, (keyCode_encode_iff hcode rfl).mpr hreads]

/-- The press of the key 30 on a Windows machine that takes no events. -/
theorem key_delivered_press30 :
    let P : Platform := .windows ⟨1920, 1080, fun _ _ => 0⟩
    ∃ pkt : EventPacket, keyPressPacket.toBytes = pkt.toBytes ∧
      exec (handleData .little P keyPressPacket.toBytes) {} =
        ((P.offer .injectKeyPress (P.keyEvents true 0 30) {}).1,
          ServerState.called {} .injectKeyPress pkt
            (P.offer .injectKeyPress (P.keyEvents true 0 30) {}).2) ∧
      ∀ e ∈ P.keyEvents true 0 30, (keyAction e).map Prod.fst = some 30 := by
  intro P
  have hkey : keyPressEvent.data =
      if true then .keyPressed ⟨30, 0, 0⟩ else .keyReleased ⟨30, 0, 0⟩ := rfl
  exact key_delivered rfl forwards_keyPress hkey P {}

/-! ### Byte orders -/

/-- The events of a move, by the coordinates that are read from it. -/
def Platform.moveEvents (P : Platform) (time : UInt64) (x y : ℤ) :
    Except (Stop ServerException) (List OsEvent) :=
  match P with
  | macOS os =>
    .ok [.cgMouse .mouseMoved (MacOSEventInjector.screenX os x) (MacOSEventInjector.screenY os y)
      .left]
  | windows os => do
    let dx ← WindowsEventInjector.absolute x os.cxScreen
    let dy ← WindowsEventInjector.absolute y os.cyScreen
    .ok [.mouseInput dx dy WindowsEventInjector.moveFlags]
  | uiohook => .ok [.uiohook ⟨time, 0, .mouseMoved ⟨0, 0, Int16.ofInt x, Int16.ofInt y⟩⟩]

theorem Platform.events_injectMouseMove (o : ByteOrder) (P : Platform) (pkt : EventPacket) :
    P.events o .injectMouseMove pkt =
      P.moveEvents pkt.timestamp (int32 o 0 pkt) (int32 o 4 pkt) := by
  cases P <;> rfl

/-- The values that an injector decodes are those that the client encoded. -/
def DecodesAs (c : Client) (o : ByteOrder) (P : Platform) (pkt : EventPacket) : EventData → Prop
  | .keyPressed keyboard | .keyReleased keyboard => P.keyCode o pkt = keyboard.keycode
  | .mouseMoved mouse =>
    Platform.int32 o 0 pkt = mouse.x.toInt - c.hostScreenWidth.toInt ∧
      Platform.int32 o 4 pkt = mouse.y.toInt
  | _ => True

/-- The injector offers the operating system the events for the values that the client
encoded. -/
def Offers (c : Client) (o : ByteOrder) (P : Platform) (pkt : EventPacket) : EventData → Prop
  | .keyPressed keyboard =>
    P.events o .injectKeyPress pkt = .ok (P.keyEvents true pkt.timestamp keyboard.keycode)
  | .keyReleased keyboard =>
    P.events o .injectKeyRelease pkt = .ok (P.keyEvents false pkt.timestamp keyboard.keycode)
  | .mouseMoved mouse =>
    P.events o .injectMouseMove pkt =
      P.moveEvents pkt.timestamp (mouse.x.toInt - c.hostScreenWidth.toInt) mouse.y.toInt
  | _ => True

/-- What an injector offers depends on the values that it decodes, and on the time. -/
theorem DecodesAs.offers {c : Client} {o : ByteOrder} {P : Platform} {pkt : EventPacket}
    {data : EventData} (h : DecodesAs c o P pkt data) : Offers c o P pkt data := by
  have hkey : ∀ (down : Bool) (code : UInt16), P.keyCode o pkt = code →
      P.events o (Platform.keyHandler down) pkt =
        .ok (P.keyEvents down pkt.timestamp code) := by
    rintro down code rfl
    exact Platform.events_keyHandler o P down pkt
  rcases data with _ | _ | _ | k | k | _ | m | m | m | _ | _
  case keyPressed => exact hkey true k.keycode h
  case keyReleased => exact hkey false k.keycode h
  case mouseMoved =>
    obtain ⟨hx, hy⟩ := h
    rw [Offers, Platform.events_injectMouseMove, hx, hy]
  all_goals trivial

/-- When they are: the code must be one that the injector reads; for the coordinates of a move
the byte orders must agree, or both images be palindromes. -/
def OrderSafe (c : Client) (o : ByteOrder) (P : Platform) : EventData → Prop
  | .keyPressed keyboard | .keyReleased keyboard => P.ReadsKey c.byteOrder o keyboard.keycode
  | .mouseMoved mouse =>
    let x := c.int32Bytes (mouse.x.toInt - c.hostScreenWidth.toInt)
    let y := c.int32Bytes mouse.y.toInt
    c.byteOrder = o ∨ (x.reverse = x ∧ y.reverse = y)
  | _ => True

/-- A 16-bit coordinate is an `int`. -/
theorem inInt_toInt16 (y : Int16) : InInt y.toInt := by
  have hmin := y.le_toInt
  have hmax := y.toInt_lt
  constructor <;> omega

private theorem decodesAs_iff_of_forwarded {c : Client} {now : UInt64} {data : EventData}
    {pkt : EventPacket} (hpkt : c.forwarded now data = some pkt) (hadmits : c.Admits data)
    (o : ByteOrder) (P : Platform) : DecodesAs c o P pkt data ↔ OrderSafe c o P data := by
  obtain ⟨k, rfl, rfl⟩ | ⟨k, rfl, rfl⟩ | ⟨m, rfl, -⟩ | ⟨m, rfl, -⟩ | ⟨m, rfl, rfl⟩ :=
    Client.forwarded_eq_some hpkt
  · exact keyCode_encode_iff hadmits rfl
  · exact keyCode_encode_iff hadmits rfl
  · exact Iff.rfl
  · exact Iff.rfl
  · obtain ⟨hx, -, -⟩ := hadmits
    have hpayload : (⟨.mouseMove, now, 8, c.coords m⟩ : EventPacket).payload = c.coords m := rfl
    obtain ⟨hreadx, hready⟩ := int32_coords (o := o) hpayload
    rw [DecodesAs, OrderSafe, hreadx, hready, received_eq_self_iff hx,
      received_eq_self_iff (inInt_toInt16 m.y), ← or_and_left]

/-- **When the payload does not depend on the byte orders.** The header never does. Where the
values arrive, they are those that the injector offers events for. -/
theorem decodesAs_iff {c : Client} {s : ClientState} {call : HookCall} {event : Event}
    {bytes : List UInt8} (h : Forwards c s call event bytes) (o : ByteOrder) (P : Platform) :
    ∃ pkt, EventPacket.fromBytes.run bytes = .ok pkt ∧ pkt.timestamp = call.now ∧
      pkt.payloadSize.toNat = pkt.payload.length ∧
      (DecodesAs c o P pkt event.data ↔ OrderSafe c o P event.data) ∧
      (DecodesAs c o P pkt event.data → Offers c o P pkt event.data) := by
  obtain ⟨pkt, hpkt, rfl⟩ := h.packet
  have hsized := Client.sized_forwarded hpkt
  have hrun := EventPacket.fromBytes_toBytes hsized []
  rw [List.append_nil] at hrun
  exact ⟨pkt, hrun, Client.timestamp_forwarded hpkt, hsized,
    decodesAs_iff_of_forwarded hpkt h.admits o P, DecodesAs.offers⟩

/-- The press of the key 30, between little-endian machines. -/
theorem decodesAs_press30 :
    ∃ pkt, EventPacket.fromBytes.run keyPressPacket.toBytes = .ok pkt ∧ pkt.timestamp = 0 ∧
      pkt.payloadSize.toNat = pkt.payload.length ∧
      (DecodesAs defaultClient .little .uiohook pkt keyPressEvent.data ↔
        OrderSafe defaultClient .little .uiohook keyPressEvent.data) ∧
      (DecodesAs defaultClient .little .uiohook pkt keyPressEvent.data →
        Offers defaultClient .little .uiohook pkt keyPressEvent.data) :=
  decodesAs_iff forwards_keyPress .little .uiohook

/-- A big-endian fallback reads the code 7680 for the key 30. -/
theorem not_decodesAs_press30 :
    Forwards defaultClient crossed ⟨0, some keyPressEvent⟩ keyPressEvent keyPressPacket.toBytes ∧
      ∃ pkt, EventPacket.fromBytes.run keyPressPacket.toBytes = .ok pkt ∧
        ¬DecodesAs defaultClient .big .uiohook pkt keyPressEvent.data := by
  refine ⟨forwards_keyPress, keyPressPacket, by decide, fun h => ?_⟩
  have hcode : Platform.uiohook.keyCode .big keyPressPacket = 30 := h
  exact absurd hcode (by decide)

end Sameness
