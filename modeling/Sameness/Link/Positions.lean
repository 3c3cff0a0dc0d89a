import Sameness.Link.HeldInputs
import Sameness.Link.Pointer

/-!
# Positions over a whole session

Where the events of a client's run put the pointer of the server, between little-endian
machines and on every platform. `positions_session` reads the positions of the posted events off
the relayed ones, in order. Coordinates are converted in exact arithmetic: what the rounding of
`float` and `double` does to a position is left out.

On macOS every mouse event carries the converted position of the hook's. The fallback narrows a
move to 16 bits, and takes the position of a button from the middle of the two coordinates. On
Windows moves are scaled, and a button is sent as a word of flags; where the low bits of this word
are those of an absolute move, the press of a button puts the pointer into the corner of the
screen. That is so for every second button in every second block of 128 columns.
-/

namespace Sameness

open Bytes Cpp Eff Uiohook Runs

/-- The position that an event carries. On Windows it has one if its flags are those of an
absolute move. -/
def OsEvent.position? : OsEvent → Option (ℚ × ℚ)
  | .cgMouse _ x y _ => some (x, y)
  | .mouseInput dx dy dwFlags =>
    if dwFlags &&& WindowsEventInjector.moveFlags = WindowsEventInjector.moveFlags then
      some (dx, dy)
    else none
  | .uiohook ⟨_, _, .mouseMoved mouse⟩ | .uiohook ⟨_, _, .mousePressed mouse⟩
  | .uiohook ⟨_, _, .mouseReleased mouse⟩ => some (mouse.x.toInt, mouse.y.toInt)
  | _ => none

section Positions

variable (P : Platform) (c : Client) (mouse : MouseEventData)

/-- The column of an event from the right edge of the host's screen, as an `int32_t`. -/
def Client.column : ℤ := (Int32.ofInt (mouse.x.toInt - c.hostScreenWidth.toInt)).toInt

/-- The position that is posted for a move. -/
def Platform.movePosition : List (ℚ × ℚ) :=
  match P with
  | macOS os => [(MacOSEventInjector.screenX os (c.column mouse),
      MacOSEventInjector.screenY os mouse.y.toInt)]
  | windows os =>
    match WindowsEventInjector.absolute (c.column mouse) os.cxScreen,
      WindowsEventInjector.absolute mouse.y.toInt os.cyScreen with
    | .ok dx, .ok dy => [(dx, dy)]
    | _, _ => []
  | uiohook => [((Int16.ofInt (c.column mouse)).toInt, mouse.y.toInt)]

/-- The position that is posted for a press or a release. -/
def Platform.buttonPosition (down : Bool) : List (ℚ × ℚ) :=
  match P with
  | macOS os => [(MacOSEventInjector.screenX os (c.column mouse),
      MacOSEventInjector.screenY os mouse.y.toInt)]
  | windows _ =>
    if down ∧ mouse.button.toNat % 2 = 1 ∧ 128 ≤ c.column mouse % 256 then [(0, 0)] else []
  | uiohook => [((Int16.ofInt (c.column mouse / 2 ^ 8)).toInt,
      (Int16.ofInt (c.column mouse / 2 ^ 24 % 256 + 256 * mouse.y.toInt)).toInt)]

/-- The positions that are posted for an event of the hook. -/
def Platform.positions : EventData → List (ℚ × ℚ)
  | .mouseMoved mouse => P.movePosition c mouse
  | .mousePressed mouse => P.buttonPosition c mouse true
  | .mouseReleased mouse => P.buttonPosition c mouse false
  | _ => []

end Positions

/-! ### One event -/

section Event

variable {P : Platform} {c : Client}

/-- The flags of an absolute move are the bits 0 and 15. -/
private theorem and_moveFlags_iff (f : UInt32) :
    f &&& WindowsEventInjector.moveFlags = WindowsEventInjector.moveFlags ↔
      f.toNat % 2 = 1 ∧ f.toNat / 2 ^ 15 % 2 = 1 := by
  have hflags : WindowsEventInjector.moveFlags.toNat = 2 ^ 0 ||| 2 ^ 15 := by decide
  have hbit : ∀ i, (2 ^ 0 ||| 2 ^ 15).testBit i = (decide (0 = i) || decide (15 = i)) := by
    intro i
    rw [Nat.testBit_or, Nat.testBit_two_pow, Nat.testBit_two_pow]
  have hlow : f.toNat.testBit 0 = true ↔ f.toNat % 2 = 1 := by
    rw [Nat.testBit_zero, decide_eq_true_iff]
  have hhigh : f.toNat.testBit 15 = true ↔ f.toNat / 2 ^ 15 % 2 = 1 := by
    rw [Nat.testBit_eq_decide_div_mod_eq, decide_eq_true_iff]
  rw [← UInt32.toNat_inj, UInt32.toNat_and, hflags, ← hlow, ← hhigh]
  constructor
  · intro h
    have hset : ∀ i, (2 ^ 0 ||| 2 ^ 15).testBit i = true → f.toNat.testBit i = true := by
      intro i hi
      rw [← h, Nat.testBit_and, Bool.and_eq_true] at hi
      exact hi.1
    exact ⟨hset 0 rfl, hset 15 rfl⟩
  · rintro ⟨h0, h15⟩
    refine Nat.eq_of_testBit_eq fun i => ?_
    rw [Nat.testBit_and, hbit]
    by_cases hi : 0 = i
    · subst hi
      rw [h0, Bool.true_and]
    by_cases hi' : 15 = i
    · subst hi'
      rw [h15, Bool.true_and]
    · rw [decide_eq_false hi, decide_eq_false hi', Bool.or_false, Bool.and_false]

theorem Client.column_emod (mouse : MouseEventData) :
    c.column mouse % 2 ^ 32 = (mouse.x.toInt - c.hostScreenWidth.toInt) % 2 ^ 32 := by
  rw [column, Int32.toInt_ofInt]
  exact Int.bmod_emod

/-- The coordinates of a move or a button as they are read. -/
private theorem received_little (hc : c.byteOrder = .little) (mouse : MouseEventData) :
    received c .little (mouse.x.toInt - c.hostScreenWidth.toInt) = c.column mouse ∧
      received c .little mouse.y.toInt = mouse.y.toInt := by
  have hvalue := value_int32Bytes hc (mouse.x.toInt - c.hostScreenWidth.toInt)
  refine ⟨?_, (received_eq_self_iff (inInt_toInt16 mouse.y)).mpr (.inl hc)⟩
  rw [received, Client.column, ByteOrder.decode, Int32.toInt_ofNat', hvalue, Int32.toInt_ofInt]
  exact Int.emod_bmod _ _

/-- The payload of a button as a number, by the column and the row. -/
private theorem value_button (hc : c.byteOrder = .little) (mouse : MouseEventData) :
    (value (mouse.button.toUInt8 :: c.coords mouse) : ℤ) =
      mouse.button.toNat % 256 +
        256 * (c.column mouse % 2 ^ 32 + 2 ^ 32 * (mouse.y.toInt % 2 ^ 32)) := by
  have hx := value_int32Bytes hc (mouse.x.toInt - c.hostScreenWidth.toInt)
  have hy := value_int32Bytes hc mouse.y.toInt
  rw [← Client.column_emod] at hx
  rw [value_cons, Client.coords, value_append, Client.int32Bytes, ByteOrder.length_encode,
    ← Client.int32Bytes, UInt16.toNat_toUInt8]
  omega

/-- On Windows the flags of a press are those of an absolute move for the odd buttons in the
second half of a block of columns. -/
private theorem pressFlags_iff (hc : c.byteOrder = .little) (mouse : MouseEventData) :
    UInt32.ofNat (word .little 0 4 (mouse.button.toUInt8 :: c.coords mouse)) &&&
        WindowsEventInjector.moveFlags = WindowsEventInjector.moveFlags ↔
      mouse.button.toNat % 2 = 1 ∧ 128 ≤ c.column mouse % 256 := by
  have hvalue := value_button hc mouse
  have hword := word_little 0 4 (mouse.button.toUInt8 :: c.coords mouse)
  rw [and_moveFlags_iff, UInt32.toNat_ofNat_of_lt' (by rw [hword]; exact Nat.mod_lt _ (by decide)),
    hword]
  omega

/-- The flags of a release never are. -/
private theorem releaseFlags_ne (w : ℕ) :
    UInt32.ofNat w <<< 1 &&& WindowsEventInjector.moveFlags ≠ WindowsEventInjector.moveFlags := by
  -- the shift clears the bit of a move
  have heven : (UInt32.ofNat w <<< 1).toNat = (UInt32.ofNat w).toNat * 2 % 2 ^ 32 := by
    rw [UInt32.toNat_shiftLeft]
    exact congrArg (· % 2 ^ 32) (Nat.shiftLeft_eq _ 1)
  rw [ne_eq, and_moveFlags_iff, heven]
  omega

/-- The words that the fallback takes for the position of a button. -/
private theorem words_button (hc : c.byteOrder = .little) (mouse : MouseEventData) :
    Int16.ofNat (word .little 2 2 (mouse.button.toUInt8 :: c.coords mouse)) =
        Int16.ofInt (c.column mouse / 2 ^ 8) ∧
      Int16.ofNat (word .little 4 2 (mouse.button.toUInt8 :: c.coords mouse)) =
        Int16.ofInt (c.column mouse / 2 ^ 24 % 256 + 256 * mouse.y.toInt) := by
  -- the words are the bytes 2, 3 and 4, 5 of the payload, across the two coordinates
  have hvalue := value_button hc mouse
  have hcongr : ∀ (n : ℕ) (z : ℤ), (n : ℤ) % 65536 = z % 65536 → Int16.ofNat n = Int16.ofInt z := by
    intro n z h
    have hn := Int.emod_bmod (n : ℤ) 65536
    have hz := Int.emod_bmod z 65536
    rw [← Int16.toInt_inj, Int16.toInt_ofNat', Int16.toInt_ofInt]
    exact hn.symm.trans ((congrArg (Int.bmod · 65536) h).trans hz)
  rw [word_little, word_little]
  exact ⟨hcongr _ _ (by omega), hcongr _ _ (by omega)⟩

/-- The position of the event that is offered for a move. -/
private theorem move_positions (hc : c.byteOrder = .little) (now : UInt64)
    (mouse : MouseEventData) :
    ((P.events .little .injectMouseMove
        ⟨.mouseMove, now, 8, c.coords mouse⟩).toOption.getD []).filterMap OsEvent.position? =
      P.movePosition c mouse := by
  have hpayload : (⟨.mouseMove, now, 8, c.coords mouse⟩ : EventPacket).payload = c.coords mouse :=
    rfl
  obtain ⟨hreadx, hready⟩ := int32_coords (o := .little) hpayload
  obtain ⟨hx, hy⟩ := received_little hc mouse
  rw [Platform.events_injectMouseMove, hreadx, hready, hx, hy]
  rcases P with os | os | _
  · rfl
  · rw [Platform.moveEvents, Platform.movePosition]
    rcases WindowsEventInjector.absolute (c.column mouse) os.cxScreen with stop | dx
    · rfl
    rcases WindowsEventInjector.absolute mouse.y.toInt os.cyScreen with stop | dy
    · rfl
    · rfl
  · rw [Platform.moveEvents, Int16.ofInt_toInt]
    rfl

/-- The position of the event that is offered for a press or a release. -/
private theorem button_positions (hc : c.byteOrder = .little) (now : UInt64)
    (mouse : MouseEventData) (down : Bool) {type : SamenessEventType} :
    ((P.events .little
        (if down then .injectMouseButtonPress else .injectMouseButtonRelease)
        ⟨type, now, 9, mouse.button.toUInt8 :: c.coords mouse⟩).toOption.getD []).filterMap
          OsEvent.position? =
      P.buttonPosition c mouse down := by
  have hpayload : (⟨type, now, 9, mouse.button.toUInt8 :: c.coords mouse⟩ : EventPacket).payload =
    mouse.button.toUInt8 :: c.coords mouse := rfl
  obtain ⟨hreadx, hready⟩ := int32_button (o := .little) hpayload
  obtain ⟨hx, hy⟩ := received_little hc mouse
  obtain ⟨hmidx, hmidy⟩ := words_button hc mouse
  rw [hx] at hreadx
  rw [hy] at hready
  rcases P with os | os | _
  · rw [Platform.buttonPosition, ← hreadx, ← hready]
    cases down
    · rfl
    · rfl
  · rw [Platform.buttonPosition]
    cases down
    · have hnone : OsEvent.position? (.mouseInput 0 0
          (UInt32.ofNat (word .little 0 4 (mouse.button.toUInt8 :: c.coords mouse)) <<< 1)) =
          none := if_neg (releaseFlags_ne _)
      exact List.filterMap_cons_none hnone
    by_cases hodd : mouse.button.toNat % 2 = 1 ∧ 128 ≤ c.column mouse % 256
    · have hcorner : OsEvent.position? (.mouseInput 0 0
          (UInt32.ofNat (word .little 0 4 (mouse.button.toUInt8 :: c.coords mouse)))) =
          some (0, 0) := if_pos ((pressFlags_iff hc mouse).mpr hodd)
      exact (List.filterMap_cons_some hcorner).trans (if_pos ⟨rfl, hodd⟩).symm
    · have hnone : OsEvent.position? (.mouseInput 0 0
          (UInt32.ofNat (word .little 0 4 (mouse.button.toUInt8 :: c.coords mouse)))) =
          none := if_neg fun h => hodd ((pressFlags_iff hc mouse).mp h)
      exact (List.filterMap_cons_none hnone).trans (if_neg fun h => hodd h.2).symm
  · rw [Platform.buttonPosition, ← hmidx, ← hmidy]
    cases down
    · rfl
    · rfl

/-- What a relayed event posts, by the positions alone. -/
private theorem positions_eq (hc : c.byteOrder = .little) (now : UInt64) (data : EventData) :
    ((c.forwarded now data).elim [] fun pkt =>
      (packetBatch .little P pkt).filterMap fun p => p.event.position?) = P.positions c data := by
  rcases hpkt : c.forwarded now data with _ | pkt
  · rcases data with _ | _ | _ | _ | _ | _ | _ | _ | _ | _ | _ <;> first | rfl | cases hpkt
  rw [← hpkt]
  obtain ⟨k, rfl, rfl⟩ | ⟨k, rfl, rfl⟩ | ⟨m, rfl, rfl⟩ | ⟨m, rfl, rfl⟩ | ⟨m, rfl, rfl⟩ :=
    Client.forwarded_eq_some hpkt
  all_goals rw [filterMap_packetBatch OsEvent.position? .little P hpkt rfl]
  · cases P <;> rfl
  · cases P <;> rfl
  · exact button_positions hc now m true
  · exact button_positions hc now m false
  · exact move_positions hc now m

end Event

section Session

variable {c : Client} {height threshold : Int32} {P : Platform}
  {acts : List (Channel.Action HookCall)}

/-- **The positions of the server.** Between little-endian machines, the positions of the events
that are posted in a session are those that the relayed events come to, in order. -/
theorem positions_session (hc : c.byteOrder = .little) (hos : ∀ n h, P.Takes n h)
    (h : Proper c height threshold .little P acts)
    (hstream : (sessionAfter c height threshold .little P acts).stream = [])
    (hfits : ∀ pkt ∈ relayed c threshold (Channel.inputs acts), PacketFits .little P pkt) :
    (sessionAfter c height threshold .little P acts).reader.2.desktop.posted.filterMap
        (fun p => p.event.position?) =
      (relayedEvents c threshold (Channel.inputs acts)).flatMap (P.positions c) :=
  filterMap_posted (positions_eq hc) hos h hstream hfits

end Session

/-- A press of the left button close to the edge, and a session with it that has been read. -/
def cornerPress : Event :=
  ⟨0, 0, .mousePressed { button := 1, clicks := 1, x := 1800, y := 500 }⟩

def cornerArrived : List (Channel.Action HookCall) :=
  [.write (moveTo 1919), .write ⟨0, some cornerPress⟩, .read 21, .read 22]

private theorem proper_cornerArrived :
    Proper defaultClient 1080 20 .little (.windows windowsPC) cornerArrived := by
  have hmove : (⟨.mouseMove, 0, 8, [255, 255, 255, 255, 244, 1, 0, 0]⟩ : EventPacket) ∈
      defaultClient.packets :=
    ⟨0, .mouseMoved { button := 0, clicks := 0, x := 1919, y := 500 }, by decide⟩
  have hpress : (⟨.mouseButtonPress, 0, 9, [1, 136, 255, 255, 255, 244, 1, 0, 0]⟩ :
      EventPacket) ∈ defaultClient.packets := ⟨0, cornerPress.data, by decide⟩
  refine ⟨⟨trivial, trivial, ⟨_, hmove, ?_⟩, ⟨_, hpress, ?_⟩, trivial⟩, ?_⟩
  · decide
  · decide
  · decide

/-- On Windows the press comes with the corner of the screen. -/
theorem positions_session_corner :
    (sessionAfter defaultClient 1080 20 .little (.windows windowsPC)
        cornerArrived).reader.2.desktop.posted.filterMap (fun p => p.event.position?) =
      [(-34, 30340), (0, 0)] := by
  refine (positions_session rfl (fun _ h => ?_) proper_cornerArrived ?_ ?_).trans ?_
  · cases h <;> rfl
  · decide
  · have hrelayed : relayed defaultClient 20 (Channel.inputs cornerArrived) =
        [⟨.mouseMove, 0, 8, [255, 255, 255, 255, 244, 1, 0, 0]⟩,
          ⟨.mouseButtonPress, 0, 9, [1, 136, 255, 255, 255, 244, 1, 0, 0]⟩] := by decide
    rw [hrelayed, List.forall_mem_cons, List.forall_mem_singleton]
    refine ⟨fun h hh => ?_, fun h hh => ?_⟩
    · obtain rfl := Option.some.inj hh
      exact ⟨by decide +kernel, by decide +kernel⟩
    · obtain rfl := Option.some.inj hh
      trivial
  · decide +kernel

end Sameness
