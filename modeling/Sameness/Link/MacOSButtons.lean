import Sameness.Link.Payload
import Mathlib.Tactic.FieldSimp

/-!
# Mouse buttons on macOS

A button packet carries the coordinates of a move behind the number of the button. The client
packs them as it does for a move, and the injector converts them as it does for a move, so a
press or a release is placed where a move from the same position is (`postsCG_move`,
`postsCG_button`). The number is copied for the log only: whatever it is, the event that is
posted is one of the left button. `postsButton_iff` says that exactly the left button works.
-/

namespace Sameness

open Bytes Cpp Eff Uiohook

/-- An event that presses (`down`) or releases the button. Core Graphics has types of their
own for the left button and for the right one, and two more for all others. -/
def OfButton (down : Bool) (button : UInt16) (type : CGEventType) (cgButton : CGMouseButton) :
    Prop :=
  if button = 1 then type = (if down then .leftMouseDown else .leftMouseUp) ∧ cgButton = .left
  else if button = 2 then
    type = (if down then .rightMouseDown else .rightMouseUp) ∧ cgButton = .right
  else
    type = (if down then .otherMouseDown else .otherMouseUp) ∧ cgButton ≠ .left ∧ cgButton ≠ .right

/-- The macOS server, in the state `t`, posts the event for the bytes, and nothing else. -/
def PostsCG (o : ByteOrder) (os : MacOS) (t : ServerState) (bytes : List UInt8)
    (event : OsEvent) : Prop :=
  (exec (handleData o (.macOS os) bytes) t).2.desktop.posted =
    t.desktop.posted ++ [⟨event, t.desktop.isInjectedEvent⟩]

/-- Every move that the client forwards from the position of `mouse` on the host is placed at
the point. -/
def PlacesMoves (c : Client) (o : ByteOrder) (os : MacOS) (t : ServerState)
    (mouse : MouseEventData) (x y : ℚ) : Prop :=
  ∀ s call event bytes move, Forwards c s call event bytes → event.data = .mouseMoved move →
    move.x = mouse.x → move.y = mouse.y →
      PostsCG o os t bytes (.cgMouse .mouseMoved x y .left)

/-- The server posts an event of the button, where it places the moves. -/
def PostsButton (c : Client) (o : ByteOrder) (os : MacOS) (t : ServerState) (down : Bool)
    (mouse : MouseEventData) (bytes : List UInt8) : Prop :=
  ∃ type cgButton x y, PostsCG o os t bytes (.cgMouse type x y cgButton) ∧
    OfButton down mouse.button type cgButton ∧ PlacesMoves c o os t mouse x y

/-- Halfway between the coordinate and the right edge. -/
theorem screenX_eq (os : MacOS) (x : ℤ) :
    MacOSEventInjector.screenX os x = (x + os.screenWidth) / 2 := by
  have hpos := os.screenWidth_pos
  rw [MacOSEventInjector.screenX]
  field_simp

/-- The vertical coordinate is left as it is. -/
theorem screenY_eq (os : MacOS) (y : ℤ) : MacOSEventInjector.screenY os y = y := by
  rw [MacOSEventInjector.screenY, div_self os.screenHeight_pos.ne', mul_one]

section Placed

variable {c : Client} {o : ByteOrder} {os : MacOS} {t : ServerState}

/-- The horizontal coordinate at which a position on the host is placed. -/
def MacOS.placedX (os : MacOS) (c : Client) (o : ByteOrder) (mouse : MouseEventData) : ℚ :=
  MacOSEventInjector.screenX os (received c o (mouse.x.toInt - c.hostScreenWidth.toInt))

/-- See `placedX`. -/
def MacOS.placedY (os : MacOS) (c : Client) (o : ByteOrder) (mouse : MouseEventData) : ℚ :=
  MacOSEventInjector.screenY os (received c o mouse.y.toInt)

/-- A mouse packet is posted where its coordinates are placed. -/
private theorem postsCG_of_coords {pkt : EventPacket} {h : Handler} {type : CGEventType}
    {off : ℕ} {mouse : MouseEventData} (hsized : pkt.Sized) (hh : handler? pkt.type = some h)
    (hlen : (Platform.macOS os).minPayload h ≤ pkt.payload.length)
    (hev : (Platform.macOS os).events o h pkt =
      .ok [.cgMouse type (MacOSEventInjector.screenX os (Platform.int32 o off pkt))
        (MacOSEventInjector.screenY os (Platform.int32 o (off + 4) pkt)) .left])
    (hread : Platform.int32 o off pkt =
        received c o (mouse.x.toInt - c.hostScreenWidth.toInt) ∧
      Platform.int32 o (off + 4) pkt = received c o mouse.y.toInt)
    (ht : os.createsEvent t.desktop.calls = true) :
    PostsCG o os t pkt.toBytes
      (.cgMouse type (os.placedX c o mouse) (os.placedY c o mouse) .left) := by
  obtain ⟨hx, hy⟩ := hread
  rw [hx, hy] at hev
  rw [PostsCG, posted_of_packet hsized hh hlen hev ht]
  rfl

/-- A forwarded move is posted where its position is placed. -/
theorem postsCG_move {now : UInt64} {mouse : MouseEventData} {pkt : EventPacket}
    (hpkt : c.forwarded now (.mouseMoved mouse) = some pkt)
    (ht : os.createsEvent t.desktop.calls = true) :
    PostsCG o os t pkt.toBytes
      (.cgMouse .mouseMoved (os.placedX c o mouse) (os.placedY c o mouse) .left) := by
  have hsized := Client.sized_forwarded hpkt
  obtain rfl := Option.some.inj hpkt
  exact postsCG_of_coords hsized rfl (Client.length_coords mouse).ge rfl (int32_coords rfl) ht

/-- A forwarded press or release is posted there too, as one of the left button. -/
theorem postsCG_button {now : UInt64} {down : Bool} {mouse : MouseEventData} {pkt : EventPacket}
    (hpkt : c.forwarded now (if down then .mousePressed mouse else .mouseReleased mouse) =
      some pkt)
    (ht : os.createsEvent t.desktop.calls = true) :
    PostsCG o os t pkt.toBytes
      (.cgMouse (if down then .leftMouseDown else .leftMouseUp) (os.placedX c o mouse)
        (os.placedY c o mouse) .left) := by
  have hsized := Client.sized_forwarded hpkt
  have hlen : 9 ≤ (mouse.button.toUInt8 :: c.coords mouse).length :=
    (Client.length_button_coords _ mouse).ge
  cases down with
  | false =>
    obtain rfl := Option.some.inj hpkt
    exact postsCG_of_coords hsized rfl hlen rfl (int32_button rfl) ht
  | true =>
    obtain rfl := Option.some.inj hpkt
    exact postsCG_of_coords hsized rfl hlen rfl (int32_button rfl) ht

/-- What is placed depends on the position alone. -/
private theorem placesMoves (ht : os.createsEvent t.desktop.calls = true)
    (mouse : MouseEventData) :
    PlacesMoves c o os t mouse (os.placedX c o mouse) (os.placedY c o mouse) := by
  intro s call event bytes move h hdata hx hy
  obtain ⟨pkt, hpkt, rfl⟩ := h.packet
  rw [hdata] at hpkt
  have hposts : PostsCG o os t pkt.toBytes
      (.cgMouse .mouseMoved (os.placedX c o move) (os.placedY c o move) .left) :=
    postsCG_move hpkt ht
  rwa [MacOS.placedX, MacOS.placedY, hx, hy] at hposts

end Placed

/-- An event of the left button is of no other button. -/
private theorem ofButton_left_iff {down : Bool} {button : UInt16} :
    OfButton down button (if down then .leftMouseDown else .leftMouseUp) .left ↔ button = 1 := by
  constructor
  · intro h
    by_contra h1
    rw [OfButton, if_neg h1] at h
    by_cases h2 : button = 2
    · rw [if_pos h2] at h
      exact absurd h.2 (by decide)
    · rw [if_neg h2] at h
      exact h.2.1 rfl
  · intro h1
    rw [OfButton, if_pos h1]
    exact ⟨rfl, rfl⟩

/-- The event that the server posts for a forwarded packet is of the left button. -/
private theorem postsButton_iff_of_forwarded {c : Client} {now : UInt64} {down : Bool}
    {mouse : MouseEventData} {pkt : EventPacket}
    (hpkt : c.forwarded now (if down then .mousePressed mouse else .mouseReleased mouse) =
      some pkt)
    (o : ByteOrder) {os : MacOS} {t : ServerState}
    (ht : os.createsEvent t.desktop.calls = true) :
    PostsButton c o os t down mouse pkt.toBytes ↔ mouse.button = 1 := by
  have hposts : PostsCG o os t pkt.toBytes _ := postsCG_button hpkt ht
  rw [← ofButton_left_iff]
  constructor
  · rintro ⟨type, cgButton, x, y, hposted, hbutton, -⟩
    rw [PostsCG, hposts] at hposted
    cases List.append_cancel_left hposted
    exact hbutton
  · intro hbutton
    exact ⟨_, _, _, _, hposts, hbutton, placesMoves ht mouse⟩

/-- **When a button works on macOS.** The client forwards a press or a release of any button,
and the server posts one of the left button at the point where it places the moves. -/
theorem postsButton_iff {c : Client} {s : ClientState} {call : HookCall} {event : Event}
    {bytes : List UInt8} (h : Forwards c s call event bytes) {down : Bool}
    {mouse : MouseEventData}
    (hdata : event.data = if down then .mousePressed mouse else .mouseReleased mouse)
    (o : ByteOrder) {os : MacOS} {t : ServerState}
    (ht : os.createsEvent t.desktop.calls = true) :
    PostsButton c o os t down mouse bytes ↔ mouse.button = 1 := by
  obtain ⟨pkt, hpkt, rfl⟩ := h.packet
  rw [hdata] at hpkt
  exact postsButton_iff_of_forwarded hpkt o ht

/-- A Mac that creates every event. -/
def iMac : MacOS := ⟨2560, 1600, by decide, by decide, fun _ => true⟩

theorem postsButton_leftPress :
    PostsButton defaultClient .little iMac {} true
      { button := 1, clicks := 1, x := 960, y := 500 } leftPressPacket.toBytes :=
  have hdata : leftPress.data =
      if true then .mousePressed { button := 1, clicks := 1, x := 960, y := 500 }
      else .mouseReleased { button := 1, clicks := 1, x := 960, y := 500 } := rfl
  (postsButton_iff forwards_leftPress hdata .little rfl).mpr rfl

/-- A press of the right button, and its packet. -/
def rightPress : Event := ⟨0, 0, .mousePressed { button := 2, clicks := 1, x := 960, y := 500 }⟩

def rightPressPacket : EventPacket :=
  ⟨.mouseButtonPress, 0, 9, [2, 64, 252, 255, 255, 244, 1, 0, 0]⟩

/-- The press of the right button is posted as one of the left button. -/
theorem not_postsButton_rightPress :
    Forwards defaultClient crossed ⟨0, some rightPress⟩ rightPress rightPressPacket.toBytes ∧
      ¬PostsButton defaultClient .little iMac {} true
        { button := 2, clicks := 1, x := 960, y := 500 } rightPressPacket.toBytes := by
  refine ⟨⟨rfl, by decide, by decide⟩, fun hposts => ?_⟩
  have hpkt : defaultClient.forwarded 0
      (if true then .mousePressed { button := 2, clicks := 1, x := 960, y := 500 }
        else .mouseReleased { button := 2, clicks := 1, x := 960, y := 500 }) =
      some rightPressPacket := by decide
  exact absurd ((postsButton_iff_of_forwarded hpkt .little rfl).mp hposts) (by decide)

end Sameness
