import Sameness.Link.Payload

/-!
# Tracking the pointer

While the client has control, the coordinates it last sent are those of the last event that the
callback reads a position from: a move, or the press or release of a button (`tracks_read`).
Control comes to the client with a move, which is sent, and from then on each of these events
is.

The hook reports positions with other events too, and while a button is held motion comes as
drags instead of moves. The callback ignores them by design, so the sent coordinates are not
those of the last position that the hook reported (`not_tracks_reported`).
-/

namespace Sameness

open Bytes Cpp Uiohook Runs

/-- The position that an event reports. -/
def reported : EventData → Option (ℤ × ℤ)
  | .mouseMoved mouse | .mouseDragged mouse | .mousePressed mouse | .mouseReleased mouse
  | .mouseClicked mouse => some (mouse.x.toInt, mouse.y.toInt)
  | .mouseWheel wheel => some (wheel.x.toInt, wheel.y.toInt)
  | _ => none

/-- The position that the callback reads from an event. -/
def positionRead : EventData → Option (ℤ × ℤ)
  | .mouseMoved mouse | .mousePressed mouse | .mouseReleased mouse =>
    some (mouse.x.toInt, mouse.y.toInt)
  | _ => none

/-- The coordinates in a packet. -/
def packetPoint (o : ByteOrder) (pkt : EventPacket) : Option (ℤ × ℤ) :=
  if pkt.type = .mouseMove then some (Platform.int32 o 0 pkt, Platform.int32 o 4 pkt)
  else if pkt.type = .mouseButtonPress ∨ pkt.type = .mouseButtonRelease then
    some (Platform.int32 o 1 pkt, Platform.int32 o 5 pkt)
  else none

/-- The last position in the events of some calls. -/
def lastPosition (position : EventData → Option (ℤ × ℤ)) (calls : List HookCall) :
    Option (ℤ × ℤ) :=
  (calls.filterMap fun call => call.event.bind fun event => position event.data).getLast?

/-- The coordinates in the last packet that carries any. -/
def lastPoint (o : ByteOrder) (sent : List (List UInt8)) : Option (ℤ × ℤ) :=
  (sent.filterMap fun bytes => packetPoint o (.ofBuffer bytes)).getLast?

/-- A position relative to the right edge of the host's screen. -/
def Client.relative (c : Client) (p : ℤ × ℤ) : ℤ × ℤ := (p.1 - c.hostScreenWidth.toInt, p.2)

/-- Whenever the client has control, the coordinates last sent are those of the last
position. -/
def Tracks (c : Client) (height threshold : Int32) (position : EventData → Option (ℤ × ℤ))
    (calls : List HookCall) : Prop :=
  ∀ before, before <+: calls → controlAfter c threshold before = .client →
    lastPoint c.byteOrder (runState c height threshold before).sent =
      (lastPosition position before).map c.relative

section Run

variable {c : Client} {height threshold : Int32}

/-! ### Packets and events -/

/-- The client's own coordinates, read in its own byte order. -/
private theorem received_same {z : ℤ} (hz : InInt z) : received c c.byteOrder z = z :=
  (received_eq_self_iff hz).mpr (.inl rfl)

private theorem packetPoint_move {pkt : EventPacket} {mouse : MouseEventData}
    (htype : pkt.type = .mouseMove) (hpayload : pkt.payload = c.coords mouse)
    (hx : InInt (mouse.x.toInt - c.hostScreenWidth.toInt)) :
    packetPoint c.byteOrder pkt = some (c.relative (mouse.x.toInt, mouse.y.toInt)) := by
  obtain ⟨hreadx, hready⟩ := int32_coords (o := c.byteOrder) hpayload
  rw [packetPoint, if_pos htype, hreadx, hready, received_same hx,
    received_same (inInt_toInt16 mouse.y), Client.relative]

private theorem packetPoint_button {pkt : EventPacket} {b : UInt8} {mouse : MouseEventData}
    (htype : pkt.type = .mouseButtonPress ∨ pkt.type = .mouseButtonRelease)
    (hpayload : pkt.payload = b :: c.coords mouse)
    (hx : InInt (mouse.x.toInt - c.hostScreenWidth.toInt)) :
    packetPoint c.byteOrder pkt = some (c.relative (mouse.x.toInt, mouse.y.toInt)) := by
  have hmove : pkt.type ≠ .mouseMove := by
    intro h
    rw [h] at htype
    exact absurd htype (by decide)
  obtain ⟨hreadx, hready⟩ := int32_button (o := c.byteOrder) hpayload
  rw [packetPoint, if_neg hmove, if_pos htype, hreadx, hready, received_same hx,
    received_same (inInt_toInt16 mouse.y), Client.relative]

/-- The packet of an event carries the position that was read from it. -/
theorem packetPoint_forwarded {now : UInt64} {data : EventData} {pkt : EventPacket}
    (h : c.forwarded now data = some pkt) (hadmits : c.Admits data) :
    packetPoint c.byteOrder pkt = (positionRead data).map c.relative := by
  obtain ⟨k, rfl, rfl⟩ | ⟨k, rfl, rfl⟩ | ⟨m, rfl, rfl⟩ | ⟨m, rfl, rfl⟩ | ⟨m, rfl, rfl⟩ :=
    Client.forwarded_eq_some h
  · rfl
  · rfl
  · exact packetPoint_button (.inl rfl) rfl hadmits.2.1
  · exact packetPoint_button (.inr rfl) rfl hadmits.2.1
  · exact packetPoint_move rfl rfl hadmits.1

/-- An event that is not forwarded is one that no position is read from. -/
theorem positionRead_of_forwarded_none {now : UInt64} {data : EventData}
    (h : c.forwarded now data = none) : positionRead data = none := by
  rcases data with _ | _ | _ | _ | _ | _ | _ | _ | _ | _ | _ <;> first | rfl | cases h

/-- Only moves change control, and their position is read. -/
theorem edgeDecision_of_positionRead_none {width threshold : ℤ} {data : EventData}
    (h : positionRead data = none) : edgeDecision width threshold data = none := by
  rcases data with _ | _ | _ | _ | _ | _ | _ | _ | _ | _ | _ <;> first | rfl | cases h

/-! ### One more call -/

theorem lastPosition_concat {position : EventData → Option (ℤ × ℤ)} (calls : List HookCall)
    {call : HookCall} {event : Event} (hev : call.event = some event) :
    lastPosition position (calls ++ [call]) =
      (position event.data).or (lastPosition position calls) := by
  rw [lastPosition, filterMap_event_concat _ calls hev, List.getLast?_append]
  rcases position event.data with _ | p
  · rfl
  · rfl

/-- While the client has control, the last point changes with the last position. -/
theorem lastPoint_concat {calls : List HookCall} {call : HookCall} {event : Event}
    (hev : call.event = some event) (h : Returns c height threshold (calls ++ [call]))
    (hclient : controlAfter c threshold (calls ++ [call]) = .client) :
    lastPoint c.byteOrder (runState c height threshold (calls ++ [call])).sent =
      ((positionRead event.data).map c.relative).or
        (lastPoint c.byteOrder (runState c height threshold calls).sent) := by
  obtain ⟨event', hev', hsw, hsent, hadmits⟩ := exec_hookCallback_ok (hookStep_runState h)
  obtain rfl : event' = event := Option.some.inj (hev'.symm.trans hev)
  have hwritten : c.written (runState c height threshold calls).edgeSwitcher call.now event'.data =
      c.forwarded call.now event'.data := by
    rw [Client.written, ← hsw, edgeSwitcher_run h, switcherAfter, if_pos hclient]
  rw [hwritten] at hsent hadmits
  rw [lastPoint, hsent, List.filterMap_append, List.getLast?_append, ← lastPoint]
  congr 1
  rcases hfwd : c.forwarded call.now event'.data with _ | pkt
  · rw [positionRead_of_forwarded_none hfwd]
    rfl
  · rw [Option.map_some, Option.toList_some, lastPoint, List.filterMap_eq_flatMap_toList,
      List.flatMap_singleton, EventPacket.ofBuffer_toBytes (Client.sized_forwarded hfwd),
      packetPoint_forwarded hfwd (hadmits pkt hfwd)]
    rcases positionRead event'.data with _ | p
    · rfl
    · rfl

/-- The last point of a run that leaves control with the client. -/
private theorem lastPoint_eq {calls : List HookCall} (h : Returns c height threshold calls)
    (hclient : controlAfter c threshold calls = .client) :
    lastPoint c.byteOrder (runState c height threshold calls).sent =
      (lastPosition positionRead calls).map c.relative := by
  induction calls using List.reverseRecOn with
  | nil => cases hclient
  | append_singleton calls call ih =>
    obtain ⟨event, hev, -⟩ := runState_concat h
    have hcalls := h.of_prefix (List.prefix_append calls [call])
    rw [lastPoint_concat hev h hclient, lastPosition_concat calls hev]
    rcases hread : positionRead event.data with _ | p
    · -- not a move, so the client had control before
      have hbefore : controlAfter c threshold calls = .client := by
        rw [controlAfter, control_concat calls hev,
          edgeDecision_of_positionRead_none hread] at hclient
        exact hclient
      exact ih hcalls hbefore
    · rfl

/-- **The coordinates last sent.** Whenever the client has control, they are those of the last
move, press or release. -/
theorem tracks_read {calls : List HookCall} (h : Returns c height threshold calls) :
    Tracks c height threshold positionRead calls :=
  fun _ hpre hclient => lastPoint_eq (h.of_prefix hpre) hclient

end Run

/-- Motion with a button held. -/
def dragTo (x : Int16) : HookCall :=
  ⟨0, some ⟨0, 0, .mouseDragged { button := 0, clicks := 0, x := x, y := 500 }⟩⟩

theorem tracks_read_moves : Tracks defaultClient 1080 20 positionRead [moveTo 1919, moveTo 960] :=
  tracks_read (by decide)

/-- A drag is not sent: the point stays where the move before it was. -/
theorem not_tracks_reported :
    Returns defaultClient 1080 20 [moveTo 1919, dragTo 100] ∧
      ¬Tracks defaultClient 1080 20 reported [moveTo 1919, dragTo 100] := by
  refine ⟨by decide, fun htracks => ?_⟩
  have hpoint := htracks _ (List.prefix_refl _) (by decide)
  exact absurd hpoint (by decide)

end Sameness
