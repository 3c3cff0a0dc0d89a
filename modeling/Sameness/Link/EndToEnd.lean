import Sameness.Client.Forwarding
import Sameness.Server.Loop

/-!
# From the hook to the operating system

What becomes of one event that the client forwards: `Forwards` is a call of the hook callback
that writes one buffer, and `Forwards.packet` names the packet in it. When the server reads
this buffer as one chunk, `posted_of_packet` says what its injector posts.
-/

namespace Sameness

open Bytes Cpp Eff Uiohook

/-- The call returns, having written the bytes for its event. -/
structure Forwards (c : Client) (s : ClientState) (call : HookCall) (event : Event)
    (bytes : List UInt8) : Prop where
  event_eq : call.event = some event
  returns : (exec (hookCallback c call) s).1 = .ok ()
  sent_eq : (exec (hookCallback c call) s).2.sent = s.sent ++ [bytes]

/-- What is written is the packet of the event. -/
theorem Forwards.packet {c : Client} {s : ClientState} {call : HookCall} {event : Event}
    {bytes : List UInt8} (h : Forwards c s call event bytes) :
    ∃ pkt, c.forwarded call.now event.data = some pkt ∧ bytes = pkt.toBytes := by
  obtain ⟨hev, hok, hsent⟩ := h
  obtain ⟨event', pkt, hev', -, hpkt, hbytes, -⟩ :=
    exec_hookCallback_wrote (Prod.ext hok rfl) hsent
  obtain rfl : event' = event := Option.some.inj (hev'.symm.trans hev)
  exact ⟨pkt, hpkt, hbytes⟩

/-- The event has passed the checks. -/
theorem Forwards.admits {c : Client} {s : ClientState} {call : HookCall} {event : Event}
    {bytes : List UInt8} (h : Forwards c s call event bytes) : c.Admits event.data := by
  obtain ⟨hev, hok, hsent⟩ := h
  obtain ⟨event', -, hev', -, -, -, hadmits⟩ := exec_hookCallback_wrote (Prod.ext hok rfl) hsent
  obtain rfl : event' = event := Option.some.inj (hev'.symm.trans hev)
  exact hadmits

/-- The server offers the events of a packet that is long enough to the operating system. -/
theorem exec_handleData_of_events {o : ByteOrder} {P : Platform} {pkt : EventPacket} {h : Handler}
    {evs : List OsEvent} (hsized : pkt.Sized) (hh : handler? pkt.type = some h)
    (hlen : P.minPayload h ≤ pkt.payload.length) (hev : P.events o h pkt = .ok evs)
    (t : ServerState) :
    exec (handleData o P pkt.toBytes) t =
      ((P.offer h evs t.desktop).1, t.called h pkt (P.offer h evs t.desktop).2) := by
  rw [exec_handleData_toBytes hsized, exec_dispatch, hh]
  simp only [Platform.exec_inject, if_neg (Nat.not_lt.mpr hlen), hev]

/-- The server posts the events of a packet that is long enough, if the operating system takes
them. -/
theorem posted_of_packet {o : ByteOrder} {P : Platform} {pkt : EventPacket} {h : Handler}
    {evs : List OsEvent} {t : ServerState} (hsized : pkt.Sized)
    (hh : handler? pkt.type = some h) (hlen : P.minPayload h ≤ pkt.payload.length)
    (hev : P.events o h pkt = .ok evs) (ht : P.Takes t.desktop.calls h) :
    (exec (handleData o P pkt.toBytes) t).2.desktop = P.posted evs t.desktop := by
  rw [exec_handleData_of_events hsized hh hlen hev, Platform.offer_of_takes hev ht]
  rfl

/-! ### Two presses

A press of the left button in the middle of the screen and of the key 30, each after a move
over the right edge. -/

def leftPress : Event := ⟨0, 0, .mousePressed { button := 1, clicks := 1, x := 960, y := 500 }⟩

/-- The state of the client when the button is pressed. -/
def crossed : ClientState := runState defaultClient 1080 20 [moveTo 1919]

/-- The packet of the press: the button, then -960 and 500. -/
def leftPressPacket : EventPacket :=
  ⟨.mouseButtonPress, 0, 9, [1, 64, 252, 255, 255, 244, 1, 0, 0]⟩

theorem forwarded_leftPress :
    defaultClient.forwarded 0 leftPress.data = some leftPressPacket := by decide

theorem forwards_leftPress :
    Forwards defaultClient crossed ⟨0, some leftPress⟩ leftPress leftPressPacket.toBytes :=
  ⟨rfl, by decide, by decide⟩

def keyPressEvent : Event := ⟨0, 0, .keyPressed { keycode := 30, rawcode := 0, keychar := 0 }⟩

def keyPressPacket : EventPacket := ⟨.keyPress, 0, 4, [30, 0, 0, 0]⟩

theorem forwards_keyPress :
    Forwards defaultClient crossed ⟨0, some keyPressEvent⟩ keyPressEvent keyPressPacket.toBytes :=
  ⟨rfl, by decide, by decide⟩

end Sameness
