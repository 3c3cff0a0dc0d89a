import Sameness.Server.Isolation
import Sameness.Library.Runs

/-!
# The flag of the fallback

Each of the five functions of the fallback returns from a payload that is too short, and
otherwise sets `isInjectedEvent`, posts, and clears it again. `Brackets` is what one call must
do for the flag to mark exactly the injected events, and `brackets_of_calls` that every call of
every sequence does it.
-/

namespace Sameness

open Bytes Cpp Eff Runs

/-- A call of one of the functions of `UiohookEventInjector`. -/
structure InjectorCall where
  handler : Handler
  pkt : EventPacket

/-- A call as a step of the desktop. -/
def injectStep (o : ByteOrder) (call : InjectorCall) (d : Desktop) :
    Except (Stop ServerException) Unit × Desktop :=
  exec (Platform.uiohook.inject o call.handler call.pkt) d

/-- The event is of the kind that the function is named for. -/
def Handler.NamedFor : Handler → Uiohook.EventData → Prop
  | .injectKeyPress, .keyPressed _ => True
  | .injectKeyRelease, .keyReleased _ => True
  | .injectMouseMove, .mouseMoved _ => True
  | .injectMouseButtonPress, .mousePressed _ => True
  | .injectMouseButtonRelease, .mouseReleased _ => True
  | _, _ => False

/-- The payload is too short for the function. -/
def InjectorCall.Short (call : InjectorCall) : Prop :=
  call.pkt.payload.length < Platform.uiohook.minPayload call.handler

/-- The call finds the flag clear, returns, and leaves it clear. With a payload that is too short
it posts nothing; otherwise one event while the flag is set, of the kind that the function is
named for, at the time of the packet. -/
structure Brackets (o : ByteOrder) (call : InjectorCall) (d : Desktop) : Prop where
  clear : d.isInjectedEvent = false
  returns : (injectStep o call d).1 = .ok ()
  skips : call.Short → (injectStep o call d).2.posted = d.posted
  posts : ¬call.Short → ∃ event : Uiohook.Event,
    (injectStep o call d).2.posted = d.posted ++ [⟨.uiohook event, true⟩] ∧
      call.handler.NamedFor event.data ∧ event.time = call.pkt.timestamp
  cleared : (injectStep o call d).2.isInjectedEvent = false

/-- What the fallback posts for a packet that is long enough. -/
private theorem batch_uiohook (o : ByteOrder) {call : InjectorCall} (hlong : ¬call.Short) :
    ∃ event : Uiohook.Event,
      Platform.uiohook.batch o call.handler call.pkt = [⟨.uiohook event, true⟩] ∧
        call.handler.NamedFor event.data ∧ event.time = call.pkt.timestamp := by
  obtain ⟨h, pkt⟩ := call
  rw [InjectorCall.Short] at hlong
  rw [Platform.batch, if_neg hlong]
  cases h with
  | injectKeyPress | injectKeyRelease | injectMouseMove | injectMouseButtonPress
  | injectMouseButtonRelease => exact ⟨_, rfl, trivial, rfl⟩

/-- A call that finds the flag clear. -/
theorem brackets_of_clear (o : ByteOrder) (call : InjectorCall) {d : Desktop}
    (hd : d.isInjectedEvent = false) : Brackets o call d := by
  have haccepts : Platform.uiohook.Accepts o call.handler call.pkt := trivial
  have htakes : Platform.uiohook.Takes d.calls call.handler := trivial
  obtain ⟨d', hcall, hposted, hflag⟩ := Platform.exec_inject_of_accepts haccepts htakes hd
  have hstep : injectStep o call d = (.ok (), d') := hcall
  refine ⟨hd, by rw [hstep], fun hshort => ?_, fun hlong => ?_, by rw [hstep, hflag]⟩
  · rw [InjectorCall.Short] at hshort
    rw [hstep, hposted, Platform.batch, if_pos hshort, List.append_nil]
  · obtain ⟨event, hevent, hkind, htime⟩ := batch_uiohook o hlong
    exact ⟨event, by rw [hstep, hposted, hevent], hkind, htime⟩

/-- No sequence of calls leaves the flag set. -/
theorem clear_of_calls (o : ByteOrder) {d : Desktop} (hd : d.isInjectedEvent = false)
    (calls : List InjectorCall) : (final (injectStep o) calls d).isInjectedEvent = false := by
  have hkeep : ∀ call t, True → t.isInjectedEvent = false →
      (injectStep o call t).2.isInjectedEvent = false :=
    fun call _ _ ht => (brackets_of_clear o call ht).cleared
  refine final_of_allowed (I := fun t : Desktop => t.isInjectedEvent = false) hd hkeep ?_
  exact fun _ _ _ => trivial

/-- **The flag marks what is injected.** Every call of a sequence that starts with the flag clear
sets it for its event only, and it is clear in the end. -/
theorem brackets_of_calls (o : ByteOrder) {d : Desktop} (hd : d.isInjectedEvent = false)
    (calls : List InjectorCall) :
    (∀ before call, before ++ [call] <+: calls →
        Brackets o call (final (injectStep o) before d)) ∧
      (final (injectStep o) calls d).isInjectedEvent = false :=
  ⟨fun before call _ => brackets_of_clear o call (clear_of_calls o hd before),
    clear_of_calls o hd calls⟩

/-- A key press that is too short by a byte, and a move. -/
theorem brackets_of_calls_shortPress :
    let calls : List InjectorCall :=
      [⟨.injectKeyPress, ⟨.keyPress, 7, 1, [30]⟩⟩,
        ⟨.injectMouseMove, ⟨.mouseMove, 8, 8, [64, 252, 255, 255, 244, 1, 0, 0]⟩⟩]
    (∀ before call, before ++ [call] <+: calls →
        Brackets .little call (final (injectStep .little) before {})) ∧
      (final (injectStep .little) calls {}).isInjectedEvent = false :=
  brackets_of_calls .little rfl _

end Sameness
