import Mathlib.Tactic.TypeStar

/-!
# The events of libuiohook

The input library reports events to the client and posts them for the fallback injector;
both ends use the structures of `uiohook.h`. In C the kind of an event (`type`) and its data
(a union) are separate fields; here `EventData` pairs each kind with the union member that
the library fills in for it, so that data of the wrong kind cannot be built.
-/

namespace Sameness.Uiohook

/-- `struct _keyboard_event_data`. -/
structure KeyboardEventData where
  keycode : UInt16
  rawcode : UInt16
  keychar : UInt16
  deriving DecidableEq, Repr

/-- `struct _mouse_event_data`. -/
structure MouseEventData where
  button : UInt16
  clicks : UInt16
  x : Int16
  y : Int16
  deriving DecidableEq, Repr

/-- `mouse_wheel_event_data`. -/
structure MouseWheelEventData where
  clicks : UInt16
  x : Int16
  y : Int16
  type : UInt8
  amount : UInt16
  rotation : Int16
  direction : UInt8
  deriving DecidableEq, Repr

/-- The kinds of `event_type`, each with its member of the data union. -/
inductive EventData where
  | hookEnabled
  | hookDisabled
  | keyTyped (keyboard : KeyboardEventData)
  | keyPressed (keyboard : KeyboardEventData)
  | keyReleased (keyboard : KeyboardEventData)
  | mouseClicked (mouse : MouseEventData)
  | mousePressed (mouse : MouseEventData)
  | mouseReleased (mouse : MouseEventData)
  | mouseMoved (mouse : MouseEventData)
  | mouseDragged (mouse : MouseEventData)
  | mouseWheel (wheel : MouseWheelEventData)
  deriving DecidableEq, Repr

/-- `uiohook_event`. -/
structure Event where
  time : UInt64
  mask : UInt16
  data : EventData
  deriving DecidableEq, Repr

end Sameness.Uiohook
