import Sameness.Hook.Event
import Sameness.Library.Cpp

/-!
# The desktop the server injects into

What the injectors act on: the global `isInjectedEvent` of `EventState.cpp`, and the calls of
the operating system through which events are posted. `Desktop` keeps the events posted so
far, each with the flag's value at that moment, and the number of calls that can fail made so
far.

The operating system is a parameter. On macOS creating an event may return null; on Windows
`SendInput` inserts a prefix of the events it is offered and returns how many; the call
numbered `n` is answered by the `n`-th value of a sequence. The screen's size is a parameter
too. `hook_post_event` of the fallback always returns.
-/

namespace Sameness

open Cpp

/-- The exceptions of the server, with their texts. -/
inductive ServerException where
  | runtimeError (what : String)
  | systemError (what : String)
  deriving DecidableEq, Repr

/-- `CGEventType`, as far as mouse events go. -/
inductive CGEventType where
  | mouseMoved
  | leftMouseDown
  | leftMouseUp
  | rightMouseDown
  | rightMouseUp
  | otherMouseDown
  | otherMouseUp
  deriving DecidableEq, Repr

/-- `CGMouseButton`. -/
inductive CGMouseButton where
  | left
  | right
  | center
  deriving DecidableEq, Repr

/-- The events that reach the operating system: two kinds of `CGEvent`, two kinds of `INPUT`,
and the events of libuiohook. Points are exact rationals. -/
inductive OsEvent where
  | cgKeyboard (keyCode : UInt16) (keyDown : Bool)
  | cgMouse (type : CGEventType) (x y : ℚ) (button : CGMouseButton)
  | keyboardInput (wVk : UInt16) (dwFlags : UInt32)
  | mouseInput (dx dy : ℤ) (dwFlags : UInt32)
  | uiohook (event : Uiohook.Event)
  deriving DecidableEq, Repr

/-- A posted event and the value of `isInjectedEvent` while it was posted. -/
structure Posted where
  event : OsEvent
  isInjectedEvent : Bool
  deriving DecidableEq, Repr

/-- The state the injectors act on. -/
structure Desktop where
  isInjectedEvent : Bool := false
  posted : List Posted := []
  calls : ℕ := 0
  deriving DecidableEq, Repr

/-- Injection: a computation on the desktop that may throw or run into undefined
behaviour. -/
abbrev InjectM := Eff Desktop (Stop ServerException)

/-- `throw std::runtime_error(what)`. -/
def runtimeError {α : Type} (what : String) : InjectM α := throw (.thrown (.runtimeError what))

/-- Hand one event to the operating system. -/
def post (event : OsEvent) : InjectM Unit :=
  modify fun d => { d with posted := d.posted ++ [⟨event, d.isInjectedEvent⟩] }

/-- `setInjectedEventFlag`. -/
def setInjectedEventFlag (value : Bool) : InjectM Unit :=
  modify fun d => { d with isInjectedEvent := value }

/-- A macOS machine: its main screen, which is not empty, and which calls of `CGEventCreate…`
return an event. -/
structure MacOS where
  screenWidth : ℚ
  screenHeight : ℚ
  screenWidth_pos : 0 < screenWidth
  screenHeight_pos : 0 < screenHeight
  createsEvent : ℕ → Bool

/-- A call of `CGEventCreateKeyboardEvent` or `CGEventCreateMouseEvent`: whether it returns an
event. -/
def MacOS.create (os : MacOS) : InjectM Bool := do
  let d ← get
  modify fun d => { d with calls := d.calls + 1 }
  pure (os.createsEvent d.calls)

/-- A Windows machine: `GetSystemMetrics` of the screen, and how many of the `k` events
offered to the `n`-th call of `SendInput` are inserted. -/
structure Windows where
  cxScreen : ℤ
  cyScreen : ℤ
  inserts : ℕ → ℕ → ℕ

/-- The number of events that call `n` of `SendInput` inserts. -/
def Windows.inserted (os : Windows) (n k : ℕ) : ℕ := min (os.inserts n k) k

/-- `SendInput`: insert a prefix of the events, return its length. -/
def Windows.sendInput (os : Windows) (inputs : List OsEvent) : InjectM ℕ := do
  let d ← get
  let n := os.inserted d.calls inputs.length
  modify fun d => { d with
    calls := d.calls + 1
    posted := d.posted ++ (inputs.take n).map fun input => ⟨input, d.isInjectedEvent⟩ }
  pure n

/-- The desktop after one call of the operating system that posts `events`. -/
def Desktop.record (d : Desktop) (events : List OsEvent) : Desktop :=
  { d with
    calls := d.calls + 1
    posted := d.posted ++ events.map fun event => ⟨event, d.isInjectedEvent⟩ }

/-- The desktop after a call of the operating system that posts nothing. -/
def Desktop.failed (d : Desktop) : Desktop := { d with calls := d.calls + 1 }

/-! ### What the calls do -/

open Eff

theorem exec_create (os : MacOS) (d : Desktop) :
    exec os.create d = (.ok (os.createsEvent d.calls), d.failed) := rfl

theorem exec_sendInput (os : Windows) (inputs : List OsEvent) (d : Desktop) :
    exec (os.sendInput inputs) d =
      (.ok (os.inserted d.calls inputs.length),
        d.record (inputs.take (os.inserted d.calls inputs.length))) := rfl

end Sameness
