import Sameness.Server.Desktop
import Sameness.Wire.EventPacket

/-!
# The platform injectors

`Injectors.cpp` implements the five injection functions three times, and the preprocessor
chooses one implementation. Each function copies words out of the payload in the byte order
of its machine and posts one event (two for a key press on Windows). The layouts differ: a
button payload is a byte and two 32-bit words on macOS, one 32-bit flag word on Windows, and
three 16-bit words in the fallback.

A payload too short for its function is refused: by an exception on macOS and Windows, by
returning in the fallback. `Platform.minPayload` collects the fifteen bounds.
-/

namespace Sameness

open Bytes Cpp Eff

/-- Copy a word of `n` bytes from the payload. -/
def copyPayload (o : ByteOrder) (pkt : EventPacket) (off n : ℕ) : InjectM ℕ :=
  ofExcept (readFrom pkt.payload (copyWord o off n))

/-- Copy an `int32_t` from the payload. -/
def copyInt32 (o : ByteOrder) (pkt : EventPacket) (off : ℕ) : InjectM ℤ := do
  let n ← copyPayload o pkt off 4
  pure (Int32.ofNat n).toInt

/-! ### macOS -/

namespace MacOSEventInjector

variable (os : MacOS) (o : ByteOrder)

/-- The common body of the two key functions. -/
def injectKey (sizeError : String) (keyDown : Bool) (pkt : EventPacket) : InjectM Unit := do
  if pkt.payload.length < 4 then runtimeError sizeError
  else
    let code ← copyPayload o pkt 0 4
    if ← os.create then post (.cgKeyboard (UInt16.ofNat code) keyDown)
    else runtimeError "Failed to create keyboard event"

def injectKeyPress : EventPacket → InjectM Unit :=
  injectKey os o "Invalid key press payload size" true

def injectKeyRelease : EventPacket → InjectM Unit :=
  injectKey os o "Invalid key release payload size" false

/-- The conversion of packet coordinates to screen coordinates, in exact arithmetic. -/
def screenX (x : ℤ) : ℚ := (x + os.screenWidth) * (os.screenWidth / (2 * os.screenWidth))

/-- See `screenX`. -/
def screenY (y : ℤ) : ℚ := y * (os.screenHeight / os.screenHeight)

/-- The common tail of the three mouse functions: create an event of the left button at the
converted point and post it. -/
def postMouse (type : CGEventType) (x y : ℤ) : InjectM Unit := do
  if ← os.create then post (.cgMouse type (screenX os x) (screenY os y) .left)
  else runtimeError "Failed to create mouse event"

def injectMouseMove (pkt : EventPacket) : InjectM Unit := do
  if pkt.payload.length < 8 then runtimeError "Invalid mouse move payload size"
  else
    let x ← copyInt32 o pkt 0
    let y ← copyInt32 o pkt 4
    postMouse os .mouseMoved x y

/-- The common body of the two button functions. The button is copied for the log only. -/
def injectMouseButton (sizeError : String) (type : CGEventType) (pkt : EventPacket) :
    InjectM Unit := do
  if pkt.payload.length < 9 then runtimeError sizeError
  else
    let _button ← copyPayload o pkt 0 1
    let x ← copyInt32 o pkt 1
    let y ← copyInt32 o pkt 5
    postMouse os type x y

def injectMouseButtonPress : EventPacket → InjectM Unit :=
  injectMouseButton os o "Invalid mouse button press payload size" .leftMouseDown

def injectMouseButtonRelease : EventPacket → InjectM Unit :=
  injectMouseButton os o "Invalid mouse button release payload size" .leftMouseUp

end MacOSEventInjector

/-! ### Windows -/

namespace WindowsEventInjector

variable (os : Windows) (o : ByteOrder)

/-- `KEYEVENTF_KEYUP`. -/
def keyUpFlag : UInt32 := 0x0002

/-- `MOUSEEVENTF_MOVE | MOUSEEVENTF_ABSOLUTE`. -/
def moveFlags : UInt32 := 0x0001 ||| 0x8000

/-- `SendInput` and the check that it inserted every event. -/
def sendAll (inputs : List OsEvent) (failure : String) : InjectM Unit := do
  let n ← os.sendInput inputs
  if n ≠ inputs.length then runtimeError failure

def injectKeyPress (pkt : EventPacket) : InjectM Unit := do
  if pkt.payload.length < 4 then runtimeError "Invalid key press payload size"
  else
    let code ← copyPayload o pkt 0 4
    sendAll os [.keyboardInput (UInt16.ofNat code) 0, .keyboardInput (UInt16.ofNat code) keyUpFlag]
      "Failed to send keyboard input"

/-- `static_cast<LONG>(coord * (65535.0 / metric))`, in exact arithmetic; the quotient is
infinite where the metric is zero. -/
def absolute (coord metric : ℤ) : Except (Stop ServerException) ℤ :=
  if metric = 0 then .error (.undefined .conversion)
  else truncate (coord * (65535 / (metric : ℚ)))

def injectMouseMove (pkt : EventPacket) : InjectM Unit := do
  if pkt.payload.length < 8 then runtimeError "Invalid mouse move payload size"
  else
    let x ← copyInt32 o pkt 0
    let y ← copyInt32 o pkt 4
    let dx ← ofExcept (absolute x os.cxScreen)
    let dy ← ofExcept (absolute y os.cyScreen)
    sendAll os [.mouseInput dx dy moveFlags] "Failed to send mouse input"

def injectKeyRelease (pkt : EventPacket) : InjectM Unit := do
  if pkt.payload.length < 4 then runtimeError "Invalid key release payload size"
  else
    let code ← copyPayload o pkt 0 4
    sendAll os [.keyboardInput (UInt16.ofNat code) keyUpFlag] "Failed to send keyboard input"

/-- The common body of the two button functions: the first payload word is taken for a word
of `MOUSEEVENTF` flags. -/
def injectMouseButton (sizeError : String) (flags : UInt32 → UInt32) (pkt : EventPacket) :
    InjectM Unit := do
  if pkt.payload.length < 4 then runtimeError sizeError
  else
    let button ← copyPayload o pkt 0 4
    sendAll os [.mouseInput 0 0 (flags (UInt32.ofNat button))] "Failed to send mouse input"

def injectMouseButtonPress : EventPacket → InjectM Unit :=
  injectMouseButton os o "Invalid mouse button press payload size" fun button => button

/-- The source shifts the word to turn a down flag into an up flag. -/
def injectMouseButtonRelease : EventPacket → InjectM Unit :=
  injectMouseButton os o "Invalid mouse button release payload size" fun button => button <<< 1

end WindowsEventInjector

/-! ### The fallback -/

namespace UiohookEventInjector

variable (o : ByteOrder)

/-- `hook_post_event` between setting and clearing the flag; the event carries the packet's
timestamp and no modifiers. -/
def postFlagged (pkt : EventPacket) (data : Uiohook.EventData) : InjectM Unit := do
  setInjectedEventFlag true
  post (.uiohook { time := pkt.timestamp, mask := 0, data })
  setInjectedEventFlag false

/-- The common body of the two key functions. -/
def injectKey (data : Uiohook.KeyboardEventData → Uiohook.EventData) (pkt : EventPacket) :
    InjectM Unit := do
  if pkt.payload.length < 2 then pure ()
  else
    let keycode ← copyPayload o pkt 0 2
    postFlagged pkt (data
      { keycode := UInt16.ofNat keycode, rawcode := UInt16.ofNat keycode, keychar := 0 })

def injectKeyPress : EventPacket → InjectM Unit := injectKey o .keyPressed

def injectKeyRelease : EventPacket → InjectM Unit := injectKey o .keyReleased

def injectMouseMove (pkt : EventPacket) : InjectM Unit := do
  if pkt.payload.length < 8 then pure ()
  else
    let x ← copyInt32 o pkt 0
    let y ← copyInt32 o pkt 4
    postFlagged pkt (.mouseMoved
      { button := 0, clicks := 0, x := Int16.ofInt x, y := Int16.ofInt y })

/-- The common body of the two button functions. -/
def injectMouseButton (data : Uiohook.MouseEventData → Uiohook.EventData) (pkt : EventPacket) :
    InjectM Unit := do
  if pkt.payload.length < 6 then pure ()
  else
    let button ← copyPayload o pkt 0 2
    let x ← copyPayload o pkt 2 2
    let y ← copyPayload o pkt 4 2
    postFlagged pkt (data
      { button := UInt16.ofNat button, clicks := 1, x := Int16.ofNat x, y := Int16.ofNat y })

def injectMouseButtonPress : EventPacket → InjectM Unit := injectMouseButton o .mousePressed

def injectMouseButtonRelease : EventPacket → InjectM Unit := injectMouseButton o .mouseReleased

end UiohookEventInjector

end Sameness
