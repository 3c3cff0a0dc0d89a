import Sameness.Server.Injectors

/-!
# One injector for each platform

`PlatformInjector` is the class that the preprocessor chooses; `Platform` is that choice,
with the operating system it comes with, and `Platform.inject` calls one of the five
functions on it. This file says once what such a call can do, so that no later proof looks
into an injector again:

* `exec_inject_of_short`: a payload below `minPayload` is refused and nothing is posted;
* `exec_inject_of_takes`: a payload that the function can use is posted as one batch of
  events that depends on the packet alone, if the operating system takes the batch;
* `inject_ok_iff`: these are the only ways in which a call returns;
* `inject_ne_outOfBounds`: no call reads outside its payload.
-/

namespace Sameness

open Bytes Cpp Eff

/-- The five injection functions. -/
inductive Handler where
  | injectKeyPress
  | injectKeyRelease
  | injectMouseMove
  | injectMouseButtonPress
  | injectMouseButtonRelease
  deriving DecidableEq, Repr

/-- The implementation that the preprocessor chooses, with its operating system. -/
inductive Platform where
  | macOS (os : MacOS)
  | windows (os : Windows)
  | uiohook

namespace Platform

/-- `PlatformInjector::inject…`. -/
def inject (o : ByteOrder) : Platform → Handler → EventPacket → InjectM Unit
  | macOS os, .injectKeyPress => MacOSEventInjector.injectKeyPress os o
  | macOS os, .injectKeyRelease => MacOSEventInjector.injectKeyRelease os o
  | macOS os, .injectMouseMove => MacOSEventInjector.injectMouseMove os o
  | macOS os, .injectMouseButtonPress => MacOSEventInjector.injectMouseButtonPress os o
  | macOS os, .injectMouseButtonRelease => MacOSEventInjector.injectMouseButtonRelease os o
  | windows os, .injectKeyPress => WindowsEventInjector.injectKeyPress os o
  | windows os, .injectKeyRelease => WindowsEventInjector.injectKeyRelease os o
  | windows os, .injectMouseMove => WindowsEventInjector.injectMouseMove os o
  | windows os, .injectMouseButtonPress => WindowsEventInjector.injectMouseButtonPress os o
  | windows os, .injectMouseButtonRelease => WindowsEventInjector.injectMouseButtonRelease os o
  | uiohook, .injectKeyPress => UiohookEventInjector.injectKeyPress o
  | uiohook, .injectKeyRelease => UiohookEventInjector.injectKeyRelease o
  | uiohook, .injectMouseMove => UiohookEventInjector.injectMouseMove o
  | uiohook, .injectMouseButtonPress => UiohookEventInjector.injectMouseButtonPress o
  | uiohook, .injectMouseButtonRelease => UiohookEventInjector.injectMouseButtonRelease o

/-- The least payload size that each function accepts. -/
def minPayload : Platform → Handler → ℕ
  | macOS _, .injectKeyPress | macOS _, .injectKeyRelease => 4
  | macOS _, .injectMouseMove => 8
  | macOS _, .injectMouseButtonPress | macOS _, .injectMouseButtonRelease => 9
  | windows _, .injectKeyPress | windows _, .injectKeyRelease => 4
  | windows _, .injectMouseMove => 8
  | windows _, .injectMouseButtonPress | windows _, .injectMouseButtonRelease => 4
  | uiohook, .injectKeyPress | uiohook, .injectKeyRelease => 2
  | uiohook, .injectMouseMove => 8
  | uiohook, .injectMouseButtonPress | uiohook, .injectMouseButtonRelease => 6

/-- How a function refuses a payload that is too short: the fallback returns, the others
throw. -/
def refusal : Platform → Handler → Except (Stop ServerException) Unit
  | uiohook, _ => .ok ()
  | _, .injectKeyPress => .error (.thrown (.runtimeError "Invalid key press payload size"))
  | _, .injectKeyRelease => .error (.thrown (.runtimeError "Invalid key release payload size"))
  | _, .injectMouseMove => .error (.thrown (.runtimeError "Invalid mouse move payload size"))
  | _, .injectMouseButtonPress =>
    .error (.thrown (.runtimeError "Invalid mouse button press payload size"))
  | _, .injectMouseButtonRelease =>
    .error (.thrown (.runtimeError "Invalid mouse button release payload size"))

/-- The text of the exception when the operating system does not take the events. -/
def failure : Platform → Handler → String
  | macOS _, .injectKeyPress | macOS _, .injectKeyRelease => "Failed to create keyboard event"
  | macOS _, _ => "Failed to create mouse event"
  | _, .injectKeyPress | _, .injectKeyRelease => "Failed to send keyboard input"
  | _, _ => "Failed to send mouse input"

/-- An `int32_t` of the payload. -/
def int32 (o : ByteOrder) (off : ℕ) (pkt : EventPacket) : ℤ :=
  (Int32.ofNat (word o off 4 pkt.payload)).toInt

/-- The events that a function offers to the operating system for a payload that is long
enough. Only the Windows pointer conversion can go wrong. -/
def events (o : ByteOrder) (P : Platform) (h : Handler) (pkt : EventPacket) :
    Except (Stop ServerException) (List OsEvent) :=
  let key := UInt16.ofNat (word o 0 4 pkt.payload)
  let flags := UInt32.ofNat (word o 0 4 pkt.payload)
  let point (os : MacOS) (type : CGEventType) (off : ℕ) : OsEvent :=
    .cgMouse type (MacOSEventInjector.screenX os (int32 o off pkt))
      (MacOSEventInjector.screenY os (int32 o (off + 4) pkt)) .left
  let hook (data : Uiohook.EventData) : OsEvent :=
    .uiohook { time := pkt.timestamp, mask := 0, data }
  let keyboard : Uiohook.KeyboardEventData :=
    { keycode := UInt16.ofNat (word o 0 2 pkt.payload)
      rawcode := UInt16.ofNat (word o 0 2 pkt.payload), keychar := 0 }
  let mouse : Uiohook.MouseEventData :=
    { button := UInt16.ofNat (word o 0 2 pkt.payload), clicks := 1
      x := Int16.ofNat (word o 2 2 pkt.payload), y := Int16.ofNat (word o 4 2 pkt.payload) }
  match P, h with
  | macOS _, .injectKeyPress => .ok [.cgKeyboard key true]
  | macOS _, .injectKeyRelease => .ok [.cgKeyboard key false]
  | macOS os, .injectMouseMove => .ok [point os .mouseMoved 0]
  | macOS os, .injectMouseButtonPress => .ok [point os .leftMouseDown 1]
  | macOS os, .injectMouseButtonRelease => .ok [point os .leftMouseUp 1]
  | windows _, .injectKeyPress =>
    .ok [.keyboardInput key 0, .keyboardInput key WindowsEventInjector.keyUpFlag]
  | windows _, .injectKeyRelease => .ok [.keyboardInput key WindowsEventInjector.keyUpFlag]
  | windows os, .injectMouseMove => do
    let dx ← WindowsEventInjector.absolute (int32 o 0 pkt) os.cxScreen
    let dy ← WindowsEventInjector.absolute (int32 o 4 pkt) os.cyScreen
    .ok [.mouseInput dx dy WindowsEventInjector.moveFlags]
  | windows _, .injectMouseButtonPress => .ok [.mouseInput 0 0 flags]
  | windows _, .injectMouseButtonRelease => .ok [.mouseInput 0 0 (flags <<< 1)]
  | uiohook, .injectKeyPress => .ok [hook (.keyPressed keyboard)]
  | uiohook, .injectKeyRelease => .ok [hook (.keyReleased keyboard)]
  | uiohook, .injectMouseMove => .ok [hook (.mouseMoved
      { button := 0, clicks := 0, x := Int16.ofInt (int32 o 0 pkt)
        y := Int16.ofInt (int32 o 4 pkt) })]
  | uiohook, .injectMouseButtonPress => .ok [hook (.mousePressed mouse)]
  | uiohook, .injectMouseButtonRelease => .ok [hook (.mouseReleased mouse)]

/-- Offering a batch of events to the operating system. On macOS the event is posted if it
can be created, on Windows a prefix of the batch is inserted, and the fallback posts the
event with the flag set and clears the flag. -/
def offer (P : Platform) (h : Handler) (events : List OsEvent) (d : Desktop) :
    Except (Stop ServerException) Unit × Desktop :=
  match P with
  | macOS os =>
    if os.createsEvent d.calls then (.ok (), d.record events)
    else (.error (.thrown (.runtimeError (P.failure h))), d.failed)
  | windows os =>
    (if os.inserted d.calls events.length ≠ events.length then
      .error (.thrown (.runtimeError (P.failure h))) else .ok (),
      d.record (events.take (os.inserted d.calls events.length)))
  | uiohook =>
    (.ok (), { d with
      posted := d.posted ++ events.map fun event => ⟨event, true⟩
      isInjectedEvent := false })

/-! ### The specification of a call -/

private theorem exec_copyPayload (o : ByteOrder) {pkt : EventPacket} {off n : ℕ}
    (h : off + n ≤ pkt.payload.length) (d : Desktop) :
    exec (copyPayload o pkt off n) d = (.ok (word o off n pkt.payload), d) := by
  rw [copyPayload, exec_ofExcept, readFrom_copyWord o h]

private theorem exec_copyInt32 (o : ByteOrder) {pkt : EventPacket} {off : ℕ}
    (h : off + 4 ≤ pkt.payload.length) (d : Desktop) :
    exec (copyInt32 o pkt off) d = (.ok (int32 o off pkt), d) := by
  rw [copyInt32, exec_bind_ok (exec_copyPayload o h d), exec_pure, int32]

private theorem exec_runtimeError (what : String) (d : Desktop) :
    exec (runtimeError what : InjectM Unit) d = (.error (.thrown (.runtimeError what)), d) := rfl

/-- A size check: where the payload is refused nothing else happens. -/
private theorem exec_sizeCheck {n k : ℕ} {m m' : InjectM Unit} {d : Desktop}
    {r r' : Except (Stop ServerException) Unit × Desktop} (hm : exec m d = r)
    (hm' : k ≤ n → exec m' d = r') :
    exec (if n < k then m else m') d = if n < k then r else r' := by
  rw [exec_ite, hm]
  split_ifs with h
  · rfl
  · exact hm' (Nat.le_of_not_lt h)

/-- Creating and posting one event is offering it. -/
private theorem exec_create_post (os : MacOS) {h : Handler} {what : String} (event : OsEvent)
    (d : Desktop) (hwhat : (macOS os).failure h = what) :
    exec (do if ← os.create then post event else runtimeError what) d =
      (macOS os).offer h [event] d := by
  rw [exec_bind_ok (exec_create os d), exec_ite, offer, hwhat]
  rfl

/-- `SendInput` with the check of its result is offering the batch. -/
private theorem exec_sendAll (os : Windows) {h : Handler} {what : String}
    (events : List OsEvent) (d : Desktop) (hwhat : (windows os).failure h = what) :
    exec (WindowsEventInjector.sendAll os events what) d = (windows os).offer h events d := by
  rw [WindowsEventInjector.sendAll, exec_bind_ok (exec_sendInput os events d), exec_ite, offer,
    hwhat]
  split_ifs <;> rfl

/-- Posting between setting and clearing the flag is offering the event. -/
private theorem exec_postFlagged (h : Handler) (pkt : EventPacket) (data : Uiohook.EventData)
    (d : Desktop) :
    exec (UiohookEventInjector.postFlagged pkt data) d =
      uiohook.offer h [.uiohook { time := pkt.timestamp, mask := 0, data }] d := rfl

private theorem exec_inject_macOS (o : ByteOrder) (os : MacOS) (h : Handler) (pkt : EventPacket)
    (d : Desktop) :
    exec ((macOS os).inject o h pkt) d =
      if pkt.payload.length < (macOS os).minPayload h then ((macOS os).refusal h, d)
      else match (macOS os).events o h pkt with
        | .ok events => (macOS os).offer h events d
        | .error stop => (.error stop, d) := by
  cases h with
  | injectKeyPress | injectKeyRelease =>
    refine exec_sizeCheck (exec_runtimeError _ d) fun hlen => ?_
    rw [exec_bind_ok (exec_copyPayload o (by simpa using hlen) d)]
    exact exec_create_post os _ d rfl
  | injectMouseMove =>
    refine exec_sizeCheck (exec_runtimeError _ d) fun hlen => ?_
    rw [exec_bind_ok (exec_copyInt32 o (by omega) d), exec_bind_ok (exec_copyInt32 o hlen d)]
    exact exec_create_post os _ d rfl
  | injectMouseButtonPress | injectMouseButtonRelease =>
    refine exec_sizeCheck (exec_runtimeError _ d) fun hlen => ?_
    rw [exec_bind_ok (exec_copyPayload o (by omega) d),
      exec_bind_ok (exec_copyInt32 o (by omega) d), exec_bind_ok (exec_copyInt32 o hlen d)]
    exact exec_create_post os _ d rfl

private theorem exec_inject_windows (o : ByteOrder) (os : Windows) (h : Handler)
    (pkt : EventPacket) (d : Desktop) :
    exec ((windows os).inject o h pkt) d =
      if pkt.payload.length < (windows os).minPayload h then ((windows os).refusal h, d)
      else match (windows os).events o h pkt with
        | .ok events => (windows os).offer h events d
        | .error stop => (.error stop, d) := by
  cases h with
  | injectKeyPress | injectKeyRelease | injectMouseButtonPress | injectMouseButtonRelease =>
    refine exec_sizeCheck (exec_runtimeError _ d) fun hlen => ?_
    rw [exec_bind_ok (exec_copyPayload o (by simpa using hlen) d)]
    exact exec_sendAll os _ d rfl
  | injectMouseMove =>
    refine exec_sizeCheck (exec_runtimeError _ d) fun hlen => ?_
    rw [exec_bind_ok (exec_copyInt32 o (by omega) d), exec_bind_ok (exec_copyInt32 o hlen d),
      exec_bind, exec_ofExcept, events]
    -- either conversion may be undefined, the horizontal one before the vertical
    cases hx : WindowsEventInjector.absolute (int32 o 0 pkt) os.cxScreen with
    | error stop => rfl
    | ok dx =>
      change exec (_ >>= _) d = _
      rw [exec_bind, exec_ofExcept]
      cases hy : WindowsEventInjector.absolute (int32 o 4 pkt) os.cyScreen with
      | error stop => rfl
      | ok dy => exact exec_sendAll os _ d rfl

private theorem exec_inject_uiohook (o : ByteOrder) (h : Handler) (pkt : EventPacket)
    (d : Desktop) :
    exec (uiohook.inject o h pkt) d =
      if pkt.payload.length < uiohook.minPayload h then (uiohook.refusal h, d)
      else match uiohook.events o h pkt with
        | .ok events => uiohook.offer h events d
        | .error stop => (.error stop, d) := by
  cases h with
  | injectKeyPress | injectKeyRelease =>
    refine exec_sizeCheck (exec_pure _ d) fun hlen => ?_
    rw [exec_bind_ok (exec_copyPayload o (by simpa using hlen) d)]
    exact exec_postFlagged _ _ _ d
  | injectMouseMove =>
    refine exec_sizeCheck (exec_pure _ d) fun hlen => ?_
    rw [exec_bind_ok (exec_copyInt32 o (by omega) d), exec_bind_ok (exec_copyInt32 o hlen d)]
    exact exec_postFlagged _ _ _ d
  | injectMouseButtonPress | injectMouseButtonRelease =>
    refine exec_sizeCheck (exec_pure _ d) fun hlen => ?_
    rw [exec_bind_ok (exec_copyPayload o (by omega) d),
      exec_bind_ok (exec_copyPayload o (by omega) d), exec_bind_ok (exec_copyPayload o hlen d)]
    exact exec_postFlagged _ _ _ d

/-- **What a call of an injection function does.** A payload below the bound is refused and
the desktop is left alone; otherwise the events are computed from the payload, which reads
inside it, and offered to the operating system. -/
theorem exec_inject (o : ByteOrder) (P : Platform) (h : Handler) (pkt : EventPacket)
    (d : Desktop) :
    exec (P.inject o h pkt) d =
      if pkt.payload.length < P.minPayload h then (P.refusal h, d)
      else match P.events o h pkt with
        | .ok events => P.offer h events d
        | .error stop => (.error stop, d) := by
  cases P with
  | macOS os => exact exec_inject_macOS o os h pkt d
  | windows os => exact exec_inject_windows o os h pkt d
  | uiohook => exact exec_inject_uiohook o h pkt d

/-! ### When a call returns -/

/-- The Windows conversion of a packet coordinate is defined. -/
def Scales (coord metric : ℤ) : Prop :=
  metric ≠ 0 ∧ InInt (Int.tdiv (coord * (65535 / (metric : ℚ))).num
    (coord * (65535 / (metric : ℚ))).den)

instance (coord metric : ℤ) : Decidable (Scales coord metric) :=
  inferInstanceAs (Decidable (_ ∧ _))

/-- The coordinates of a packet can be converted to those of the screen. Only the Windows
pointer conversion restricts them. -/
def Fits (o : ByteOrder) (P : Platform) (h : Handler) (pkt : EventPacket) : Prop :=
  match P, h with
  | windows os, .injectMouseMove =>
    Scales (int32 o 0 pkt) os.cxScreen ∧ Scales (int32 o 4 pkt) os.cyScreen
  | _, _ => True

/-- The operating system takes the events of a function when they are offered by its `n`-th
call. -/
def Takes (P : Platform) (n : ℕ) (h : Handler) : Prop :=
  match P, h with
  | macOS os, _ => os.createsEvent n = true
  | windows os, .injectKeyPress => os.inserted n 2 = 2
  | windows os, _ => os.inserted n 1 = 1
  | uiohook, _ => True

private theorem absolute_ok_iff {coord metric : ℤ} :
    (∃ z, WindowsEventInjector.absolute coord metric = .ok z) ↔ Scales coord metric := by
  by_cases h0 : metric = 0
  · simp [WindowsEventInjector.absolute, Scales, h0]
  · rw [WindowsEventInjector.absolute, if_neg h0, exists_truncate_iff, Scales]
    exact (and_iff_right h0).symm

/-- The events are defined exactly when the coordinates fit. -/
theorem events_ok_iff {o : ByteOrder} {P : Platform} {h : Handler} {pkt : EventPacket} :
    (∃ evs, P.events o h pkt = .ok evs) ↔ P.Fits o h pkt := by
  cases P with
  | macOS os => cases h <;> simp [events, Fits]
  | uiohook => cases h <;> simp [events, Fits]
  | windows os =>
    cases h with
    | injectMouseMove =>
      rw [Fits, ← absolute_ok_iff, ← absolute_ok_iff, events]
      cases hx : WindowsEventInjector.absolute (int32 o 0 pkt) os.cxScreen with
      | error stop => simp [bind, Except.bind]
      | ok dx =>
        cases hy : WindowsEventInjector.absolute (int32 o 4 pkt) os.cyScreen <;>
          simp [bind, Except.bind]
    | _ => simp [events, Fits]

/-- What makes events undefined is the conversion of a coordinate. -/
theorem events_eq_error {o : ByteOrder} {P : Platform} {h : Handler} {pkt : EventPacket}
    {stop : Stop ServerException} (hev : P.events o h pkt = .error stop) :
    stop = .undefined .conversion := by
  have habsolute : ∀ {coord metric : ℤ},
      WindowsEventInjector.absolute coord metric = .error stop → stop = .undefined .conversion := by
    intro coord metric habs
    rw [WindowsEventInjector.absolute, truncate] at habs
    split_ifs at habs
    · exact (Except.error.inj habs).symm
    · exact (Except.error.inj habs).symm
  cases P with
  | windows os =>
    cases h with
    | injectMouseMove =>
      obtain hx | ⟨dx, -, hev⟩ := bind_eq_error hev
      · exact habsolute hx
      · obtain hy | ⟨dy, -, hev⟩ := bind_eq_error hev
        · exact habsolute hy
        · cases hev
    | _ => cases hev
  | _ => cases h <;> cases hev

/-- A Windows batch is inserted whole exactly when its call is taken. -/
private theorem takes_windows_iff {o : ByteOrder} {os : Windows} {h : Handler}
    {pkt : EventPacket} {evs : List OsEvent} (hev : (windows os).events o h pkt = .ok evs) (n : ℕ) :
    (windows os).Takes n h ↔ os.inserted n evs.length = evs.length := by
  cases h with
  | injectMouseMove =>
    -- where both conversions are defined, one event is offered
    have hlen : evs.length = 1 := by
      rw [events] at hev
      cases hx : WindowsEventInjector.absolute (int32 o 0 pkt) os.cxScreen with
      | error stop => simp [hx, bind, Except.bind] at hev
      | ok dx =>
        cases hy : WindowsEventInjector.absolute (int32 o 4 pkt) os.cyScreen with
        | error stop => simp [hx, hy, bind, Except.bind] at hev
        | ok dy =>
          simp only [hx, hy, bind, Except.bind, Except.ok.injEq] at hev
          rw [← hev]
          rfl
    rw [hlen, Takes]
    exact fun hk => nomatch hk
  | _ =>
    cases hev
    rfl

/-- The desktop after a batch of events was posted in full. -/
def posted (P : Platform) (evs : List OsEvent) (d : Desktop) : Desktop :=
  match P with
  | uiohook =>
    { d with
      posted := d.posted ++ evs.map fun event => ⟨event, true⟩
      isInjectedEvent := false }
  | _ => d.record evs

/-- An offer that is taken posts the whole batch. -/
theorem offer_of_takes {o : ByteOrder} {P : Platform} {h : Handler} {pkt : EventPacket}
    {evs : List OsEvent} (hev : P.events o h pkt = .ok evs) {d : Desktop}
    (ht : P.Takes d.calls h) : P.offer h evs d = (.ok (), P.posted evs d) := by
  cases P with
  | macOS os => exact if_pos ht
  | windows os =>
    have hn := (takes_windows_iff hev d.calls).mp ht
    rw [offer, if_neg (not_not.mpr hn), hn, List.take_length, posted]
    exact fun hk => nomatch hk
  | uiohook => rfl

/-- An offer that is not taken throws. -/
theorem offer_of_not_takes {o : ByteOrder} {P : Platform} {h : Handler} {pkt : EventPacket}
    {evs : List OsEvent} (hev : P.events o h pkt = .ok evs) {d : Desktop}
    (ht : ¬P.Takes d.calls h) :
    (P.offer h evs d).1 = .error (.thrown (.runtimeError (P.failure h))) := by
  cases P with
  | macOS os =>
    have hc : ¬os.createsEvent d.calls = true := ht
    rw [offer, if_neg hc]
  | windows os =>
    rw [offer, if_pos (fun hn => ht ((takes_windows_iff hev d.calls).mpr hn))]
  | uiohook => exact absurd trivial ht

/-- A payload that is long enough, with coordinates that fit, is posted as one batch if the
operating system takes it. -/
theorem exec_inject_of_takes {o : ByteOrder} {P : Platform} {h : Handler} {pkt : EventPacket}
    {evs : List OsEvent} {d : Desktop} (hlen : P.minPayload h ≤ pkt.payload.length)
    (hev : P.events o h pkt = .ok evs) (ht : P.Takes d.calls h) :
    exec (P.inject o h pkt) d = (.ok (), P.posted evs d) := by
  rw [exec_inject, if_neg (Nat.not_lt.mpr hlen), hev]
  exact offer_of_takes hev ht

/-- A payload that is too short is refused, and the desktop is left alone. -/
theorem exec_inject_of_short {o : ByteOrder} {P : Platform} {h : Handler} {pkt : EventPacket}
    {d : Desktop} (hlen : pkt.payload.length < P.minPayload h) :
    exec (P.inject o h pkt) d = (P.refusal h, d) := by
  rw [exec_inject, if_pos hlen]

/-- **Injectors read inside the payload.** The size check comes before the copies. -/
theorem inject_ne_outOfBounds {o : ByteOrder} {P : Platform} {h : Handler} {pkt : EventPacket}
    {d : Desktop} (read : OutOfBounds) :
    (exec (P.inject o h pkt) d).1 ≠ .error (.undefined (.outOfBounds read)) := by
  rw [exec_inject]
  split_ifs
  · cases P <;> cases h <;> exact nofun
  rcases hev : P.events o h pkt with stop | evs
  · rw [events_eq_error hev]
    exact nofun
  change (P.offer h evs d).1 ≠ _
  by_cases ht : P.Takes d.calls h
  · rw [offer_of_takes hev ht]
    exact nofun
  · rw [offer_of_not_takes hev ht]
    exact nofun

/-- The `n`-th call of the server's injection functions returns. In the fallback every call
does; elsewhere the payload must be long enough, its coordinates must fit and the operating
system must take the events. -/
def Survives (o : ByteOrder) (P : Platform) (n : ℕ) (h : Handler) (pkt : EventPacket) : Prop :=
  match P with
  | uiohook => True
  | P => P.minPayload h ≤ pkt.payload.length ∧ P.Fits o h pkt ∧ P.Takes n h

/-- On a platform that throws on short payloads, a call returns exactly when it survives. -/
private theorem inject_ok_iff_of_throws {o : ByteOrder} {P : Platform} {h : Handler}
    {pkt : EventPacket} {d : Desktop} (hP : P.refusal h ≠ .ok ()) :
    (exec (P.inject o h pkt) d).1 = .ok () ↔
      P.minPayload h ≤ pkt.payload.length ∧ P.Fits o h pkt ∧ P.Takes d.calls h := by
  constructor
  · intro hok
    rcases Nat.lt_or_ge pkt.payload.length (P.minPayload h) with hlen | hlen
    · rw [exec_inject_of_short hlen] at hok
      exact absurd hok hP
    · rw [exec_inject, if_neg (Nat.not_lt.mpr hlen)] at hok
      cases hev : P.events o h pkt with
      | error stop => simp [hev] at hok
      | ok evs =>
        refine ⟨hlen, events_ok_iff.mp ⟨evs, hev⟩, ?_⟩
        by_contra ht
        simp [hev, offer_of_not_takes hev ht] at hok
  · rintro ⟨hlen, hfit, ht⟩
    obtain ⟨evs, hev⟩ := events_ok_iff.mpr hfit
    rw [exec_inject_of_takes hlen hev ht]

/-- **When a call returns.** -/
theorem inject_ok_iff {o : ByteOrder} {P : Platform} {h : Handler} {pkt : EventPacket}
    {d : Desktop} : (exec (P.inject o h pkt) d).1 = .ok () ↔ P.Survives o d.calls h pkt := by
  cases P with
  | macOS os => exact inject_ok_iff_of_throws (by cases h <;> simp [refusal])
  | windows os => exact inject_ok_iff_of_throws (by cases h <;> simp [refusal])
  | uiohook =>
    refine iff_of_true ?_ trivial
    rw [exec_inject]
    split_ifs
    · rfl
    · have hfit : uiohook.Fits o h pkt := trivial
      obtain ⟨evs, hev⟩ := events_ok_iff.mpr hfit
      rw [hev]
      rfl

/-- A call that returns uses up one call of the operating system, where that can fail. -/
theorem survives_calls_inject {o : ByteOrder} {P : Platform} {h : Handler} {pkt : EventPacket}
    {d : Desktop} (hok : P.Survives o d.calls h pkt) (i : ℕ) (h' : Handler) (pkt' : EventPacket) :
    P.Survives o ((exec (P.inject o h pkt) d).2.calls + i) h' pkt' ↔
      P.Survives o (d.calls + (i + 1)) h' pkt' := by
  cases P with
  | macOS os =>
    obtain ⟨hlen, hfit, ht⟩ := hok
    obtain ⟨evs, hev⟩ := events_ok_iff.mpr hfit
    rw [exec_inject_of_takes hlen hev ht, Nat.add_comm i 1, ← Nat.add_assoc]
    rfl
  | windows os =>
    obtain ⟨hlen, hfit, ht⟩ := hok
    obtain ⟨evs, hev⟩ := events_ok_iff.mpr hfit
    rw [exec_inject_of_takes hlen hev ht, Nat.add_comm i 1, ← Nat.add_assoc]
    rfl
  | uiohook => exact Iff.rfl

end Platform

end Sameness
