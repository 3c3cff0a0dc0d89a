import Sameness.Client.Forwarding

/-!
# What the host types stays on the host

An observer of the client sees the mouse moves, and every event that arrives while the client
has control; of these the observer learns whether the call throws, what it throws, the control
state after it, and the bytes written up to the clock's part of each packet. Everything else
that happens on the host is hidden: `unwinding` checks the conditions of `Runs.Unwinding`, and
`sharedAnswers_eq` is the statement about two runs.

The relation `Alike` is equality of everything the observer may learn. A hidden event leaves
the whole state alone (`hookStep_of_hidden`), and on equal events two alike states answer
alike, since the clock goes into the timestamp and nowhere else (`exec_packetOf_restamp`), and the
height of the screen is not looked at (`exec_packetOf_resize`).
-/

namespace Sameness

open Bytes Cpp Eff Uiohook Runs

/-- The packet at another time. -/
def EventPacket.restamp (now : UInt64) (pkt : EventPacket) : EventPacket :=
  { pkt with timestamp := now }

/-- The bytes of a packet without its timestamp. -/
def eraseTimestamp (bytes : List UInt8) : List UInt8 := bytes.take 1 ++ bytes.drop 9

theorem eraseTimestamp_toBytes (pkt : EventPacket) :
    eraseTimestamp pkt.toBytes = pkt.type.value ::
      (ByteOrder.big.encode 4 pkt.payloadSize.toNat ++ pkt.payload) := by
  rw [eraseTimestamp, EventPacket.toBytes_eq, List.drop_succ_cons,
    List.drop_left' (ByteOrder.length_encode _ _ _)]
  rfl

theorem eraseTimestamp_toBytes_restamp (now : UInt64) (pkt : EventPacket) :
    eraseTimestamp (pkt.restamp now).toBytes = eraseTimestamp pkt.toBytes := by
  rw [eraseTimestamp_toBytes, eraseTimestamp_toBytes]
  rfl

/-! ### The clock -/

section Clock

variable {c : Client} (now now' : UInt64)

private theorem keyPacket_restamp (type : SamenessEventType) (keyboard : KeyboardEventData) :
    keyPacket c type now' keyboard = (keyPacket c type now keyboard).map (.restamp now') := by
  rw [keyPacket, keyPacket]
  split_ifs
  · rfl
  · rfl

private theorem buttonPacket_restamp (type : SamenessEventType) (mouse : MouseEventData) :
    buttonPacket c type now' mouse = (buttonPacket c type now mouse).map (.restamp now') := by
  rw [buttonPacket, buttonPacket]
  split_ifs
  · rfl
  rcases (int (mouse.x.toInt - c.hostScreenWidth.toInt) : Except (Stop ClientException) ℤ)
    with stop | x
  · rfl
  rcases (int (-c.hostScreenWidth.toInt) : Except (Stop ClientException) ℤ) with stop | leftmost
  · rfl
  change ite _ _ _ = Except.map _ (ite _ _ _)
  split_ifs
  · rfl
  · rfl

private theorem otherPacket_restamp (data : EventData) :
    otherPacket c now' data = (otherPacket c now data).map (Option.map (.restamp now')) := by
  have hsome : ∀ x : Except (Stop ClientException) EventPacket,
      (x.map (EventPacket.restamp now')).map some =
        (x.map some).map (Option.map (EventPacket.restamp now')) := by
    rintro (stop | pkt)
    · rfl
    · rfl
  rcases data with _ | _ | _ | k | k | _ | m | m | _ | _ | _
  case keyPressed | keyReleased =>
    rw [otherPacket, otherPacket, keyPacket_restamp now now', hsome]
  case mousePressed | mouseReleased =>
    rw [otherPacket, otherPacket, buttonPacket_restamp now now', hsome]
  all_goals rfl

private theorem gatedPacket_restamp (data : EventData) (sw : ScreenEdgeSwitcher) :
    exec (gatedPacket c now' data) sw =
      ((exec (gatedPacket c now data) sw).1.map (Option.map (.restamp now')),
        (exec (gatedPacket c now data) sw).2) := by
  rw [exec_gatedPacket, exec_gatedPacket, otherPacket_restamp now now']
  split_ifs
  · rfl
  · rfl

private theorem movePacket_restamp (mouse : MouseEventData) (sw : ScreenEdgeSwitcher) :
    exec (movePacket c now' mouse) sw =
      ((exec (movePacket c now mouse) sw).1.map (Option.map (.restamp now')),
        (exec (movePacket c now mouse) sw).2) := by
  rw [movePacket, movePacket, exec_ite, exec_ite]
  split_ifs
  · rfl
  -- the switcher is consulted before the packet is made, and does not see the clock
  rw [exec_bind, exec_bind]
  rcases exec (ScreenEdgeSwitcher.update mouse.x.toInt mouse.y.toInt) sw with ⟨stop | state, sw'⟩
  · rfl
  change exec (ite _ _ _) _ = _
  rw [exec_ite]
  change _ = ((exec (ite _ _ _) _).1.map _, (exec (ite _ _ _) _).2)
  rw [exec_ite]
  split_ifs
  · rfl
  rcases (int (mouse.x.toInt - c.hostScreenWidth.toInt) : Except (Stop ClientException) ℤ)
    with stop | x
  · rfl
  · rfl

/-- The clock goes into the timestamp of the packet and nowhere else. -/
theorem exec_packetOf_restamp (data : EventData) (sw : ScreenEdgeSwitcher) :
    exec (packetOf c now' data) sw =
      ((exec (packetOf c now data) sw).1.map (Option.map (.restamp now')),
        (exec (packetOf c now data) sw).2) := by
  rcases data with _ | _ | _ | _ | _ | _ | _ | _ | mouse | _ | _
  case mouseMoved => exact movePacket_restamp now now' mouse sw
  all_goals exact gatedPacket_restamp now now' _ sw

end Clock

/-! ### The height of the screen -/

/-- The switcher for a screen of another height. -/
def ScreenEdgeSwitcher.resize (height : Int32) (sw : ScreenEdgeSwitcher) : ScreenEdgeSwitcher :=
  { sw with hostHeight := height }

/-- Switchers that agree but for the height. -/
theorem ScreenEdgeSwitcher.exists_eq_resize {sw sw' : ScreenEdgeSwitcher} {height : Int32}
    (h : sw.resize height = sw'.resize height) : ∃ height', sw' = sw.resize height' := by
  obtain ⟨hwidth, -, hthreshold, hstate⟩ := ScreenEdgeSwitcher.mk.inj h
  exact ⟨sw'.hostHeight, by rw [resize, hwidth, hthreshold, hstate]⟩

section Height

variable {c : Client} (height : Int32)

private theorem exec_update_resize (x y : ℤ) (sw : ScreenEdgeSwitcher) :
    exec (ScreenEdgeSwitcher.update x y : Eff _ (Stop ClientException) _) (sw.resize height) =
      ((exec (ScreenEdgeSwitcher.update x y : Eff _ (Stop ClientException) _) sw).1,
        (exec (ScreenEdgeSwitcher.update x y : Eff _ (Stop ClientException) _) sw).2.resize
          height) := by
  have hnear : ((sw.resize height).nearEdge x : Except (Stop ClientException) Bool) =
      sw.nearEdge x := rfl
  rw [ScreenEdgeSwitcher.exec_update, ScreenEdgeSwitcher.exec_update, hnear]
  rcases (sw.nearEdge x : Except (Stop ClientException) Bool) with stop | _ | _
  · rfl
  · rfl
  · rfl

private theorem movePacket_resize (now : UInt64) (mouse : MouseEventData)
    (sw : ScreenEdgeSwitcher) :
    exec (movePacket c now mouse) (sw.resize height) =
      ((exec (movePacket c now mouse) sw).1,
        (exec (movePacket c now mouse) sw).2.resize height) := by
  rw [movePacket, exec_ite, exec_ite]
  split_ifs
  · rfl
  rw [exec_bind, exec_bind, exec_update_resize]
  rcases exec (ScreenEdgeSwitcher.update mouse.x.toInt mouse.y.toInt) sw with ⟨stop | state, sw'⟩
  · rfl
  change exec (ite _ _ _) _ =
    ((exec (ite _ _ _) _).1, ScreenEdgeSwitcher.resize height (exec (ite _ _ _) _).2)
  rw [exec_ite, exec_ite]
  split_ifs
  · rfl
  rcases (int (mouse.x.toInt - c.hostScreenWidth.toInt) : Except (Stop ClientException) ℤ)
    with stop | x
  · rfl
  · rfl

/-- The height of the screen makes no difference. -/
theorem exec_packetOf_resize (now : UInt64) (data : EventData) (sw : ScreenEdgeSwitcher) :
    exec (packetOf c now data) (sw.resize height) =
      ((exec (packetOf c now data) sw).1, (exec (packetOf c now data) sw).2.resize height) := by
  have hgated : exec (gatedPacket c now data) (sw.resize height) =
      ((exec (gatedPacket c now data) sw).1,
        (exec (gatedPacket c now data) sw).2.resize height) := by
    rw [exec_gatedPacket, exec_gatedPacket]
    rfl
  rcases data with _ | _ | _ | _ | _ | _ | _ | _ | mouse | _ | _
  case mouseMoved => exact movePacket_resize height now mouse sw
  all_goals exact hgated

end Height

/-! ### Two runs -/

/-- The calls the observer sees: mouse moves, anything while the client has control, and null
events. -/
def visible (call : HookCall) (s : ClientState) : Bool :=
  match call.event with
  | none => true
  | some ⟨_, _, .mouseMoved _⟩ => true
  | some _ => s.edgeSwitcher.isClientControlled

/-- The states look the same. The heights of the screens do not matter. -/
structure Alike (s t : ClientState) : Prop where
  edgeSwitcher : s.edgeSwitcher.resize 0 = t.edgeSwitcher.resize 0
  writes : s.writes = t.writes
  sent : s.sent.map eraseTimestamp = t.sent.map eraseTimestamp

section Observed

variable (c : Client)

/-- A call that is not seen does nothing. -/
theorem hookStep_of_hidden {call : HookCall} {s : ClientState} (h : visible call s = false) :
    hookStep c call s = (.ok (), s) := by
  rcases call with ⟨now, _ | ⟨time, mask, data⟩⟩
  · cases h
  have hhost : ¬s.edgeSwitcher.state = .client ∧
      exec (packetOf c now data) s.edgeSwitcher
        = exec (gatedPacket c now data) s.edgeSwitcher := by
    rcases data with _ | _ | _ | _ | _ | _ | _ | _ | _ | _ | _
    case mouseMoved => cases h
    all_goals exact ⟨of_decide_eq_false h, rfl⟩
  have hpkt : exec (packetOf c now data) s.edgeSwitcher = (.ok none, s.edgeSwitcher) := by
    rw [hhost.2, exec_gatedPacket, if_neg hhost.1]
  rw [hookStep, exec_hookCallback_some, hpkt]

/-- On the same event, alike states answer alike. -/
theorem hookStep_alike {call call' : HookCall} {s t : ClientState} (hst : Alike s t)
    (hev : call.event = call'.event) :
    (hookStep c call s).1 = (hookStep c call' t).1 ∧
      Alike (hookStep c call s).2 (hookStep c call' t).2 := by
  obtain ⟨now, event⟩ := call
  obtain ⟨now', event'⟩ := call'
  obtain rfl : event = event' := hev
  obtain ⟨sw, n, sent⟩ := s
  obtain ⟨sw', n', sent'⟩ := t
  obtain ⟨height, rfl⟩ := ScreenEdgeSwitcher.exists_eq_resize hst.edgeSwitcher
  obtain rfl : n = n' := hst.writes
  rcases event with _ | event
  · exact ⟨rfl, hst⟩
  rw [hookStep, hookStep, exec_hookCallback_some, exec_hookCallback_some, exec_packetOf_resize,
    exec_packetOf_restamp now now']
  -- the packet differs in its timestamp only, so both write or neither does
  rcases exec (packetOf c now event.data) sw with ⟨stop | _ | pkt, sw₁⟩
  · exact ⟨rfl, rfl, rfl, hst.sent⟩
  · exact ⟨rfl, rfl, rfl, hst.sent⟩
  simp only [Except.map, Option.map_some, exec_safeWrite]
  rcases c.write n with _ | what
  · -- reduced here, so that no definitional check looks into the two encodings
    dsimp only
    refine ⟨rfl, rfl, rfl, ?_⟩
    rw [List.map_append, List.map_append, hst.sent, List.map_singleton, List.map_singleton,
      eraseTimestamp_toBytes_restamp]
  · exact ⟨rfl, rfl, rfl, hst.sent⟩

/-- What the observer learns of an answer: the exception, if any, and the control state. -/
def answer (r : Except (Stop ClientException) Unit × ClientState) :
    Except (Stop ClientException) Unit × ControlState :=
  (r.1, r.2.edgeSwitcher.state)

theorem unwinding : Unwinding (hookStep c) visible HookCall.event answer Alike where
  symm h := ⟨h.edgeSwitcher.symm, h.writes.symm, h.sent.symm⟩
  silent {s t call} h hhidden := by
    rw [hookStep_of_hidden c hhidden]
    exact h
  visible {s t call call'} h _ _ hev := by
    obtain ⟨hresult, hstate⟩ := hookStep_alike c h hev
    have hcontrol := congrArg ScreenEdgeSwitcher.state hstate.edgeSwitcher
    exact ⟨Prod.ext hresult hcontrol, hstate⟩

variable (height threshold : Int32)

/-- The events of a run that are seen. -/
def sharedEvents (calls : List HookCall) : List (Option Event) :=
  (visits (hookStep c) visible calls (.fresh c height threshold)).map fun v => v.1.event

/-- What is learnt of the answers to them. -/
def sharedAnswers (calls : List HookCall) :
    List (Except (Stop ClientException) Unit × ControlState) :=
  (visits (hookStep c) visible calls (.fresh c height threshold)).map fun v =>
    answer (hookStep c v.1 v.2)

/-- **Host-local input is hidden.** Two runs with the same moves, and the same other events
while the client has control, answer these alike and write the same bytes up to timestamps. The
screens may be of different heights. -/
theorem sharedAnswers_eq (height' : Int32) {calls calls' : List HookCall}
    (h : sharedEvents c height threshold calls = sharedEvents c height' threshold calls') :
    sharedAnswers c height threshold calls = sharedAnswers c height' threshold calls' ∧
      (runState c height threshold calls).sent.map eraseTimestamp =
        (runState c height' threshold calls').sent.map eraseTimestamp := by
  have hfresh : Alike (.fresh c height threshold) (.fresh c height' threshold) := ⟨rfl, rfl, rfl⟩
  obtain ⟨hanswers, hstate⟩ := (unwinding c).noninterference hfresh h
  exact ⟨hanswers, hstate.sent⟩

end Observed

/-- A key code that would throw is typed on the host, before the same two events, and the screen
is of another height. -/
theorem sharedAnswers_press0 :
    let press0 : HookCall :=
      ⟨5, some ⟨0, 0, .keyPressed { keycode := 0, rawcode := 0, keychar := 0 }⟩⟩
    sharedAnswers defaultClient 1080 20 [press0, moveTo 1919, press30] =
        sharedAnswers defaultClient 1200 20 [moveTo 1919, press30] ∧
      (runState defaultClient 1080 20 [press0, moveTo 1919, press30]).sent.map eraseTimestamp =
        (runState defaultClient 1200 20 [moveTo 1919, press30]).sent.map eraseTimestamp :=
  sharedAnswers_eq defaultClient 1080 20 1200 (by decide)

end Sameness
