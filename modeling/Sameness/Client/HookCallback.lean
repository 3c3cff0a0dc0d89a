import Sameness.Client.ScreenEdgeSwitcher
import Sameness.Hook.Event
import Sameness.Wire.EventPacket

/-!
# The hook callback of the client

`hook_callback` is called by the input library for every event. A mouse move is validated,
updates the edge switcher, and is forwarded if the client then has control; any other event is
looked at only if the client has control. What is forwarded is one `EventPacket`, written to
the socket in native byte order behind the big-endian header.

The clock, the byte order of the machine and the outcomes of successive writes are
parameters. `packetOf` is the part of the callback that chooses the packet; it acts on the
switcher alone. `exec_packetOf_ok` describes it whenever it returns, by `observe`, which says
how an event changes the switcher, and `forwarded`, the packet that an event is forwarded as;
`exec_hookCallback_ok` adds the write.
-/

namespace Sameness

open Bytes Cpp Eff Uiohook

/-- The exceptions of the client, with their texts. -/
inductive ClientException where
  | runtimeError (what : String)
  | networkError (what : String)
  deriving DecidableEq, Repr

/-- The client's width setting and its surroundings: the byte order of the machine, and what
each write to the socket answers, `none` for success and the text of the system error
otherwise. -/
structure Client where
  hostScreenWidth : Int32
  byteOrder : ByteOrder
  write : ℕ → Option String

/-- The state of the client: the switcher, the number of writes begun, and the buffers
written. -/
structure ClientState where
  edgeSwitcher : ScreenEdgeSwitcher
  writes : ℕ := 0
  sent : List (List UInt8) := []
  deriving DecidableEq

/-- One call of the callback: the value of the clock and the event, which may be null. -/
structure HookCall where
  now : UInt64
  event : Option Event
  deriving DecidableEq

abbrev ClientM := Eff ClientState (Stop ClientException)

/-- `throw std::runtime_error(what)`. -/
def clientError {α : Type} (what : String) : Except (Stop ClientException) α :=
  .error (.thrown (.runtimeError what))

section Callback

variable (c : Client)

/-- The bytes of an `int32_t` in memory. -/
def Client.int32Bytes (z : ℤ) : List UInt8 := c.byteOrder.encode 4 (UInt32.ofInt z).toNat

/-- `safeWrite`. -/
def safeWrite (data : List UInt8) : ClientM Unit := do
  let s ← get
  modify fun s => { s with writes := s.writes + 1 }
  match c.write s.writes with
  | none => modify fun s => { s with sent := s.sent ++ [data] }
  | some what => throw (.thrown (.networkError s!"Network write failed: {what}"))

/-- The common body of the two key branches. -/
def keyPacket (type : SamenessEventType) (now : UInt64) (keyboard : KeyboardEventData) :
    Except (Stop ClientException) EventPacket :=
  let code := keyboard.keycode.toUInt32
  if code = 0 then clientError "Invalid key code"
  else .ok {
    type := type
    timestamp := now
    payloadSize := 4
    payload := c.byteOrder.encode 4 code.toNat }

/-- The common body of the two button branches. -/
def buttonPacket (type : SamenessEventType) (now : UInt64) (mouse : MouseEventData) :
    Except (Stop ClientException) EventPacket :=
  -- narrowed before the check: the button 256 is refused too
  let button := mouse.button.toUInt8
  if button = 0 then clientError "Invalid mouse button"
  else do
    let x ← int (mouse.x.toInt - c.hostScreenWidth.toInt)
    let y := mouse.y.toInt
    let leftmost ← int (-c.hostScreenWidth.toInt)
    if x < leftmost ∨ y < 0 then clientError "Invalid mouse coordinates"
    else .ok {
      type := type
      timestamp := now
      payloadSize := 9
      payload := button :: (c.int32Bytes x ++ c.int32Bytes y) }

/-- The branch for mouse moves. -/
def movePacket (now : UInt64) (mouse : MouseEventData) :
    Eff ScreenEdgeSwitcher (Stop ClientException) (Option EventPacket) :=
  let x := mouse.x.toInt
  let y := mouse.y.toInt
  if x < 0 ∨ y < 0 then ofExcept (clientError "Invalid mouse coordinates")
  else do
    let newState ← ScreenEdgeSwitcher.update x y
    -- the move that gives control back is not forwarded, the one that takes it is
    if newState = .host then pure none
    else
      let relX ← ofExcept (int (x - c.hostScreenWidth.toInt))
      pure (some {
        type := .mouseMove
        timestamp := now
        payloadSize := 8
        payload := c.int32Bytes relX ++ c.int32Bytes y })

/-- The switch on the kind of an event that is not a move. -/
def otherPacket (now : UInt64) : EventData → Except (Stop ClientException) (Option EventPacket)
  | .keyPressed keyboard => (keyPacket c .keyPress now keyboard).map some
  | .keyReleased keyboard => (keyPacket c .keyRelease now keyboard).map some
  | .mousePressed mouse => (buttonPacket c .mouseButtonPress now mouse).map some
  | .mouseReleased mouse => (buttonPacket c .mouseButtonRelease now mouse).map some
  | _ => .ok none

/-- The branch for other events: "only forward if in CLIENT state". -/
def gatedPacket (now : UInt64) (data : EventData) :
    Eff ScreenEdgeSwitcher (Stop ClientException) (Option EventPacket) := do
  let edgeSwitcher ← get
  if edgeSwitcher.isClientControlled then ofExcept (otherPacket c now data)
  else pure none

/-- The packet to write for an event, if any. -/
def packetOf (now : UInt64) :
    EventData → Eff ScreenEdgeSwitcher (Stop ClientException) (Option EventPacket)
  | .mouseMoved mouse => movePacket c now mouse
  | data => gatedPacket c now data

/-- `hook_callback`. -/
def hookCallback (call : HookCall) : ClientM Unit :=
  match call.event with
  | none => ofExcept (clientError "Null event received in hook_callback")
  | some event => do
    let pkt? ← zoom ClientState.edgeSwitcher (fun sw s => { s with edgeSwitcher := sw })
      (packetOf c call.now event.data)
    match pkt? with
    | none => pure ()
    | some pkt => safeWrite c pkt.toBytes

end Callback

/-- The state in which `main` starts the hook. -/
def ClientState.fresh (c : Client) (hostScreenHeight edgeThreshold : Int32) : ClientState where
  edgeSwitcher :=
    (ScreenEdgeSwitcher.create c.hostScreenWidth hostScreenHeight).setEdgeThreshold edgeThreshold

/-! ### What a call does -/

/-- The switcher after an event. Only a move changes it. -/
def ScreenEdgeSwitcher.observe (s : ScreenEdgeSwitcher) : EventData → ScreenEdgeSwitcher
  | .mouseMoved mouse => s.moved mouse.x.toInt
  | _ => s

section Forwarded

variable (c : Client)

/-- The coordinates of a packet: relative to the right edge of the host's screen. -/
def Client.coords (mouse : MouseEventData) : List UInt8 :=
  c.int32Bytes (mouse.x.toInt - c.hostScreenWidth.toInt) ++ c.int32Bytes mouse.y.toInt

/-- The packet that an event is forwarded as. -/
def Client.forwarded (now : UInt64) : EventData → Option EventPacket
  | .keyPressed keyboard =>
    some ⟨.keyPress, now, 4, c.byteOrder.encode 4 keyboard.keycode.toNat⟩
  | .keyReleased keyboard =>
    some ⟨.keyRelease, now, 4, c.byteOrder.encode 4 keyboard.keycode.toNat⟩
  | .mousePressed mouse =>
    some ⟨.mouseButtonPress, now, 9, mouse.button.toUInt8 :: c.coords mouse⟩
  | .mouseReleased mouse =>
    some ⟨.mouseButtonRelease, now, 9, mouse.button.toUInt8 :: c.coords mouse⟩
  | .mouseMoved mouse => some ⟨.mouseMove, now, 8, c.coords mouse⟩
  | _ => none

variable {c : Client}

theorem Client.length_coords (mouse : MouseEventData) : (c.coords mouse).length = 8 := by
  rw [coords, List.length_append, int32Bytes, int32Bytes, ByteOrder.length_encode,
    ByteOrder.length_encode]

theorem Client.length_button_coords (b : UInt8) (mouse : MouseEventData) :
    (b :: c.coords mouse).length = 9 := by
  rw [List.length_cons, length_coords]

/-- The five kinds of events that are forwarded, each with its packet. -/
theorem Client.forwarded_eq_some {now : UInt64} {data : EventData} {pkt : EventPacket}
    (h : c.forwarded now data = some pkt) :
    (∃ keyboard, data = .keyPressed keyboard ∧
        pkt = ⟨.keyPress, now, 4, c.byteOrder.encode 4 keyboard.keycode.toNat⟩) ∨
      (∃ keyboard, data = .keyReleased keyboard ∧
        pkt = ⟨.keyRelease, now, 4, c.byteOrder.encode 4 keyboard.keycode.toNat⟩) ∨
      (∃ mouse, data = .mousePressed mouse ∧
        pkt = ⟨.mouseButtonPress, now, 9, mouse.button.toUInt8 :: c.coords mouse⟩) ∨
      (∃ mouse, data = .mouseReleased mouse ∧
        pkt = ⟨.mouseButtonRelease, now, 9, mouse.button.toUInt8 :: c.coords mouse⟩) ∨
      ∃ mouse, data = .mouseMoved mouse ∧ pkt = ⟨.mouseMove, now, 8, c.coords mouse⟩ := by
  rcases data with _ | _ | _ | k | k | _ | m | m | m | _ | _
  case keyPressed => exact .inl ⟨k, rfl, (Option.some.inj h).symm⟩
  case keyReleased => exact .inr (.inl ⟨k, rfl, (Option.some.inj h).symm⟩)
  case mousePressed => exact .inr (.inr (.inl ⟨m, rfl, (Option.some.inj h).symm⟩))
  case mouseReleased => exact .inr (.inr (.inr (.inl ⟨m, rfl, (Option.some.inj h).symm⟩)))
  case mouseMoved => exact .inr (.inr (.inr (.inr ⟨m, rfl, (Option.some.inj h).symm⟩)))
  all_goals cases h

/-- Forwarded packets declare the size of their payload. -/
theorem Client.sized_forwarded {now : UInt64} {data : EventData} {pkt : EventPacket}
    (h : c.forwarded now data = some pkt) : pkt.Sized := by
  have hkey : ∀ n, (4 : UInt32).toNat = (c.byteOrder.encode 4 n).length := fun n =>
    (ByteOrder.length_encode _ _ _).symm
  have hmove : ∀ mouse, (8 : UInt32).toNat = (c.coords mouse).length := fun mouse =>
    (length_coords mouse).symm
  have hbutton : ∀ (b : UInt8) mouse, (9 : UInt32).toNat = (b :: c.coords mouse).length :=
    fun b mouse => (length_button_coords b mouse).symm
  obtain ⟨k, rfl, rfl⟩ | ⟨k, rfl, rfl⟩ | ⟨m, rfl, rfl⟩ | ⟨m, rfl, rfl⟩ | ⟨m, rfl, rfl⟩ :=
    forwarded_eq_some h
  · exact hkey _
  · exact hkey _
  · exact hbutton _ _
  · exact hbutton _ _
  · exact hmove _

theorem Client.timestamp_forwarded {now : UInt64} {data : EventData} {pkt : EventPacket}
    (h : c.forwarded now data = some pkt) : pkt.timestamp = now := by
  obtain ⟨k, rfl, rfl⟩ | ⟨k, rfl, rfl⟩ | ⟨m, rfl, rfl⟩ | ⟨m, rfl, rfl⟩ | ⟨m, rfl, rfl⟩ :=
    forwarded_eq_some h
  all_goals rfl

/-- What the checks of the callback have established of an event that is forwarded. -/
def Client.Admits (c : Client) : EventData → Prop
  | .keyPressed keyboard | .keyReleased keyboard => keyboard.keycode ≠ 0
  | .mousePressed mouse | .mouseReleased mouse =>
    mouse.button.toUInt8 ≠ 0 ∧ InInt (mouse.x.toInt - c.hostScreenWidth.toInt) ∧
      0 ≤ mouse.x.toInt ∧ 0 ≤ mouse.y.toInt
  | .mouseMoved mouse =>
    InInt (mouse.x.toInt - c.hostScreenWidth.toInt) ∧ 0 ≤ mouse.x.toInt ∧ 0 ≤ mouse.y.toInt
  | _ => False

instance Client.decidableAdmits (c : Client) (data : EventData) : Decidable (c.Admits data) :=
  match data with
  | .keyPressed _ | .keyReleased _ => inferInstanceAs (Decidable (_ ≠ _))
  | .mousePressed _ | .mouseReleased _ => inferInstanceAs (Decidable (_ ∧ _ ∧ _ ∧ _))
  | .mouseMoved _ => inferInstanceAs (Decidable (_ ∧ _ ∧ _))
  | .hookEnabled | .hookDisabled | .keyTyped _ | .mouseClicked _ | .mouseDragged _
  | .mouseWheel _ => isFalse id

private theorem keyPacket_ok {type : SamenessEventType} {now : UInt64}
    {keyboard : KeyboardEventData} {pkt : EventPacket}
    (h : keyPacket c type now keyboard = .ok pkt) :
    pkt = ⟨type, now, 4, c.byteOrder.encode 4 keyboard.keycode.toNat⟩ ∧ keyboard.keycode ≠ 0 := by
  obtain ⟨hcode, h⟩ := of_ite_error h
  refine ⟨(Except.ok.inj h).symm, fun hzero => hcode ?_⟩
  rw [hzero]
  rfl

private theorem buttonPacket_ok {type : SamenessEventType} {now : UInt64}
    {mouse : MouseEventData} {pkt : EventPacket}
    (h : buttonPacket c type now mouse = .ok pkt) :
    pkt = ⟨type, now, 9, mouse.button.toUInt8 :: c.coords mouse⟩ ∧
      mouse.button.toUInt8 ≠ 0 ∧ InInt (mouse.x.toInt - c.hostScreenWidth.toInt) ∧
        0 ≤ mouse.x.toInt ∧ 0 ≤ mouse.y.toInt := by
  obtain ⟨hbutton, h⟩ := of_ite_error h
  -- only the first difference goes into the packet; the second is for the check
  obtain ⟨x, hx, h⟩ := bind_eq_ok h
  obtain ⟨hin, rfl⟩ := int_eq_ok_iff.mp hx
  obtain ⟨leftmost, hleft, h⟩ := bind_eq_ok h
  obtain ⟨-, rfl⟩ := int_eq_ok_iff.mp hleft
  obtain ⟨hvalid, h⟩ := of_ite_error h
  rw [not_or] at hvalid
  exact ⟨(Except.ok.inj h).symm, hbutton, hin, by omega, by omega⟩

private theorem otherPacket_ok {now : UInt64} {data : EventData} {r : Option EventPacket}
    (hmove : ∀ mouse, data ≠ .mouseMoved mouse) (h : otherPacket c now data = .ok r) :
    r = c.forwarded now data ∧ ∀ pkt, r = some pkt → c.Admits data := by
  have hmap : ∀ {x : Except (Stop ClientException) EventPacket}, x.map some = .ok r →
      ∃ pkt, x = .ok pkt ∧ r = some pkt := by
    rintro (_ | pkt) hx
    · cases hx
    · exact ⟨pkt, rfl, (Except.ok.inj hx).symm⟩
  rcases data with _ | _ | _ | k | k | _ | m | m | m | _ | _
  case keyPressed | keyReleased =>
    obtain ⟨pkt, hpkt, rfl⟩ := hmap h
    obtain ⟨rfl, hcode⟩ := keyPacket_ok hpkt
    exact ⟨rfl, fun _ _ => hcode⟩
  case mousePressed | mouseReleased =>
    obtain ⟨pkt, hpkt, rfl⟩ := hmap h
    obtain ⟨rfl, hchecks⟩ := buttonPacket_ok hpkt
    exact ⟨rfl, fun _ _ => hchecks⟩
  case mouseMoved => exact absurd rfl (hmove m)
  all_goals
    obtain rfl := Except.ok.inj h
    exact ⟨rfl, fun _ hsome => by cases hsome⟩

/-- The packet that a call writes when it returns: the client must have control after it. -/
def Client.written (c : Client) (sw : ScreenEdgeSwitcher) (now : UInt64) (data : EventData) :
    Option EventPacket :=
  if (sw.observe data).state = .client then c.forwarded now data else none

private theorem movePacket_ok {now : UInt64} {mouse : MouseEventData} {sw sw' : ScreenEdgeSwitcher}
    {r : Option EventPacket} (h : exec (movePacket c now mouse) sw = (.ok r, sw')) :
    sw' = sw.observe (.mouseMoved mouse) ∧ r = c.written sw now (.mouseMoved mouse) ∧
      ∀ pkt, r = some pkt → c.Admits (.mouseMoved mouse) := by
  obtain ⟨hvalid, h⟩ := exec_of_ite_error h
  rw [not_or] at hvalid
  obtain ⟨newState, sw₁, hupdate, h⟩ := exec_bind_eq_ok h
  obtain ⟨rfl, hmoved⟩ := ScreenEdgeSwitcher.exec_update_ok hupdate
  have hobs : sw.observe (.mouseMoved mouse) = sw₁ := hmoved.symm
  rw [Client.written, hobs]
  rw [exec_ite] at h
  -- the gate of the source is "not the host", that of `written` "the client"
  split_ifs at h with hhost
  · obtain ⟨hnone, rfl⟩ := Prod.mk.inj h
    have hclient : sw₁.state ≠ .client := by
      rw [hhost]
      decide
    obtain rfl := Except.ok.inj hnone
    exact ⟨rfl, by rw [if_neg hclient], fun _ hsome => by cases hsome⟩
  · have hclient : sw₁.state = .client := by
      rcases hstate : sw₁.state with _ | _
      · exact absurd hstate hhost
      · rfl
    obtain ⟨relX, sw₂, hrel, h⟩ := exec_bind_eq_ok h
    rw [exec_ofExcept] at hrel
    obtain ⟨hint, rfl⟩ := Prod.mk.inj hrel
    obtain ⟨hin, rfl⟩ := int_eq_ok_iff.mp hint
    obtain ⟨hsome, rfl⟩ := Prod.mk.inj h
    obtain rfl := Except.ok.inj hsome
    refine ⟨rfl, by rw [if_pos hclient, Client.forwarded, Client.coords], fun _ _ => ?_⟩
    exact ⟨hin, by omega, by omega⟩

/-- The branch for other events leaves the switcher alone, and asks it who has control. -/
theorem exec_gatedPacket (now : UInt64) (data : EventData) (sw : ScreenEdgeSwitcher) :
    exec (gatedPacket c now data) sw =
      (if sw.state = .client then otherPacket c now data else .ok none, sw) := by
  rw [gatedPacket, exec_bind_ok (exec_get sw), exec_ite, exec_ofExcept, exec_pure]
  simp only [ScreenEdgeSwitcher.isClientControlled, decide_eq_true_iff]
  split_ifs
  · rfl
  · rfl

private theorem gatedPacket_ok {now : UInt64} {data : EventData} {sw sw' : ScreenEdgeSwitcher}
    {r : Option EventPacket} (hmove : ∀ mouse, data ≠ .mouseMoved mouse)
    (h : exec (gatedPacket c now data) sw = (.ok r, sw')) :
    sw' = sw.observe data ∧ r = c.written sw now data ∧
      ∀ pkt, r = some pkt → c.Admits data := by
  have hobs : sw.observe data = sw := by
    rcases data with _ | _ | _ | _ | _ | _ | _ | _ | m | _ | _
    case mouseMoved => exact absurd rfl (hmove m)
    all_goals rfl
  rw [exec_gatedPacket] at h
  obtain ⟨hchoice, rfl⟩ := Prod.mk.inj h
  rw [Client.written, hobs]
  split_ifs at hchoice with hclient
  · obtain ⟨hr, hadmits⟩ := otherPacket_ok hmove hchoice
    exact ⟨rfl, by rw [if_pos hclient, hr], hadmits⟩
  · obtain rfl := Except.ok.inj hchoice
    exact ⟨rfl, by rw [if_neg hclient], fun _ hsome => by cases hsome⟩

/-- **What is written for an event.** Where the choice of the packet returns, the event has
moved the switcher, and is forwarded exactly if the client then has control; if it is, it has
passed the checks. -/
theorem exec_packetOf_ok {now : UInt64} {data : EventData} {sw sw' : ScreenEdgeSwitcher}
    {r : Option EventPacket} (h : exec (packetOf c now data) sw = (.ok r, sw')) :
    sw' = sw.observe data ∧ r = c.written sw now data ∧
      ∀ pkt, r = some pkt → c.Admits data := by
  rcases data with _ | _ | _ | _ | _ | _ | _ | _ | _ | _ | _
  case mouseMoved => exact movePacket_ok h
  all_goals exact gatedPacket_ok nofun h

theorem exec_safeWrite (data : List UInt8) (s : ClientState) :
    exec (safeWrite c data) s =
      match c.write s.writes with
      | none => (.ok (), { s with writes := s.writes + 1, sent := s.sent ++ [data] })
      | some what =>
        (.error (.thrown (.networkError s!"Network write failed: {what}")),
          { s with writes := s.writes + 1 }) := by
  rw [safeWrite, exec_bind_ok (exec_get s), exec_bind_ok (exec_modify _ s)]
  rcases c.write s.writes with _ | what
  · rfl
  · rfl

/-- A call with an event chooses the packet, and writes it if there is one. -/
theorem exec_hookCallback_some (now : UInt64) (event : Event) (s : ClientState) :
    exec (hookCallback c ⟨now, some event⟩) s =
      match exec (packetOf c now event.data) s.edgeSwitcher with
      | (.ok none, sw) => (.ok (), { s with edgeSwitcher := sw })
      | (.ok (some pkt), sw) => exec (safeWrite c pkt.toBytes) { s with edgeSwitcher := sw }
      | (.error stop, sw) => (.error stop, { s with edgeSwitcher := sw }) := by
  rw [hookCallback, exec_bind, exec_zoom]
  rcases exec (packetOf c now event.data) s.edgeSwitcher with ⟨stop | _ | pkt, sw⟩
  · rfl
  · rfl
  · rfl

/-- **What a call that returns does**: its event is not null, the event has moved the
switcher, and the packet it is forwarded as, if any, has been written. -/
theorem exec_hookCallback_ok {call : HookCall} {s s' : ClientState}
    (h : exec (hookCallback c call) s = (.ok (), s')) :
    ∃ event, call.event = some event ∧
      s'.edgeSwitcher = s.edgeSwitcher.observe event.data ∧
      s'.sent = s.sent ++
        ((c.written s.edgeSwitcher call.now event.data).map EventPacket.toBytes).toList ∧
      ∀ pkt, c.written s.edgeSwitcher call.now event.data = some pkt → c.Admits event.data := by
  rw [hookCallback] at h
  rcases hev : call.event with _ | event
  · rw [hev] at h
    cases h
  rw [hev] at h
  obtain ⟨pkt?, s₁, hzoom, h⟩ := exec_bind_eq_ok h
  obtain ⟨sw, hpkt, rfl⟩ := exec_zoom_eq_ok hzoom
  obtain ⟨rfl, rfl, hadmits⟩ := exec_packetOf_ok hpkt
  refine ⟨event, rfl, ?_⟩
  rcases hwritten : c.written s.edgeSwitcher call.now event.data with _ | pkt
  · simp only [hwritten] at h
    cases h
    exact ⟨rfl, (List.append_nil _).symm, fun _ hsome => by cases hsome⟩
  · simp only [hwritten, exec_safeWrite] at h
    rcases hnet : c.write s.writes with _ | what
    · simp only [hnet] at h
      cases h
      exact ⟨rfl, rfl, fun _ _ => hadmits pkt hwritten⟩
    · simp only [hnet] at h
      cases h

/-- A call that does not return has written nothing. -/
theorem sent_of_exec_hookCallback_error {call : HookCall} {s s' : ClientState}
    {stop : Stop ClientException} (h : exec (hookCallback c call) s = (.error stop, s')) :
    s'.sent = s.sent := by
  obtain ⟨now, _ | event⟩ := call
  · obtain ⟨-, rfl⟩ := Prod.mk.inj h
    rfl
  rw [exec_hookCallback_some] at h
  rcases hpacket : exec (packetOf c now event.data) s.edgeSwitcher with ⟨stop' | _ | pkt, sw⟩
  · rw [hpacket] at h
    obtain ⟨-, rfl⟩ := Prod.mk.inj h
    rfl
  · rw [hpacket] at h
    cases h
  · simp only [hpacket, exec_safeWrite] at h
    rcases hnet : c.write s.writes with _ | what
    · simp only [hnet] at h
      cases h
    · simp only [hnet] at h
      obtain ⟨-, rfl⟩ := Prod.mk.inj h
      rfl

/-- A call that has written something had an event to forward, which passed the checks, and
control with the client. -/
theorem exec_hookCallback_wrote {call : HookCall} {s s' : ClientState} {bytes : List UInt8}
    (h : exec (hookCallback c call) s = (.ok (), s')) (hsent : s'.sent = s.sent ++ [bytes]) :
    ∃ event pkt, call.event = some event ∧ s'.edgeSwitcher.state = .client ∧
      c.forwarded call.now event.data = some pkt ∧ bytes = pkt.toBytes ∧
        c.Admits event.data := by
  obtain ⟨event, hev, hsw, hwritten, hadmits⟩ := exec_hookCallback_ok h
  have hbytes := List.append_cancel_left (hsent.symm.trans hwritten)
  rcases hpkt : c.written s.edgeSwitcher call.now event.data with _ | pkt
  · rw [hpkt] at hbytes
    exact absurd hbytes (List.cons_ne_nil _ _)
  · have hchecks := hadmits pkt hpkt
    rw [hpkt] at hbytes
    rw [Client.written, ← hsw] at hpkt
    split_ifs at hpkt with hclient
    exact ⟨event, pkt, hev, hclient, hpkt, List.singleton_inj.mp hbytes, hchecks⟩

end Forwarded

end Sameness
