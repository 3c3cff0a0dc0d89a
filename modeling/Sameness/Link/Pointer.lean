import Sameness.Link.MacOSButtons
import Sameness.Link.WindowsButtons
import Mathlib.Tactic.Linarith

/-!
# The pointer on the server's screen

A forwarded move carries the position on the host less the host's width, so its horizontal
coordinate is negative, and no platform adds back the width it was taken from: the client's is
not known to the server. macOS adds the width of its own screen and halves the sum, Windows
scales the coordinate as it is, and the fallback narrows it to 16 bits.

`LandsOn` asks that the one event posted for a move point at the server's screen. `Reaches` is
the exact range of the coordinates that do (`landsOn_iff`). On Windows that leaves fractions of
a point around the left edge.
-/

namespace Sameness

open Bytes Cpp Eff Uiohook

/-- The server's screen is `sw` points wide and `sh` points high. The fallback does not ask for
its size. -/
def Platform.HasScreen (P : Platform) (sw sh : ℤ) : Prop :=
  match P with
  | macOS os => os.screenWidth = sw ∧ os.screenHeight = sh
  | windows os => os.cxScreen = sw ∧ os.cyScreen = sh
  | uiohook => True

/-- The event points at the screen. Windows takes the coordinates in units of which every
screen has 65536 in either direction. -/
def PointsInside (sw sh : ℤ) : OsEvent → Prop
  | .cgMouse _ x y _ => (0 ≤ x ∧ x < sw) ∧ 0 ≤ y ∧ y < sh
  | .mouseInput dx dy _ => (0 ≤ dx ∧ dx ≤ 65535) ∧ 0 ≤ dy ∧ dy ≤ 65535
  | .uiohook ⟨_, _, .mouseMoved mouse⟩ =>
    (0 ≤ mouse.x.toInt ∧ mouse.x.toInt < sw) ∧ 0 ≤ mouse.y.toInt ∧ mouse.y.toInt < sh
  | _ => False

/-- The server, in the state `t`, posts one event for the bytes, and it points at the screen. -/
def LandsOn (o : ByteOrder) (P : Platform) (sw sh : ℤ) (t : ServerState) (bytes : List UInt8) :
    Prop :=
  ∃ event flag, (exec (handleData o P bytes) t).2.desktop.posted =
    t.desktop.posted ++ [⟨event, flag⟩] ∧ PointsInside sw sh event

/-- The coordinates of a packet that are converted to a point of the screen. -/
def Platform.Reaches (P : Platform) (sw sh x y : ℤ) : Prop :=
  match P with
  | macOS _ => (-sw ≤ x ∧ x < sw) ∧ 0 ≤ y ∧ y < sh
  | windows _ =>
    (-sw < x * 65535 ∧ x * 65535 < 65536 * sw) ∧ -sh < y * 65535 ∧ y * 65535 < 65536 * sh
  | uiohook =>
    (0 ≤ x.bmod (2 ^ 16) ∧ x.bmod (2 ^ 16) < sw) ∧ 0 ≤ y.bmod (2 ^ 16) ∧ y.bmod (2 ^ 16) < sh

instance (P : Platform) (sw sh x y : ℤ) : Decidable (P.Reaches sw sh x y) :=
  match P with
  | .macOS _ | .windows _ | .uiohook => inferInstanceAs (Decidable (_ ∧ _))

/-! ### The conversions -/

private theorem screenX_mem_iff {os : MacOS} {sw x : ℤ} (hsw : os.screenWidth = sw) :
    (0 ≤ MacOSEventInjector.screenX os x ∧ MacOSEventInjector.screenX os x < sw) ↔
      -sw ≤ x ∧ x < sw := by
  rw [screenX_eq, hsw]
  constructor
  · rintro ⟨h0, hlt⟩
    have h1 : (-sw : ℚ) ≤ x := by linarith
    have h2 : (x : ℚ) < sw := by linarith
    exact ⟨by exact_mod_cast h1, by exact_mod_cast h2⟩
  · rintro ⟨h1, h2⟩
    have h1' : (-sw : ℚ) ≤ x := by exact_mod_cast h1
    have h2' : (x : ℚ) < sw := by exact_mod_cast h2
    exact ⟨by linarith, by linarith⟩

private theorem absolute_mem_iff {coord metric : ℤ} (h : 0 < metric) :
    (∃ z, WindowsEventInjector.absolute coord metric = .ok z ∧ 0 ≤ z ∧ z ≤ 65535) ↔
      -metric < coord * 65535 ∧ coord * 65535 < 65536 * metric := by
  have hpos : (0 : ℚ) < metric := Int.cast_pos.mpr h
  have hquot : (coord : ℚ) * (65535 / metric) = coord * 65535 / metric := mul_div_assoc' _ _ _
  rw [WindowsEventInjector.absolute, if_neg h.ne', truncate_mem_iff (by decide) (by decide), hquot,
    lt_div_iff₀ hpos, div_lt_iff₀ hpos]
  norm_num
  norm_cast

/-! ### Moves -/

section Moves

variable {P : Platform}

/-- A move is one event. -/
private theorem eq_singleton_of_moveEvents {time : UInt64} {x y : ℤ} {evs : List OsEvent}
    (h : P.moveEvents time x y = .ok evs) : ∃ event, evs = [event] := by
  cases P with
  | windows os =>
    obtain ⟨dx, -, h⟩ := bind_eq_ok h
    obtain ⟨dy, -, h⟩ := bind_eq_ok h
    exact ⟨_, (Except.ok.inj h).symm⟩
  | macOS os | uiohook => exact ⟨_, (Except.ok.inj h).symm⟩

/-- The coordinates for which the event of the move points at the screen. -/
private theorem moveEvents_inside_iff {sw sh : ℤ} (hsw : 0 < sw) (hsh : 0 < sh)
    (hscreen : P.HasScreen sw sh) {time : UInt64} {x y : ℤ} :
    (∃ event, P.moveEvents time x y = .ok [event] ∧ PointsInside sw sh event) ↔
      P.Reaches sw sh x y := by
  cases P with
  | macOS os =>
    obtain ⟨hwidth, -⟩ := hscreen
    rw [Platform.Reaches, ← screenX_mem_iff hwidth]
    have hy : (0 ≤ y ∧ y < sh) ↔ 0 ≤ MacOSEventInjector.screenY os y ∧
        MacOSEventInjector.screenY os y < sh := by
      rw [screenY_eq]
      norm_cast
    rw [hy]
    constructor
    · rintro ⟨event, hev, hinside⟩
      cases Except.ok.inj hev
      exact hinside
    · exact fun hinside => ⟨_, rfl, hinside⟩
  | windows os =>
    obtain ⟨rfl, rfl⟩ := hscreen
    rw [Platform.Reaches, ← absolute_mem_iff hsw, ← absolute_mem_iff hsh]
    constructor
    · rintro ⟨event, hev, hinside⟩
      obtain ⟨dx, hdx, hev⟩ := bind_eq_ok hev
      obtain ⟨dy, hdy, hev⟩ := bind_eq_ok hev
      cases Except.ok.inj hev
      exact ⟨⟨dx, hdx, hinside.1⟩, dy, hdy, hinside.2⟩
    · rintro ⟨⟨dx, hdx, hx⟩, dy, hdy, hy⟩
      refine ⟨.mouseInput dx dy WindowsEventInjector.moveFlags, ?_, hx, hy⟩
      rw [Platform.moveEvents, hdx, hdy]
      rfl
  | uiohook =>
    have hnarrow : ∀ z, (Int16.ofInt z).toInt = z.bmod (2 ^ 16) := fun _ => Int16.toInt_ofInt
    rw [Platform.Reaches, ← hnarrow, ← hnarrow]
    constructor
    · rintro ⟨event, hev, hinside⟩
      cases Except.ok.inj hev
      exact hinside
    · exact fun hinside => ⟨_, rfl, hinside⟩

/-- Posting one event posts it and nothing else. -/
private theorem posted_singleton (P : Platform) (event : OsEvent) (d : Desktop) :
    ∃ flag, (P.posted [event] d).posted = d.posted ++ [⟨event, flag⟩] := by
  cases P <;> exact ⟨_, rfl⟩

/-- The server's answer to a packet of a move. -/
private theorem landsOn_iff_moveEvents {o : ByteOrder} {sw sh : ℤ} {t : ServerState}
    {pkt : EventPacket} (hsized : pkt.Sized) (hmove : handler? pkt.type = some .injectMouseMove)
    (hlen : 8 ≤ pkt.payload.length) (ht : P.Takes t.desktop.calls .injectMouseMove) :
    LandsOn o P sw sh t pkt.toBytes ↔
      ∃ event, P.moveEvents pkt.timestamp (Platform.int32 o 0 pkt) (Platform.int32 o 4 pkt) =
        .ok [event] ∧ PointsInside sw sh event := by
  have hmin : P.minPayload .injectMouseMove ≤ pkt.payload.length := by
    cases P <;> exact hlen
  rw [← Platform.events_injectMouseMove]
  cases hev : P.events o .injectMouseMove pkt with
  | error stop =>
    -- nothing is posted
    refine iff_of_false ?_ fun ⟨event, hevent, _⟩ => by cases hevent
    rintro ⟨event, flag, hposted, -⟩
    rw [exec_handleData_toBytes hsized, exec_dispatch, hmove] at hposted
    simp only [Platform.exec_inject, if_neg (Nat.not_lt.mpr hmin), hev] at hposted
    exact List.cons_ne_nil _ _ (List.append_right_eq_self.mp hposted.symm)
  | ok evs =>
    rw [LandsOn, posted_of_packet hsized hmove hmin hev ht]
    rw [Platform.events_injectMouseMove] at hev
    obtain ⟨event, rfl⟩ := eq_singleton_of_moveEvents hev
    obtain ⟨flag, hflag⟩ := posted_singleton P event t.desktop
    rw [hflag]
    constructor
    · rintro ⟨event', flag', hposted, hinside⟩
      cases List.append_cancel_left hposted
      exact ⟨event, rfl, hinside⟩
    · rintro ⟨event', hevent, hinside⟩
      cases Except.ok.inj hevent
      exact ⟨event, flag, rfl, hinside⟩

end Moves

/-- The pointer lands on the server's screen for the forwarded packets whose coordinates, as
the server reads them, reach it. -/
private theorem landsOn_iff_of_forwarded {c : Client} {now : UInt64} {mouse : MouseEventData}
    {pkt : EventPacket} (hpkt : c.forwarded now (.mouseMoved mouse) = some pkt) (o : ByteOrder)
    {P : Platform} {sw sh : ℤ} (hsw : 0 < sw) (hsh : 0 < sh) (hscreen : P.HasScreen sw sh)
    {t : ServerState} (ht : P.Takes t.desktop.calls .injectMouseMove) :
    LandsOn o P sw sh t pkt.toBytes ↔
      P.Reaches sw sh (received c o (mouse.x.toInt - c.hostScreenWidth.toInt))
        (received c o mouse.y.toInt) := by
  have hsized := Client.sized_forwarded hpkt
  obtain rfl := Option.some.inj hpkt
  have hpayload : (⟨.mouseMove, now, 8, c.coords mouse⟩ : EventPacket).payload = c.coords mouse :=
    rfl
  obtain ⟨hx, hy⟩ := int32_coords (o := o) hpayload
  rw [landsOn_iff_moveEvents hsized rfl (Client.length_coords mouse).ge ht, hx, hy,
    moveEvents_inside_iff hsw hsh hscreen]

/-- **When the pointer lands on the server's screen.** -/
theorem landsOn_iff {c : Client} {s : ClientState} {call : HookCall} {event : Event}
    {bytes : List UInt8} (h : Forwards c s call event bytes) {mouse : MouseEventData}
    (hmove : event.data = .mouseMoved mouse) (o : ByteOrder) {P : Platform} {sw sh : ℤ}
    (hsw : 0 < sw) (hsh : 0 < sh) (hscreen : P.HasScreen sw sh) {t : ServerState}
    (ht : P.Takes t.desktop.calls .injectMouseMove) :
    LandsOn o P sw sh t bytes ↔
      P.Reaches sw sh (received c o (mouse.x.toInt - c.hostScreenWidth.toInt))
        (received c o mouse.y.toInt) := by
  obtain ⟨pkt, hpkt, rfl⟩ := h.packet
  rw [hmove] at hpkt
  exact landsOn_iff_of_forwarded hpkt o hsw hsh hscreen ht

/-- A move to the middle of the host's screen, and the bytes of its packet. -/
def middleMove : Event := ⟨0, 0, .mouseMoved { button := 0, clicks := 0, x := 960, y := 500 }⟩

def middleMoveBytes : List UInt8 :=
  EventPacket.toBytes ⟨.mouseMove, 0, 8, [64, 252, 255, 255, 244, 1, 0, 0]⟩

theorem forwards_middleMove :
    Forwards defaultClient crossed ⟨0, some middleMove⟩ middleMove middleMoveBytes :=
  ⟨rfl, by decide, by decide⟩

/-- On a Mac that is wide enough the pointer lands on the screen. -/
theorem landsOn_middleMove : LandsOn .little (.macOS iMac) 2560 1600 {} middleMoveBytes :=
  have hscreen : (Platform.macOS iMac).HasScreen 2560 1600 := ⟨rfl, rfl⟩
  (landsOn_iff forwards_middleMove rfl .little (by decide) (by decide) hscreen rfl).mpr
    (by decide)

/-- A Windows machine is asked for a point left of its screen. -/
theorem not_landsOn_middleMove :
    Forwards defaultClient crossed ⟨0, some middleMove⟩ middleMove middleMoveBytes ∧
      ¬LandsOn .little (.windows windowsPC) 1920 1080 {} middleMoveBytes := by
  refine ⟨forwards_middleMove, fun hlands => ?_⟩
  have hpkt : defaultClient.forwarded 0 middleMove.data =
      some ⟨.mouseMove, 0, 8, [64, 252, 255, 255, 244, 1, 0, 0]⟩ := by decide
  have hscreen : (Platform.windows windowsPC).HasScreen 1920 1080 := ⟨rfl, rfl⟩
  have hreaches :=
    (landsOn_iff_of_forwarded hpkt .little (by decide) (by decide) hscreen rfl).mp hlands
  exact absurd hreaches (by decide)

end Sameness
