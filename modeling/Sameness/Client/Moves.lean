import Sameness.Client.EdgeZones
import Sameness.Client.Forwarding

/-!
# Mouse moves

What the hook callback does with a mouse move, in every case: it refuses negative coordinates,
it overflows where the switcher or the packet's coordinate does, and otherwise it moves the
switcher and writes the packet if the client then has control (`exec_packetOf_of_refused`,
`exec_packetOf_of_fits`, `exec_packetOf_of_not_fits`, `exec_packetOf_of_not_inInt`).

The callback and the switcher check the same coordinates by different rules. The switcher has a
band of five columns beyond the left edge, none of which the callback lets through
(`hookCallback_move`). And it takes any threshold, but one that is not positive leaves no column
of the screen in the right zone (`switchesBothWays_iff`).
-/

namespace Sameness

open Cpp Eff Uiohook

/-! ### What a move does -/

section Move

variable {c : Client} {now : UInt64} {mouse : MouseEventData} {sw : ScreenEdgeSwitcher}

/-- A move at negative coordinates is refused. -/
theorem exec_packetOf_of_refused (h : mouse.x.toInt < 0 ∨ mouse.y.toInt < 0) :
    exec (packetOf c now (.mouseMoved mouse)) sw =
      (clientError "Invalid mouse coordinates", sw) := by
  rw [packetOf, movePacket, exec_ite, exec_ofExcept, if_pos h]

/-- Past the check, the call goes on with `update`. -/
private theorem exec_packetOf_of_valid (hx : 0 ≤ mouse.x.toInt) (hy : 0 ≤ mouse.y.toInt) :
    exec (packetOf c now (.mouseMoved mouse)) sw =
      match exec (ScreenEdgeSwitcher.update mouse.x.toInt mouse.y.toInt : Eff _ _ _) sw with
      | (.ok newState, sw') =>
        if newState = .host then (.ok none, sw')
        else ((int (mouse.x.toInt - c.hostScreenWidth.toInt)).map fun relX =>
          some ⟨.mouseMove, now, 8, c.int32Bytes relX ++ c.int32Bytes mouse.y.toInt⟩, sw')
      | (.error stop, sw') => (.error stop, sw') := by
  have hvalid : ¬(mouse.x.toInt < 0 ∨ mouse.y.toInt < 0) := by omega
  rw [packetOf, movePacket, exec_ite, if_neg hvalid, exec_bind]
  rcases exec (ScreenEdgeSwitcher.update mouse.x.toInt mouse.y.toInt : Eff _ _ _) sw with
    ⟨stop | newState, sw'⟩
  · rfl
  · change exec (if newState = .host then _ else _) sw' = _
    rw [exec_ite]
    refine ite_congr rfl (fun _ => rfl) fun _ => ?_
    rw [exec_bind, exec_ofExcept]
    rcases int (mouse.x.toInt - c.hostScreenWidth.toInt) with stop | relX
    · rfl
    · rfl

/-- Where nothing overflows, the switcher is moved, and the packet is chosen if the client then
has control. -/
theorem exec_packetOf_of_fits (hx : 0 ≤ mouse.x.toInt) (hy : 0 ≤ mouse.y.toInt)
    (hfits : sw.Fits mouse.x.toInt)
    (hrel : (sw.moved mouse.x.toInt).state = .client →
      InInt (mouse.x.toInt - c.hostScreenWidth.toInt)) :
    exec (packetOf c now (.mouseMoved mouse)) sw =
      (.ok (c.written sw now (.mouseMoved mouse)), sw.moved mouse.x.toInt) := by
  have hobs : sw.observe (.mouseMoved mouse) = sw.moved mouse.x.toInt := rfl
  rw [exec_packetOf_of_valid hx hy, ScreenEdgeSwitcher.exec_update_of_fits hfits, Client.written,
    hobs]
  rcases hstate : (sw.moved mouse.x.toInt).state with _ | _
  · rfl
  · rw [int_of_inInt (hrel hstate)]
    rfl

/-- The switcher's arithmetic overflows before it has changed anything. -/
theorem exec_packetOf_of_not_fits (hx : 0 ≤ mouse.x.toInt) (hy : 0 ≤ mouse.y.toInt)
    (hfits : ¬sw.Fits mouse.x.toInt) :
    ∃ z, exec (packetOf c now (.mouseMoved mouse)) sw =
      (.error (.undefined (.signedOverflow z)), sw) := by
  obtain ⟨z, hz⟩ : ∃ z, exec (ScreenEdgeSwitcher.update mouse.x.toInt mouse.y.toInt :
      Eff _ (Stop ClientException) _) sw = (.error (.undefined (.signedOverflow z)), sw) :=
    ScreenEdgeSwitcher.exec_update_of_not_fits hfits _
  exact ⟨z, by rw [exec_packetOf_of_valid hx hy, hz]⟩

/-- The packet's coordinate overflows after control has come to the client, or stayed there. -/
theorem exec_packetOf_of_not_inInt (hx : 0 ≤ mouse.x.toInt) (hy : 0 ≤ mouse.y.toInt)
    (hfits : sw.Fits mouse.x.toInt) (hclient : (sw.moved mouse.x.toInt).state = .client)
    (hrel : ¬InInt (mouse.x.toInt - c.hostScreenWidth.toInt)) :
    exec (packetOf c now (.mouseMoved mouse)) sw =
      (.error (.undefined (.signedOverflow (mouse.x.toInt - c.hostScreenWidth.toInt))),
        sw.moved mouse.x.toInt) := by
  rw [exec_packetOf_of_valid hx hy, ScreenEdgeSwitcher.exec_update_of_fits hfits, hclient,
    int_of_not_inInt hrel]
  rfl

end Move

section Call

variable {c : Client} {s : ClientState} {call : HookCall} {event : Event} {mouse : MouseEventData}

/-- The call chooses the packet of the move. -/
private theorem exec_hookCallback_move (hev : call.event = some event)
    (hdata : event.data = .mouseMoved mouse) :
    exec (hookCallback c call) s =
      match exec (packetOf c call.now (.mouseMoved mouse)) s.edgeSwitcher with
      | (.ok none, sw) => (.ok (), { s with edgeSwitcher := sw })
      | (.ok (some pkt), sw) => exec (safeWrite c pkt.toBytes) { s with edgeSwitcher := sw }
      | (.error stop, sw) => (.error stop, { s with edgeSwitcher := sw }) := by
  obtain ⟨now, event'⟩ := call
  obtain rfl : event' = some event := hev
  rw [← hdata]
  exact exec_hookCallback_some now event s

/-- A refused move leaves everything as it was. -/
theorem exec_hookCallback_of_refused (hev : call.event = some event)
    (hdata : event.data = .mouseMoved mouse) (h : mouse.x.toInt < 0 ∨ mouse.y.toInt < 0) :
    exec (hookCallback c call) s = (clientError "Invalid mouse coordinates", s) := by
  rw [exec_hookCallback_move hev hdata, exec_packetOf_of_refused h]
  rfl

/-- Where nothing overflows, the switcher is moved, and only the write can go wrong. -/
theorem exec_hookCallback_of_fits (hev : call.event = some event)
    (hdata : event.data = .mouseMoved mouse) (hx : 0 ≤ mouse.x.toInt) (hy : 0 ≤ mouse.y.toInt)
    (hfits : s.edgeSwitcher.Fits mouse.x.toInt)
    (hrel : (s.edgeSwitcher.moved mouse.x.toInt).state = .client →
      InInt (mouse.x.toInt - c.hostScreenWidth.toInt)) :
    Defined (exec (hookCallback c call) s).1 ∧
      (exec (hookCallback c call) s).2.edgeSwitcher = s.edgeSwitcher.moved mouse.x.toInt ∧
      (c.write s.writes = none → (exec (hookCallback c call) s).1 = .ok ()) := by
  rw [exec_hookCallback_move hev hdata, exec_packetOf_of_fits hx hy hfits hrel]
  rcases c.written s.edgeSwitcher call.now (.mouseMoved mouse) with _ | pkt
  · exact ⟨defined_ok _, rfl, fun _ => rfl⟩
  · simp only [exec_safeWrite]
    rcases c.write s.writes with _ | what
    · exact ⟨defined_ok _, rfl, fun _ => rfl⟩
    · exact ⟨defined_thrown _, rfl, nofun⟩

end Call

/-- The switcher is the one that `main` sets up, in some state. -/
def ClientState.Configured (s : ClientState) (c : Client) (threshold : Int32) : Prop :=
  s.edgeSwitcher.hostWidth = c.hostScreenWidth ∧ s.edgeSwitcher.edgeThreshold = threshold

theorem ClientState.configured_fresh (c : Client) (height threshold : Int32) :
    (fresh c height threshold).Configured c threshold := ⟨rfl, rfl⟩

/-! ### Positions near an edge -/

/-- The callback returns from a move, and leaves the control state that `update` leaves. -/
def AdmitsMove (c : Client) (s : ClientState) (call : HookCall) (mouse : MouseEventData) : Prop :=
  ∃ s', exec (hookCallback c call) s = (.ok (), s') ∧
    s'.edgeSwitcher.state =
      (ScreenEdgeSwitcher.updateStep (mouse.x.toInt, mouse.y.toInt) s.edgeSwitcher).2.state

/-- The callback admits every move to a position near an edge. -/
def AdmitsEdges (c : Client) (s : ClientState) : Prop :=
  ∀ call event mouse, call.event = some event → event.data = .mouseMoved mouse →
    (s.edgeSwitcher.nearEdge mouse.x.toInt : Except (Stop Empty) Bool) = .ok true →
      AdmitsMove c s call mouse

/-- **The moves that are admitted.** A move to a position of no negative coordinate is treated
as the switcher treats it, near an edge or not; any other is refused, also in the band that the
switcher has for it, and leaves everything as it was. -/
theorem hookCallback_move {c : Client} {s : ClientState} {threshold : Int32}
    (hs : s.Configured c threshold) (hT : 0 ≤ threshold.toInt)
    (hzones : 2 * threshold.toInt < c.hostScreenWidth.toInt) (hwrite : c.write s.writes = none)
    {call : HookCall} {event : Event} {mouse : MouseEventData} (hev : call.event = some event)
    (hdata : event.data = .mouseMoved mouse) :
    (0 ≤ mouse.x.toInt ∧ 0 ≤ mouse.y.toInt → AdmitsMove c s call mouse) ∧
      (mouse.x.toInt < 0 ∨ mouse.y.toInt < 0 →
        exec (hookCallback c call) s =
          (.error (.thrown (.runtimeError "Invalid mouse coordinates")), s)) := by
  obtain ⟨hwidth, rfl⟩ := hs
  rw [← hwidth] at hzones
  have hfits := ScreenEdgeSwitcher.fits_of_int16 hT hzones mouse.x
  refine ⟨fun hvalid => ?_, fun hrefused => exec_hookCallback_of_refused hev hdata hrefused⟩
  have hmin := c.hostScreenWidth.toInt_lt
  have hmax := mouse.x.toInt_lt
  have hrel : InInt (mouse.x.toInt - c.hostScreenWidth.toInt) := by
    rw [hwidth] at hzones
    exact ⟨by omega, by omega⟩
  obtain ⟨-, hmoved, hreturns⟩ :=
    exec_hookCallback_of_fits hev hdata hvalid.1 hvalid.2 hfits fun _ => hrel
  refine ⟨_, Prod.ext (hreturns hwrite) rfl, ?_⟩
  have hupdate : ScreenEdgeSwitcher.updateStep (mouse.x.toInt, mouse.y.toInt) s.edgeSwitcher = _ :=
    ScreenEdgeSwitcher.exec_update_of_fits hfits _
  rw [hmoved, hupdate]

/-- The last column of the default screen. -/
theorem hookCallback_move_1919 :
    AdmitsMove defaultClient (.fresh defaultClient 1080 20) (moveTo 1919)
      { button := 0, clicks := 0, x := 1919, y := 500 } :=
  (hookCallback_move (ClientState.configured_fresh defaultClient 1080 20) (by decide) (by decide)
    rfl rfl rfl).1 (by decide)

/-- The switcher takes the third column left of the screen for one near the edge; the callback
throws. -/
theorem not_admitsEdges_overshoot :
    ¬AdmitsEdges defaultClient (.fresh defaultClient 1080 20) := by
  intro hadmits
  obtain ⟨s', hreturns, -⟩ := hadmits (moveTo (-3)) _ _ rfl rfl (by decide)
  have hthrow : exec (hookCallback defaultClient (moveTo (-3))) (.fresh defaultClient 1080 20) =
      (clientError "Invalid mouse coordinates", .fresh defaultClient 1080 20) :=
    exec_hookCallback_of_refused rfl rfl (by decide)
  rw [hthrow] at hreturns
  cases hreturns

/-! ### Settings that switch both ways -/

/-- The call is for a move of the cursor to a column of the host's screen. -/
def MovesOnScreen (c : Client) (call : HookCall) (mouse : MouseEventData) : Prop :=
  (∃ event, call.event = some event ∧ event.data = .mouseMoved mouse) ∧
    0 ≤ mouse.x.toInt ∧ mouse.x.toInt < c.hostScreenWidth.toInt ∧ 0 ≤ mouse.y.toInt

/-- From any state, some column of the host's screen gives control to the host, and some column
gives it to the client. -/
def SwitchesBothWays (c : Client) (threshold : Int32) : Prop :=
  ∀ s : ClientState, s.Configured c threshold → ∀ target, ∃ call mouse,
    MovesOnScreen c call mouse ∧ Defined (exec (hookCallback c call) s).1 ∧
      (exec (hookCallback c call) s).2.edgeSwitcher.state = target

/-- The columns of the screen that a hook can report and the switcher can handle. -/
def ScreenEdgeSwitcher.columns (sw : ScreenEdgeSwitcher) : Set ℤ :=
  {x | (0 ≤ x ∧ x < sw.hostWidth.toInt ∧ x < 2 ^ 15) ∧ sw.Fits x}

section Settings

variable {c : Client} {threshold : Int32}

/-- A move to a column of a screen of positive width overflows in the switcher or nowhere. -/
private theorem inInt_sub (hW : 0 < c.hostScreenWidth.toInt) {x : ℤ} (hx : 0 ≤ x)
    (hmax : x < 2 ^ 15) : InInt (x - c.hostScreenWidth.toInt) := by
  have hwidth := c.hostScreenWidth.toInt_lt
  exact ⟨by omega, by omega⟩

/-- What a move can do to the control state it can do with a column. -/
private theorem exists_move_iff {s : ClientState} (hs : s.Configured c threshold)
    (hW : 0 < c.hostScreenWidth.toInt) (b : Bool) :
    (∃ call mouse, MovesOnScreen c call mouse ∧ Defined (exec (hookCallback c call) s).1 ∧
        (exec (hookCallback c call) s).2.edgeSwitcher.state = ScreenEdgeSwitcher.controlOf b) ↔
      ∃ x ∈ s.edgeSwitcher.columns,
        s.edgeSwitcher.trigger.next s.edgeSwitcher.isClientControlled x = b := by
  obtain ⟨hwidth, -⟩ := hs
  have hstate : ∀ x, (s.edgeSwitcher.moved x).state = ScreenEdgeSwitcher.controlOf b ↔
      s.edgeSwitcher.trigger.next s.edgeSwitcher.isClientControlled x = b := fun x => by
    rw [ScreenEdgeSwitcher.state_eq_controlOf, ScreenEdgeSwitcher.isClientControlled_moved,
      ScreenEdgeSwitcher.controlOf_injective.eq_iff]
  constructor
  · rintro ⟨call, mouse, ⟨⟨event, hev, hdata⟩, hx, hxW, hy⟩, hdefined, htarget⟩
    have hmax := mouse.x.toInt_lt
    have hfits : s.edgeSwitcher.Fits mouse.x.toInt := by
      by_contra hfits
      obtain ⟨z, hz⟩ : ∃ z, exec (packetOf c call.now (.mouseMoved mouse)) s.edgeSwitcher =
          (.error (.undefined (.signedOverflow z)), s.edgeSwitcher) :=
        exec_packetOf_of_not_fits hx hy hfits
      rw [exec_hookCallback_move hev hdata, hz] at hdefined
      exact not_defined_undefined _ hdefined
    obtain ⟨-, hmoved, -⟩ :=
      exec_hookCallback_of_fits hev hdata hx hy hfits fun _ => inInt_sub hW hx hmax
    rw [hmoved, hstate] at htarget
    exact ⟨mouse.x.toInt, ⟨⟨hx, by rwa [hwidth], hmax⟩, hfits⟩, htarget⟩
  · rintro ⟨x, ⟨⟨hx, hxW, hmax⟩, hfits⟩, hnext⟩
    let mouse : MouseEventData := ⟨0, 0, .ofInt x, 0⟩
    let call : HookCall := ⟨0, some ⟨0, 0, .mouseMoved mouse⟩⟩
    have hev : call.event = some ⟨0, 0, .mouseMoved mouse⟩ := rfl
    have hcolumn : mouse.x.toInt = x := Int16.toInt_ofInt_of_le (by omega) hmax
    have hrow : 0 ≤ (0 : Int16).toInt := by decide
    obtain ⟨hdefined, hmoved, -⟩ :=
      exec_hookCallback_of_fits hev rfl (by rwa [hcolumn]) hrow (by rwa [hcolumn])
        fun _ => by rw [hcolumn]; exact inInt_sub hW hx hmax
    refine ⟨call, mouse, ⟨⟨_, hev, rfl⟩, ?_, ?_, hrow⟩, hdefined, ?_⟩
    · rwa [hcolumn]
    · rwa [hcolumn, ← hwidth]
    · rw [hmoved, hstate, hcolumn, hnext]

/-- The last column is the best one to take control with. -/
private theorem exists_zone_true_iff {sw : ScreenEdgeSwitcher} (hW : 3 ≤ sw.hostWidth.toInt) :
    (sw.columns ∩ sw.trigger.zone true).Nonempty ↔
      1 ≤ sw.edgeThreshold.toInt ∧ sw.hostWidth.toInt - sw.edgeThreshold.toInt ≤ 32767 ∧
        sw.hostWidth.toInt ≤ 65533 := by
  have hmax := sw.edgeThreshold.toInt_lt
  constructor
  · rintro ⟨x, ⟨⟨hx, hxW, hmax⟩, -⟩, hzone⟩
    rw [ScreenEdgeSwitcher.mem_zone_true_iff (by omega), ScreenEdgeSwitcher.Near,
      ScreenEdgeSwitcher.hysteresis] at hzone
    omega
  · rintro ⟨hT, hedge, hwide⟩
    refine ⟨min (sw.hostWidth.toInt - 1) 32767, ⟨⟨?_, ?_, ?_⟩, ⟨?_, ?_⟩, fun _ => ⟨?_, ?_⟩⟩, ?_⟩
    case refine_8 =>
      rw [ScreenEdgeSwitcher.mem_zone_true_iff (by omega), ScreenEdgeSwitcher.Near,
        ScreenEdgeSwitcher.hysteresis]
      omega
    all_goals
      try rw [ScreenEdgeSwitcher.hysteresis]
      omega

/-- The first column gives control back. -/
private theorem exists_zone_false {sw : ScreenEdgeSwitcher} (hW : 3 ≤ sw.hostWidth.toInt)
    (hT : 1 ≤ sw.edgeThreshold.toInt) (hwide : sw.hostWidth.toInt ≤ 65533) :
    (sw.columns ∩ sw.trigger.zone false).Nonempty := by
  have hmax := sw.edgeThreshold.toInt_lt
  refine ⟨0, ⟨⟨le_rfl, by omega, by omega⟩, ⟨by omega, by omega⟩, fun _ => ?_⟩, ?_⟩
  · rw [ScreenEdgeSwitcher.hysteresis]
    exact ⟨by omega, by omega⟩
  · rw [ScreenEdgeSwitcher.mem_zone_false_iff (by omega), ScreenEdgeSwitcher.Near,
      ScreenEdgeSwitcher.hysteresis]
    omega

/-- The settings with which control can be switched both ways. -/
private theorem switchesBothWays_iff_range (hW : 3 ≤ c.hostScreenWidth.toInt) :
    SwitchesBothWays c threshold ↔
      1 ≤ threshold.toInt ∧ c.hostScreenWidth.toInt - threshold.toInt ≤ 32767 ∧
        c.hostScreenWidth.toInt ≤ 65533 := by
  have hpos : 0 < c.hostScreenWidth.toInt := by omega
  constructor
  · intro hboth
    let sw : ScreenEdgeSwitcher := (ClientState.fresh c 0 threshold).edgeSwitcher
    have htakes : ∀ b, ∃ x ∈ sw.columns, sw.trigger.next b x = true := fun b => by
      have hs : ClientState.Configured
          ⟨{ sw with state := ScreenEdgeSwitcher.controlOf b }, 0, []⟩ c threshold := ⟨rfl, rfl⟩
      obtain ⟨x, hx, hnext⟩ := (exists_move_iff hs hpos true).mp (hboth _ hs _)
      refine ⟨x, hx, ?_⟩
      cases b <;> exact hnext
    exact (exists_zone_true_iff hW).mp (Trigger.exists_next_eq_iff.mp htakes)
  · rintro ⟨hT, hedge, hwide⟩ s hs target
    have hzone : ∀ b, (s.edgeSwitcher.columns ∩ s.edgeSwitcher.trigger.zone b).Nonempty := by
      obtain ⟨hwidth, rfl⟩ := hs
      rw [← hwidth] at hW hedge hwide
      exact Bool.rec (exists_zone_false hW hT hwide)
        ((exists_zone_true_iff hW).mpr ⟨hT, hedge, hwide⟩)
    have hmove : ∀ b, ∃ call mouse, MovesOnScreen c call mouse ∧
        Defined (exec (hookCallback c call) s).1 ∧
          (exec (hookCallback c call) s).2.edgeSwitcher.state = ScreenEdgeSwitcher.controlOf b :=
      fun b => (exists_move_iff hs hpos b).mpr (Trigger.exists_next_eq_iff.mpr (hzone b) _)
    cases target with
    | host => exact hmove false
    | client => exact hmove true

/-- **When control can be switched both ways.** For a threshold other than zero: if it is not
negative, and the right zone has a column that a hook can report and that is right of the
middle. -/
theorem switchesBothWays_iff (hW : 3 ≤ c.hostScreenWidth.toInt) (hT : threshold.toInt ≠ 0) :
    SwitchesBothWays c threshold ↔
      0 ≤ threshold.toInt ∧ c.hostScreenWidth.toInt - threshold.toInt ≤ 32767 ∧
        c.hostScreenWidth.toInt ≤ 65533 := by
  rw [switchesBothWays_iff_range hW]
  omega

end Settings

theorem switchesBothWays_default : SwitchesBothWays defaultClient 20 :=
  (switchesBothWays_iff (by decide) (by decide)).mpr (by decide)

/-- With a threshold of -1 no column of the screen is in the right zone. -/
theorem not_switchesBothWays_negative : ¬SwitchesBothWays defaultClient (-1) := by
  rw [switchesBothWays_iff_range (by decide)]
  decide

end Sameness
