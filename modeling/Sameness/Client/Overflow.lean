import Sameness.Client.Moves

/-!
# Arithmetic of the settings

The width and the threshold come from the command line as they are, and four sums and
differences are computed with them: `hostWidth - edgeThreshold` and `hostWidth + 5` in the
switcher, `x - width` and `-width` in the callback. `Overflows` says which calls overflow in a
state, and `neverOverflows_iff` which settings let no call overflow in any state of any run.

The invariant is that control comes to the client only if the width is far enough from both ends
of the range of `int` for the coordinates of a packet (`Roomy`).
-/

namespace Sameness

open Cpp Eff Uiohook Runs

variable {c : Client}

/-- What the event makes the callback compute overflows. -/
def Overflows (c : Client) (sw : ScreenEdgeSwitcher) : EventData → Prop
  | .mouseMoved mouse =>
    (0 ≤ mouse.x.toInt ∧ 0 ≤ mouse.y.toInt) ∧
      (¬sw.Fits mouse.x.toInt ∨ ((sw.moved mouse.x.toInt).state = .client ∧
        ¬InInt (mouse.x.toInt - c.hostScreenWidth.toInt)))
  | .mousePressed mouse | .mouseReleased mouse =>
    sw.state = .client ∧ mouse.button.toUInt8 ≠ 0 ∧
      ¬(InInt (mouse.x.toInt - c.hostScreenWidth.toInt) ∧ InInt (-c.hostScreenWidth.toInt))
  | _ => False

/-! ### Calls that overflow -/

/-- **The ends of a move.** Without an overflow it is refused, or the switcher is moved; with one
the switcher is left alone, or moved before the packet's coordinate overflows. -/
private theorem exec_move_cases (c : Client) (now : UInt64) (mouse : MouseEventData)
    (sw : ScreenEdgeSwitcher) :
    (¬Overflows c sw (.mouseMoved mouse) ∧
      (exec (packetOf c now (.mouseMoved mouse)) sw =
          (clientError "Invalid mouse coordinates", sw) ∨
        0 ≤ mouse.x.toInt ∧ ∃ pkt, exec (packetOf c now (.mouseMoved mouse)) sw =
          (.ok pkt, sw.moved mouse.x.toInt))) ∨
    (Overflows c sw (.mouseMoved mouse) ∧ ∃ z sw',
      exec (packetOf c now (.mouseMoved mouse)) sw =
          (.error (.undefined (.signedOverflow z)), sw') ∧
        (sw' = sw ∨ 0 ≤ mouse.x.toInt ∧ sw' = sw.moved mouse.x.toInt)) := by
  rw [Overflows]
  by_cases hrefused : mouse.x.toInt < 0 ∨ mouse.y.toInt < 0
  · exact .inl ⟨by omega, .inl (exec_packetOf_of_refused hrefused)⟩
  have hx : 0 ≤ mouse.x.toInt := by omega
  have hy : 0 ≤ mouse.y.toInt := by omega
  by_cases hfits : sw.Fits mouse.x.toInt
  · by_cases hrel : (sw.moved mouse.x.toInt).state = .client →
        InInt (mouse.x.toInt - c.hostScreenWidth.toInt)
    · exact .inl ⟨by tauto, .inr ⟨hx, _, exec_packetOf_of_fits hx hy hfits hrel⟩⟩
    · rw [Classical.not_imp] at hrel
      exact .inr ⟨by tauto, _, _, exec_packetOf_of_not_inInt hx hy hfits hrel.1 hrel.2,
        .inr ⟨hx, rfl⟩⟩
  · obtain ⟨z, hz⟩ : ∃ z, exec (packetOf c now (.mouseMoved mouse)) sw =
        (.error (.undefined (.signedOverflow z)), sw) := exec_packetOf_of_not_fits hx hy hfits
    exact .inr ⟨by tauto, z, sw, hz, .inl rfl⟩

private theorem defined_move_iff {now : UInt64} {mouse : MouseEventData}
    {sw : ScreenEdgeSwitcher} :
    Defined (exec (packetOf c now (.mouseMoved mouse)) sw).1 ↔
      ¬Overflows c sw (.mouseMoved mouse) := by
  obtain ⟨hnone, hexec | ⟨-, pkt, hexec⟩⟩ | ⟨hover, z, sw', hexec, -⟩ :=
    exec_move_cases c now mouse sw
  · rw [hexec]
    exact iff_of_true (defined_thrown _) hnone
  · rw [hexec]
    exact iff_of_true (defined_ok _) hnone
  · rw [hexec]
    exact iff_of_false (not_defined_undefined _) (not_not.mpr hover)

private theorem defined_keyPacket {type : SamenessEventType} {now : UInt64}
    {keyboard : KeyboardEventData} : Defined (keyPacket c type now keyboard) := by
  rw [keyPacket]
  split_ifs
  · exact defined_thrown _
  · exact defined_ok _

/-- A button packet, where its arithmetic does not overflow. -/
theorem buttonPacket_of_inInt {type : SamenessEventType} {now : UInt64} {mouse : MouseEventData}
    (hbutton : mouse.button.toUInt8 ≠ 0)
    (hrel : InInt (mouse.x.toInt - c.hostScreenWidth.toInt))
    (hleft : InInt (-c.hostScreenWidth.toInt)) :
    buttonPacket c type now mouse =
      if mouse.x.toInt < 0 ∨ mouse.y.toInt < 0 then clientError "Invalid mouse coordinates"
      else .ok ⟨type, now, 9, mouse.button.toUInt8 :: c.coords mouse⟩ := by
  rw [buttonPacket, if_neg hbutton, int_of_inInt hrel, int_of_inInt hleft]
  have hcheck : (mouse.x.toInt - c.hostScreenWidth.toInt < -c.hostScreenWidth.toInt ∨
      mouse.y.toInt < 0) ↔ mouse.x.toInt < 0 ∨ mouse.y.toInt < 0 := by omega
  simp only [bind, Except.bind, hcheck]
  rfl

private theorem defined_buttonPacket_iff {type : SamenessEventType} {now : UInt64}
    {mouse : MouseEventData} :
    Defined (buttonPacket c type now mouse) ↔
      ¬(mouse.button.toUInt8 ≠ 0 ∧
        ¬(InInt (mouse.x.toInt - c.hostScreenWidth.toInt) ∧ InInt (-c.hostScreenWidth.toInt))) := by
  by_cases hbutton : mouse.button.toUInt8 = 0
  · rw [buttonPacket, if_pos hbutton]
    exact iff_of_true (defined_thrown _) (by tauto)
  by_cases hrel : InInt (mouse.x.toInt - c.hostScreenWidth.toInt)
  · by_cases hleft : InInt (-c.hostScreenWidth.toInt)
    · rw [buttonPacket_of_inInt hbutton hrel hleft]
      refine iff_of_true ?_ (by tauto)
      split_ifs
      · exact defined_thrown _
      · exact defined_ok _
    · rw [buttonPacket, if_neg hbutton, int_of_inInt hrel, int_of_not_inInt hleft]
      exact iff_of_false (not_defined_undefined _) (by tauto)
  · rw [buttonPacket, if_neg hbutton, int_of_not_inInt hrel]
    exact iff_of_false (not_defined_undefined _) (by tauto)

/-- Choosing a packet for an event that is not a move. -/
private theorem defined_gated_iff {now : UInt64} {data : EventData} {sw : ScreenEdgeSwitcher} :
    Defined (exec (gatedPacket c now data) sw).1 ↔
      (sw.state = .client → Defined (otherPacket c now data)) := by
  rw [exec_gatedPacket]
  split_ifs with hclient
  · exact ⟨fun h _ => h, fun h => h hclient⟩
  · exact iff_of_true (defined_ok _) fun h => absurd h hclient

private theorem defined_packetOf_iff {now : UInt64} {data : EventData}
    {sw : ScreenEdgeSwitcher} :
    Defined (exec (packetOf c now data) sw).1 ↔ ¬Overflows c sw data := by
  rcases data with _ | _ | _ | k | k | _ | m | m | m | _ | _
  case mouseMoved => exact defined_move_iff
  case mousePressed | mouseReleased =>
    refine defined_gated_iff.trans ?_
    rw [otherPacket, defined_map_iff, defined_buttonPacket_iff]
    exact not_and.symm
  case keyPressed | keyReleased =>
    exact defined_gated_iff.trans
      (iff_of_true (fun _ => defined_map_iff.mpr defined_keyPacket) not_false)
  all_goals exact defined_gated_iff.trans (iff_of_true (fun _ => defined_ok _) not_false)

/-- **Which calls overflow.** -/
theorem defined_hookCallback_iff {s : ClientState} {call : HookCall} :
    Defined (exec (hookCallback c call) s).1 ↔
      ∀ event, call.event = some event → ¬Overflows c s.edgeSwitcher event.data := by
  obtain ⟨now, _ | event⟩ := call
  · exact iff_of_true (defined_thrown _) nofun
  have hevent : (∀ e, some event = some e → ¬Overflows c s.edgeSwitcher e.data) ↔
      ¬Overflows c s.edgeSwitcher event.data :=
    ⟨fun h => h event rfl, fun h e he => by cases he; exact h⟩
  have hpacket : Defined (exec (packetOf c now event.data) s.edgeSwitcher).1 ↔ _ :=
    defined_packetOf_iff
  rw [hevent, ← hpacket, exec_hookCallback_some]
  rcases exec (packetOf c now event.data) s.edgeSwitcher with ⟨stop | _ | pkt, sw⟩
  · exact defined_map_iff (f := fun _ => ()) (x := .error stop)
  · exact iff_of_true (defined_ok _) (defined_ok _)
  · refine iff_of_true ?_ (defined_ok _)
    simp only [exec_safeWrite]
    rcases c.write s.writes with _ | what
    · exact defined_ok _
    · exact defined_thrown _

/-! ### Runs -/

/-- No call overflows, in any state that a run of calls reaches. -/
def NeverOverflows (c : Client) (height threshold : Int32) : Prop :=
  ∀ calls call, Defined (exec (hookCallback c call) (runState c height threshold calls)).1

/-- In every state that a run reaches, a press or a release with a button is refused for its
position exactly if a move would be. -/
def ChecksAgree (c : Client) (height threshold : Int32) : Prop :=
  ∀ calls call event mouse, call.event = some event →
    event.data = .mousePressed mouse ∨ event.data = .mouseReleased mouse →
    (runState c height threshold calls).edgeSwitcher.state = .client →
    mouse.button.toUInt8 ≠ 0 →
      ((exec (hookCallback c call) (runState c height threshold calls)).1 =
        clientError "Invalid mouse coordinates" ↔ mouse.x.toInt < 0 ∨ mouse.y.toInt < 0)

/-- The settings with which nothing overflows: the edge of the right zone is an `int`, so is its
far bound if a column can be past the edge, and the width is not too small for a packet if the
left zone has a column that gives control to the client. -/
def SafeSettings (width threshold : ℤ) : Prop :=
  InInt (width - threshold) ∧ (width - threshold < 2 ^ 15 → InInt (width + 5)) ∧
    (0 ≤ threshold → 2 ^ 15 - 2 ^ 31 ≤ width)

instance (width threshold : ℤ) : Decidable (SafeSettings width threshold) :=
  inferInstanceAs (Decidable (_ ∧ _))

/-- The switcher is the one that `main` sets up, and if the client has control, its packets can
hold every position. -/
def Roomy (c : Client) (threshold : Int32) (sw : ScreenEdgeSwitcher) : Prop :=
  (sw.hostWidth = c.hostScreenWidth ∧ sw.edgeThreshold = threshold) ∧ (sw.state = .client →
    2 ^ 15 - 2 ^ 31 ≤ c.hostScreenWidth.toInt ∧ c.hostScreenWidth.toInt < 2 ^ 17)

/-! ### The invariant -/

/-- An event leaves the switcher alone, or moves it to a column of the screen. -/
private theorem snd_exec_packetOf (now : UInt64) (data : EventData) (sw : ScreenEdgeSwitcher) :
    (exec (packetOf c now data) sw).2 = sw ∨
      ∃ mouse : MouseEventData, 0 ≤ mouse.x.toInt ∧
        (exec (packetOf c now data) sw).2 = sw.moved mouse.x.toInt := by
  rcases data with _ | _ | _ | _ | _ | _ | _ | _ | mouse | _ | _
  case mouseMoved =>
    obtain ⟨-, hexec | ⟨hx, pkt, hexec⟩⟩ | ⟨-, z, sw', hexec, rfl | ⟨hx, rfl⟩⟩ :=
      exec_move_cases c now mouse sw
    · exact .inl (by rw [hexec])
    · exact .inr ⟨mouse, hx, by rw [hexec]⟩
    · exact .inl (by rw [hexec])
    · exact .inr ⟨mouse, hx, by rw [hexec]⟩
  all_goals exact .inl (congrArg Prod.snd (exec_gatedPacket now _ sw))

/-- A call leaves the switcher alone, or moves it to a column of the screen. -/
private theorem edgeSwitcher_hookCallback (call : HookCall) (s : ClientState) :
    (exec (hookCallback c call) s).2.edgeSwitcher = s.edgeSwitcher ∨
      ∃ mouse : MouseEventData, 0 ≤ mouse.x.toInt ∧
        (exec (hookCallback c call) s).2.edgeSwitcher = s.edgeSwitcher.moved mouse.x.toInt := by
  obtain ⟨now, _ | event⟩ := call
  · exact .inl rfl
  have hpacket : (exec (hookCallback c ⟨now, some event⟩) s).2.edgeSwitcher =
      (exec (packetOf c now event.data) s.edgeSwitcher).2 := by
    rw [exec_hookCallback_some]
    rcases exec (packetOf c now event.data) s.edgeSwitcher with ⟨stop | _ | pkt, sw⟩
    · rfl
    · rfl
    · simp only [exec_safeWrite]
      rcases c.write s.writes with _ | what
      · rfl
      · rfl
  rw [hpacket]
  exact snd_exec_packetOf now event.data s.edgeSwitcher

/-- With control at the client, the packets have room for every position. -/
private theorem Roomy.inInt {threshold : Int32} {sw : ScreenEdgeSwitcher}
    (hsw : Roomy c threshold sw) (hclient : sw.state = .client) (x : Int16) :
    InInt (x.toInt - c.hostScreenWidth.toInt) ∧ InInt (-c.hostScreenWidth.toInt) := by
  obtain ⟨hlow, hhigh⟩ := hsw.2 hclient
  have hmin := x.le_toInt
  have hmax := x.toInt_lt
  exact ⟨⟨by omega, by omega⟩, by omega, by omega⟩

section Safe

variable {height threshold : Int32}
  (hsafe : SafeSettings c.hostScreenWidth.toInt threshold.toInt)

include hsafe

/-- Control comes to the client only where the packets have room. -/
private theorem Roomy.moved {sw : ScreenEdgeSwitcher} (hsw : Roomy c threshold sw) {x : ℤ}
    (hx : 0 ≤ x) (hmax : x < 2 ^ 15) : Roomy c threshold (sw.moved x) := by
  obtain ⟨⟨hwidth, hthreshold⟩, hroom⟩ := hsw
  obtain ⟨-, -, hsmall⟩ := hsafe
  rw [ScreenEdgeSwitcher.moved]
  split_ifs with hnear
  · refine ⟨⟨hwidth, hthreshold⟩, fun hclient => ?_⟩
    have hhalf : c.hostScreenWidth.toInt.tdiv 2 < x := by
      by_contra hle
      rw [← hwidth] at hle
      have hhost : sw.decision x = .host := if_neg hle
      rw [hhost] at hclient
      cases hclient
    rw [ScreenEdgeSwitcher.Near, ScreenEdgeSwitcher.hysteresis, hwidth, hthreshold] at hnear
    refine ⟨by omega, ?_⟩
    by_contra hwide
    rw [ScreenEdgeSwitcher.half_lt_iff (by omega)] at hhalf
    omega
  · exact ⟨⟨hwidth, hthreshold⟩, hroom⟩

/-- A call keeps the invariant, whatever it answers. -/
private theorem Roomy.call {s : ClientState} (hs : Roomy c threshold s.edgeSwitcher)
    (call : HookCall) : Roomy c threshold (hookStep c call s).2.edgeSwitcher := by
  obtain hsw | ⟨mouse, hx, hsw⟩ := edgeSwitcher_hookCallback (c := c) call s
  · change Roomy c threshold (exec (hookCallback c call) s).2.edgeSwitcher
    rwa [hsw]
  · change Roomy c threshold (exec (hookCallback c call) s).2.edgeSwitcher
    rw [hsw]
    exact hs.moved hsafe hx mouse.x.toInt_lt

theorem roomy_runState (calls : List HookCall) :
    Roomy c threshold (runState c height threshold calls).edgeSwitcher := by
  have hstart : Roomy c threshold (ClientState.fresh c height threshold).edgeSwitcher :=
    ⟨⟨rfl, rfl⟩, nofun⟩
  have hkeep : ∀ call s, True → Roomy c threshold s.edgeSwitcher →
      Roomy c threshold (hookStep c call s).2.edgeSwitcher :=
    fun call _ _ hs => hs.call hsafe call
  refine final_of_allowed (I := fun s : ClientState => Roomy c threshold s.edgeSwitcher) hstart
    hkeep ?_
  exact fun _ _ _ => trivial

/-- No event overflows. -/
private theorem Roomy.not_overflows {sw : ScreenEdgeSwitcher} (hsw : Roomy c threshold sw)
    (data : EventData) : ¬Overflows c sw data := by
  rcases data with _ | _ | _ | _ | _ | _ | mouse | mouse | mouse | _ | _
  case mouseMoved =>
    have hmax := mouse.x.toInt_lt
    rintro ⟨⟨hx, -⟩, hfits | ⟨hclient, hpacket⟩⟩
    · obtain ⟨⟨hwidth, hthreshold⟩, -⟩ := hsw
      obtain ⟨hedge, hfar, -⟩ := hsafe
      rw [ScreenEdgeSwitcher.Fits, hwidth, hthreshold] at hfits
      exact hfits ⟨hedge, fun hnear => hfar (by omega)⟩
    · exact hpacket ((hsw.moved hsafe hx hmax).inInt hclient mouse.x).1
  case mousePressed | mouseReleased =>
    rintro ⟨hclient, -, hpacket⟩
    exact hpacket (hsw.inInt hclient mouse.x)
  all_goals exact not_false

/-- Nothing overflows in any run. -/
private theorem neverOverflows_of_safe : NeverOverflows c height threshold := by
  intro calls call
  rw [defined_hookCallback_iff]
  exact fun event _ => (roomy_runState hsafe calls).not_overflows hsafe event.data

end Safe

/-- What the two button branches answer, with control at the client. -/
private theorem fst_exec_hookCallback_button {s : ClientState} {call : HookCall} {event : Event}
    {mouse : MouseEventData} (hev : call.event = some event)
    (hdata : event.data = .mousePressed mouse ∨ event.data = .mouseReleased mouse)
    (hclient : s.edgeSwitcher.state = .client) (hbutton : mouse.button.toUInt8 ≠ 0)
    (hrel : InInt (mouse.x.toInt - c.hostScreenWidth.toInt))
    (hleft : InInt (-c.hostScreenWidth.toInt)) :
    (exec (hookCallback c call) s).1 = clientError "Invalid mouse coordinates" ↔
      mouse.x.toInt < 0 ∨ mouse.y.toInt < 0 := by
  obtain ⟨now, event'⟩ := call
  obtain rfl : event' = some event := hev
  obtain ⟨type, hpacket⟩ : ∃ type, exec (packetOf c now event.data) s.edgeSwitcher =
      ((buttonPacket c type now mouse).map some, s.edgeSwitcher) := by
    rcases hdata with hdata | hdata
    · refine ⟨.mouseButtonPress, ?_⟩
      rw [hdata]
      exact (exec_gatedPacket now _ _).trans (by rw [if_pos hclient]; rfl)
    · refine ⟨.mouseButtonRelease, ?_⟩
      rw [hdata]
      exact (exec_gatedPacket now _ _).trans (by rw [if_pos hclient]; rfl)
  rw [exec_hookCallback_some, hpacket, buttonPacket_of_inInt hbutton hrel hleft]
  by_cases hrefused : mouse.x.toInt < 0 ∨ mouse.y.toInt < 0
  · rw [if_pos hrefused]
    exact iff_of_true rfl hrefused
  · rw [if_neg hrefused]
    refine iff_of_false (fun hthrow => ?_) hrefused
    -- past the checks only the write can throw, and it throws another exception
    simp only [Except.map, exec_safeWrite] at hthrow
    rcases hnet : c.write s.writes with _ | what
    · simp only [hnet] at hthrow
      cases hthrow
    · simp only [hnet] at hthrow
      cases hthrow

private theorem checksAgree_of_safe {height threshold : Int32}
    (hsafe : SafeSettings c.hostScreenWidth.toInt threshold.toInt) :
    ChecksAgree c height threshold := by
  intro calls call event mouse hev hdata hclient hbutton
  obtain ⟨hrel, hleft⟩ := (roomy_runState hsafe calls).inInt hclient mouse.x
  exact fst_exec_hookCallback_button hev hdata hclient hbutton hrel hleft

/-- A move that does not overflow in a state. -/
private theorem fits_of_neverOverflows {height threshold : Int32}
    (hnever : NeverOverflows c height threshold) (calls : List HookCall) {x : Int16}
    (hx : 0 ≤ x.toInt) :
    (runState c height threshold calls).edgeSwitcher.Fits x.toInt ∧
      (((runState c height threshold calls).edgeSwitcher.moved x.toInt).state = .client →
        InInt (x.toInt - c.hostScreenWidth.toInt)) := by
  have hmove : ¬Overflows c (runState c height threshold calls).edgeSwitcher
      (.mouseMoved ⟨0, 0, x, 500⟩) := defined_hookCallback_iff.mp (hnever calls (moveTo x)) _ rfl
  have hrow : 0 ≤ (500 : Int16).toInt := by decide
  rw [Overflows, not_and] at hmove
  have hnone := hmove ⟨hx, hrow⟩
  tauto

/-- The switcher after a first move that does not overflow. -/
private theorem edgeSwitcher_moveTo {height threshold : Int32}
    (hnever : NeverOverflows c height threshold) {x : Int16} (hx : 0 ≤ x.toInt) :
    (runState c height threshold [moveTo x]).edgeSwitcher =
      (ClientState.fresh c height threshold).edgeSwitcher.moved x.toInt := by
  obtain ⟨hfits, hrel⟩ := fits_of_neverOverflows hnever [] hx
  have hev : (moveTo x).event = some ⟨0, 0, .mouseMoved ⟨0, 0, x, 500⟩⟩ := rfl
  have hdata : (⟨0, 0, .mouseMoved ⟨0, 0, x, 500⟩⟩ : Event).data = .mouseMoved ⟨0, 0, x, 500⟩ := rfl
  have hrow : 0 ≤ (500 : Int16).toInt := by decide
  obtain ⟨-, hmoved, -⟩ := exec_hookCallback_of_fits hev hdata hx hrow hfits hrel
  exact hmoved

/-- The settings of a client that never overflows are safe. -/
private theorem safeSettings_of_neverOverflows {height threshold : Int32}
    (hnever : NeverOverflows c height threshold) :
    SafeSettings c.hostScreenWidth.toInt threshold.toInt := by
  let sw : ScreenEdgeSwitcher := (ClientState.fresh c height threshold).edgeSwitcher
  have hzero : (0 : Int16).toInt = 0 := by decide
  have hlast : (32767 : Int16).toInt = 32767 := by decide
  have hfirst : sw.Fits (0 : Int16).toInt ∧ _ := fits_of_neverOverflows hnever [] (by decide)
  have hfar : sw.Fits (32767 : Int16).toInt ∧ _ := fits_of_neverOverflows hnever [] (by decide)
  refine ⟨hfirst.1.1, fun hnear => hfar.1.2 (by rw [hlast]; exact Int.lt_add_one_iff.mp hnear),
    fun hT => ?_⟩
  -- the first column takes control, and the last one is too far from the right edge
  by_contra hsmall
  have hhalf : ¬0 ≤ c.hostScreenWidth.toInt.tdiv 2 := by
    rw [tdiv_nonneg_iff two_pos]
    omega
  have hright : ∀ x ≥ 0, ∀ sw' : ScreenEdgeSwitcher, sw'.hostWidth = c.hostScreenWidth →
      sw'.decision x = .client := by
    intro x hx sw' hwidth
    rw [← hwidth] at hhalf
    exact if_pos (by omega)
  have hnear : sw.Near (0 : Int16).toInt := .inr ⟨by decide, by rwa [hzero]⟩
  have hmoved : sw.moved (0 : Int16).toInt = { sw with state := .client } := by
    rw [ScreenEdgeSwitcher.moved, if_pos hnear, hright _ (by decide) sw rfl]
  have hrun : (runState c height threshold [moveTo 0]).edgeSwitcher =
      { sw with state := .client } := by
    rw [edgeSwitcher_moveTo hnever (by decide), ← hmoved]
  have hsecond := fits_of_neverOverflows hnever [moveTo 0] (by decide : 0 ≤ (32767 : Int16).toInt)
  rw [hrun] at hsecond
  have hstays : (({ sw with state := .client } : ScreenEdgeSwitcher).moved
      (32767 : Int16).toInt).state = .client := by
    rw [ScreenEdgeSwitcher.moved]
    split_ifs
    · exact hright _ (by decide) _ rfl
    · rfl
  obtain ⟨-, hroom⟩ := hsecond.2 hstays
  rw [hlast] at hroom
  omega

/-- **When no `int` overflows.** -/
theorem neverOverflows_iff (c : Client) (height threshold : Int32) :
    (NeverOverflows c height threshold ∧ ChecksAgree c height threshold) ↔
      SafeSettings c.hostScreenWidth.toInt threshold.toInt :=
  ⟨fun h => safeSettings_of_neverOverflows h.1,
    fun h => ⟨neverOverflows_of_safe h, checksAgree_of_safe h⟩⟩

/-- The widest screen, with the edge one column beyond it. -/
theorem not_neverOverflows_widest :
    ¬(NeverOverflows ⟨2147483647, .little, fun _ => none⟩ 1080 (-1) ∧
      ChecksAgree ⟨2147483647, .little, fun _ => none⟩ 1080 (-1)) := by
  rintro ⟨hnever, -⟩
  exact absurd (safeSettings_of_neverOverflows hnever) (by decide)

end Sameness
