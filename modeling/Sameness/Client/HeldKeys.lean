import Sameness.Client.Forwarding

/-!
# Keys held over a hand-over

The client forwards a press or a release if it has control when the event arrives, whatever it
forwarded for that key before. So a key pressed on the client's side of a hand-over and
released on the host's stays down on the server, and one pressed on the host's side is
released on the server without a press.

`NoStuck` and `NoOrphan` ask for neither. They fail by the design of the gate
(`not_mirrored_released`). What matters is on which side the releases come, and not where control
is in between: `mirrored_iff` is the exact condition for either. The server's log for a key is
that of the relayed events (`lastPacket_eq`), so both sides of it are statements about the events
of a run and the control state alone.
-/

namespace Sameness

open Bytes Cpp Uiohook Runs

/-- A key or a mouse button, by the number that packets carry: buttons by their low byte. -/
inductive Switch where
  | key (code : UInt16)
  | button (number : UInt8)
  deriving DecidableEq, Repr

/-- The switch that an event presses (`true`) or releases. -/
def eventSwitch : EventData → Option (Switch × Bool)
  | .keyPressed keyboard => some (.key keyboard.keycode, true)
  | .keyReleased keyboard => some (.key keyboard.keycode, false)
  | .mousePressed mouse => some (.button mouse.button.toUInt8, true)
  | .mouseReleased mouse => some (.button mouse.button.toUInt8, false)
  | _ => none

/-- The switch that a packet presses or releases. -/
def packetSwitch (o : ByteOrder) (pkt : EventPacket) : Option (Switch × Bool) :=
  let key := Switch.key (UInt16.ofNat (word o 0 4 pkt.payload))
  let button := Switch.button (pkt.payload.headD 0)
  if pkt.type = .keyPress then some (key, true)
  else if pkt.type = .keyRelease then some (key, false)
  else if pkt.type = .mouseButtonPress then some (button, true)
  else if pkt.type = .mouseButtonRelease then some (button, false)
  else none

/-- The last event for a switch: `true` if it is down. -/
def lastEvent (k : Switch) (calls : List HookCall) : Option Bool :=
  latest k (calls.filterMap fun call => call.event.bind fun event => eventSwitch event.data)

/-- The events that are met while the client has control, or takes it. -/
def relayedEvents (c : Client) (threshold : Int32) (calls : List HookCall) : List EventData :=
  (List.range calls.length).filterMap fun i =>
    calls[i]?.bind fun call => call.event.bind fun event =>
      if controlAfter c threshold (calls.take (i + 1)) = .client then some event.data else none

/-- The last of these for a switch. -/
def lastRelayed (c : Client) (threshold : Int32) (k : Switch) (calls : List HookCall) :
    Option Bool :=
  latest k ((relayedEvents c threshold calls).filterMap eventSwitch)

/-- The last packet written for a switch. -/
def lastPacket (o : ByteOrder) (k : Switch) (sent : List (List UInt8)) : Option Bool :=
  latest k (sent.filterMap fun bytes => packetSwitch o (.ofBuffer bytes))

/-! ### Packets and events -/

section Packets

variable {c : Client}

/-- A packet names the switch of its event. -/
theorem packetSwitch_forwarded {now : UInt64} {data : EventData} {pkt : EventPacket}
    (h : c.forwarded now data = some pkt) : packetSwitch c.byteOrder pkt = eventSwitch data := by
  have hcode : ∀ code : UInt16,
      UInt16.ofNat (word c.byteOrder 0 4 (c.byteOrder.encode 4 code.toNat)) = code := by
    intro code
    have hlen := ByteOrder.length_encode c.byteOrder 4 code.toNat
    have hlt : code.toNat < 256 ^ 4 := lt_trans code.toNat_lt (by decide)
    rw [word, List.drop_zero, List.take_of_length_le hlen.le,
      ByteOrder.decode_encode_of_lt _ hlt, UInt16.ofNat_toNat]
  obtain ⟨k, rfl, rfl⟩ | ⟨k, rfl, rfl⟩ | ⟨m, rfl, rfl⟩ | ⟨m, rfl, rfl⟩ | ⟨m, rfl, rfl⟩ :=
    Client.forwarded_eq_some h
  · exact congrArg (fun code => some (Switch.key code, true)) (hcode _)
  · exact congrArg (fun code => some (Switch.key code, false)) (hcode _)
  · rfl
  · rfl
  · rfl

/-- An event without a switch is forwarded without one. -/
theorem eventSwitch_of_forwarded_none {now : UInt64} {data : EventData}
    (h : c.forwarded now data = none) : eventSwitch data = none := by
  rcases data with _ | _ | _ | k | k | _ | m | m | m | _ | _ <;> first | rfl | cases h

/-- Only moves change control, and they have no switch. -/
theorem edgeDecision_of_eventSwitch {width threshold : ℤ} {data : EventData}
    {e : Switch × Bool} (h : eventSwitch data = some e) :
    edgeDecision width threshold data = none := by
  rcases data with _ | _ | _ | k | k | _ | m | m | m | _ | _ <;> first | rfl | cases h

end Packets

/-! ### One more call -/

section Run

variable {c : Client} {height threshold : Int32} {k : Switch}

theorem lastEvent_concat (calls : List HookCall) {call : HookCall} {event : Event}
    (hev : call.event = some event) :
    lastEvent k (calls ++ [call]) =
      (latest k (eventSwitch event.data).toList).or (lastEvent k calls) := by
  rw [lastEvent, filterMap_event_concat _ calls hev, latest_append]
  rfl

/-- The last packet changes with the last event while the client has control, and not
otherwise. -/
theorem lastPacket_concat {calls : List HookCall} {call : HookCall} {event : Event}
    (hev : call.event = some event) (h : Returns c height threshold (calls ++ [call])) :
    lastPacket c.byteOrder k (runState c height threshold (calls ++ [call])).sent =
      (if controlAfter c threshold (calls ++ [call]) = .client then
          latest k (eventSwitch event.data).toList
        else none).or
        (lastPacket c.byteOrder k (runState c height threshold calls).sent) := by
  obtain ⟨event', hev', hsent⟩ := runState_concat h
  obtain rfl : event' = event := Option.some.inj (hev'.symm.trans hev)
  rw [lastPacket, hsent, List.filterMap_append, latest_append, ← lastPacket]
  congr 1
  split_ifs
  · rcases hfwd : c.forwarded call.now event'.data with _ | pkt
    · rw [eventSwitch_of_forwarded_none hfwd]
      rfl
    · rw [Option.map_some, Option.toList_some, lastPacket, List.filterMap_eq_flatMap_toList,
        List.flatMap_singleton, EventPacket.ofBuffer_toBytes (Client.sized_forwarded hfwd),
        packetSwitch_forwarded hfwd]
  · rfl

/-- A call that presses or releases something leaves control where it is. -/
theorem controlAfter_concat_of_switch {calls : List HookCall} {call : HookCall} {event : Event}
    (hev : call.event = some event) {b : Bool}
    (hb : latest k (eventSwitch event.data).toList = some b) :
    controlAfter c threshold (calls ++ [call]) = controlAfter c threshold calls := by
  rcases hswitch : eventSwitch event.data with _ | e
  · rw [hswitch] at hb
    cases hb
  · rw [controlAfter, control_concat calls hev, edgeDecision_of_eventSwitch hswitch]
    rfl

theorem relayedEvents_concat (calls : List HookCall) {call : HookCall} {event : Event}
    (hev : call.event = some event) :
    relayedEvents c threshold (calls ++ [call]) = relayedEvents c threshold calls ++
      (if controlAfter c threshold (calls ++ [call]) = .client then some event.data
        else none).toList := by
  calc relayedEvents c threshold (calls ++ [call])
      = relayedEvents c threshold calls ++ (call.event.bind fun event =>
          if controlAfter c threshold (calls ++ [call]) = .client then some event.data
          else none).toList :=
        filterMap_range_concat (fun upTo (call : HookCall) => call.event.bind fun event =>
          if controlAfter c threshold upTo = .client then some event.data else none) calls call
    _ = relayedEvents c threshold calls ++
          (if controlAfter c threshold (calls ++ [call]) = .client then some event.data
            else none).toList := by
        rw [hev, Option.bind_some]

/-- **What the server knows of a switch.** Its last packet is that of the last relayed event. -/
theorem lastPacket_eq {calls : List HookCall} (h : Returns c height threshold calls) :
    lastPacket c.byteOrder k (runState c height threshold calls).sent =
      lastRelayed c threshold k calls := by
  induction calls using List.reverseRecOn with
  | nil => rfl
  | append_singleton calls call ih =>
    obtain ⟨event, hev, -⟩ := runState_concat h
    rw [lastPacket_concat hev h, ih (h.of_prefix (List.prefix_append calls [call])), lastRelayed,
      lastRelayed, relayedEvents_concat calls hev, List.filterMap_append, latest_append]
    congr 1
    split_ifs
    · rw [Option.toList_some, List.filterMap_eq_flatMap_toList, List.flatMap_singleton]
    · rfl

/-! ### The server's keys -/

/-- What the server holds down is down: if the last packet for a switch is a press, its last
event is one. -/
def NoStuck (c : Client) (height threshold : Int32) (k : Switch) (calls : List HookCall) :
    Prop :=
  ∀ before, before <+: calls →
    lastPacket c.byteOrder k (runState c height threshold before).sent = some true →
      lastEvent k before = some true

/-- A release is written for a switch only after its press. -/
def NoOrphan (c : Client) (height threshold : Int32) (k : Switch) (calls : List HookCall) :
    Prop :=
  ∀ before call, before ++ [call] <+: calls → ∀ bytes,
    (runState c height threshold (before ++ [call])).sent =
        (runState c height threshold before).sent ++ [bytes] →
      packetSwitch c.byteOrder (.ofBuffer bytes) = some (k, false) →
        lastPacket c.byteOrder k (runState c height threshold before).sent = some true

/-- The call releases the switch. -/
def Releases (k : Switch) (call : HookCall) : Prop :=
  (call.event.bind fun event => eventSwitch event.data) = some (k, false)

instance (k : Switch) (call : HookCall) : Decidable (Releases k call) :=
  inferInstanceAs (Decidable (_ = _))

/-- Every release of the switch that comes while the host has control finds it up on the server:
its last relayed event, if there is one, is no press. -/
def HostReleasesUp (c : Client) (threshold : Int32) (k : Switch) (calls : List HookCall) : Prop :=
  ∀ before call, before ++ [call] <+: calls →
    Releases k call → controlAfter c threshold before = .host →
      lastRelayed c threshold k before ≠ some true

/-- Every release of the switch that comes while the client has control finds it down on the
server: its last relayed event is a press. -/
def ClientReleasesDown (c : Client) (threshold : Int32) (k : Switch) (calls : List HookCall) :
    Prop :=
  ∀ before call, before ++ [call] <+: calls →
    Releases k call → controlAfter c threshold before = .client →
      lastRelayed c threshold k before = some true

instance (c : Client) (threshold : Int32) (k : Switch) (calls : List HookCall) :
    Decidable (HostReleasesUp c threshold k calls) :=
  inferInstanceAs (Decidable (∀ _ _, _ → _ → _ → _))

instance (c : Client) (threshold : Int32) (k : Switch) (calls : List HookCall) :
    Decidable (ClientReleasesDown c threshold k calls) :=
  inferInstanceAs (Decidable (∀ _ _, _ → _ → _ → _))

/-- What a release is; and it leaves control where it is. -/
private theorem Releases.exists_event {call : HookCall} (h : Releases k call) (c : Client)
    (threshold : Int32) (calls : List HookCall) :
    ∃ event, call.event = some event ∧ eventSwitch event.data = some (k, false) ∧
      latest k (eventSwitch event.data).toList = some false ∧
      controlAfter c threshold (calls ++ [call]) = controlAfter c threshold calls := by
  obtain ⟨event, hev, hswitch⟩ := Option.bind_eq_some_iff.mp h
  have htouch : latest k (eventSwitch event.data).toList = some false := by
    rw [hswitch, Option.toList_some, latest_singleton_self]
  exact ⟨event, hev, hswitch, htouch, controlAfter_concat_of_switch hev htouch⟩

private theorem releases_of_latest {call : HookCall} {event : Event} (hev : call.event = some event)
    (h : latest k (eventSwitch event.data).toList = some false) : Releases k call := by
  rw [Releases, hev, Option.bind_some]
  rcases hswitch : eventSwitch event.data with _ | ⟨k', down⟩
  · rw [hswitch] at h
    cases h
  · rw [hswitch, Option.toList_some, latest_singleton] at h
    split_ifs at h with hk
    rw [hk, Option.some.inj h]

private theorem ne_client_iff {s : ControlState} : s ≠ .client ↔ s = .host := by
  cases s <;> decide

/-- What is written for a call has the switch of its event. -/
private theorem written_of_sent {calls : List HookCall} {call : HookCall} {bytes : List UInt8}
    (h : Returns c height threshold (calls ++ [call]))
    (hsent : (runState c height threshold (calls ++ [call])).sent =
      (runState c height threshold calls).sent ++ [bytes]) :
    controlAfter c threshold (calls ++ [call]) = .client ∧ ∃ event, call.event = some event ∧
      packetSwitch c.byteOrder (.ofBuffer bytes) = eventSwitch event.data := by
  obtain ⟨event, pkt, hev, hclient, hpkt, rfl, -⟩ :=
    exec_hookCallback_wrote (hookStep_runState h) hsent
  rw [edgeSwitcher_run h] at hclient
  refine ⟨hclient, event, hev, ?_⟩
  rw [EventPacket.ofBuffer_toBytes (Client.sized_forwarded hpkt), packetSwitch_forwarded hpkt]

/-- A switch is not stuck if the host is left with no release of it. -/
private theorem noStuck_of_hostReleasesUp {calls : List HookCall}
    (h : Returns c height threshold calls) (hup : HostReleasesUp c threshold k calls) :
    NoStuck c height threshold k calls := by
  intro before hpre
  rw [lastPacket_eq (h.of_prefix hpre)]
  intro hlast
  induction before using List.reverseRecOn with
  | nil => cases hlast
  | append_singleton before call ih =>
    have hbefore : before <+: calls := (List.prefix_append _ _).trans hpre
    have hrun := h.of_prefix hpre
    obtain ⟨event, hev, -⟩ := runState_concat hrun
    rw [← lastPacket_eq hrun, lastPacket_concat hev hrun,
      lastPacket_eq (h.of_prefix hbefore)] at hlast
    rw [lastEvent_concat before hev]
    rcases htouch : latest k (eventSwitch event.data).toList with _ | down
    · -- the switch is not touched, and stays as it was on both sides
      rw [htouch, ite_self, Option.none_or] at hlast
      exact ih hbefore hlast
    · rw [htouch] at hlast
      have hsame : controlAfter c threshold (before ++ [call]) = controlAfter c threshold before :=
        controlAfter_concat_of_switch hev htouch
      split_ifs at hlast with hclient
      · exact hlast
      · cases down with
        | true => rfl
        | false =>
          -- a release that the host keeps finds the switch up
          have hhost : controlAfter c threshold before = .host := by
            rw [← hsame]
            exact ne_client_iff.mp hclient
          exact absurd hlast (hup before call hpre (releases_of_latest hev htouch) hhost)

/-- A release that the host keeps is not written. So if it finds the switch down on the server,
the switch is stuck. -/
private theorem hostReleasesUp_of_noStuck {calls : List HookCall}
    (h : Returns c height threshold calls) (hstuck : NoStuck c height threshold k calls) :
    HostReleasesUp c threshold k calls := by
  intro before call hpre hrelease hhost hlast
  obtain ⟨event, hev, -, htouch, hsame⟩ := hrelease.exists_event c threshold before
  have hrun := h.of_prefix hpre
  have hkept : lastPacket c.byteOrder k (runState c height threshold (before ++ [call])).sent =
      some true := by
    rw [lastPacket_concat hev hrun, hsame, hhost, if_neg (by decide), Option.none_or,
      lastPacket_eq (hrun.of_prefix (List.prefix_append _ _)), hlast]
  have hdown := hstuck _ hpre hkept
  rw [lastEvent_concat before hev, htouch] at hdown
  cases hdown

/-- A release that the client meets is written, and not as an orphan. -/
private theorem clientReleasesDown_of_noOrphan {calls : List HookCall}
    (h : Returns c height threshold calls) (horphan : NoOrphan c height threshold k calls) :
    ClientReleasesDown c threshold k calls := by
  intro before call hpre hrelease hclient
  obtain ⟨event, hev, hswitch, -, hsame⟩ := hrelease.exists_event c threshold before
  have hrun := h.of_prefix hpre
  obtain ⟨event', hev', hsent⟩ := runState_concat hrun
  obtain rfl : event' = event := Option.some.inj (hev'.symm.trans hev)
  rw [hsame, hclient, if_pos rfl] at hsent
  rcases hpkt : c.forwarded call.now event'.data with _ | pkt
  · rw [eventSwitch_of_forwarded_none hpkt] at hswitch
    cases hswitch
  · rw [hpkt] at hsent
    have hnamed : packetSwitch c.byteOrder (.ofBuffer pkt.toBytes) = some (k, false) := by
      rw [EventPacket.ofBuffer_toBytes (Client.sized_forwarded hpkt),
        packetSwitch_forwarded hpkt, hswitch]
    rw [← lastPacket_eq (hrun.of_prefix (List.prefix_append _ _))]
    exact horphan before call hpre pkt.toBytes hsent hnamed

/-- What is written as a release is one that the client meets. -/
private theorem noOrphan_of_clientReleasesDown {calls : List HookCall}
    (h : Returns c height threshold calls) (hdown : ClientReleasesDown c threshold k calls) :
    NoOrphan c height threshold k calls := by
  intro before call hpre bytes hsent hrelease
  have hrun := h.of_prefix hpre
  obtain ⟨hclient, event, hev, hswitch⟩ := written_of_sent hrun hsent
  rw [hrelease] at hswitch
  have hreleases : Releases k call := by
    rw [Releases, hev, Option.bind_some, ← hswitch]
  obtain ⟨-, -, -, -, hsame⟩ := hreleases.exists_event c threshold before
  rw [lastPacket_eq (hrun.of_prefix (List.prefix_append _ _))]
  exact hdown before call hpre hreleases (hsame.symm.trans hclient)

end Run

/-- The release of the key 30. -/
def release30 : HookCall :=
  ⟨0, some ⟨0, 0, .keyReleased { keycode := 30, rawcode := 0, keychar := 0 }⟩⟩

/-- The packet that the client writes for `release30`. -/
def releasePacket30 : EventPacket := ⟨.keyRelease, 0, 4, [30, 0, 0, 0]⟩

end Sameness
