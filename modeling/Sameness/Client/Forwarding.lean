import Sameness.Client.HookCallback
import Sameness.Library.Runs

/-!
# What a run of the client writes

A run is a sequence of calls of the hook callback from a fresh switcher. Its specification
does not mention the switcher: `control` is the decision of the last mouse move near an edge,
or the host's if there is none, and `packetAt` is the packet of one call, read off the event
and the calls up to it. `sent_eq_filterMap_packetAt` says that a run whose calls all return
has written exactly these packets, in order.

The induction carries the switcher: it is the fresh one with `control` for its state
(`edgeSwitcher_run`).
-/

namespace Sameness

open Cpp Eff Uiohook Runs

/-- A call of the callback as a step. -/
def hookStep (c : Client) (call : HookCall) (s : ClientState) :
    Except (Stop ClientException) Unit × ClientState :=
  exec (hookCallback c call) s

/-- What the events of some calls come to, with one call more. -/
theorem filterMap_event_concat {β : Type} (f : EventData → Option β) (calls : List HookCall)
    {call : HookCall} {event : Event} (h : call.event = some event) :
    ((calls ++ [call]).filterMap fun call => call.event.bind fun event => f event.data) =
      (calls.filterMap fun call => call.event.bind fun event => f event.data) ++
        (f event.data).toList := by
  rw [List.filterMap_append, List.filterMap_eq_flatMap_toList _ [call], List.flatMap_singleton, h,
    Option.bind_some]

/-! ### Control -/

/-- The decision that an event makes: that of a mouse move near an edge. -/
def edgeDecision (width threshold : ℤ) : EventData → Option ControlState
  | .mouseMoved mouse =>
    let x := mouse.x.toInt
    if (width - threshold ≤ x ∧ x ≤ width + 5) ∨ (-5 ≤ x ∧ x ≤ threshold) then
      some (if x > width.tdiv 2 then .client else .host)
    else none
  | _ => none

/-- The control state after some calls: the last decision, or the host's. -/
def control (width threshold : ℤ) (calls : List HookCall) : ControlState :=
  ((calls.filterMap fun call => call.event.bind fun event =>
    edgeDecision width threshold event.data).getLast?).getD .host

theorem control_concat {width threshold : ℤ} (calls : List HookCall) {call : HookCall}
    {event : Event} (h : call.event = some event) :
    control width threshold (calls ++ [call]) =
      (edgeDecision width threshold event.data).getD (control width threshold calls) := by
  rw [control, filterMap_event_concat _ calls h]
  rcases edgeDecision width threshold event.data with _ | decision
  · rw [Option.toList_none, List.append_nil]
    rfl
  · rw [Option.toList_some, List.getLast?_concat]
    rfl

/-- An event moves the switcher to its decision, if it makes one. -/
theorem ScreenEdgeSwitcher.observe_eq (sw : ScreenEdgeSwitcher) (data : EventData) :
    sw.observe data =
      { sw with state :=
          (edgeDecision sw.hostWidth.toInt sw.edgeThreshold.toInt data).getD sw.state } := by
  rcases data with _ | _ | _ | _ | _ | _ | _ | _ | m | _ | _
  case mouseMoved =>
    have hdecision : edgeDecision sw.hostWidth.toInt sw.edgeThreshold.toInt (.mouseMoved m) =
        if sw.Near m.x.toInt then some (sw.decision m.x.toInt) else none := rfl
    rw [observe, moved, hdecision]
    by_cases hnear : sw.Near m.x.toInt
    · rw [if_pos hnear, if_pos hnear, Option.getD_some]
    · rw [if_neg hnear, if_neg hnear, Option.getD_none]
  all_goals rfl

/-! ### Runs -/

section Run

variable (c : Client) (height threshold : Int32)

/-- The state of the client after some calls. -/
def runState (calls : List HookCall) : ClientState :=
  final (hookStep c) calls (.fresh c height threshold)

/-- No call throws, no write fails, and no arithmetic overflows. -/
def Returns (calls : List HookCall) : Prop :=
  ∀ r ∈ results (hookStep c) calls (.fresh c height threshold), r = .ok ()

instance (calls : List HookCall) : Decidable (Returns c height threshold calls) :=
  inferInstanceAs (Decidable (∀ r ∈ _, _))

/-- The control state after some calls. -/
def controlAfter (calls : List HookCall) : ControlState :=
  control c.hostScreenWidth.toInt threshold.toInt calls

/-- The switcher after some calls. -/
def switcherAfter (calls : List HookCall) : ScreenEdgeSwitcher where
  hostWidth := c.hostScreenWidth
  hostHeight := height
  edgeThreshold := threshold
  state := controlAfter c threshold calls

/-- The packet for call `i`. -/
def packetAt (calls : List HookCall) (i : ℕ) : Option EventPacket :=
  calls[i]?.bind fun call => call.event.bind fun event =>
    if controlAfter c threshold (calls.take (i + 1)) = .client then
      c.forwarded call.now event.data
    else none

variable {c height threshold}

theorem switcherAfter_concat (calls : List HookCall) {call : HookCall} {event : Event}
    (hev : call.event = some event) :
    switcherAfter c height threshold (calls ++ [call]) =
      (switcherAfter c height threshold calls).observe event.data := by
  have hcontrol : controlAfter c threshold (calls ++ [call]) = _ := control_concat calls hev
  rw [ScreenEdgeSwitcher.observe_eq, switcherAfter, hcontrol]
  rfl

/-- A run that returns does so up to any point. -/
theorem Returns.of_prefix {calls calls' : List HookCall} (h : Returns c height threshold calls)
    (hpre : calls' <+: calls) : Returns c height threshold calls' := by
  obtain ⟨rest, rfl⟩ := hpre
  intro r hr
  refine h r ?_
  rw [results_append]
  exact List.mem_append_left _ hr

/-- The switcher of a run. -/
theorem edgeSwitcher_run {calls : List HookCall} (h : Returns c height threshold calls) :
    (runState c height threshold calls).edgeSwitcher = switcherAfter c height threshold calls := by
  let I (calls : List HookCall) (s : ClientState) : Prop :=
    s.edgeSwitcher = switcherAfter c height threshold calls
  refine final_induction (I := I) rfl (fun calls call r s' hstep hr ih => ?_) h
  obtain rfl : r = .ok () := hr
  obtain ⟨event, hev, hsw, -⟩ := exec_hookCallback_ok hstep
  change s'.edgeSwitcher = _
  rw [hsw, ih, switcherAfter_concat calls hev]

/-- The last call of a run that returns. -/
theorem hookStep_runState {calls : List HookCall} {call : HookCall}
    (h : Returns c height threshold (calls ++ [call])) :
    hookStep c call (runState c height threshold calls)
      = (.ok (), runState c height threshold (calls ++ [call])) := by
  rw [runState, runState, final_concat]
  exact Prod.ext (result_of_split h).2 rfl

/-- What the last call of a run writes. -/
theorem runState_concat {calls : List HookCall} {call : HookCall}
    (h : Returns c height threshold (calls ++ [call])) :
    ∃ event, call.event = some event ∧
      (runState c height threshold (calls ++ [call])).sent =
        (runState c height threshold calls).sent ++
          ((if controlAfter c threshold (calls ++ [call]) = .client then
              c.forwarded call.now event.data
            else none).map EventPacket.toBytes).toList := by
  obtain ⟨event, hev, hsw, hsent, -⟩ := exec_hookCallback_ok (hookStep_runState h)
  refine ⟨event, hev, ?_⟩
  rw [hsent, Client.written, ← hsw, edgeSwitcher_run h, switcherAfter]

theorem packetAt_append {calls : List HookCall} {i : ℕ} (hi : i < calls.length)
    (rest : List HookCall) :
    packetAt c threshold (calls ++ rest) i = packetAt c threshold calls i := by
  rw [packetAt, packetAt, List.getElem?_append_left hi, List.take_append_of_le_length hi]

theorem packetAt_concat_length (calls : List HookCall) {call : HookCall} {event : Event}
    (hev : call.event = some event) :
    packetAt c threshold (calls ++ [call]) calls.length =
      if controlAfter c threshold (calls ++ [call]) = .client then
        c.forwarded call.now event.data
      else none := by
  rw [packetAt, List.getElem?_concat_length, Option.bind_some, hev, Option.bind_some,
    List.take_of_length_le (by rw [List.length_append, List.length_singleton])]

theorem sized_packetAt {calls : List HookCall} {i : ℕ} {pkt : EventPacket}
    (h : packetAt c threshold calls i = some pkt) : pkt.Sized := by
  obtain ⟨call, -, h⟩ := Option.bind_eq_some_iff.mp h
  obtain ⟨event, -, h⟩ := Option.bind_eq_some_iff.mp h
  split_ifs at h
  exact Client.sized_forwarded h

/-- **What a run writes.** In order, the packets of its calls, each of its declared size. -/
theorem sent_eq_filterMap_packetAt {calls : List HookCall}
    (h : Returns c height threshold calls) :
    (runState c height threshold calls).sent =
        (List.range calls.length).filterMap
          (fun i => (packetAt c threshold calls i).map EventPacket.toBytes) ∧
      ∀ i pkt, packetAt c threshold calls i = some pkt → pkt.Sized := by
  refine ⟨?_, fun i pkt hpkt => sized_packetAt hpkt⟩
  induction calls using List.reverseRecOn with
  | nil => rfl
  | append_singleton calls call ih =>
    obtain ⟨event, hev, hsent⟩ := runState_concat h
    have hcalls := h.of_prefix (List.prefix_append calls [call])
    -- the packets of the earlier calls do not depend on the last one
    have hbefore : ∀ i ∈ List.range calls.length,
        (packetAt c threshold (calls ++ [call]) i).map EventPacket.toBytes =
          (packetAt c threshold calls i).map EventPacket.toBytes := fun i hi => by
      rw [packetAt_append (List.mem_range.mp hi)]
    rw [hsent, ih hcalls, List.length_append, List.length_singleton, List.range_succ,
      List.filterMap_append, List.filterMap_congr hbefore,
      List.filterMap_eq_flatMap_toList _ [calls.length], List.flatMap_singleton,
      packetAt_concat_length calls hev]

end Run

/-- A client with the default width on a little-endian machine, with a socket that works. -/
def defaultClient : Client := ⟨1920, .little, fun _ => none⟩

/-- A mouse move. -/
def moveTo (x : Int16) : HookCall :=
  ⟨0, some ⟨0, 0, .mouseMoved { button := 0, clicks := 0, x := x, y := 500 }⟩⟩

/-- A press of the key 30. -/
def press30 : HookCall :=
  ⟨0, some ⟨0, 0, .keyPressed { keycode := 30, rawcode := 0, keychar := 0 }⟩⟩

/-- A move over the right edge, a key, and a move back. -/
theorem sent_press30 :
    (runState defaultClient 1080 20 [moveTo 1919, press30, moveTo 5]).sent =
        (List.range 3).filterMap (fun i =>
          (packetAt defaultClient 20 [moveTo 1919, press30, moveTo 5] i).map
            EventPacket.toBytes) ∧
      ∀ i pkt, packetAt defaultClient 20 [moveTo 1919, press30, moveTo 5] i = some pkt →
        pkt.Sized :=
  sent_eq_filterMap_packetAt (by decide)

end Sameness
