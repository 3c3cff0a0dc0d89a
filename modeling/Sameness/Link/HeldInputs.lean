import Sameness.Client.HeldKeys
import Sameness.Link.FallbackMouse
import Sameness.Link.Session

/-!
# Keys and buttons over a whole session

What the events of a client's run do to the keyboard and the buttons of the server, from the
hook to the operating system. `filterMap_posted` reads any kind of action off the posted events
once it is known for one event; the keyboard (`heldKeys_session`) and the buttons
(`heldButtons_session`) are two instances.

On macOS and in the fallback the keys that are down are those whose last relayed event is a
press, and on Windows there are none. All buttons are the left one on macOS. In the fallback a
button is taken for a number that depends on the column of the event, so a press is matched by
a release in the same column modulo 256 only (`dragged_iff`).
-/

namespace Sameness

open Bytes Cpp Eff Uiohook Runs

/-! ### Relayed events -/

section Posted

variable {c : Client} {height threshold : Int32} {o : ByteOrder} {P : Platform}

/-- What relayed packets come to, by the events that they are for. -/
theorem flatMap_relayed {κ : Type} {f : EventPacket → List κ} {g : EventData → List κ}
    (hfg : ∀ now data, (c.forwarded now data).elim [] f = g data) (calls : List HookCall) :
    (relayed c threshold calls).flatMap f = (relayedEvents c threshold calls).flatMap g := by
  have hone : ∀ i,
      (packetAt c threshold calls i).toList.flatMap f =
        ((calls[i]?.bind fun call => call.event.bind fun event =>
          if controlAfter c threshold (calls.take (i + 1)) = .client then some event.data
          else none).toList).flatMap g := by
    intro i
    rw [packetAt]
    rcases calls[i]? with _ | ⟨now, _ | event⟩
    · rfl
    · rfl
    simp only [Option.bind_some]
    split_ifs
    · rw [Option.toList_some, List.flatMap_singleton, ← hfg now event.data]
      rcases c.forwarded now event.data with _ | pkt
      · rfl
      · rw [Option.toList_some, List.flatMap_singleton, Option.elim_some]
    · rfl
  rw [relayed, relayedEvents, List.filterMap_eq_flatMap_toList, List.filterMap_eq_flatMap_toList,
    List.flatMap_assoc, List.flatMap_assoc]
  exact List.flatMap_congr fun i _ => hone i

/-- The actions of what an event comes to, by the events that its injector offers. -/
theorem filterMap_packetBatch {κ : Type} (act : OsEvent → Option κ) (o : ByteOrder) (P : Platform)
    {now : UInt64} {data : EventData} {pkt : EventPacket} {h : Handler}
    (hpkt : c.forwarded now data = some pkt) (hh : handler? pkt.type = some h) :
    ((c.forwarded now data).elim [] fun pkt =>
        (packetBatch o P pkt).filterMap fun p => act p.event) =
      ((P.events o h pkt).toOption.getD []).filterMap act := by
  obtain ⟨h', hh', hmin⟩ := minPayload_le_of_forwarded hpkt
  obtain rfl := Option.some.inj (hh'.symm.trans hh)
  rw [hpkt, Option.elim_some, packetBatch, hh, Option.elim_some, Platform.batch,
    if_neg (Nat.not_lt.mpr (hmin P))]
  rcases P.events o h' pkt with stop | evs
  · rfl
  · exact List.filterMap_map

/-- **What a run does to the server.** Where everything has arrived and could be converted, the
actions of the posted events are those of the relayed events, in order. -/
theorem filterMap_posted {κ : Type} {act : OsEvent → Option κ} {actions : EventData → List κ}
    (hactions : ∀ now data, ((c.forwarded now data).elim [] fun pkt =>
      (packetBatch o P pkt).filterMap fun p => act p.event) = actions data)
    (hos : ∀ n h, P.Takes n h) {acts : List (Channel.Action HookCall)}
    (h : Proper c height threshold o P acts)
    (hstream : (sessionAfter c height threshold o P acts).stream = [])
    (hfits : ∀ pkt ∈ relayed c threshold (Channel.inputs acts), PacketFits o P pkt) :
    ((sessionAfter c height threshold o P acts).reader.2.desktop.posted.filterMap fun p =>
        act p.event) =
      (relayedEvents c threshold (Channel.inputs acts)).flatMap actions := by
  rw [posted_of_drained hos h hstream hfits, ← flatMap_relayed hactions, List.filterMap_flatMap]

end Posted

/-! ### Keys -/

/-- What an event of the hook does to the keys of the server: a press on Windows posts the
release as well. -/
def Platform.strokes (P : Platform) : EventData → List (UInt16 × Bool)
  | .keyPressed keyboard =>
    match P with
    | windows _ => [(keyboard.keycode, true), (keyboard.keycode, false)]
    | _ => [(keyboard.keycode, true)]
  | .keyReleased keyboard => [(keyboard.keycode, false)]
  | _ => []

section Keys

variable {c : Client} {P : Platform}

/-- Between little-endian machines every injector reads the code that was written. -/
private theorem keyCode_of_little {pkt : EventPacket} {code : UInt16}
    (h : pkt.payload = ByteOrder.little.encode 4 code.toNat) : P.keyCode .little pkt = code := by
  have hlt : code.toNat < 256 ^ 4 := lt_trans code.toNat_lt (by decide)
  have hlen : (ByteOrder.little.encode 4 code.toNat).length = 4 := ByteOrder.length_encode _ _ _
  have hfour : word .little 0 4 pkt.payload = code.toNat := by
    rw [word, List.drop_zero, h, List.take_of_length_le hlen.le,
      ByteOrder.decode_encode_of_lt _ hlt]
  have htwo : word .little 0 2 pkt.payload = code.toNat := by
    have hcode : code.toNat < 256 ^ 2 := code.toNat_lt
    rw [word, List.drop_zero, ByteOrder.little_decode_take, h, ByteOrder.decode_encode_of_lt _ hlt,
      Nat.mod_eq_of_lt hcode]
  have hread : ∀ n, n = code.toNat → UInt16.ofNat n = code := by
    rintro n rfl
    exact UInt16.ofNat_toNat
  rcases P with os | os | _
  · exact hread _ hfour
  · exact hread _ hfour
  · exact hread _ htwo

/-- What a key packet posts. -/
private theorem batch_key {pkt : EventPacket} {code : UInt16} (down : Bool)
    (h : pkt.payload = ByteOrder.little.encode 4 code.toNat) :
    P.batch .little (Platform.keyHandler down) pkt =
      (P.keyEvents down pkt.timestamp code).map fun event => ⟨event, P.flags⟩ := by
  have hlen : ¬pkt.payload.length < P.minPayload (Platform.keyHandler down) := by
    rw [h, ByteOrder.length_encode]
    exact Nat.not_lt.mpr (P.minPayload_keyHandler_le down)
  rw [Platform.batch, if_neg hlen, Platform.events_keyHandler, keyCode_of_little h]

/-- What a mouse packet posts is for no key. -/
private theorem keyAction_batch {o : ByteOrder} {h : Handler}
    (hh : ∀ down, h ≠ Platform.keyHandler down) (pkt : EventPacket) :
    ((P.batch o h pkt).filterMap fun p => keyAction p.event) = [] := by
  rw [List.filterMap_eq_nil_iff, Platform.batch]
  split_ifs
  · exact fun _ hp => absurd hp List.not_mem_nil
  rcases hev : P.events o h pkt with stop | evs
  · exact fun _ hp => absurd hp List.not_mem_nil
  intro p hp
  obtain ⟨event, hevent, rfl⟩ := List.mem_map.mp hp
  cases h with
  | injectKeyPress => exact absurd rfl (hh true)
  | injectKeyRelease => exact absurd rfl (hh false)
  | injectMouseMove =>
    rcases P with os | os | _
    · obtain rfl := Except.ok.inj hev
      rw [List.mem_singleton.mp hevent]
      rfl
    · obtain ⟨dx, -, hev⟩ := bind_eq_ok hev
      obtain ⟨dy, -, hev⟩ := bind_eq_ok hev
      obtain rfl := Except.ok.inj hev
      rw [List.mem_singleton.mp hevent]
      rfl
    · obtain rfl := Except.ok.inj hev
      rw [List.mem_singleton.mp hevent]
      rfl
  | injectMouseButtonPress | injectMouseButtonRelease =>
    rcases P with os | os | _
    all_goals
      obtain rfl := Except.ok.inj hev
      rw [List.mem_singleton.mp hevent]
      rfl

/-- What a relayed event does to the keys. -/
private theorem strokes_eq (hc : c.byteOrder = .little) (now : UInt64) (data : EventData) :
    ((c.forwarded now data).elim [] fun pkt =>
      (packetBatch .little P pkt).filterMap fun p => keyAction p.event) = P.strokes data := by
  have hkey : ∀ (down : Bool) (keyboard : KeyboardEventData),
      ((P.batch .little (Platform.keyHandler down)
        ⟨if down then .keyPress else .keyRelease, now, 4,
          c.byteOrder.encode 4 keyboard.keycode.toNat⟩).filterMap fun p => keyAction p.event) =
        P.strokes (if down then .keyPressed keyboard else .keyReleased keyboard) := by
    intro down keyboard
    rw [batch_key down (by rw [hc])]
    rcases P with os | os | _
    all_goals
      cases down
      · rfl
      · rfl
  rcases data with _ | _ | _ | k | k | _ | m | m | m | _ | _
  case keyPressed => exact hkey true k
  case keyReleased => exact hkey false k
  case mousePressed | mouseReleased | mouseMoved =>
    refine keyAction_batch (fun down hh => ?_) _
    cases down
    · cases hh
    · cases hh
  all_goals rfl

/-- On Windows every event leaves its key up. -/
private theorem latest_strokes_windows (os : Windows) (k : UInt16) (data : EventData) :
    latest k ((Platform.windows os).strokes data) ≠ some true := by
  -- the release of a key is posted right after its press
  have hpress : ∀ code : UInt16, latest k [(code, true), (code, false)] ≠ some true := by
    intro code
    have hsplit : [(code, true), (code, false)] = [(code, true)] ++ [(code, false)] := rfl
    rw [hsplit, latest_append, latest_singleton, latest_singleton]
    split_ifs
    · exact nofun
    · exact nofun
  have hrelease : ∀ code : UInt16, latest k [(code, false)] ≠ some true := by
    intro code
    rw [latest_singleton]
    split_ifs
    · exact nofun
    · exact nofun
  rcases data with _ | _ | _ | keyboard | keyboard | _ | _ | _ | _ | _ | _
  case keyPressed => exact hpress keyboard.keycode
  case keyReleased => exact hrelease keyboard.keycode
  all_goals exact nofun

/-- Elsewhere it moves its own key. -/
private theorem latest_strokes (hP : ∀ os, P ≠ .windows os) (k : UInt16) (data : EventData) :
    latest k (P.strokes data) = latest (Switch.key k) (eventSwitch data).toList := by
  have hkey : ∀ (code : UInt16) (down : Bool),
      latest k [(code, down)] = latest (Switch.key k) [(Switch.key code, down)] := by
    intro code down
    simp only [latest_singleton, Switch.key.injEq]
  have hbutton : ∀ (b : UInt8) (down : Bool),
      none = latest (Switch.key k) [(Switch.button b, down)] := by
    intro b down
    rw [latest_singleton, if_neg fun h => by cases h]
  rcases data with _ | _ | _ | keyboard | keyboard | _ | mouse | mouse | _ | _ | _
  case keyPressed =>
    rcases P with os | os | _
    · exact hkey _ _
    · exact absurd rfl (hP os)
    · exact hkey _ _
  case keyReleased => exact hkey _ _
  case mousePressed | mouseReleased => exact hbutton _ _
  all_goals rfl

end Keys

section Session

variable {c : Client} {height threshold : Int32} {P : Platform}
  {acts : List (Channel.Action HookCall)}

/-- **The keys of the server.** Between little-endian machines, on macOS and in the fallback the
keys that are down after a session are those whose last relayed event is a press; on Windows no
key is down. -/
theorem heldKeys_session (hc : c.byteOrder = .little) (hos : ∀ n h, P.Takes n h)
    (h : Proper c height threshold .little P acts)
    (hstream : (sessionAfter c height threshold .little P acts).stream = [])
    (hfits : ∀ pkt ∈ relayed c threshold (Channel.inputs acts), PacketFits .little P pkt) :
    held ((sessionAfter c height threshold .little P acts).reader.2.desktop.posted.filterMap
        fun p => keyAction p.event) =
      {k | (∀ os, P ≠ .windows os) ∧
        latest (Switch.key k) ((relayedEvents c threshold (Channel.inputs acts)).filterMap
          eventSwitch) = some true} := by
  rw [filterMap_posted (strokes_eq hc) hos h hstream hfits]
  ext k
  rw [mem_held_iff, Set.mem_ofPred_eq, List.filterMap_eq_flatMap_toList]
  by_cases hP : ∀ os, P ≠ .windows os
  · rw [and_iff_right hP, latest_flatMap_congr (latest_strokes hP k)]
  · refine iff_of_false (fun hdown => ?_) fun hdown => hP hdown.1
    obtain ⟨data, -, hdata⟩ := exists_of_latest_flatMap hdown
    rcases P with os | os | _
    · exact hP (Platform.macOS_ne_windows os)
    · exact latest_strokes_windows os k data hdata
    · exact hP Platform.uiohook_ne_windows

end Session

/-! ### Buttons -/

/-- The button that an event moves, with its direction. -/
def buttonAction : OsEvent → Option (UInt16 × Bool)
  | .cgMouse .leftMouseDown _ _ _ => some (1, true)
  | .cgMouse .leftMouseUp _ _ _ => some (1, false)
  | .uiohook ⟨_, _, .mousePressed mouse⟩ => some (mouse.button, true)
  | .uiohook ⟨_, _, .mouseReleased mouse⟩ => some (mouse.button, false)
  | _ => none

/-- The button that is posted for a button of the host: the left one on macOS; in the fallback
the low byte of the button, and above it that of the relative column. -/
def Platform.buttonId (P : Platform) (c : Client) (mouse : MouseEventData) : UInt16 :=
  match P with
  | uiohook => .ofNat (mouse.button.toUInt8.toNat +
      256 * ((mouse.x.toInt - c.hostScreenWidth.toInt) % 256).toNat)
  | _ => 1

/-- What an event of the hook does to the buttons of the server. -/
def Platform.clicks (P : Platform) (c : Client) : EventData → List (UInt16 × Bool)
  | .mousePressed mouse => [(P.buttonId c mouse, true)]
  | .mouseReleased mouse => [(P.buttonId c mouse, false)]
  | _ => []

section Buttons

variable {c : Client} {P : Platform}

/-- The first two bytes of a button payload. -/
private theorem word_buttonId (hc : c.byteOrder = .little) (mouse : MouseEventData) :
    UInt16.ofNat (word .little 0 2 (mouse.button.toUInt8 :: c.coords mouse)) =
      Platform.uiohook.buttonId c mouse := by
  have hx := value_int32Bytes hc (mouse.x.toInt - c.hostScreenWidth.toInt)
  have hb := mouse.button.toUInt8.toNat_lt
  have hcoords : value (c.coords mouse) % 256 =
      ((mouse.x.toInt - c.hostScreenWidth.toInt) % 256).toNat := by
    rw [Client.coords, value_append, Client.int32Bytes, ByteOrder.length_encode,
      ← Client.int32Bytes]
    omega
  rw [word_little, value_cons, Platform.buttonId, ← hcoords]
  congr 1
  omega

/-- What a relayed event does to the buttons. -/
private theorem clicks_eq (hc : c.byteOrder = .little) (hP : ∀ os, P ≠ .windows os) (now : UInt64)
    (data : EventData) :
    ((c.forwarded now data).elim [] fun pkt =>
      (packetBatch .little P pkt).filterMap fun p => buttonAction p.event) = P.clicks c data := by
  rcases hpkt : c.forwarded now data with _ | pkt
  · rcases data with _ | _ | _ | _ | _ | _ | _ | _ | _ | _ | _ <;> first | rfl | cases hpkt
  rw [← hpkt]
  rcases P with os | os | _
  case windows => exact absurd rfl (hP os)
  case macOS =>
    obtain ⟨k, rfl, rfl⟩ | ⟨k, rfl, rfl⟩ | ⟨m, rfl, rfl⟩ | ⟨m, rfl, rfl⟩ | ⟨m, rfl, rfl⟩ :=
      Client.forwarded_eq_some hpkt
    all_goals exact filterMap_packetBatch buttonAction .little (.macOS os) hpkt rfl
  case uiohook =>
    obtain ⟨k, rfl, rfl⟩ | ⟨k, rfl, rfl⟩ | ⟨m, rfl, rfl⟩ | ⟨m, rfl, rfl⟩ | ⟨m, rfl, rfl⟩ :=
      Client.forwarded_eq_some hpkt
    all_goals rw [filterMap_packetBatch buttonAction .little .uiohook hpkt rfl]
    · rfl
    · rfl
    · exact congrArg (fun b => [(b, true)]) (word_buttonId hc m)
    · exact congrArg (fun b => [(b, false)]) (word_buttonId hc m)
    · rfl

variable {height threshold : Int32} {acts : List (Channel.Action HookCall)}

/-- A button is down after a session if its last relayed event is a press. -/
private theorem mem_heldButtons (hc : c.byteOrder = .little) (hP : ∀ os, P ≠ .windows os)
    (hos : ∀ n h, P.Takes n h) (h : Proper c height threshold .little P acts)
    (hstream : (sessionAfter c height threshold .little P acts).stream = []) (b : UInt16) :
    b ∈ held ((sessionAfter c height threshold .little P
        acts).reader.2.desktop.posted.filterMap fun p => buttonAction p.event) ↔
      latest b ((relayedEvents c threshold (Channel.inputs acts)).flatMap (P.clicks c)) =
        some true := by
  have hfits : ∀ pkt ∈ relayed c threshold (Channel.inputs acts), PacketFits .little P pkt :=
    fun pkt _ => packetFits_of_not_windows hP pkt
  rw [filterMap_posted (clicks_eq hc hP) hos h hstream hfits, mem_held_iff]

/-- **The buttons of the server.** Between little-endian machines, on macOS and in the fallback,
the buttons that are down after a session are those whose last relayed event is a press, by the
numbers that are posted for them. -/
theorem heldButtons_session (hc : c.byteOrder = .little) (hP : ∀ os, P ≠ .windows os)
    (hos : ∀ n h, P.Takes n h) (h : Proper c height threshold .little P acts)
    (hstream : (sessionAfter c height threshold .little P acts).stream = []) :
    held ((sessionAfter c height threshold .little P acts).reader.2.desktop.posted.filterMap
        fun p => buttonAction p.event) =
      {b | latest b ((relayedEvents c threshold (Channel.inputs acts)).flatMap (P.clicks c)) =
        some true} := by
  ext b
  exact mem_heldButtons hc hP hos h hstream b

/-- The numbers of a press and a release of the same button agree exactly if their columns do
modulo 256. -/
private theorem buttonId_eq_iff {mouse mouse' : MouseEventData}
    (hbutton : mouse.button = mouse'.button) :
    Platform.uiohook.buttonId c mouse = Platform.uiohook.buttonId c mouse' ↔
      mouse.x.toInt % 256 = mouse'.x.toInt % 256 := by
  have hb := mouse'.button.toUInt8.toNat_lt
  rw [Platform.buttonId, Platform.buttonId, hbutton, ← UInt16.toNat_inj, UInt16.toNat_ofNat',
    UInt16.toNat_ofNat']
  omega

/-- **Drags in the fallback.** When the last relayed events of the buttons are a press and a
release of the same button, the button that was pressed stays down exactly if the two columns
differ modulo 256. -/
theorem dragged_iff (hc : c.byteOrder = .little)
    (h : Proper c height threshold .little .uiohook acts)
    (hstream : (sessionAfter c height threshold .little .uiohook acts).stream = [])
    {before between after : List EventData} {mouse mouse' : MouseEventData}
    (hrelayed : relayedEvents c threshold (Channel.inputs acts) =
      before ++ .mousePressed mouse :: (between ++ .mouseReleased mouse' :: after))
    (hquiet : ∀ data ∈ between ++ after, Platform.uiohook.clicks c data = [])
    (hbutton : mouse.button = mouse'.button) :
    Platform.uiohook.buttonId c mouse ∈
        held ((sessionAfter c height threshold .little .uiohook
          acts).reader.2.desktop.posted.filterMap fun p => buttonAction p.event) ↔
      mouse.x.toInt % 256 ≠ mouse'.x.toInt % 256 := by
  obtain ⟨hbetween, hafter⟩ := List.forall_mem_append.mp hquiet
  have hclicks : (relayedEvents c threshold (Channel.inputs acts)).flatMap
        (Platform.uiohook.clicks c) =
      (before.flatMap (Platform.uiohook.clicks c) ++
        [(Platform.uiohook.buttonId c mouse, true)]) ++
          [(Platform.uiohook.buttonId c mouse', false)] := by
    rw [hrelayed]
    simp [List.flatMap_append, List.flatMap_eq_nil_iff.mpr hbetween,
      List.flatMap_eq_nil_iff.mpr hafter, Platform.clicks]
  have htakes : ∀ n h, Platform.uiohook.Takes n h := fun _ _ => trivial
  -- the press stays the last entry for its number unless the release has the same
  rw [mem_heldButtons hc Platform.uiohook_ne_windows htakes h hstream, hclicks, latest_append,
    latest_singleton, latest_append, latest_singleton_self, ne_eq,
    ← buttonId_eq_iff hbutton (c := c)]
  split_ifs with hid
  · exact iff_of_false (fun h => by cases h) (not_not.mpr hid.symm)
  · exact iff_of_true rfl (Ne.symm hid)

end Buttons

/-! ### A key and a drag -/

/-- A move over the edge and a key, which the server has read. -/
def pressArrived : List (Channel.Action HookCall) :=
  [.write (moveTo 1919), .read 21, .write press30, .read 17]

/-- The packet of the move is one that the client writes. -/
private theorem move1919_mem :
    (⟨.mouseMove, 0, 8, [255, 255, 255, 255, 244, 1, 0, 0]⟩ : EventPacket) ∈
      defaultClient.packets :=
  ⟨0, .mouseMoved { button := 0, clicks := 0, x := 1919, y := 500 }, by decide⟩

private theorem proper_pressArrived :
    Proper defaultClient 1080 20 .little .uiohook pressArrived := by
  have hpress : keyPressPacket ∈ defaultClient.packets := ⟨0, keyPressEvent.data, by decide⟩
  refine ⟨⟨trivial, ⟨_, move1919_mem, by decide⟩, trivial, ⟨_, hpress, by decide⟩, trivial⟩, ?_⟩
  decide

theorem heldKeys_session_press :
    held ((sessionAfter defaultClient 1080 20 .little .uiohook
        pressArrived).reader.2.desktop.posted.filterMap fun p => keyAction p.event) =
      {k | (∀ os, Platform.uiohook ≠ .windows os) ∧
        latest (Switch.key k) ((relayedEvents defaultClient 20
          (Channel.inputs pressArrived)).filterMap eventSwitch) = some true} :=
  heldKeys_session (P := .uiohook) rfl (fun _ _ => trivial) proper_pressArrived (by decide)
    fun pkt _ => packetFits_of_not_windows Platform.uiohook_ne_windows pkt

def leftRelease : Event :=
  ⟨0, 0, .mouseReleased { button := 1, clicks := 1, x := 961, y := 500 }⟩

/-- A move over the edge and a drag of the left button by one column. -/
def dragOne : List (Channel.Action HookCall) :=
  [.write (moveTo 1919), .write ⟨0, some leftPress⟩, .read 21, .write ⟨0, some leftRelease⟩,
    .read 22, .read 22]

private theorem proper_dragOne : Proper defaultClient 1080 20 .little .uiohook dragOne := by
  have hpress : leftPressPacket ∈ defaultClient.packets := ⟨0, leftPress.data, by decide⟩
  have hrelease : (⟨.mouseButtonRelease, 0, 9, [1, 65, 252, 255, 255, 244, 1, 0, 0]⟩ :
      EventPacket) ∈ defaultClient.packets := ⟨0, leftRelease.data, by decide⟩
  refine ⟨⟨trivial, trivial, ⟨_, move1919_mem, ?_⟩, trivial, ⟨_, hpress, ?_⟩,
    ⟨_, hrelease, ?_⟩, trivial⟩, ?_⟩
  all_goals decide

theorem heldButtons_session_drag :
    held ((sessionAfter defaultClient 1080 20 .little .uiohook
        dragOne).reader.2.desktop.posted.filterMap fun p => buttonAction p.event) =
      {b | latest b ((relayedEvents defaultClient 20 (Channel.inputs dragOne)).flatMap
        (Platform.uiohook.clicks defaultClient)) = some true} :=
  heldButtons_session (P := .uiohook) rfl Platform.uiohook_ne_windows (fun _ _ => trivial)
    proper_dragOne (by decide)

/-- The button 1 was pressed in the column -960, whose low byte is 64. -/
theorem dragged_iff_one :
    (16385 : UInt16) ∈ held ((sessionAfter defaultClient 1080 20 .little .uiohook
        dragOne).reader.2.desktop.posted.filterMap fun p => buttonAction p.event) := by
  have hquiet : ∀ data ∈ ([] : List EventData) ++ [],
      Platform.uiohook.clicks defaultClient data = [] := nofun
  have hid : Platform.uiohook.buttonId defaultClient
      { button := 1, clicks := 1, x := 960, y := 500 } = 16385 := by decide
  rw [← hid]
  have hrelayed : relayedEvents defaultClient 20 (Channel.inputs dragOne) =
      [.mouseMoved { button := 0, clicks := 0, x := 1919, y := 500 }] ++
        leftPress.data :: ([] ++ leftRelease.data :: []) := by decide
  exact (dragged_iff rfl proper_dragOne (by decide) hrelayed hquiet rfl).mpr (by decide)

end Sameness
