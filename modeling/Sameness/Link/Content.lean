import Sameness.Link.Session

/-!
# What the stream tells

A packet tells when its event was met and what it was, up to what the callback leaves out: of a
key its code, of a button its low byte and the point, of a move the point. `Content` is what is
left, and `stream_eq_iff` says that it is exact: two runs of a client write the same stream if
and only if the events that are relayed have the same contents at the same times. Nothing else
of a run can be learnt from the stream, and all of this can.

The times are those of the calls, in their order, and in the fallback they are the times of the
posted events: `times_posted` matches the events that are posted in a session with what the client
has told, one by one.
-/

namespace Sameness

open Bytes Cpp Eff Uiohook Runs

/-- What a packet says of its event. -/
inductive Content where
  | key (down : Bool) (keycode : UInt16)
  | button (down : Bool) (number : UInt8) (x y : Int16)
  | move (x y : Int16)
  deriving DecidableEq, Repr

/-- What is told of an event, if it is of a kind that is forwarded. -/
def content : EventData → Option Content
  | .keyPressed keyboard => some (.key true keyboard.keycode)
  | .keyReleased keyboard => some (.key false keyboard.keycode)
  | .mousePressed mouse => some (.button true mouse.button.toUInt8 mouse.x mouse.y)
  | .mouseReleased mouse => some (.button false mouse.button.toUInt8 mouse.x mouse.y)
  | .mouseMoved mouse => some (.move mouse.x mouse.y)
  | _ => none

/-- The packet with a content. -/
def Client.packetFor (c : Client) (now : UInt64) : Content → EventPacket
  | .key down keycode =>
    ⟨if down then .keyPress else .keyRelease, now, 4, c.byteOrder.encode 4 keycode.toNat⟩
  | .button down number x y =>
    ⟨if down then .mouseButtonPress else .mouseButtonRelease, now, 9,
      number :: (c.int32Bytes (x.toInt - c.hostScreenWidth.toInt) ++ c.int32Bytes y.toInt)⟩
  | .move x y =>
    ⟨.mouseMove, now, 8,
      c.int32Bytes (x.toInt - c.hostScreenWidth.toInt) ++ c.int32Bytes y.toInt⟩

/-! ### Packets -/

section Packets

variable {c : Client}

theorem forwarded_eq_map (now : UInt64) (data : EventData) :
    c.forwarded now data = (content data).map (c.packetFor now) := by
  rcases data with _ | _ | _ | k | k | _ | m | m | m | _ | _
  all_goals rfl

/-- The image of an `int32_t` determines it up to overflow. -/
private theorem int32Bytes_inj {z w : ℤ} (h : c.int32Bytes z = c.int32Bytes w) :
    z % 2 ^ 32 = w % 2 ^ 32 := by
  have hdecode := congrArg c.byteOrder.decode h
  rw [Client.int32Bytes, Client.int32Bytes,
    ByteOrder.decode_encode_of_lt _ (UInt32.ofInt z).toNat_lt,
    ByteOrder.decode_encode_of_lt _ (UInt32.ofInt w).toNat_lt] at hdecode
  rw [← toNat_ofInt z, ← toNat_ofInt w, hdecode]

/-- The two coordinates determine the point. -/
private theorem point_inj {x y x' y' : Int16}
    (h : c.int32Bytes (x.toInt - c.hostScreenWidth.toInt) ++ c.int32Bytes y.toInt =
      c.int32Bytes (x'.toInt - c.hostScreenWidth.toInt) ++ c.int32Bytes y'.toInt) :
    x = x' ∧ y = y' := by
  have hlen : ∀ z w, (c.int32Bytes z).length = (c.int32Bytes w).length := fun z w => by
    rw [Client.int32Bytes, Client.int32Bytes, ByteOrder.length_encode, ByteOrder.length_encode]
  obtain ⟨hx, hy⟩ := List.append_inj h (hlen _ _)
  have hx' := int32Bytes_inj hx
  have hy' := int32Bytes_inj hy
  -- a difference of two 16-bit numbers is no multiple of `2 ^ 32` but zero
  have hrange : ∀ z : Int16, -32768 ≤ z.toInt ∧ z.toInt < 32768 := fun z =>
    ⟨z.le_toInt, z.toInt_lt⟩
  have hxs := hrange x
  have hxs' := hrange x'
  have hys := hrange y
  have hys' := hrange y'
  exact ⟨Int16.toInt_inj.mp (by omega), Int16.toInt_inj.mp (by omega)⟩

/-- The type of a packet determines the kind of its content. -/
private theorem type_packetFor (now : UInt64) (a : Content) :
    (c.packetFor now a).type.value =
      match a with
      | .key down _ => if down then 1 else 2
      | .move _ _ => 3
      | .button down _ _ _ => if down then 4 else 5 := by
  cases a with
  | key down code => cases down <;> rfl
  | button down number x y => cases down <;> rfl
  | move x y => rfl

/-- **A packet determines its time and its content.** -/
theorem packetFor_inj {now now' : UInt64} {a b : Content} :
    c.packetFor now a = c.packetFor now' b ↔ now = now' ∧ a = b := by
  refine ⟨fun h => ?_, fun ⟨hnow, hab⟩ => by rw [hnow, hab]⟩
  have hnow : now = now' := by
    have htime := congrArg EventPacket.timestamp h
    cases a <;> cases b <;> exact htime
  have htype := congrArg (fun pkt => pkt.type.value) h
  have hpayload := congrArg EventPacket.payload h
  simp only [type_packetFor] at htype
  -- the type separates the kinds and directions, and the payload the contents of one kind
  refine ⟨hnow, ?_⟩
  rcases a with ⟨down, code⟩ | ⟨down, number, x, y⟩ | ⟨x, y⟩
  · rcases b with ⟨down', code'⟩ | ⟨down', number', x', y'⟩ | ⟨x', y'⟩
    · have hcode : code.toNat = code'.toNat := by
        have hlt : ∀ k : UInt16, k.toNat < 256 ^ 4 := fun k => lt_trans k.toNat_lt (by decide)
        have hdecode := congrArg c.byteOrder.decode hpayload
        rwa [Client.packetFor, Client.packetFor, ByteOrder.decode_encode_of_lt _ (hlt _),
          ByteOrder.decode_encode_of_lt _ (hlt _)] at hdecode
      obtain rfl := UInt16.toNat_inj.mp hcode
      cases down <;> cases down' <;> simp_all
    · cases down <;> cases down' <;> simp at htype
    · cases down <;> simp at htype
  · rcases b with ⟨down', code'⟩ | ⟨down', number', x', y'⟩ | ⟨x', y'⟩
    · cases down <;> cases down' <;> simp at htype
    · obtain ⟨rfl, hpoint⟩ := List.cons.inj hpayload
      obtain ⟨rfl, rfl⟩ := point_inj hpoint
      cases down <;> cases down' <;> simp_all
    · cases down <;> simp at htype
  · rcases b with ⟨down', code'⟩ | ⟨down', number', x', y'⟩ | ⟨x', y'⟩
    · cases down' <;> simp at htype
    · cases down' <;> simp at htype
    · obtain ⟨rfl, rfl⟩ := point_inj hpayload
      rfl

end Packets

/-! ### Runs -/

section Run

variable {c : Client} {height height' threshold threshold' : Int32}

/-- What the packet of call `i` tells, and when. -/
def toldAt (c : Client) (threshold : Int32) (calls : List HookCall) (i : ℕ) :
    Option (UInt64 × Content) :=
  calls[i]?.bind fun call => call.event.bind fun event =>
    if controlAfter c threshold (calls.take (i + 1)) = .client then
      (content event.data).map (call.now, ·)
    else none

/-- What is told over a run, in order. -/
def told (c : Client) (threshold : Int32) (calls : List HookCall) : List (UInt64 × Content) :=
  (List.range calls.length).filterMap (toldAt c threshold calls)

theorem packetAt_eq_map (calls : List HookCall) (i : ℕ) :
    packetAt c threshold calls i =
      (toldAt c threshold calls i).map fun e => c.packetFor e.1 e.2 := by
  rw [packetAt, toldAt]
  rcases calls[i]? with _ | ⟨now, _ | event⟩
  · rfl
  · rfl
  simp only [Option.bind_some]
  split_ifs
  · rw [forwarded_eq_map, Option.map_map]
    rfl
  · rfl

theorem relayed_eq_map (calls : List HookCall) :
    relayed c threshold calls = (told c threshold calls).map fun e => c.packetFor e.1 e.2 := by
  rw [relayed, told, List.map_filterMap]
  exact List.filterMap_congr fun i _ => packetAt_eq_map calls i

/-- The stream of a run that returns is that of the packets to relay. -/
theorem flatten_sent {calls : List HookCall} (h : Returns c height threshold calls) :
    (runState c height threshold calls).sent.flatten =
      (relayed c threshold calls).flatMap EventPacket.toBytes := by
  rw [sent_runState h, List.flatMap_def]

/-- **What the stream tells.** Two runs of a client whose calls return write the same stream if
and only if the same contents are relayed at the same times. -/
theorem stream_eq_iff {calls calls' : List HookCall} (h : Returns c height threshold calls)
    (h' : Returns c height' threshold' calls') :
    (runState c height threshold calls).sent.flatten =
        (runState c height' threshold' calls').sent.flatten ↔
      told c threshold calls = told c threshold' calls' := by
  have hinj : Function.Injective fun e : UInt64 × Content => c.packetFor e.1 e.2 :=
    fun _ _ heq => Prod.ext_iff.mpr (packetFor_inj.mp heq)
  rw [flatten_sent h, flatten_sent h']
  constructor
  · intro hstream
    -- the stream determines the packets, and each packet its time and content
    have hpackets := c.selfDelimiting.flatMap_inj mem_packets_of_relayed mem_packets_of_relayed
      hstream
    rw [relayed_eq_map, relayed_eq_map] at hpackets
    exact hinj.list_map hpackets
  · intro htold
    rw [relayed_eq_map, relayed_eq_map, htold]

/-! ### Times -/

/-- The times of what is told are times of calls, in their order. -/
theorem told_sublist (calls : List HookCall) :
    ((told c threshold calls).map Prod.fst).Sublist (calls.map HookCall.now) := by
  induction calls using List.reverseRecOn with
  | nil => exact List.Sublist.slnil
  | append_singleton calls call ih =>
    have hconcat : told c threshold (calls ++ [call]) =
        told c threshold calls ++ (call.event.bind fun event =>
          if controlAfter c threshold (calls ++ [call]) = .client then
            (content event.data).map (call.now, ·) else none).toList :=
      filterMap_range_concat (fun upTo (call : HookCall) => call.event.bind fun event =>
        if controlAfter c threshold upTo = .client then (content event.data).map (call.now, ·)
        else none) calls call
    -- the last call tells its own time or nothing
    have hlast : ((call.event.bind fun event =>
          if controlAfter c threshold (calls ++ [call]) = .client then
            (content event.data).map (call.now, ·) else none).toList.map Prod.fst).Sublist
        [call.now] := by
      rcases call.event with _ | event
      · exact List.nil_sublist _
      rw [Option.bind_some]
      split_ifs
      · rcases content event.data with _ | a
        · exact List.nil_sublist _
        · exact List.Sublist.refl _
      · exact List.nil_sublist _
    rw [hconcat, List.map_append, List.map_append]
    exact ih.append hlast

end Run

/-- The time of an event, if it has one. -/
def OsEvent.time? : OsEvent → Option UInt64
  | uiohook event => some event.time
  | _ => none

section Session

variable {c : Client} {height threshold : Int32} {o : ByteOrder}
  {acts : List (Channel.Action HookCall)}

theorem timestamp_packetFor (now : UInt64) (a : Content) :
    (c.packetFor now a).timestamp = now := by
  cases a <;> rfl

/-- The fallback posts one event for a packet of a client, at its time. -/
private theorem times_packetBatch {pkt : EventPacket} (hpkt : pkt ∈ c.packets) :
    (packetBatch o .uiohook pkt).map (fun p => p.event.time?) = [some pkt.timestamp] := by
  obtain ⟨now, data, hforwarded⟩ := hpkt
  obtain ⟨h, hh, hmin⟩ := minPayload_le_of_forwarded hforwarded
  rw [packetBatch, hh, Option.elim_some, Platform.batch, if_neg (Nat.not_lt.mpr (hmin .uiohook))]
  cases h with
  | injectKeyPress | injectKeyRelease | injectMouseMove | injectMouseButtonPress
  | injectMouseButtonRelease => rfl

/-- **Times over a session.** What the client is to tell splits into what the server has read and
what is on its way. The fallback has posted one event for each entry that has been read, at the
time of the entry, which is that of the call it comes from. So if the client's clock does not go
back, neither do the times of the events. -/
theorem times_posted (h : Proper c height threshold o .uiohook acts) :
    let w := sessionAfter c height threshold o .uiohook acts
    ∃ read unread, told c threshold (Channel.inputs acts) = read ++ unread ∧
      w.stream = unread.flatMap (fun e => (c.packetFor e.1 e.2).toBytes) ∧
      w.reader.2.desktop.posted =
        read.flatMap (fun e => packetBatch o .uiohook (c.packetFor e.1 e.2)) ∧
      w.reader.2.desktop.posted.map (fun p => p.event.time?) = read.map (fun e => some e.1) ∧
      (((Channel.inputs acts).map HookCall.now).Pairwise (· ≤ ·) →
        (w.reader.2.desktop.posted.filterMap fun p => p.event.time?).Pairwise (· ≤ ·)) := by
  intro w
  obtain ⟨done, pending, hrelayed, hcarries⟩ := exists_carries_session h
  have hdone : ∀ pkt ∈ done, pkt ∈ c.packets := fun pkt hpkt =>
    hcarries.mem_valid pkt (List.mem_append_left pending hpkt)
  obtain ⟨s, hread, hposted, -⟩ := readAll_of_fits (o := o) (P := .uiohook) (fun _ _ => trivial)
    hdone fun pkt _ => packetFits_of_not_windows Platform.uiohook_ne_windows pkt
  -- the packets split where what they tell does
  rw [relayed_eq_map] at hrelayed
  obtain ⟨read, unread, htold, rfl, rfl⟩ := List.map_eq_append_iff.mp hrelayed
  have hevents : w.reader.2.desktop.posted =
      read.flatMap fun e => packetBatch o .uiohook (c.packetFor e.1 e.2) := by
    rw [hcarries.reader_eq, hread, hposted, List.flatMap_map]
  have htimes : w.reader.2.desktop.posted.map (fun p => p.event.time?) =
      read.map fun e => some e.1 := by
    have hone : ∀ e ∈ read, (packetBatch o .uiohook (c.packetFor e.1 e.2)).map
        (fun p => p.event.time?) = [some e.1] := by
      intro e he
      rw [times_packetBatch (hdone _ (List.mem_map_of_mem he)), timestamp_packetFor]
    rw [hevents, List.map_flatMap, List.flatMap_congr hone]
    exact (List.map_eq_flatMap ..).symm
  refine ⟨read, unread, htold, ?_, hevents, htimes, fun hclock => ?_⟩
  · rw [hcarries.stream_eq, List.flatMap_map]
  · have horder : (w.reader.2.desktop.posted.filterMap fun p => p.event.time?) =
        read.map Prod.fst := by
      calc (w.reader.2.desktop.posted.filterMap fun p => p.event.time?)
          = (w.reader.2.desktop.posted.map fun p => p.event.time?).filterMap id := by
            rw [List.filterMap_map]
            rfl
        _ = read.map Prod.fst := by
            rw [htimes, List.filterMap_map]
            exact congrFun (List.filterMap_eq_map (f := Prod.fst)) read
    have hsub : (read.map Prod.fst).Sublist ((Channel.inputs acts).map HookCall.now) := by
      have hpre : (read.map Prod.fst).Sublist
          ((told c threshold (Channel.inputs acts)).map Prod.fst) := by
        rw [htold, List.map_append]
        exact List.sublist_append_left _ _
      exact hpre.trans (told_sublist _)
    rw [horder]
    exact hclock.sublist hsub

end Session

/-- A move over the edge at the time 3, and a key at the time 7. -/
def timedCalls : List HookCall := [{ moveTo 1919 with now := 3 }, { press30 with now := 7 }]

/-- The same after a key for the host, and with other clicks of the mouse. -/
def timedCalls' : List HookCall :=
  [press30, ⟨3, some ⟨9, 1, .mouseMoved { button := 2, clicks := 1, x := 1919, y := 500 }⟩⟩,
    { press30 with now := 7 }]

theorem stream_eq_iff_timed :
    (runState defaultClient 1080 20 timedCalls).sent.flatten =
        (runState defaultClient 1080 20 timedCalls').sent.flatten ↔
      told defaultClient 20 timedCalls = told defaultClient 20 timedCalls' :=
  stream_eq_iff (by decide) (by decide)

/-- A move at the time 3, which the server has read, and a key at the time 7. -/
def timedOnItsWay : List (Channel.Action HookCall) :=
  [.write { moveTo 1919 with now := 3 }, .write { press30 with now := 7 }, .read 21]

private theorem proper_timedOnItsWay :
    Proper defaultClient 1080 20 .little .uiohook timedOnItsWay := by
  refine ⟨⟨trivial, trivial, ?_, trivial⟩, by decide⟩
  refine ⟨⟨.mouseMove, 3, 8, [255, 255, 255, 255, 244, 1, 0, 0]⟩, ?_, by decide⟩
  exact ⟨3, .mouseMoved { button := 0, clicks := 0, x := 1919, y := 500 }, by decide⟩

theorem times_posted_press :
    let w := sessionAfter defaultClient 1080 20 .little .uiohook timedOnItsWay
    ∃ read unread, told defaultClient 20 (Channel.inputs timedOnItsWay) = read ++ unread ∧
      w.reader.2.desktop.posted.map (fun p => p.event.time?) = read.map (fun e => some e.1) ∧
      (w.reader.2.desktop.posted.filterMap fun p => p.event.time?).Pairwise (· ≤ ·) := by
  intro w
  obtain ⟨read, unread, htold, -, -, htimes, horder⟩ := times_posted proper_timedOnItsWay
  exact ⟨read, unread, htold, htimes, horder (by decide)⟩

end Sameness
