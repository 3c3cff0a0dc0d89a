import Sameness.Library.Channel
import Sameness.Link.Acceptance
import Sameness.Server.Isolation

/-!
# A session of one client and one server

The client and the server of a connection as the two ends of a `Channel`: the hook calls the
client's callback, and the server takes bytes from the stream, both at any time. `relayed` says
what the client writes over a whole run, by the packet of each call alone, and `packetBatch` what
the server makes of a packet.

`exists_relays` is the safety of the whole path from the hook to the operating system: in every
interleaving whose reads take one packet each, what the server has posted is what becomes of the
packets up to some point, and the rest is on its way. `readAll_ok_iff` says when the server goes
on: no packet of a client stops it but the move whose coordinates Windows cannot convert. With
`exists_drain` everything that has been written arrives, in whatever order the two ends take
their turns.
-/

namespace Sameness

open Bytes Cpp Eff Uiohook Runs

/-! ### The two ends -/

/-- The receiving end: how the loop has ended, if it has, and the state of the server. -/
abbrev ServerEnd := Except (Stop ServerException) Unit × ServerState

/-- The server takes one chunk; it takes no more once it has stopped. -/
def serverRead (o : ByteOrder) (P : Platform) (data : List UInt8) (t : ServerEnd) : ServerEnd :=
  match t.1 with
  | .ok () => exec (handleData o P data) t.2
  | .error _ => t

/-- The server of a connection that has just been accepted. -/
def serverStart : ServerEnd := (.ok (), {})

/-- The connection of a client and a server. What the client appends to the stream is what its
call has written. -/
def session (c : Client) (o : ByteOrder) (P : Platform) :
    Channel HookCall ClientState ServerEnd UInt8 where
  write call s := (((hookStep c call s).2.sent.drop s.sent.length).flatten, (hookStep c call s).2)
  read := serverRead o P

/-- The packets that a client can write. -/
def Client.packets (c : Client) : Set EventPacket :=
  {pkt | ∃ now data, c.forwarded now data = some pkt}

/-- The packets that a client has written. -/
def ClientState.packets (s : ClientState) : List EventPacket := s.sent.map EventPacket.ofBuffer

section Ends

variable {c : Client} {o : ByteOrder} {P : Platform}

theorem Client.sized_packets {pkt : EventPacket} (h : pkt ∈ c.packets) : pkt.Sized := by
  obtain ⟨now, data, hpkt⟩ := h
  exact sized_forwarded hpkt

/-- A packet of a client has at most 22 bytes, which one read can take. -/
theorem Client.length_packets {pkt : EventPacket} (h : pkt ∈ c.packets) :
    pkt.toBytes.length ≤ 22 := by
  obtain ⟨now, data, hpkt⟩ := h
  rw [EventPacket.length_toBytes, EventPacket.headerSize]
  have hkey : ∀ n, (c.byteOrder.encode 4 n).length = 4 := fun n => ByteOrder.length_encode _ _ _
  obtain ⟨k, rfl, rfl⟩ | ⟨k, rfl, rfl⟩ | ⟨m, rfl, rfl⟩ | ⟨m, rfl, rfl⟩ | ⟨m, rfl, rfl⟩ :=
    forwarded_eq_some hpkt
  · simp [hkey]
  · simp [hkey]
  · simp [Client.length_coords]
  · simp [Client.length_coords]
  · simp [Client.length_coords]

/-- The packets of a client end by themselves. -/
def Client.selfDelimiting (c : Client) : SelfDelimiting c.packets EventPacket.toBytes :=
  EventPacket.selfDelimiting.mono fun _ h => sized_packets h

/-- What a call appends is the packets by which the client's log grows: none if it throws. -/
theorem writes_session :
    (session c o P).Writes c.packets EventPacket.toBytes ClientState.packets := by
  intro call s
  rcases hcall : hookStep c call s with ⟨stop | ⟨⟩, s'⟩
  · -- a call that throws appends nothing
    have hsent : s'.sent = s.sent := sent_of_exec_hookCallback_error hcall
    refine ⟨[], nofun, ?_, ?_⟩
    · simp only [session, hcall, ClientState.packets, hsent, List.append_nil]
    · simp only [session, hcall, hsent, List.drop_length, List.flatten_nil, List.flatMap_nil]
  · obtain ⟨event, -, -, hsent, -⟩ := exec_hookCallback_ok hcall
    have hmem : ∀ pkt ∈ (c.written s.edgeSwitcher call.now event.data).toList,
        pkt ∈ c.packets := by
      intro pkt hpkt
      rw [Option.mem_toList, Client.written] at hpkt
      split_ifs at hpkt
      exact ⟨_, _, hpkt⟩
    refine ⟨_, hmem, ?_, ?_⟩
    · simp only [session, hcall, ClientState.packets, hsent, List.map_append]
      rcases hpkt : c.written s.edgeSwitcher call.now event.data with _ | pkt
      · rfl
      · rw [hpkt] at hmem
        have hsized := Client.sized_packets (hmem pkt (by simp))
        simp [EventPacket.ofBuffer_toBytes hsized]
    · simp only [session, hcall, hsent, List.drop_left]
      rcases c.written s.edgeSwitcher call.now event.data with _ | pkt
      · rfl
      · simp

/-- Taking one chunk after another is the receive loop. -/
theorem foldl_serverRead (cs : List Chunk) (s : ServerState) :
    (cs.foldl (fun t c => serverRead o P c.data t) (.ok (), s) : ServerEnd) =
      ((exec (receiveLoop o P (cs.map .chunk)) s).1.map fun _ => (),
        (exec (receiveLoop o P (cs.map .chunk)) s).2) := by
  have hstopped : ∀ (cs : List Chunk) (stop : Stop ServerException) (s : ServerState),
      (cs.foldl (fun t c => serverRead o P c.data t) (.error stop, s) : ServerEnd) =
        (.error stop, s) := by
    intro cs stop s
    induction cs with
    | nil => rfl
    | cons c cs ih => exact ih
  induction cs generalizing s with
  | nil => rfl
  | cons c cs ih =>
    have hread : serverRead o P c.data (.ok (), s) = exec (handleData o P c.data) s := rfl
    rw [List.foldl_cons, hread, List.map_cons]
    rcases hround : exec (handleData o P c.data) s with ⟨stop | ⟨⟩, s'⟩
    · rw [exec_receiveLoop_stop hround, hstopped]
      rfl
    · rw [exec_receiveLoop_continue hround, ih]

end Ends

/-! ### What a client relays -/

/-- The packets for some calls, in order. -/
def relayed (c : Client) (threshold : Int32) (calls : List HookCall) : List EventPacket :=
  (List.range calls.length).filterMap (packetAt c threshold calls)

section Relayed

variable {c : Client} {height threshold : Int32}

theorem relayed_concat (calls : List HookCall) {call : HookCall} {event : Event}
    (hev : call.event = some event) :
    relayed c threshold (calls ++ [call]) = relayed c threshold calls ++
      (if controlAfter c threshold (calls ++ [call]) = .client then
        c.forwarded call.now event.data else none).toList := by
  calc relayed c threshold (calls ++ [call])
      = relayed c threshold calls ++ (call.event.bind fun event =>
          if controlAfter c threshold (calls ++ [call]) = .client then
            c.forwarded call.now event.data else none).toList :=
        filterMap_range_concat (fun upTo (call : HookCall) => call.event.bind fun event =>
          if controlAfter c threshold upTo = .client then c.forwarded call.now event.data
          else none) calls call
    _ = relayed c threshold calls ++
          (if controlAfter c threshold (calls ++ [call]) = .client then
            c.forwarded call.now event.data else none).toList := by
        rw [hev, Option.bind_some]

/-- What is relayed are packets of the client. -/
theorem mem_packets_of_relayed {calls : List HookCall} :
    ∀ pkt ∈ relayed c threshold calls, pkt ∈ c.packets := by
  intro pkt hpkt
  obtain ⟨i, -, hi⟩ := List.mem_filterMap.mp hpkt
  obtain ⟨call, -, hi⟩ := Option.bind_eq_some_iff.mp hi
  obtain ⟨event, -, hi⟩ := Option.bind_eq_some_iff.mp hi
  split_ifs at hi
  exact ⟨_, _, hi⟩

/-- A client that returns from every call has written what it is to relay. -/
theorem sent_runState {calls : List HookCall} (h : Returns c height threshold calls) :
    (runState c height threshold calls).sent =
      (relayed c threshold calls).map EventPacket.toBytes := by
  induction calls using List.reverseRecOn with
  | nil => rfl
  | append_singleton calls call ih =>
    obtain ⟨event, hev, hsent⟩ := runState_concat h
    have hcalls := ih (h.of_prefix (List.prefix_append calls [call]))
    rw [hsent, hcalls, relayed_concat calls hev, List.map_append, Option.toList_map]

theorem packets_runState {calls : List HookCall} (h : Returns c height threshold calls) :
    (runState c height threshold calls).packets = relayed c threshold calls := by
  have hback : ∀ pkt ∈ relayed c threshold calls, EventPacket.ofBuffer pkt.toBytes = pkt :=
    fun pkt hpkt => EventPacket.ofBuffer_toBytes
      (Client.sized_packets (mem_packets_of_relayed pkt hpkt))
  rw [ClientState.packets, sent_runState h, List.map_map]
  exact (List.map_congr_left hback).trans (List.map_id _)

end Relayed

/-! ### What the server makes of it -/

/-- What a packet posts. -/
def packetBatch (o : ByteOrder) (P : Platform) (pkt : EventPacket) : List Posted :=
  (handler? pkt.type).elim [] fun h => P.batch o h pkt

/-- The call of an injector that a packet asks for, if its type has a name. -/
def packetCall? (pkt : EventPacket) : Option (Handler × EventPacket) :=
  (handler? pkt.type).map (·, pkt)

/-- The coordinates of the packet can be converted, if its injector does so. -/
def PacketFits (o : ByteOrder) (P : Platform) (pkt : EventPacket) : Prop :=
  ∀ h ∈ handler? pkt.type, P.Fits o h pkt

theorem Platform.macOS_ne_windows (mac : MacOS) (os : Windows) :
    Platform.macOS mac ≠ .windows os := by
  intro h
  cases h

theorem Platform.uiohook_ne_windows (os : Windows) : Platform.uiohook ≠ .windows os := by
  intro h
  cases h

/-- Only Windows converts coordinates. -/
theorem packetFits_of_not_windows {o : ByteOrder} {P : Platform} (hP : ∀ os, P ≠ .windows os)
    (pkt : EventPacket) : PacketFits o P pkt := by
  intro h _
  rcases P with os | os | _
  · exact trivial
  · exact absurd rfl (hP os)
  · exact trivial

section Served

variable {c : Client} {o : ByteOrder} {P : Platform}

/-- An injector returns from a packet of a client exactly if it can convert its coordinates. -/
theorem accepts_iff_fits {pkt : EventPacket} (hpkt : pkt ∈ c.packets) {h : Handler}
    (hh : handler? pkt.type = some h) : P.Accepts o h pkt ↔ P.Fits o h pkt := by
  obtain ⟨now, data, hforwarded⟩ := hpkt
  obtain ⟨h', hh', hmin⟩ := minPayload_le_of_forwarded hforwarded
  obtain rfl := Option.some.inj (hh'.symm.trans hh)
  rcases P with os | os | _
  · exact and_iff_right (hmin (.macOS os))
  · exact and_iff_right (hmin (.windows os))
  · exact Iff.rfl

/-- A packet of a client as one chunk. -/
def Client.packetChunk (c : Client) {pkt : EventPacket} (h : pkt ∈ c.packets) : PacketChunk where
  packet := pkt
  sized := sized_packets h
  bounded := (length_packets h).trans (by decide)

variable (hos : ∀ n h, P.Takes n h)
include hos

/-- A running server goes on after a packet of a client exactly if it fits. -/
theorem serverRead_ok_iff {pkt : EventPacket} (hpkt : pkt ∈ c.packets) (s : ServerState) :
    (serverRead o P pkt.toBytes (.ok (), s)).1 = .ok () ↔ PacketFits o P pkt := by
  have hread : serverRead o P pkt.toBytes (.ok (), s) = exec (dispatch o P pkt) s :=
    exec_handleData_toBytes (Client.sized_packets hpkt) s
  rw [hread, exec_dispatch, PacketFits]
  rcases hh : handler? pkt.type with _ | h
  · exact iff_of_true rfl nofun
  · rw [Platform.inject_ok_iff, Platform.survives_iff_accepts (hos _ h), accepts_iff_fits hpkt hh]
    exact ⟨fun hfits h' hh' => Option.some.inj hh' ▸ hfits, fun hall => hall h rfl⟩

/-- **A packet of a client is served**: the server posts what becomes of it, and calls its
injector. -/
theorem serverRead_of_fits {pkt : EventPacket} (hpkt : pkt ∈ c.packets)
    (hfits : PacketFits o P pkt) {s : ServerState} (hs : s.desktop.isInjectedEvent = false) :
    ∃ s', serverRead o P pkt.toBytes (.ok (), s) = (.ok (), s') ∧
      s'.desktop.posted = s.desktop.posted ++ packetBatch o P pkt ∧
      s'.desktop.isInjectedEvent = false ∧
      s'.dispatched = s.dispatched ++ (packetCall? pkt).toList := by
  have hharmless : (c.packetChunk hpkt).Harmless o P := fun h hh =>
    (accepts_iff_fits hpkt hh).mpr (hfits h hh)
  obtain ⟨s', hround, hposted, hflag⟩ := exec_handleData_of_harmless hos hharmless hs
  have hdispatched := dispatched_handleData (o := o) (P := P) pkt.toBytes s
  have hround' : exec (handleData o P pkt.toBytes) s = (.ok (), s') := hround
  rw [hround', dispatches_toBytes (Client.sized_packets hpkt)] at hdispatched
  exact ⟨s', hround, hposted, hflag, hdispatched⟩

/-- A server that goes on after some packets has been able to convert their coordinates. -/
theorem readAll_ok_iff {pkts : List EventPacket} (hpkts : ∀ pkt ∈ pkts, pkt ∈ c.packets) :
    ((session c o P).readAll EventPacket.toBytes serverStart pkts).1 = .ok () ↔
      ∀ pkt ∈ pkts, PacketFits o P pkt := by
  induction pkts using List.reverseRecOn with
  | nil => exact iff_of_true rfl nofun
  | append_singleton pkts pkt ih =>
    rw [List.forall_mem_append, List.forall_mem_singleton] at hpkts ⊢
    rw [Channel.readAll_concat, ← ih hpkts.1]
    rcases (session c o P).readAll EventPacket.toBytes serverStart pkts with ⟨stop | ⟨⟩, s⟩
    -- a server that has stopped does not start again
    · exact iff_of_false nofun fun h => nomatch h.1
    · exact (serverRead_ok_iff hos hpkts.2 s).trans (and_iff_right rfl).symm

/-- **What the server makes of the packets of a client**, as long as they fit. -/
theorem readAll_of_fits {pkts : List EventPacket} (hpkts : ∀ pkt ∈ pkts, pkt ∈ c.packets)
    (hfits : ∀ pkt ∈ pkts, PacketFits o P pkt) :
    ∃ s, (session c o P).readAll EventPacket.toBytes serverStart pkts = (.ok (), s) ∧
      s.desktop.posted = pkts.flatMap (packetBatch o P) ∧
      s.desktop.isInjectedEvent = false ∧ s.dispatched = pkts.filterMap packetCall? := by
  induction pkts using List.reverseRecOn with
  | nil => exact ⟨{}, rfl, rfl, rfl, rfl⟩
  | append_singleton pkts pkt ih =>
    rw [List.forall_mem_append, List.forall_mem_singleton] at hpkts hfits
    obtain ⟨s, hread, hposted, hflag, hdispatched⟩ := ih hpkts.1 hfits.1
    obtain ⟨s', hread', hposted', hflag', hdispatched'⟩ :=
      serverRead_of_fits hos hpkts.2 hfits.2 hflag
    refine ⟨s', ?_, ?_, hflag', ?_⟩
    · rw [Channel.readAll_concat, hread]
      exact hread'
    · rw [hposted', hposted, List.flatMap_append, List.flatMap_singleton]
    · rw [hdispatched', hdispatched, filterMap_concat]

end Served

/-! ### Runs of both -/

section Session

variable (c : Client) (height threshold : Int32) (o : ByteOrder) (P : Platform)

/-- The connection after some steps of the two ends. -/
def sessionAfter (acts : List (Channel.Action HookCall)) :
    Channel.State ClientState ServerEnd UInt8 :=
  (session c o P).run (.fresh c height threshold) serverStart acts

/-- Every read so far has taken one packet, and every call has returned. -/
structure Proper (acts : List (Channel.Action HookCall)) : Prop where
  framed : (session c o P).Framed c.packets EventPacket.toBytes acts
    ⟨.fresh c height threshold, [], serverStart⟩
  returns : Returns c height threshold (Channel.inputs acts)

variable {c height threshold o P}

/-- The client's side of a connection is a run of the client. -/
theorem writer_sessionAfter (acts : List (Channel.Action HookCall)) :
    (sessionAfter c height threshold o P acts).writer =
      runState c height threshold (Channel.inputs acts) := by
  have hwrite : ∀ call s, ((session c o P).write call s).2 = (hookStep c call s).2 :=
    fun _ _ => rfl
  rw [sessionAfter, Channel.writer_run, runState]
  exact final_congr hwrite _ _

/-- What is to be relayed is what the server has read, followed by what is on its way. -/
theorem exists_carries_session {acts : List (Channel.Action HookCall)}
    (h : Proper c height threshold o P acts) :
    ∃ done pending, relayed c threshold (Channel.inputs acts) = done ++ pending ∧
      Channel.Carries (session c o P) c.packets EventPacket.toBytes ClientState.packets serverStart
        done pending (sessionAfter c height threshold o P acts) := by
  obtain ⟨done, pending, hcarries⟩ :=
    Channel.exists_carries c.selfDelimiting writes_session rfl h.framed
  refine ⟨done, pending, ?_, hcarries⟩
  rw [← packets_runState h.returns, ← writer_sessionAfter (o := o) (P := P)]
  exact hcarries.log_eq

/-- Where everything has arrived and could be converted, the server has posted what becomes of
the packets that are to be relayed. -/
theorem posted_of_drained (hos : ∀ n h, P.Takes n h) {acts : List (Channel.Action HookCall)}
    (h : Proper c height threshold o P acts)
    (hstream : (sessionAfter c height threshold o P acts).stream = [])
    (hfits : ∀ pkt ∈ relayed c threshold (Channel.inputs acts), PacketFits o P pkt) :
    (sessionAfter c height threshold o P acts).reader.2.desktop.posted =
      (relayed c threshold (Channel.inputs acts)).flatMap (packetBatch o P) := by
  obtain ⟨done, pending, hrelayed, hcarries⟩ := exists_carries_session h
  obtain ⟨hpending, -⟩ := hcarries.of_stream_nil c.selfDelimiting hstream
  rw [hpending, List.append_nil] at hrelayed
  have hdone : ∀ pkt ∈ done, pkt ∈ c.packets := fun pkt hpkt =>
    hcarries.mem_valid pkt (List.mem_append_left pending hpkt)
  rw [hrelayed] at hfits
  obtain ⟨s, hread, hposted, -⟩ := readAll_of_fits hos hdone hfits
  rw [hcarries.reader_eq, hread, hposted, hrelayed]

/-- **From the hook to the operating system.** In every interleaving whose reads take one packet
each, the server has read the packets that the client is to relay up to some point, and the rest
is on its way. The server runs exactly if it could convert what it has read; then it has posted
what becomes of these packets, and called their injectors, in order. -/
theorem exists_relays (hos : ∀ n h, P.Takes n h) {acts : List (Channel.Action HookCall)}
    (h : Proper c height threshold o P acts) :
    let w := sessionAfter c height threshold o P acts
    ∃ done pending, relayed c threshold (Channel.inputs acts) = done ++ pending ∧
      w.stream = pending.flatMap EventPacket.toBytes ∧
      (w.reader.1 = .ok () ↔ ∀ pkt ∈ done, PacketFits o P pkt) ∧
      (w.reader.1 = .ok () →
        w.reader.2.desktop.posted = done.flatMap (packetBatch o P) ∧
          w.reader.2.dispatched = done.filterMap packetCall?) := by
  intro w
  obtain ⟨done, pending, hrelayed, hcarries⟩ := exists_carries_session h
  have hdone : ∀ pkt ∈ done, pkt ∈ c.packets := fun pkt hpkt =>
    hcarries.mem_valid pkt (List.mem_append_left pending hpkt)
  have hruns : w.reader.1 = .ok () ↔ ∀ pkt ∈ done, PacketFits o P pkt := by
    rw [hcarries.reader_eq]
    exact readAll_ok_iff hos hdone
  refine ⟨done, pending, hrelayed, hcarries.stream_eq, hruns, fun hok => ?_⟩
  obtain ⟨s, hread, hposted, -, hdispatched⟩ := readAll_of_fits hos hdone (hruns.mp hok)
  rw [hcarries.reader_eq, hread]
  exact ⟨hposted, hdispatched⟩

/-- **What is written arrives, whatever the interleaving.** From every point of a run the server
can read all that is on its way; what it then has depends on the client's calls alone, and where
every packet can be converted it is what becomes of the packets for these calls. -/
theorem exists_drain (hos : ∀ n h, P.Takes n h) {acts : List (Channel.Action HookCall)}
    (h : Proper c height threshold o P acts) :
    ∃ t : ServerEnd,
      (∃ reads, Channel.inputs reads = [] ∧ Proper c height threshold o P (acts ++ reads) ∧
        sessionAfter c height threshold o P (acts ++ reads) =
          ⟨runState c height threshold (Channel.inputs acts), [], t⟩) ∧
      (∀ acts', Proper c height threshold o P acts' →
        Channel.inputs acts' = Channel.inputs acts →
        (sessionAfter c height threshold o P acts').stream = [] →
        (sessionAfter c height threshold o P acts').reader = t) ∧
      ((∀ pkt ∈ relayed c threshold (Channel.inputs acts), PacketFits o P pkt) →
        t.1 = .ok () ∧
          t.2.desktop.posted =
            (relayed c threshold (Channel.inputs acts)).flatMap (packetBatch o P)) := by
  obtain ⟨done, pending, hrelayed, hcarries⟩ := exists_carries_session h
  obtain ⟨hframed, hfinal⟩ := hcarries.drain
  -- one read for each packet that is on its way
  let reads : List (Channel.Action HookCall) := pending.map fun pkt => .read pkt.toBytes.length
  have hinputs : Channel.inputs reads = [] := by
    simp [reads, Channel.inputs, List.filterMap_map]
  have hinputs' : Channel.inputs (acts ++ reads) = Channel.inputs acts := by
    rw [Channel.inputs, List.filterMap_append]
    exact (congrArg (_ ++ ·) hinputs).trans (List.append_nil _)
  have hproper : Proper c height threshold o P (acts ++ reads) :=
    ⟨Channel.framed_append_iff.mpr ⟨h.framed, hframed⟩, by rw [hinputs']; exact h.returns⟩
  have hend : sessionAfter c height threshold o P (acts ++ reads) =
      ⟨runState c height threshold (Channel.inputs acts), [],
        (session c o P).readAll EventPacket.toBytes serverStart
          (relayed c threshold (Channel.inputs acts))⟩ := by
    rw [sessionAfter, Channel.run, Channel.after_append, ← Channel.run, ← sessionAfter,
      ← packets_runState h.returns, ← writer_sessionAfter (o := o) (P := P)]
    exact hfinal
  refine ⟨_, ⟨reads, hinputs, hproper, hend⟩, fun acts' h' hsame hstream => ?_, fun hfits => ?_⟩
  · have heq := Channel.reader_eq_of_inputs_eq c.selfDelimiting writes_session rfl h'.framed
      hproper.framed (hsame.trans hinputs'.symm) hstream (congrArg Channel.State.stream hend)
    exact heq.trans (congrArg Channel.State.reader hend)
  · have hmem : ∀ pkt ∈ relayed c threshold (Channel.inputs acts), pkt ∈ c.packets := by
      rw [hrelayed]
      exact hcarries.mem_valid
    obtain ⟨s, hread, hposted, -⟩ := readAll_of_fits hos hmem hfits
    rw [hread]
    exact ⟨rfl, hposted⟩

end Session

/-- A move over the edge and a key, of which the server has read the move. -/
def pressOnItsWay : List (Channel.Action HookCall) :=
  [.write (moveTo 1919), .write press30, .read 21]

/-- The read takes the packet of the move. -/
theorem proper_pressOnItsWay : Proper defaultClient 1080 20 .little .uiohook pressOnItsWay := by
  refine ⟨⟨trivial, trivial, ?_, trivial⟩, by decide⟩
  refine ⟨⟨.mouseMove, 0, 8, [255, 255, 255, 255, 244, 1, 0, 0]⟩, ?_, by decide⟩
  exact ⟨0, .mouseMoved { button := 0, clicks := 0, x := 1919, y := 500 }, by decide⟩

theorem exists_relays_press :
    let w := sessionAfter defaultClient 1080 20 .little .uiohook pressOnItsWay
    ∃ done pending, relayed defaultClient 20 (Channel.inputs pressOnItsWay) = done ++ pending ∧
      w.stream = pending.flatMap EventPacket.toBytes ∧
      (w.reader.1 = .ok () ↔ ∀ pkt ∈ done, PacketFits .little .uiohook pkt) ∧
      (w.reader.1 = .ok () →
        w.reader.2.desktop.posted = done.flatMap (packetBatch .little .uiohook) ∧
          w.reader.2.dispatched = done.filterMap packetCall?) := by
  intro w
  have htakes : ∀ n h, Platform.uiohook.Takes n h := fun _ _ => trivial
  exact exists_relays htakes proper_pressOnItsWay

theorem exists_drain_press :
    ∃ reads, Channel.inputs reads = [] ∧
      (sessionAfter defaultClient 1080 20 .little .uiohook (pressOnItsWay ++ reads)).stream = [] ∧
      (sessionAfter defaultClient 1080 20 .little .uiohook
        (pressOnItsWay ++ reads)).reader.2.desktop.posted.length = 2 := by
  have htakes : ∀ n h, Platform.uiohook.Takes n h := fun _ _ => trivial
  obtain ⟨t, ⟨reads, hinputs, -, hend⟩, -, hfits⟩ := exists_drain htakes proper_pressOnItsWay
  obtain ⟨-, hposted⟩ :=
    hfits fun pkt _ => packetFits_of_not_windows Platform.uiohook_ne_windows pkt
  refine ⟨reads, hinputs, congrArg Channel.State.stream hend, ?_⟩
  rw [hend, hposted]
  decide

end Sameness
