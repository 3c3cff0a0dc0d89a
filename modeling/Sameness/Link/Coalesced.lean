import Sameness.Link.Session
import Sameness.Server.Provenance

/-!
# Reads of any size

`read_some` returns whatever has arrived. `exists_chunks` is what remains true whatever the reads
take: what the server calls the injectors with stands at the front of pieces of the stream that
the client is to write, one piece for each read.

When packets arrive together, one read takes several of them; the receive loop decodes the first
and drops the rest of the buffer. `exists_bursts` is the counterpart of `exists_relays` for such
sessions: the packets that have been taken come in bursts, one for each read, and the server
treats the first packet of each burst and no other. So it has called an injector for every packet
exactly if each read took a single one.
-/

namespace Sameness

open Bytes Cpp Eff Uiohook Runs

/-! ### Any reads -/

section Chunks

variable {c : Client} {height threshold : Int32} {o : ByteOrder} {P : Platform}

/-- The calls of a server are those for some of the chunks it was given, in order, and for all of
them while it runs. -/
theorem exists_seen (chunks : List (List UInt8)) :
    ∃ seen, seen <+: chunks ∧
      (((session c o P).readAll id serverStart chunks).1 = .ok () → seen = chunks) ∧
      ((session c o P).readAll id serverStart chunks).2.dispatched = seen.filterMap dispatches := by
  induction chunks using List.reverseRecOn with
  | nil => exact ⟨[], List.nil_prefix, fun _ => rfl, rfl⟩
  | append_singleton chunks data ih =>
    obtain ⟨seen, hseen, hall, hdispatched⟩ := ih
    rw [Channel.readAll_concat]
    rcases hstate : (session c o P).readAll id serverStart chunks with ⟨stop | ⟨⟩, s⟩
    · -- a server that has stopped stays as it is
      rw [hstate] at hdispatched
      refine ⟨seen, hseen.trans (List.prefix_append _ _), fun hok => ?_, hdispatched⟩
      cases hok
    · rw [hstate] at hall hdispatched
      obtain rfl := hall rfl
      refine ⟨seen ++ [data], List.prefix_refl _, fun _ => rfl, ?_⟩
      have hround : (exec (handleData o P data) s).2.dispatched =
          s.dispatched ++ (dispatches data).toList := dispatched_handleData data s
      rw [filterMap_concat, ← hdispatched]
      exact hround

/-- What a chunk is dispatched as stands at its front, and goes to the function for its type. -/
theorem prefix_of_dispatches {data : List UInt8} {h : Handler} {pkt : EventPacket}
    (hcall : dispatches data = some (h, pkt)) :
    pkt.type = h.type ∧ pkt.toBytes <+: data := by
  rw [dispatches] at hcall
  split_ifs at hcall with hlt
  obtain ⟨h', hh', heq⟩ := Option.map_eq_some_iff.mp hcall
  obtain ⟨rfl, rfl⟩ := Prod.mk.inj heq
  refine ⟨handler?_eq_some_iff.mp hh', ?_⟩
  rw [toBytes_ofBuffer_take (Nat.le_of_not_lt hlt)]
  exact List.take_prefix _ _

end Chunks

/-- A move over the edge and a key, and a read that takes the move and a part of the key. -/
def pressSplit : List (Channel.Action HookCall) :=
  [.write (moveTo 1919), .write press30, .read 30, .read 8]

/-- One or more packets of a client, which one read can take. -/
def Client.bursts (c : Client) : Set (List EventPacket) :=
  {burst | burst ≠ [] ∧ ∀ pkt ∈ burst, pkt ∈ c.packets}

/-- The bytes of a burst. -/
def burstBytes (burst : List EventPacket) : List UInt8 := burst.flatMap EventPacket.toBytes

/-- The first packets of some bursts. -/
def firsts (bursts : List (List EventPacket)) : List EventPacket := bursts.filterMap List.head?

section Bursts

variable {c : Client} {o : ByteOrder} {P : Platform}

/-- Of a burst the server takes the first packet. -/
theorem serverRead_burst {pkt : EventPacket} (hpkt : pkt.Sized) (burst : List EventPacket)
    (t : ServerEnd) :
    serverRead o P (burstBytes (pkt :: burst)) t = serverRead o P pkt.toBytes t := by
  rcases t with ⟨stop | ⟨⟩, s⟩
  · rfl
  · have hle : EventPacket.headerSize + EventPacket.declaredSize (pkt.toBytes ++ burstBytes burst) ≤
        (pkt.toBytes ++ burstBytes burst).length := by
      rw [EventPacket.declaredSize_toBytes_append, List.length_append, EventPacket.length_toBytes,
        hpkt]
      exact Nat.le_add_right _ _
    calc exec (handleData o P (pkt.toBytes ++ burstBytes burst)) s
        = exec (dispatch o P (EventPacket.ofBuffer (pkt.toBytes ++ burstBytes burst))) s :=
          exec_handleData_of_le hle s
      _ = exec (dispatch o P pkt) s := by rw [EventPacket.ofBuffer_toBytes_append hpkt]
      _ = exec (handleData o P pkt.toBytes) s := (exec_handleData_toBytes hpkt s).symm

/-- Taking bursts is taking their first packets. -/
theorem readAll_bursts {bursts : List (List EventPacket)} (h : ∀ b ∈ bursts, b ∈ c.bursts)
    (t : ServerEnd) :
    (session c o P).readAll burstBytes t bursts =
      (session c o P).readAll EventPacket.toBytes t (firsts bursts) := by
  induction bursts generalizing t with
  | nil => rfl
  | cons burst bursts ih =>
    obtain ⟨⟨hne, hpackets⟩, hrest⟩ := List.forall_mem_cons.mp h
    rcases burst with _ | ⟨pkt, burst⟩
    · exact absurd rfl hne
    have hfirst : (session c o P).read (burstBytes (pkt :: burst)) t =
        (session c o P).read pkt.toBytes t :=
      serverRead_burst (Client.sized_packets (hpackets pkt List.mem_cons_self)) burst t
    calc (session c o P).readAll burstBytes t ((pkt :: burst) :: bursts)
        = (session c o P).readAll burstBytes ((session c o P).read pkt.toBytes t) bursts :=
          congrArg (fun t => (session c o P).readAll burstBytes t bursts) hfirst
      _ = _ := ih hrest _

theorem mem_packets_of_firsts {bursts : List (List EventPacket)} (h : ∀ b ∈ bursts, b ∈ c.bursts) :
    ∀ pkt ∈ firsts bursts, pkt ∈ c.packets := by
  intro pkt hpkt
  obtain ⟨burst, hburst, hhead⟩ := List.mem_filterMap.mp hpkt
  exact (h burst hburst).2 pkt (List.mem_of_head? hhead)

/-- Every packet of a client asks for a call, in which it can be found. -/
theorem map_packetCall? {pkts : List EventPacket} (h : ∀ pkt ∈ pkts, pkt ∈ c.packets) :
    (pkts.filterMap packetCall?).map Prod.snd = pkts := by
  rw [List.map_filterMap]
  refine (List.filterMap_congr fun pkt hpkt => ?_).trans List.filterMap_some
  obtain ⟨now, data, hforwarded⟩ := h pkt hpkt
  obtain ⟨handler, hhandler, -⟩ := minPayload_le_of_forwarded hforwarded
  rw [packetCall?, hhandler]
  rfl

/-- Bursts are no more than the packets in them. -/
private theorem length_firsts_le {bursts : List (List EventPacket)} (h : ∀ b ∈ bursts, b ≠ []) :
    (firsts bursts).length ≤ bursts.flatten.length := by
  induction bursts with
  | nil => exact Nat.le_refl _
  | cons burst bursts ih =>
    obtain ⟨hne, hrest⟩ := List.forall_mem_cons.mp h
    rcases burst with _ | ⟨pkt, burst⟩
    · exact absurd rfl hne
    have hle := ih hrest
    change (firsts bursts).length + 1 ≤ (burst ++ bursts.flatten).length + 1
    rw [List.length_append]
    omega

/-- The first packets are all packets only if every burst has a single one. -/
private theorem firsts_eq_flatten_iff {bursts : List (List EventPacket)}
    (h : ∀ b ∈ bursts, b ≠ []) :
    firsts bursts = bursts.flatten ↔ ∀ b ∈ bursts, b.length = 1 := by
  induction bursts with
  | nil => exact iff_of_true rfl fun b hb => absurd hb List.not_mem_nil
  | cons burst bursts ih =>
    obtain ⟨hne, hrest⟩ := List.forall_mem_cons.mp h
    rcases burst with _ | ⟨pkt, burst⟩
    · exact absurd rfl hne
    have hcons : firsts ((pkt :: burst) :: bursts) = ((pkt :: burst) :: bursts).flatten ↔
        firsts bursts = burst ++ bursts.flatten := List.cons_inj_right pkt
    rw [hcons, List.forall_mem_cons, ← ih hrest, List.length_cons]
    constructor
    · intro heq
      -- the later bursts would have to make up for what is left of this one
      have hle := length_firsts_le hrest
      have hlen := congrArg List.length heq
      rw [List.length_append] at hlen
      have hnil : burst = [] := List.eq_nil_of_length_eq_zero (by omega)
      subst hnil
      exact ⟨rfl, heq⟩
    · rintro ⟨hone, heq⟩
      have hnil : burst = [] := List.eq_nil_of_length_eq_zero (by omega)
      rw [hnil, heq, List.nil_append]

end Bursts

section Session

variable (c : Client) (height threshold : Int32) (o : ByteOrder) (P : Platform)

/-- Every read so far has taken one or more whole packets, and every call has returned. -/
structure Bursty (acts : List (Channel.Action HookCall)) : Prop where
  framed : (session c o P).Framed c.bursts burstBytes acts
    ⟨.fresh c height threshold, [], serverStart⟩
  returns : Returns c height threshold (Channel.inputs acts)

variable {c height threshold o P}

/-- **When packets arrive together.** In every interleaving whose reads take whole packets, the
packets that the client is to relay are the bursts of the reads, followed by what is on its way.
The server runs exactly if it could convert the first packet of each burst; then it has posted
what becomes of these first packets, and called their injectors, in order. So it has called the
injectors of all the packets it took exactly if no read took more than one. -/
theorem exists_bursts (hos : ∀ n h, P.Takes n h) {acts : List (Channel.Action HookCall)}
    (h : Bursty c height threshold o P acts) :
    let w := sessionAfter c height threshold o P acts
    ∃ bursts pending, relayed c threshold (Channel.inputs acts) = bursts.flatten ++ pending ∧
      (∀ b ∈ bursts, b ≠ []) ∧ bursts.length + (Channel.inputs acts).length = acts.length ∧
      w.stream = pending.flatMap EventPacket.toBytes ∧
      (w.reader.1 = .ok () ↔ ∀ pkt ∈ firsts bursts, PacketFits o P pkt) ∧
      (w.reader.1 = .ok () →
        w.reader.2.desktop.posted = (firsts bursts).flatMap (packetBatch o P) ∧
          w.reader.2.dispatched = (firsts bursts).filterMap packetCall? ∧
            (w.reader.2.dispatched = bursts.flatten.filterMap packetCall? ↔
              ∀ b ∈ bursts, b.length = 1)) := by
  intro w
  obtain ⟨bursts, htaken, hreads⟩ := Channel.exists_taken writes_session.appends rfl h.framed
  have hmem : ∀ pkt ∈ bursts.flatten, pkt ∈ c.packets := by
    intro pkt hpkt
    obtain ⟨burst, hburst, hin⟩ := List.mem_flatten.mp hpkt
    exact (htaken.mem_valid burst hburst).2 pkt hin
  have hbytes : bursts.flatMap burstBytes = bursts.flatten.flatMap EventPacket.toBytes := by
    rw [List.flatten_eq_flatMap, List.flatMap_assoc]
    rfl
  obtain ⟨pending, hlog, -, hstream⟩ :=
    htaken.exists_append c.selfDelimiting writes_session rfl hmem hbytes
  have hrelayed : relayed c threshold (Channel.inputs acts) = bursts.flatten ++ pending := by
    rw [← packets_runState h.returns, ← writer_sessionAfter (o := o) (P := P)]
    exact hlog
  have hne : ∀ b ∈ bursts, b ≠ [] := fun b hb => (htaken.mem_valid b hb).1
  have hfirsts := mem_packets_of_firsts htaken.mem_valid
  have hreader : w.reader =
      (session c o P).readAll EventPacket.toBytes serverStart (firsts bursts) :=
    htaken.reader_eq.trans (readAll_bursts htaken.mem_valid serverStart)
  have hruns : w.reader.1 = .ok () ↔ ∀ pkt ∈ firsts bursts, PacketFits o P pkt := by
    rw [hreader]
    exact readAll_ok_iff hos hfirsts
  refine ⟨bursts, pending, hrelayed, hne, hreads, hstream, hruns, fun hok => ?_⟩
  obtain ⟨s, hread, hposted, -, hdispatched⟩ := readAll_of_fits hos hfirsts (hruns.mp hok)
  rw [hreader, hread]
  refine ⟨hposted, hdispatched, ?_⟩
  rw [hdispatched, ← firsts_eq_flatten_iff hne]
  constructor
  · intro heq
    -- the packets can be read off the calls
    rw [← map_packetCall? hfirsts, heq, map_packetCall? hmem]
  · intro heq
    rw [heq]

end Session

/-- A move over the edge and a key, which the server takes in one read. -/
def pressCoalesced : List (Channel.Action HookCall) :=
  [.write (moveTo 1919), .write press30, .read 38]

theorem exists_bursts_press :
    let w := sessionAfter defaultClient 1080 20 .little .uiohook pressCoalesced
    ∃ bursts pending, relayed defaultClient 20 (Channel.inputs pressCoalesced) =
        bursts.flatten ++ pending ∧
      bursts.length = 1 ∧ w.reader.2.dispatched = (firsts bursts).filterMap packetCall? := by
  intro w
  have htakes : ∀ n h, Platform.uiohook.Takes n h := fun _ _ => trivial
  have hbursty : Bursty defaultClient 1080 20 .little .uiohook pressCoalesced := by
    refine ⟨⟨trivial, trivial, ?_, trivial⟩, by decide⟩
    refine ⟨[⟨.mouseMove, 0, 8, [255, 255, 255, 255, 244, 1, 0, 0]⟩, keyPressPacket],
      ⟨List.cons_ne_nil _ _, ?_⟩, by decide⟩
    rw [List.forall_mem_cons, List.forall_mem_singleton]
    exact ⟨⟨0, .mouseMoved { button := 0, clicks := 0, x := 1919, y := 500 }, by decide⟩,
      ⟨0, keyPressEvent.data, by decide⟩⟩
  obtain ⟨bursts, pending, hrelayed, -, hreads, -, -, hok⟩ := exists_bursts htakes hbursty
  obtain ⟨-, hdispatched, -⟩ := hok (by decide)
  exact ⟨bursts, pending, hrelayed, Nat.add_right_cancel hreads, hdispatched⟩

end Sameness
