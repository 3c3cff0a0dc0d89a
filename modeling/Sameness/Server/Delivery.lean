import Sameness.Library.Framing
import Sameness.Server.Loop

/-!
# Delivery over a byte stream

The client writes packets one after another; the transport keeps their bytes and their order,
and the server's reads cut the stream anywhere. `Delivered` asks that the server call the
injectors for exactly the packets written.

The server treats what one read returns as one packet. `wire` states this as a `Framing`, so
that the library's count applies: the packets are delivered only if every chunk is the
encoding of one packet (`map_data_eq`). On such chunks what is left to ask is that the loop
goes on, which is a matter of the injectors (`dispatched_receiveLoop_iff`). The two together
are an exact condition, `delivered_iff`.
-/

namespace Sameness

open Bytes Cpp Eff EventPacket

/-- A packet as the client writes it: of its declared size, and of the type that one of the
functions is for. -/
structure SentPacket where
  packet : EventPacket
  sized : packet.Sized
  handler : Handler
  type_eq : packet.type = handler.type

namespace SentPacket

/-- The call that the packet asks for. -/
def call (p : SentPacket) : Handler × EventPacket := (p.handler, p.packet)

def toBytes (p : SentPacket) : List UInt8 := p.packet.toBytes

theorem handler?_packet (p : SentPacket) : handler? p.packet.type = some p.handler :=
  handler?_eq_some_iff.mpr p.type_eq

theorem dispatches_toBytes (p : SentPacket) : dispatches p.toBytes = some p.call := by
  rw [toBytes, Sameness.dispatches_toBytes p.sized, p.handler?_packet, Option.map_some, call]

end SentPacket

variable {o : ByteOrder} {P : Platform}

/-- The server calls the injectors for the packets, in order, each once. -/
def Delivered (o : ByteOrder) (P : Platform) (ps : List SentPacket) (cs : List Chunk) : Prop :=
  (serve o P cs).2.dispatched = ps.map SentPacket.call

/-- The call for each packet but the last returns, when the call for the first is the call
`n` of the operating system. -/
def AllButLastSurvive (o : ByteOrder) (P : Platform) (n : ℕ) (ps : List SentPacket) : Prop :=
  ∀ i, i + 1 < ps.length → ∀ p ∈ ps[i]?, P.Survives o (n + i) p.handler p.packet

theorem allButLastSurvive_singleton (n : ℕ) (p : SentPacket) : AllButLastSurvive o P n [p] :=
  fun i hi => absurd hi (by simp)

theorem allButLastSurvive_cons_cons {n : ℕ} {p q : SentPacket} {ps : List SentPacket} :
    AllButLastSurvive o P n (p :: q :: ps) ↔
      P.Survives o n p.handler p.packet ∧
        ∀ i, i + 1 < (q :: ps).length → ∀ r ∈ (q :: ps)[i]?,
          P.Survives o (n + (i + 1)) r.handler r.packet := by
  constructor
  · intro h
    exact ⟨h 0 (by simp) p rfl, fun i hi r hr => h (i + 1) (by simpa using hi) r hr⟩
  · rintro ⟨hp, hrest⟩ i hi r hr
    rcases i with _ | i
    · obtain rfl := Option.some.inj hr
      exact hp
    · exact hrest i (by simpa using hi) r hr

/-! ### Chunks as frames -/

/-- The server as a reader of frames. A chunk is read as the packet it starts with; the
encoding of that packet is the chunk up to the declared size. -/
def wire : Framing (Handler × EventPacket) UInt8 where
  encode call := call.2.toBytes
  accept := dispatches
  length_encode_le {c a} h := by
    rw [dispatches] at h
    split_ifs at h with hlt
    obtain ⟨h', -, rfl⟩ := Option.map_eq_some_iff.mp h
    have hle := Nat.le_of_not_lt hlt
    rw [length_toBytes, ← sized_ofBuffer hle, toNat_payloadSize_ofBuffer]
    exact hle
  encode_eq {c a} h hlen := by
    rw [dispatches] at h
    split_ifs at h with hlt
    obtain ⟨h', -, rfl⟩ := Option.map_eq_some_iff.mp h
    have hle := Nat.le_of_not_lt hlt
    rw [length_toBytes, ← sized_ofBuffer hle, toNat_payloadSize_ofBuffer] at hlen
    exact toBytes_ofBuffer (Nat.le_antisymm hle hlen)

@[simp]
theorem wire_accept (data : List UInt8) : wire.accept data = dispatches data := rfl

@[simp]
theorem wire_encode (call : Handler × EventPacket) : wire.encode call = call.2.toBytes := rfl

/-- The loop dispatches what the reader makes out of the chunks up to some point: all of them,
or those up to the one that ends the server. -/
theorem dispatched_receiveLoop (cs : List Chunk) (s : ServerState) :
    ∃ seen, seen <+: cs.map Chunk.data ∧
      (exec (receiveLoop o P (cs.map .chunk)) s).2.dispatched
        = s.dispatched ++ wire.accepted seen := by
  induction cs generalizing s with
  | nil => exact ⟨[], List.nil_prefix, (List.append_nil _).symm⟩
  | cons c cs ih =>
    have hround := dispatched_handleData (o := o) (P := P) c.data s
    rcases hrun : exec (handleData o P c.data) s with ⟨stop | ⟨⟩, s'⟩
    · -- what ends the server may be an injector, whose call counts as dispatched
      rw [hrun] at hround
      refine ⟨[c.data], ⟨cs.map Chunk.data, rfl⟩, ?_⟩
      rw [List.map_cons, exec_receiveLoop_stop hrun, hround, Framing.accepted,
        List.filterMap_cons, List.filterMap_nil]
      rcases hacc : dispatches c.data with _ | call <;> simp [hacc]
    · obtain ⟨seen, hseen, hdisp⟩ := ih s'
      rw [hrun] at hround
      refine ⟨c.data :: seen, List.cons_prefix_cons.mpr ⟨rfl, hseen⟩, ?_⟩
      rw [List.map_cons, exec_receiveLoop_continue hrun, hdisp, hround, List.append_assoc,
        Framing.accepted, Framing.accepted, List.filterMap_cons]
      rcases hacc : dispatches c.data with _ | call <;> simp [hacc]

/-- If the packets are delivered, the stream was cut at their boundaries. -/
theorem map_data_eq {ps : List SentPacket} {cs : List Chunk}
    (hcs : (cs.map Chunk.data).flatten = ps.flatMap SentPacket.toBytes)
    (hdel : Delivered o P ps cs) : cs.map Chunk.data = ps.map SentPacket.toBytes := by
  obtain ⟨seen, hseen, hdisp⟩ := dispatched_receiveLoop (o := o) (P := P) cs {}
  have hread : wire.accepted seen = ps.map SentPacket.call := hdisp.symm.trans hdel
  have hframe : ∀ call ∈ ps.map SentPacket.call, wire.accept (wire.encode call) = some call := by
    intro call hcall
    obtain ⟨p, -, rfl⟩ := List.mem_map.mp hcall
    rw [wire_accept, wire_encode]
    exact p.dispatches_toBytes
  have hne : ∀ c ∈ cs.map Chunk.data, c ≠ [] := by
    intro data hdata
    obtain ⟨c, -, rfl⟩ := List.mem_map.mp hdata
    exact c.nonempty
  have hstream : (cs.map Chunk.data).flatten = wire.stream (ps.map SentPacket.call) := by
    rw [hcs, Framing.stream, List.flatMap_map]
    rfl
  have h := ((wire.accepted_eq_iff hframe hseen hne hstream).mp hread).2
  rw [h, List.map_map]
  rfl

/-! ### Rounds on encodings -/

/-- A round on the encoding of a packet is the call of its injector. -/
theorem SentPacket.exec_handleData (p : SentPacket) (s : ServerState) :
    exec (handleData o P p.toBytes) s =
      ((exec (P.inject o p.handler p.packet) s.desktop).1,
        s.called p.handler p.packet (exec (P.inject o p.handler p.packet) s.desktop).2) := by
  rw [toBytes, exec_handleData_toBytes p.sized, exec_dispatch, p.handler?_packet]

/-- **Delivery of one packet a chunk.** On encodings the loop dispatches every packet exactly
if it goes on after each but the last. -/
theorem dispatched_receiveLoop_iff {ps : List SentPacket} {cs : List Chunk}
    (hcs : cs.map Chunk.data = ps.map SentPacket.toBytes) (s : ServerState) :
    (exec (receiveLoop o P (cs.map .chunk)) s).2.dispatched
        = s.dispatched ++ ps.map SentPacket.call ↔
      AllButLastSurvive o P s.desktop.calls ps := by
  induction ps generalizing cs s with
  | nil =>
    obtain rfl := List.map_eq_nil_iff.mp hcs
    exact iff_of_true (List.append_nil _).symm fun i hi => absurd hi (Nat.not_lt_zero _)
  | cons p ps ih =>
    obtain ⟨c, cs, rfl, hc, hrest⟩ := List.map_eq_cons_iff.mp hcs
    have hround := p.exec_handleData (o := o) (P := P) s
    rw [← hc] at hround
    rcases hcall : exec (P.inject o p.handler p.packet) s.desktop with ⟨stop | ⟨⟩, d⟩
    · -- the call stops the server: what follows it is lost
      rw [hcall] at hround
      rw [List.map_cons, exec_receiveLoop_stop hround]
      have hdead : ¬P.Survives o s.desktop.calls p.handler p.packet := by
        rw [← Platform.inject_ok_iff, hcall]
        exact fun h => nomatch h
      rcases ps with _ | ⟨q, ps⟩
      · exact iff_of_true rfl (allButLastSurvive_singleton _ p)
      · refine iff_of_false (fun h => ?_) fun h => hdead (allButLastSurvive_cons_cons.mp h).1
        simpa [ServerState.called] using congrArg List.length h
    · -- the call returns: the rest of the packets start one call of the system later
      rw [hcall] at hround
      have hok : P.Survives o s.desktop.calls p.handler p.packet := by
        rw [← Platform.inject_ok_iff, hcall]
      have hnext := Platform.survives_calls_inject hok
      rw [hcall] at hnext
      have hsplit : s.dispatched ++ (p :: ps).map SentPacket.call
          = (s.called p.handler p.packet d).dispatched ++ ps.map SentPacket.call := by
        simp [ServerState.called, SentPacket.call]
      rw [List.map_cons, exec_receiveLoop_continue hround, hsplit, ih hrest]
      rcases ps with _ | ⟨q, ps⟩
      · exact iff_of_true (fun i hi => absurd hi (Nat.not_lt_zero _))
          (allButLastSurvive_singleton _ p)
      · rw [allButLastSurvive_cons_cons, and_iff_right hok]
        exact forall₄_congr fun i hi r hr => hnext i r.handler r.packet

/-- **When a stream is delivered.** Exactly if its chunks are the encodings of its packets,
one each, and the call for every packet but the last returns. -/
theorem delivered_iff {ps : List SentPacket} {cs : List Chunk}
    (hcs : (cs.map Chunk.data).flatten = ps.flatMap SentPacket.toBytes) :
    Delivered o P ps cs ↔
      cs.map Chunk.data = ps.map SentPacket.toBytes ∧ AllButLastSurvive o P 0 ps := by
  constructor
  · intro hdel
    have hframes := map_data_eq hcs hdel
    exact ⟨hframes, (dispatched_receiveLoop_iff hframes {}).mp hdel⟩
  · rintro ⟨hframes, hsurvive⟩
    exact (dispatched_receiveLoop_iff hframes {}).mpr hsurvive

/-- A press of the key 30. -/
def keyPress30 : SentPacket :=
  ⟨⟨.keyPress, 0, 4, [30, 0, 0, 0]⟩, by decide, .injectKeyPress, handler?_eq_some_iff.mp rfl⟩

/-- Two presses in two reads arrive. -/
theorem delivered_keyPress30 :
    Delivered .little .uiohook [keyPress30, keyPress30]
      [⟨keyPress30.toBytes, by decide, by decide⟩, ⟨keyPress30.toBytes, by decide, by decide⟩] :=
  (delivered_iff rfl).mpr ⟨rfl, fun _ _ _ _ => trivial⟩

/-- Two presses in one read. -/
def coalesced : Chunk :=
  ⟨keyPress30.toBytes ++ keyPress30.toBytes, by decide, by decide⟩

/-- Of two packets that arrive in one read, one is lost. -/
theorem not_delivered_coalesced :
    ([coalesced].map Chunk.data).flatten = [keyPress30, keyPress30].flatMap SentPacket.toBytes ∧
      ¬Delivered .little .uiohook [keyPress30, keyPress30] [coalesced] := by
  refine ⟨by decide, fun hdel => ?_⟩
  have hframes := congrArg List.length (map_data_eq (by decide) hdel)
  cases hframes

end Sameness
