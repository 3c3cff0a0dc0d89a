import Sameness.Library.Runs
import Sameness.Server.Isolation

/-!
# Where the posted events come from

Any peer can connect, and any operating system can refuse events. Whatever the reads and the
system's answers, what a server has done is read off the chunks it has seen: the calls of the
injectors are those of the packets that the chunks start with, the chunks skipped are those
without a header or with an unknown type, and the events posted are those of the calls, in
order. Only at the end can events be missing, when the server goes down (`provenance`).

The bytes of a chunk after its declared payload make no difference to any of this, so of
packets that arrive in one read only the first counts (`serve_cut`).
-/

namespace Sameness

open Bytes Cpp Eff EventPacket Runs

variable {o : ByteOrder} {P : Platform}

/-! ### One round -/

/-- Why a chunk is skipped, if it is. -/
def rejection? (data : List UInt8) : Option Rejection :=
  if data.length < headerSize then some (.tooSmall data.length)
  else if data.length < headerSize + declaredSize data then none
  else if (handler? (ofBuffer data).type).isSome then none
  else some (.unknownEventType (ofBuffer data).type.value)

theorem rejected_handleData (data : List UInt8) (s : ServerState) :
    (exec (handleData o P data) s).2.rejected = s.rejected ++ (rejection? data).toList := by
  rw [exec_handleData, rejection?]
  split_ifs with hshort hlt hhandler
  · rfl
  · exact (List.append_nil _).symm
  · obtain ⟨h, hh⟩ := Option.isSome_iff_exists.mp hhandler
    rw [exec_dispatch, hh]
    exact (List.append_nil _).symm
  · rw [exec_dispatch, Option.not_isSome_iff_eq_none.mp hhandler]
    rfl

/-- The events of the calls of injectors, with the flag of the platform. -/
def batches (o : ByteOrder) (P : Platform) (calls : List (Handler × EventPacket)) : List Posted :=
  calls.flatMap fun call => P.batch o call.1 call.2

theorem batches_append (calls calls' : List (Handler × EventPacket)) :
    batches o P (calls ++ calls') = batches o P calls ++ batches o P calls' :=
  List.flatMap_append

namespace Platform

/-- Whatever the operating system does with the events it is offered, the first of them are
posted, and all of them if the offer is taken. The flag is clear afterwards if it was before. -/
theorem posted_offer_prefix (h : Handler) (evs : List OsEvent) {d : Desktop}
    (hd : d.isInjectedEvent = false) :
    ∃ new, new <+: evs.map (fun event => (⟨event, P.flags⟩ : Posted)) ∧
      (P.offer h evs d).2.posted = d.posted ++ new ∧
      (P.offer h evs d).2.isInjectedEvent = false ∧
      ((P.offer h evs d).1 = .ok () → new = evs.map fun event => ⟨event, P.flags⟩) := by
  cases P with
  | macOS os =>
    rw [offer]
    split_ifs
    -- the event is posted if it can be created
    · refine ⟨_, List.prefix_refl _, ?_, hd, fun _ => rfl⟩
      rw [Desktop.record, hd]
      rfl
    · exact ⟨[], List.nil_prefix, (List.append_nil _).symm, hd, fun h => by cases h⟩
  | windows os =>
    -- `SendInput` may insert fewer events than it is offered; then the call throws
    refine ⟨(evs.take (os.inserted d.calls evs.length)).map fun event => ⟨event, false⟩,
      (List.take_prefix _ _).map _, ?_, hd, fun hok => ?_⟩
    · rw [offer, Desktop.record, hd]
    · rw [offer] at hok
      split_ifs at hok with hall
      rw [not_not.mp hall, List.take_length]
      rfl
  | uiohook => exact ⟨_, List.prefix_refl _, rfl, rfl, fun _ => rfl⟩

/-- **What a call posts.** A prefix of the batch of its packet, and all of it if it returns. -/
theorem posted_inject (h : Handler) (pkt : EventPacket) {d : Desktop}
    (hd : d.isInjectedEvent = false) :
    ∃ new, new <+: P.batch o h pkt ∧
      (exec (P.inject o h pkt) d).2.posted = d.posted ++ new ∧
      (exec (P.inject o h pkt) d).2.isInjectedEvent = false ∧
      ((exec (P.inject o h pkt) d).1 = .ok () → new = P.batch o h pkt) := by
  rcases Nat.lt_or_ge pkt.payload.length (P.minPayload h) with hlen | hlen
  · rw [exec_inject_of_short hlen, batch, if_pos hlen]
    exact ⟨[], List.prefix_refl _, (List.append_nil _).symm, hd, fun _ => rfl⟩
  · rw [exec_inject, if_neg (Nat.not_lt.mpr hlen), batch, if_neg (Nat.not_lt.mpr hlen)]
    rcases P.events o h pkt with stop | evs
    · exact ⟨[], List.prefix_refl _, (List.append_nil _).symm, hd, fun _ => rfl⟩
    · exact posted_offer_prefix h evs hd

end Platform

/-- **What a round posts.** A prefix of the batch of the call it makes, and all of it if the
round returns. -/
theorem posted_handleData (data : List UInt8) {s : ServerState}
    (hs : s.desktop.isInjectedEvent = false) :
    ∃ new, new <+: batches o P (dispatches data).toList ∧
      (exec (handleData o P data) s).2.desktop.posted = s.desktop.posted ++ new ∧
      (exec (handleData o P data) s).2.desktop.isInjectedEvent = false ∧
      ((exec (handleData o P data) s).1 = .ok () →
        new = batches o P (dispatches data).toList) := by
  rcases Nat.lt_or_ge data.length (headerSize + declaredSize data) with hlt | hle
  · -- no injector is called
    have hsame : (exec (handleData o P data) s).2.desktop = s.desktop := by
      rw [exec_handleData, if_pos hlt]
      split_ifs
      · rfl
      · rfl
    rw [hsame, dispatches, if_pos hlt]
    exact ⟨[], List.prefix_refl _, (List.append_nil _).symm, hs, fun _ => rfl⟩
  · rw [exec_handleData_of_le hle, exec_dispatch, dispatches, if_neg (Nat.not_lt.mpr hle)]
    rcases handler? (ofBuffer data).type with _ | h
    · exact ⟨[], List.prefix_refl _, (List.append_nil _).symm, hs, fun _ => rfl⟩
    · have hbatch : batches o P ((some h).map (·, ofBuffer data)).toList =
          P.batch o h (ofBuffer data) := List.append_nil _
      rw [hbatch]
      exact Platform.posted_inject h (ofBuffer data) hs

/-- A packet is for at most two events. -/
theorem Platform.length_batch_le (h : Handler) (pkt : EventPacket) :
    (P.batch o h pkt).length ≤ 2 := by
  have hevents : ∀ evs, P.events o h pkt = .ok evs → evs.length ≤ 2 := by
    intro evs hevs
    cases P with
    | windows os =>
      cases h with
      | injectMouseMove =>
        obtain ⟨dx, -, hevs⟩ := bind_eq_ok hevs
        obtain ⟨dy, -, hevs⟩ := bind_eq_ok hevs
        obtain rfl := Except.ok.inj hevs
        exact Nat.le_succ 1
      | _ =>
        obtain rfl := Except.ok.inj hevs
        simp
    | _ =>
      cases h <;>
      · obtain rfl := Except.ok.inj hevs
        exact Nat.le_succ 1
  rw [batch]
  split_ifs
  · exact Nat.zero_le 2
  · rcases hevs : P.events o h pkt with stop | evs
    · exact Nat.zero_le 2
    · rw [List.length_map]
      exact hevents evs hevs

theorem length_batches_le (calls : List (Handler × EventPacket)) :
    (batches o P calls).length ≤ 2 * calls.length := by
  induction calls with
  | nil => exact Nat.le_refl 0
  | cons call calls ih =>
    have hfirst := Platform.length_batch_le (o := o) (P := P) call.1 call.2
    rw [batches, List.flatMap_cons, List.length_append, ← batches, List.length_cons]
    omega

/-! ### Runs -/

/-- The chunk of a read. -/
def ReadSome.data? : ReadSome → Option (List UInt8)
  | .chunk c => some c.data
  | _ => none

/-- The chunks among the reads. -/
def receivedData (reads : List ReadSome) : List (List UInt8) := reads.filterMap ReadSome.data?

/-- What is known of a server from the chunks it has seen. -/
structure Accounted (o : ByteOrder) (P : Platform) (seen : List (List UInt8)) (s : ServerState) :
    Prop where
  dispatched : s.dispatched = seen.filterMap dispatches
  rejected : s.rejected = seen.filterMap rejection?
  posted : s.desktop.posted <+: batches o P s.dispatched

/-- No more than two events are posted for each chunk, over all. -/
theorem Accounted.length_posted_le {seen : List (List UInt8)} {s : ServerState}
    (h : Accounted o P seen s) : s.desktop.posted.length ≤ 2 * seen.length := by
  have hcalls : s.dispatched.length ≤ seen.length := by
    rw [h.dispatched]
    exact List.length_filterMap_le _ _
  have hposted := h.posted.length_le.trans (length_batches_le s.dispatched)
  omega

/-- A server that is still running: nothing is missing. -/
private structure Running (o : ByteOrder) (P : Platform) (reads : List ReadSome)
    (s : ServerState) : Prop extends Accounted o P (receivedData reads) s where
  complete : s.desktop.posted = batches o P s.dispatched
  clear : s.desktop.isInjectedEvent = false

/-- A read that is no chunk changes nothing. -/
private theorem Running.concat_of_none {reads : List ReadSome} {s : ServerState} {r : ReadSome}
    (h : Running o P reads s) (hr : r.data? = none) : Running o P (reads ++ [r]) s := by
  have hreceived : receivedData (reads ++ [r]) = receivedData reads := by
    rw [receivedData, filterMap_concat, hr, Option.toList_none, List.append_nil]
    rfl
  exact ⟨hreceived ▸ h.toAccounted, h.complete, h.clear⟩

/-- **A round on a chunk.** However it ends the chunk is accounted for, and nothing is missing
if it returns. -/
private theorem Running.concat_chunk {reads : List ReadSome} {s : ServerState}
    (h : Running o P reads s) (c : Chunk) :
    Accounted o P (receivedData (reads ++ [.chunk c])) (exec (handleData o P c.data) s).2 ∧
      ((exec (handleData o P c.data) s).1 = .ok () →
        Running o P (reads ++ [.chunk c]) (exec (handleData o P c.data) s).2) := by
  have hreceived : receivedData (reads ++ [.chunk c]) = receivedData reads ++ [c.data] :=
    filterMap_concat _ _ _
  have hdispatched := dispatched_handleData (o := o) (P := P) c.data s
  obtain ⟨new, hpre, hposted, hclear, hall⟩ :=
    posted_handleData (o := o) (P := P) c.data h.clear
  have hbatches : batches o P (exec (handleData o P c.data) s).2.dispatched =
      s.desktop.posted ++ batches o P (dispatches c.data).toList := by
    rw [hdispatched, batches_append, h.complete]
  have haccounted : Accounted o P (receivedData (reads ++ [.chunk c]))
      (exec (handleData o P c.data) s).2 := by
    refine ⟨?_, ?_, ?_⟩
    · rw [hreceived, filterMap_concat, hdispatched, h.dispatched]
    · rw [hreceived, filterMap_concat, rejected_handleData, h.rejected]
    · rw [hbatches, hposted]
      exact (List.prefix_append_right_inj _).mpr hpre
  refine ⟨haccounted, fun hok => ⟨haccounted, ?_, hclear⟩⟩
  rw [hbatches, hposted, hall hok]

/-- The loop as a whole. -/
private theorem accounted_receiveLoop (o : ByteOrder) (P : Platform) (reads : List ReadSome) :
    ∃ seen, seen <+: reads ∧
      ((exec (receiveLoop o P reads) {}).1 = .ok none → seen = reads) ∧
      Accounted o P (receivedData seen) (exec (receiveLoop o P reads) {}).2 ∧
      ∀ r, (exec (receiveLoop o P reads) {}).1 = .ok r →
        (exec (receiveLoop o P reads) {}).2.desktop.posted =
          batches o P (exec (receiveLoop o P reads) {}).2.dispatched := by
  have hstart : Running o P [] {} := ⟨⟨rfl, rfl, List.prefix_refl _⟩, rfl, rfl⟩
  refine exec_loop_rule (I := Running o P)
    (J := fun seen result s => Accounted o P (receivedData seen) s ∧
      ∀ r, result = .ok r → s.desktop.posted = batches o P s.dispatched)
    ?_ ?_ ?_ ?_ reads hstart
  · -- a round that goes on has seen a chunk
    rintro before r s s' hI hround
    cases r with
    | chunk c =>
      obtain ⟨⟨⟩, s₁, hdata, hpure⟩ := exec_bind_eq_ok hround
      obtain ⟨-, rfl⟩ := Prod.mk.inj hpure
      obtain ⟨-, hrunning⟩ := hI.concat_chunk c
      rw [hdata] at hrunning
      exact hrunning rfl
    | eof => cases hround
    | error what => cases hround
  · exact fun before s hI => ⟨hI.toAccounted, fun _ _ => hI.complete⟩
  · -- a round that breaks has seen the end of the stream
    rintro before r s s' ⟨⟩ hI hround
    cases r with
    | chunk c =>
      obtain ⟨⟨⟩, s₁, -, hpure⟩ := exec_bind_eq_ok hround
      cases hpure
    | eof =>
      obtain ⟨-, rfl⟩ := Prod.mk.inj hround
      have hend : Running o P (before ++ [.eof]) s := hI.concat_of_none rfl
      exact ⟨hend.toAccounted, fun _ _ => hend.complete⟩
    | error what => cases hround
  · -- a round that throws has seen a bad chunk or a read error
    rintro before r s s' stop hI hround
    refine ⟨?_, nofun⟩
    cases r with
    | chunk c =>
      obtain hdata | ⟨⟨⟩, s₁, -, hpure⟩ := exec_bind_eq_error hround
      · obtain ⟨haccounted, -⟩ := hI.concat_chunk c
        rw [hdata] at haccounted
        exact haccounted
      · cases hpure
    | eof => cases hround
    | error what =>
      obtain ⟨-, rfl⟩ := Prod.mk.inj hround
      have hend : Running o P (before ++ [.error what]) s := hI.concat_of_none rfl
      exact hend.toAccounted

theorem Chunk.take_ne_nil (c : Chunk) :
    c.data.take (headerSize + declaredSize c.data) ≠ [] := by
  rw [headerSize, ne_eq, List.take_eq_nil_iff, not_or]
  exact ⟨by omega, c.nonempty⟩

/-- The chunk up to the end of the payload that it declares. -/
def Chunk.cut (c : Chunk) : Chunk where
  data := c.data.take (headerSize + declaredSize c.data)
  nonempty := c.take_ne_nil
  bounded := Nat.le_trans (List.length_take_le' _ _) c.bounded

/-- A part of a buffer that ends before the cut. -/
private theorem take_drop_take {b : List UInt8} {off k n : ℕ} (h : off + k ≤ n) :
    ((b.take n).drop off).take k = (b.drop off).take k := by
  rw [List.drop_take, List.take_take, Nat.min_eq_left (by omega)]

private theorem declaredSize_take {b : List UInt8} {n : ℕ} (h : headerSize ≤ n) :
    declaredSize (b.take n) = declaredSize b := by
  rw [declaredSize, take_drop_take h, declaredSize]

/-- The packet of a buffer is in the part that it declares. -/
private theorem ofBuffer_take (b : List UInt8) :
    ofBuffer (b.take (headerSize + declaredSize b)) = ofBuffer b := by
  have hhead : (b.take (headerSize + declaredSize b)).headD 0 = b.headD 0 := by
    cases b with
    | nil => rfl
    | cons a b =>
      rw [headerSize, Nat.add_comm, List.take_succ_cons]
      rfl
  rw [ofBuffer, ofBuffer, hhead, declaredSize_take (Nat.le_add_right _ _),
    take_drop_take (by rw [headerSize]; omega), take_drop_take (by rw [headerSize])]

/-- The packet of a buffer is written back to the part that it declares. -/
theorem toBytes_ofBuffer_take {b : List UInt8} (h : headerSize + declaredSize b ≤ b.length) :
    (ofBuffer b).toBytes = b.take (headerSize + declaredSize b) := by
  rw [← ofBuffer_take b]
  refine toBytes_ofBuffer ?_
  rw [declaredSize_take (Nat.le_add_right _ _), List.length_take, Nat.min_eq_left h]

/-- A chunk is cut to the encoding of a packet exactly if it starts with it. -/
theorem Chunk.cut_eq_iff {c : Chunk} {p : PacketChunk} :
    c.cut = p.chunk ↔ p.packet.toBytes <+: c.data := by
  have hdata : c.cut = p.chunk ↔
      c.data.take (headerSize + declaredSize c.data) = p.packet.toBytes := by
    rw [cut, PacketChunk.chunk, Chunk.mk.injEq]
  rw [hdata]
  constructor
  · intro htake
    rw [← htake]
    exact List.take_prefix _ _
  · rintro ⟨tail, htail⟩
    have hlen : headerSize + declaredSize c.data = p.packet.toBytes.length := by
      rw [← htail, declaredSize_toBytes_append, length_toBytes, p.sized]
    rw [hlen, ← htail, List.take_left]

/-- A round does not see the bytes after the declared payload. -/
theorem exec_handleData_cut (c : Chunk) (s : ServerState) :
    exec (handleData o P c.cut.data) s = exec (handleData o P c.data) s := by
  have hlen : c.cut.data.length = min (headerSize + declaredSize c.data) c.data.length :=
    List.length_take
  have hdeclared : declaredSize c.cut.data = declaredSize c.data :=
    declaredSize_take (Nat.le_add_right _ _)
  have hpacket : ofBuffer c.cut.data = ofBuffer c.data := ofBuffer_take c.data
  rcases Nat.lt_or_ge c.data.length (headerSize + declaredSize c.data) with hlt | hle
  · have hwhole : c.cut.data = c.data := List.take_of_length_le hlt.le
    rw [hwhole]
  · rw [exec_handleData_of_le hle, exec_handleData_of_le (by rw [hdeclared, hlen]; omega), hpacket]

private theorem exec_receiveLoop_cut (cs : List Chunk) (s : ServerState) :
    exec (receiveLoop o P (cs.map .chunk)) s =
      exec (receiveLoop o P ((cs.map Chunk.cut).map .chunk)) s := by
  induction cs generalizing s with
  | nil => rfl
  | cons c cs ih =>
    have hcut := exec_handleData_cut (o := o) (P := P) c s
    rcases hround : exec (handleData o P c.data) s with ⟨stop | ⟨⟩, s'⟩
    · rw [hround] at hcut
      rw [List.map_cons, List.map_cons, List.map_cons, exec_receiveLoop_stop hround,
        exec_receiveLoop_stop hcut]
    · rw [hround] at hcut
      rw [List.map_cons, List.map_cons, List.map_cons, exec_receiveLoop_continue hround,
        exec_receiveLoop_continue hcut, ih]

/-- **Only the first packet of a read counts.** A server does the same if every chunk ends where
its declared payload does; and a chunk that starts with a packet is then this packet alone,
whatever came with it. -/
theorem serve_cut (o : ByteOrder) (P : Platform) (cs : List Chunk) :
    serve o P cs = serve o P (cs.map Chunk.cut) ∧
      ∀ (c : Chunk) (p : PacketChunk), c.cut = p.chunk ↔ p.packet.toBytes <+: c.data :=
  ⟨exec_receiveLoop_cut cs {}, fun _ _ => Chunk.cut_eq_iff⟩

end Sameness
