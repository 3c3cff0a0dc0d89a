import Sameness.Server.Loop

/-!
# Bad packets and the server

The loop skips a chunk that it cannot decode and goes on, but an exception of an injector is
caught outside the loop and ends the server. `Isolated` asks that every packet be processed as
if it had been received alone, whatever its payload.

With an operating system that takes every event, what an injector does with a packet depends
on the packet alone: `Platform.Accepts` says when it returns and `Platform.batch` what it
posts. `exec_handleData_of_harmless` is the step, `exec_receiveLoop_of_harmless` the run, and
`isolated_iff` the exact condition: in the fallback always, elsewhere when no packet of a named
type is too short, or on Windows has coordinates that cannot be converted.
-/

namespace Sameness

open Bytes Cpp Eff EventPacket

variable {o : ByteOrder} {P : Platform}

/-- A received chunk that is the encoding of a packet. -/
structure PacketChunk where
  packet : EventPacket
  sized : packet.Sized
  bounded : packet.toBytes.length ≤ 4096

def PacketChunk.chunk (c : PacketChunk) : Chunk := ⟨c.packet.toBytes, toBytes_ne_nil _, c.bounded⟩

/-- The call that the packet asks for, if its type has a name. -/
def PacketChunk.call? (c : PacketChunk) : Option (Handler × EventPacket) :=
  (handler? c.packet.type).map (·, c.packet)

/-- The events posted for a chunk that is received alone. -/
def alone (o : ByteOrder) (P : Platform) (c : PacketChunk) : List Posted :=
  (serve o P [c.chunk]).2.desktop.posted

/-- Every chunk is processed as if it were alone: the loop is still running, every event of
every chunk has been posted, a payload that is too short posts nothing, and every packet of a
named type has been dispatched. -/
structure Isolated (o : ByteOrder) (P : Platform) (cs : List PacketChunk) : Prop where
  running : (serve o P (cs.map PacketChunk.chunk)).1 = .ok none
  posted : (serve o P (cs.map PacketChunk.chunk)).2.desktop.posted = cs.flatMap (alone o P)
  short : ∀ c ∈ cs, ∀ h ∈ handler? c.packet.type,
    c.packet.payload.length < P.minPayload h → alone o P c = []
  dispatched : (serve o P (cs.map PacketChunk.chunk)).2.dispatched
    = cs.filterMap PacketChunk.call?

namespace Platform

/-- The injector returns from the packet when the operating system takes its events. -/
def Accepts (o : ByteOrder) (P : Platform) (h : Handler) (pkt : EventPacket) : Prop :=
  match P with
  | uiohook => True
  | P => P.minPayload h ≤ pkt.payload.length ∧ P.Fits o h pkt

theorem survives_iff_accepts {n : ℕ} {h : Handler} {pkt : EventPacket} (ht : P.Takes n h) :
    P.Survives o n h pkt ↔ P.Accepts o h pkt := by
  rcases P with os | os | _
  · exact and_congr_right fun _ => and_iff_left ht
  · exact and_congr_right fun _ => and_iff_left ht
  · exact Iff.rfl

/-- The value of the flag while an injector posts, if it is clear before the call. -/
def flags : Platform → Bool
  | uiohook => true
  | _ => false

/-- What an injector posts when the operating system takes its events and the flag is
clear. -/
def batch (o : ByteOrder) (P : Platform) (h : Handler) (pkt : EventPacket) : List Posted :=
  if pkt.payload.length < P.minPayload h then []
  else match P.events o h pkt with
    | .ok evs => evs.map fun event => ⟨event, P.flags⟩
    | .error _ => []

/-- A batch is posted with the flag of the platform, which is clear again afterwards. -/
theorem posted_posted {d : Desktop} (hd : d.isInjectedEvent = false) (evs : List OsEvent) :
    (P.posted evs d).posted = d.posted ++ evs.map (fun event => ⟨event, P.flags⟩) ∧
      (P.posted evs d).isInjectedEvent = false := by
  have hrecord : (d.record evs).posted = d.posted ++ evs.map fun event => ⟨event, false⟩ := by
    rw [Desktop.record, hd]
  rcases P with os | os | _
  · exact ⟨hrecord, hd⟩
  · exact ⟨hrecord, hd⟩
  · exact ⟨rfl, rfl⟩

/-- A packet that is accepted makes the injector return after posting its batch. -/
theorem exec_inject_of_accepts {h : Handler} {pkt : EventPacket} {d : Desktop}
    (ha : P.Accepts o h pkt) (ht : P.Takes d.calls h) (hd : d.isInjectedEvent = false) :
    ∃ d', exec (P.inject o h pkt) d = (.ok (), d') ∧
      d'.posted = d.posted ++ P.batch o h pkt ∧ d'.isInjectedEvent = false := by
  rcases Nat.lt_or_ge pkt.payload.length (P.minPayload h) with hlen | hlen
  · -- only the fallback accepts a short payload, by doing nothing
    have hrefuse : P.refusal h = .ok () := by
      rcases P with os | os | _
      · exact absurd ha.1 (Nat.not_le.mpr hlen)
      · exact absurd ha.1 (Nat.not_le.mpr hlen)
      · rfl
    refine ⟨d, by rw [exec_inject_of_short hlen, hrefuse], ?_, hd⟩
    rw [batch, if_pos hlen, List.append_nil]
  · have hfit : P.Fits o h pkt := by
      rcases P with os | os | _
      · exact ha.2
      · exact ha.2
      · exact trivial
    obtain ⟨evs, hev⟩ := events_ok_iff.mpr hfit
    obtain ⟨hposted, hflag⟩ := posted_posted (P := P) hd evs
    refine ⟨_, exec_inject_of_takes hlen hev ht, ?_, hflag⟩
    rw [hposted, batch, if_neg (Nat.not_lt.mpr hlen), hev]

end Platform

/-- The chunk does not take the server down. -/
def PacketChunk.Harmless (o : ByteOrder) (P : Platform) (c : PacketChunk) : Prop :=
  ∀ h ∈ handler? c.packet.type, P.Accepts o h c.packet

/-- What a chunk posts. -/
def PacketChunk.batch (o : ByteOrder) (P : Platform) (c : PacketChunk) : List Posted :=
  (handler? c.packet.type).elim [] fun h => P.batch o h c.packet

/-! ### Rounds and runs -/

section Run

variable (hos : ∀ n h, P.Takes n h)
include hos

/-- A round on a harmless chunk returns, posts its batch and dispatches its packet. -/
theorem exec_handleData_of_harmless {c : PacketChunk} (hc : c.Harmless o P) {s : ServerState}
    (hs : s.desktop.isInjectedEvent = false) :
    ∃ s', exec (handleData o P c.chunk.data) s = (.ok (), s') ∧
      s'.desktop.posted = s.desktop.posted ++ c.batch o P ∧
      s'.desktop.isInjectedEvent = false := by
  rw [PacketChunk.chunk, exec_handleData_toBytes c.sized, exec_dispatch, PacketChunk.batch]
  rcases hh : handler? c.packet.type with _ | h
  · exact ⟨_, rfl, (List.append_nil _).symm, hs⟩
  · obtain ⟨d, hd, hposted, hflag⟩ :=
      Platform.exec_inject_of_accepts (hc h hh) (hos s.desktop.calls h) hs
    exact ⟨s.called h c.packet d, by simp only [hd], hposted, hflag⟩

/-- A round that returns was on a harmless chunk. -/
theorem harmless_of_exec_handleData {c : PacketChunk} {s s' : ServerState}
    (hrun : exec (handleData o P c.chunk.data) s = (.ok (), s')) : c.Harmless o P := by
  intro h hh
  rw [PacketChunk.chunk, exec_handleData_toBytes c.sized, exec_dispatch,
    Option.mem_def.mp hh] at hrun
  have hok := congrArg Prod.fst hrun
  exact (Platform.survives_iff_accepts (hos _ h)).mp (Platform.inject_ok_iff.mp hok)

/-- The run over harmless chunks. -/
theorem exec_receiveLoop_of_harmless {cs : List PacketChunk} (hcs : ∀ c ∈ cs, c.Harmless o P)
    {s : ServerState} (hs : s.desktop.isInjectedEvent = false) :
    ∃ s', exec (receiveLoop o P ((cs.map PacketChunk.chunk).map .chunk)) s = (.ok none, s') ∧
      s'.desktop.posted = s.desktop.posted ++ cs.flatMap (PacketChunk.batch o P) ∧
      s'.dispatched = s.dispatched ++ cs.filterMap PacketChunk.call? := by
  induction cs generalizing s with
  | nil => exact ⟨s, rfl, (List.append_nil _).symm, (List.append_nil _).symm⟩
  | cons c cs ih =>
    obtain ⟨hc, hrest⟩ := List.forall_mem_cons.mp hcs
    obtain ⟨s₁, hround, hposted, hflag⟩ := exec_handleData_of_harmless hos hc hs
    obtain ⟨s₂, hrun, hposted', hdisp'⟩ := ih hrest hflag
    have hdisp := dispatched_handleData (o := o) (P := P) c.chunk.data s
    rw [hround, PacketChunk.chunk, dispatches_toBytes c.sized] at hdisp
    refine ⟨s₂, ?_, ?_, ?_⟩
    · rw [List.map_cons, List.map_cons, exec_receiveLoop_continue hround, hrun]
    · rw [hposted', hposted, List.flatMap_cons, List.append_assoc]
    · rw [hdisp', hdisp, List.filterMap_cons, PacketChunk.call?]
      rcases handler? c.packet.type with _ | h <;> simp

/-- A loop that is still running has seen harmless chunks only. -/
theorem harmless_of_exec_receiveLoop {cs : List PacketChunk} {s s' : ServerState}
    (hrun : exec (receiveLoop o P ((cs.map PacketChunk.chunk).map .chunk)) s = (.ok none, s')) :
    ∀ c ∈ cs, c.Harmless o P := by
  induction cs generalizing s with
  | nil => exact fun c hc => absurd hc List.not_mem_nil
  | cons c cs ih =>
    rw [List.map_cons, List.map_cons] at hrun
    rcases hround : exec (handleData o P c.chunk.data) s with ⟨stop | ⟨⟩, s₁⟩
    · rw [exec_receiveLoop_stop hround] at hrun
      cases hrun
    · rw [exec_receiveLoop_continue hround] at hrun
      exact List.forall_mem_cons.mpr ⟨harmless_of_exec_handleData hos hround, ih hrun⟩

/-- A harmless chunk that is alone posts its batch. -/
theorem alone_of_harmless {c : PacketChunk} (hc : c.Harmless o P) :
    alone o P c = c.batch o P := by
  obtain ⟨s, hrun, hposted, -⟩ := exec_receiveLoop_of_harmless (s := {}) hos
    (List.forall_mem_singleton.mpr hc) rfl
  calc alone o P c = s.desktop.posted := congrArg (fun r => r.2.desktop.posted) hrun
    _ = [c].flatMap (PacketChunk.batch o P) := hposted
    _ = c.batch o P := List.append_nil _

/-- **When bad packets are isolated.** Exactly if the injectors return from every packet of
a named type. -/
theorem isolated_iff (cs : List PacketChunk) :
    Isolated o P cs ↔ ∀ c ∈ cs, ∀ h ∈ handler? c.packet.type, P.Accepts o h c.packet := by
  constructor
  · -- a loop that is still running is enough
    rintro ⟨hrun, -, -, -⟩
    exact harmless_of_exec_receiveLoop hos (Prod.ext hrun rfl)
  · intro hcs
    obtain ⟨s, hrun, hposted, hdisp⟩ := exec_receiveLoop_of_harmless (s := {}) hos hcs rfl
    refine ⟨by rw [serve, hrun], ?_, fun c hc h hh hshort => ?_, ?_⟩
    · rw [serve, hrun, hposted]
      exact List.flatMap_congr fun c hc => (alone_of_harmless hos (hcs c hc)).symm
    · rw [alone_of_harmless hos (hcs c hc), PacketChunk.batch, Option.mem_def.mp hh,
        Option.elim_some, Platform.batch, if_pos hshort]
    · rw [serve, hrun, hdisp]
      rfl

end Run

/-- A key press without a payload. -/
def emptyKeyPress : PacketChunk := ⟨⟨.keyPress, 0, 0, []⟩, by decide, by decide⟩

/-- The fallback skips the empty packet, and goes on. -/
theorem isolated_uiohook : Isolated .little .uiohook [emptyKeyPress, emptyKeyPress] :=
  (isolated_iff (P := .uiohook) (fun _ _ => trivial) _).mpr fun _ _ _ _ => trivial

/-- A macOS machine that creates every event. -/
def macBook : Platform := .macOS ⟨1440, 900, by decide, by decide, fun _ => true⟩

/-- The empty packet takes the macOS server down. -/
theorem not_isolated_macOS :
    (∀ n h, macBook.Takes n h) ∧ ¬Isolated .little macBook [emptyKeyPress] := by
  refine ⟨fun _ _ => rfl, fun h => ?_⟩
  have hrun := h.running
  exact absurd hrun (by decide)

end Sameness
