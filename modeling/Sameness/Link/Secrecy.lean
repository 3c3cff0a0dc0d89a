import Sameness.Client.Hidden
import Sameness.Link.Session

/-!
# What the other machine can learn

The hidden part of a client's run stays hidden on the whole path: `desktop_eq_of_shared` says
that two connections whose clients see the same moves, and the same other events while they have
control, leave the same events posted on the server, on all three platforms, and both servers
running or both stopped in the same way. Only the times of the events may differ, which come
from the client's clock; and the heights of the two hosts' screens are not looked at.

The statement for the bytes is carried through the decoder (`restamp_ofBuffer`) and through the
injectors: to post the events of a packet and to forget their times is to post those of the
packet at any other time (`untimed_inject`).
-/

namespace Sameness

open Bytes Cpp Eff Uiohook Runs

/-! ### Events without their times -/

/-- The event, but for its time. -/
def OsEvent.untimed : OsEvent → OsEvent
  | .uiohook event => .uiohook { event with time := 0 }
  | event => event

/-- The posted event, but for its time. -/
def Posted.untimed (p : Posted) : Posted := { p with event := p.event.untimed }

/-- The desktop, but for the times of the posted events. -/
def Desktop.untimed (d : Desktop) : Desktop := { d with posted := d.posted.map Posted.untimed }

section Untimed

variable {o : ByteOrder} {P : Platform}

/-- The timestamp of a packet goes into the times of its events and nowhere else. -/
theorem Platform.events_restamp (now : UInt64) (h : Handler) (pkt : EventPacket) :
    (P.events o h (pkt.restamp now)).map (List.map OsEvent.untimed) =
      (P.events o h pkt).map (List.map OsEvent.untimed) := by
  cases P <;> cases h <;> rfl

/-- Offering events and forgetting their times. -/
theorem Platform.untimed_offer (h : Handler) (evs : List OsEvent) (d : Desktop) :
    ((P.offer h evs d).1, (P.offer h evs d).2.untimed) =
      P.offer h (evs.map OsEvent.untimed) d.untimed := by
  have hmap : ∀ (flag : Bool) (l : List OsEvent),
      (l.map fun event => (⟨event, flag⟩ : Posted)).map Posted.untimed =
        (l.map OsEvent.untimed).map fun event => ⟨event, flag⟩ := by
    intro flag l
    rw [List.map_map, List.map_map]
    rfl
  have hrecord : ∀ l : List OsEvent,
      (d.record l).untimed = d.untimed.record (l.map OsEvent.untimed) := by
    intro l
    rw [Desktop.untimed, Desktop.record, List.map_append, hmap]
    rfl
  -- the operating system answers by the number of its calls and of the events
  rcases P with os | os | _
  · rw [offer, offer]
    change ((if os.createsEvent d.calls then _ else _ : _ × Desktop).1, _) =
      if os.createsEvent d.calls then _ else _
    split_ifs
    · exact congrArg (Prod.mk _) (hrecord evs)
    · rfl
  · refine Prod.ext ?_ ?_
    · rw [offer, offer, List.length_map]
      rfl
    · rw [offer, offer, List.length_map, ← List.map_take]
      exact hrecord _
  · refine Prod.ext rfl ?_
    rw [offer, offer, Desktop.untimed, List.map_append, hmap]
    rfl

/-- Calling an injector and forgetting the times of what it posts. -/
theorem untimed_inject (h : Handler) (pkt : EventPacket) (d : Desktop) :
    ((exec (P.inject o h pkt) d).1, (exec (P.inject o h pkt) d).2.untimed) =
      if pkt.payload.length < P.minPayload h then (P.refusal h, d.untimed)
      else match (P.events o h pkt).map (List.map OsEvent.untimed) with
        | .ok evs => P.offer h evs d.untimed
        | .error stop => (.error stop, d.untimed) := by
  rw [Platform.exec_inject]
  split_ifs
  · rfl
  · rcases P.events o h pkt with stop | evs
    · rfl
    · exact Platform.untimed_offer h evs d

/-- The injector does the same at another time. -/
theorem untimed_inject_restamp {d d' : Desktop} (hd : d.untimed = d'.untimed) (now : UInt64)
    (h : Handler) (pkt : EventPacket) :
    ((exec (P.inject o h (pkt.restamp now)) d).1,
        (exec (P.inject o h (pkt.restamp now)) d).2.untimed) =
      ((exec (P.inject o h pkt) d').1, (exec (P.inject o h pkt) d').2.untimed) := by
  rw [untimed_inject, untimed_inject, Platform.events_restamp, hd]
  rfl

end Untimed

/-! ### Servers that look the same -/

/-- The servers have ended alike, if at all, and have posted the same events but for their
times. -/
def SameDesktop (t t' : ServerEnd) : Prop :=
  t.1 = t'.1 ∧ t.2.desktop.untimed = t'.2.desktop.untimed

section Same

variable {c : Client} {o : ByteOrder} {P : Platform}

/-- The same packet at another time leaves the same. -/
theorem sameDesktop_serverRead {t t' : ServerEnd} (h : SameDesktop t t') {pkt : EventPacket}
    (hsized : pkt.Sized) (now : UInt64) :
    SameDesktop (serverRead o P (pkt.restamp now).toBytes t) (serverRead o P pkt.toBytes t') := by
  obtain ⟨r, s⟩ := t
  obtain ⟨r', s'⟩ := t'
  obtain ⟨hr, hd⟩ := h
  obtain rfl : r = r' := hr
  rcases r with stop | u
  -- a server that has stopped does nothing
  · exact ⟨rfl, hd⟩
  obtain rfl : u = () := rfl
  have hread : ∀ {p : EventPacket}, p.Sized → ∀ s,
      serverRead o P p.toBytes (.ok (), s) = exec (dispatch o P p) s :=
    fun hp s => exec_handleData_toBytes hp s
  have hsized' : (pkt.restamp now).Sized := hsized
  have htype : (pkt.restamp now).type = pkt.type := rfl
  rw [hread hsized', hread hsized, exec_dispatch, exec_dispatch, htype]
  rcases handler? pkt.type with _ | h
  · exact ⟨rfl, hd⟩
  · have hsame := untimed_inject_restamp (o := o) (P := P) hd now h pkt
    exact ⟨(Prod.mk.inj hsame).1, (Prod.mk.inj hsame).2⟩

/-- So do the same packets at other times. -/
theorem sameDesktop_readAll {pkts : List EventPacket} (hpkts : ∀ pkt ∈ pkts, pkt.Sized)
    (now : UInt64) {t t' : ServerEnd} (h : SameDesktop t t') :
    SameDesktop
      ((session c o P).readAll EventPacket.toBytes t (pkts.map (EventPacket.restamp now)))
      ((session c o P).readAll EventPacket.toBytes t' pkts) := by
  induction pkts generalizing t t' with
  | nil => exact h
  | cons pkt pkts ih =>
    obtain ⟨hpkt, hrest⟩ := List.forall_mem_cons.mp hpkts
    exact ih hrest (sameDesktop_serverRead h hpkt now)

end Same

/-! ### Two connections -/

/-- The packet that a buffer without a timestamp stands for. -/
def EventPacket.ofErased (b : List UInt8) : EventPacket where
  type := ⟨b.headD 0⟩
  timestamp := 0
  payloadSize := UInt32.ofNat (ByteOrder.big.decode ((b.drop 1).take 4))
  payload := (b.drop 5).take (ByteOrder.big.decode ((b.drop 1).take 4))

/-- A packet but for its timestamp can be read off its buffer without the timestamp. -/
theorem restamp_ofBuffer (b : List UInt8) :
    (EventPacket.ofBuffer b).restamp 0 = EventPacket.ofErased (eraseTimestamp b) := by
  rcases b with _ | ⟨type, rest⟩
  · rfl
  have hsize : (eraseTimestamp (type :: rest)).drop 1 = (type :: rest).drop 9 := rfl
  have hload : (eraseTimestamp (type :: rest)).drop 5 = (type :: rest).drop 13 := by
    change (rest.drop 8).drop 4 = rest.drop 12
    rw [List.drop_drop]
  rw [EventPacket.ofErased, hsize, hload]
  rfl

section Two

variable {c : Client} {height height' threshold : Int32} {o : ByteOrder} {P : Platform}

/-- Where everything has arrived, the server has read what its client has written. -/
theorem reader_of_drained {acts : List (Channel.Action HookCall)}
    (hacts : (session c o P).Framed c.packets EventPacket.toBytes acts
      ⟨.fresh c height threshold, [], serverStart⟩)
    (hstream : (sessionAfter c height threshold o P acts).stream = []) :
    (sessionAfter c height threshold o P acts).reader =
        (session c o P).readAll EventPacket.toBytes serverStart
          (runState c height threshold (Channel.inputs acts)).packets ∧
      ∀ pkt ∈ (runState c height threshold (Channel.inputs acts)).packets, pkt.Sized := by
  obtain ⟨done, pending, hcarries⟩ :=
    Channel.exists_carries c.selfDelimiting writes_session rfl hacts
  rw [← writer_sessionAfter (o := o) (P := P)]
  refine ⟨(hcarries.of_stream_nil c.selfDelimiting hstream).2, fun pkt hpkt => ?_⟩
  have hlog : pkt ∈ done ++ pending := hcarries.log_eq ▸ hpkt
  exact Client.sized_packets (hcarries.mem_valid pkt hlog)

/-- **Host-local input does not reach the other machine.** Two connections in which everything
has arrived, and whose clients have seen the same moves and the same other events while they
had control, have posted the same events but for their times. -/
theorem desktop_eq_of_shared {acts acts' : List (Channel.Action HookCall)}
    (hacts : (session c o P).Framed c.packets EventPacket.toBytes acts
      ⟨.fresh c height threshold, [], serverStart⟩)
    (hacts' : (session c o P).Framed c.packets EventPacket.toBytes acts'
      ⟨.fresh c height' threshold, [], serverStart⟩)
    (hstream : (sessionAfter c height threshold o P acts).stream = [])
    (hstream' : (sessionAfter c height' threshold o P acts').stream = [])
    (hshared : sharedEvents c height threshold (Channel.inputs acts) =
      sharedEvents c height' threshold (Channel.inputs acts')) :
    SameDesktop (sessionAfter c height threshold o P acts).reader
      (sessionAfter c height' threshold o P acts').reader := by
  obtain ⟨hreader, hsized⟩ := reader_of_drained hacts hstream
  obtain ⟨hreader', hsized'⟩ := reader_of_drained hacts' hstream'
  -- the two clients have written the same bytes but for the timestamps
  have hfresh : Alike (.fresh c height threshold) (.fresh c height' threshold) := ⟨rfl, rfl, rfl⟩
  obtain ⟨-, halike⟩ := (unwinding c).noninterference hfresh hshared
  have hpackets :
      (runState c height threshold (Channel.inputs acts)).packets.map (EventPacket.restamp 0) =
        (runState c height' threshold (Channel.inputs acts')).packets.map
          (EventPacket.restamp 0) := by
    have herased := congrArg (List.map EventPacket.ofErased) halike.sent
    simpa only [runState, ClientState.packets, List.map_map, Function.comp_def, restamp_ofBuffer]
      using herased
  have hstart : SameDesktop serverStart serverStart := ⟨rfl, rfl⟩
  have h := sameDesktop_readAll (c := c) (o := o) (P := P) hsized 0 hstart
  have h' := sameDesktop_readAll (c := c) (o := o) (P := P) hsized' 0 hstart
  rw [hpackets, ← hreader] at h
  rw [← hreader'] at h'
  exact ⟨h.1.symm.trans h'.1, h.2.symm.trans h'.2⟩

end Two

/-- A key code that would throw is typed on the host, before the move over the edge. -/
def typedBefore : List (Channel.Action HookCall) :=
  [.write ⟨5, some ⟨0, 0, .keyPressed { keycode := 0, rawcode := 0, keychar := 0 }⟩⟩,
    .write (moveTo 1919), .write press30, .read 21, .read 17]

/-- The same without it, and with the reads at other times. -/
def notTyped : List (Channel.Action HookCall) :=
  [.write (moveTo 1919), .read 21, .write press30, .read 17]

theorem desktop_eq_of_shared_typed :
    SameDesktop (sessionAfter defaultClient 1080 20 .little macBook typedBefore).reader
      (sessionAfter defaultClient 1080 20 .little macBook notTyped).reader := by
  have hmove : (⟨.mouseMove, 0, 8, [255, 255, 255, 255, 244, 1, 0, 0]⟩ : EventPacket) ∈
      defaultClient.packets :=
    ⟨0, .mouseMoved { button := 0, clicks := 0, x := 1919, y := 500 }, by decide⟩
  have hpress : keyPressPacket ∈ defaultClient.packets := ⟨0, keyPressEvent.data, by decide⟩
  refine desktop_eq_of_shared ?_ ?_ ?_ ?_ ?_
  · exact ⟨trivial, trivial, trivial, ⟨_, hmove, by decide⟩, ⟨_, hpress, by decide⟩, trivial⟩
  · exact ⟨trivial, ⟨_, hmove, by decide⟩, trivial, ⟨_, hpress, by decide⟩, trivial⟩
  · decide
  · decide
  · decide

end Sameness
