import Sameness.Link.EndToEnd
import Mathlib.Logic.Function.Basic

/-!
# Two machines that control each other

Each machine runs a client, connected to the server of the other machine, and a server. The
operating system hands the events that an injector posts to the hook of the same machine, as
it does the user's, so the two loops are closed.

The system takes one `Action` at a time: the user acts, a client handles the next event of its
hook, a buffer that a client has written arrives at the other machine, or a server handles the
next buffer. The actions come in any order; a process that has stopped takes no more.

Every event on its way carries the number of the user's event that it comes from. Nothing in
the code depends on these numbers: they are there to say which event is injected twice.
-/

namespace Sameness

open Bytes Cpp Eff Uiohook Runs

/-- The two machines. -/
inductive Side where
  | a
  | b
  deriving DecidableEq, Repr

/-- The machine on the other side. -/
def Side.other : Side → Side
  | a => b
  | b => a

/-- A machine: the settings of its client, the implementation that its server uses, and how
the operating system reports a posted event to the hook. Nothing is assumed of a report. -/
structure Machine where
  client : Client
  hostScreenHeight : Int32
  edgeThreshold : Int32
  platform : Platform
  report : OsEvent → List Event

/-- An event in front of the hook, with the number of the user's event it comes from, and
whether an injector posted it. -/
structure HookItem where
  event : Event
  origin : ℕ
  injected : Bool
  deriving DecidableEq

/-- A buffer on its way, with the number of the user's event it comes from. -/
structure Message where
  bytes : List UInt8
  origin : ℕ
  deriving DecidableEq

/-- The state of a machine: its two processes, the events in front of its hook, and the
buffers on their way from it and waiting for its server. -/
structure Node where
  client : ClientState
  clientRuns : Bool := true
  server : ServerState := {}
  serverRuns : Bool := true
  hook : List HookItem := []
  outbox : List Message := []
  inbox : List Message := []

namespace Node

variable (m : Machine)

/-- The state in which a machine starts. -/
def start : Node where
  client := .fresh m.client m.hostScreenHeight m.edgeThreshold

/-- The user acts; the event is the next of the hook. -/
def act (event : Event) (number : ℕ) (n : Node) : Node :=
  { n with hook := n.hook ++ [⟨event, number, false⟩] }

/-- The client handles the first event of its hook, which leaves `rest`. Every buffer that it
writes comes from this event. -/
def handle (now : UInt64) (item : HookItem) (rest : List HookItem) (n : Node) : Node :=
  let call := exec (hookCallback m.client ⟨now, some item.event⟩) n.client
  { n with
    client := call.2
    clientRuns := call.1.isOk
    hook := rest
    outbox := n.outbox ++
      (call.2.sent.drop n.client.sent.length).map fun bytes => ⟨bytes, item.origin⟩ }

/-- The first buffer is on its way no more. -/
def depart (rest : List Message) (n : Node) : Node := { n with outbox := rest }

/-- A buffer arrives. -/
def arrive (message : Message) (n : Node) : Node := { n with inbox := n.inbox ++ [message] }

/-- The server handles the first buffer that has arrived, which leaves `rest`, and the hook is
told of what it posts. -/
def inject (message : Message) (rest : List Message) (n : Node) : Node :=
  let round := exec (handleData m.client.byteOrder m.platform message.bytes) n.server
  let posted := round.2.desktop.posted.drop n.server.desktop.posted.length
  { n with
    server := round.2
    serverRuns := round.1.isOk
    hook := n.hook ++ posted.flatMap fun p =>
      (m.report p.event).map fun event => ⟨event, message.origin, true⟩
    inbox := rest }

end Node

/-- The state of the system: its machines, the user's events so far, the events whose handling
has written something, and for each buffer whose handling has posted something the number of
the event it comes from. -/
structure World where
  node : Side → Node
  physical : List Event := []
  forwarded : List HookItem := []
  injected : List ℕ := []

inductive Action where
  | physical (side : Side) (event : Event)
  | hook (side : Side) (now : UInt64)
  | deliver (side : Side)
  | inject (side : Side)

namespace World

/-- Replace the state of a machine. -/
def set (side : Side) (n : Node) (w : World) : World :=
  { w with node := Function.update w.node side n }

/-- The user's next event, in front of the hook of a machine. -/
def act (side : Side) (event : Event) (w : World) : World :=
  { w.set side ((w.node side).act event w.physical.length) with
    physical := w.physical ++ [event] }

/-- The client of a machine handles the first event of its hook. -/
def handle (net : Side → Machine) (side : Side) (now : UInt64) (w : World) : World :=
  match (w.node side).clientRuns, (w.node side).hook with
  | true, item :: rest =>
    let n := (w.node side).handle (net side) now item rest
    { w.set side n with
      forwarded := w.forwarded ++ if n.outbox = (w.node side).outbox then [] else [item] }
  | _, _ => w

/-- The first buffer from a machine arrives at the other one. -/
def deliver (side : Side) (w : World) : World :=
  match (w.node side).outbox with
  | [] => w
  | message :: rest =>
    let sent := w.set side ((w.node side).depart rest)
    sent.set side.other ((sent.node side.other).arrive message)

/-- The server of a machine handles the first buffer that has arrived. -/
def inject (net : Side → Machine) (side : Side) (w : World) : World :=
  match (w.node side).serverRuns, (w.node side).inbox with
  | true, message :: rest =>
    let n := (w.node side).inject (net side) message rest
    { w.set side n with
      injected := w.injected ++
        if n.server.desktop.posted = (w.node side).server.desktop.posted then []
        else [message.origin] }
  | _, _ => w

/-- One step of the system. -/
def next (net : Side → Machine) : Action → World → World
  | .physical side event, w => w.act side event
  | .hook side now, w => w.handle net side now
  | .deliver side, w => w.deliver side
  | .inject side, w => w.inject net side

end World

/-- The system after some actions. -/
def worldAfter (net : Side → Machine) (acts : List Action) : World :=
  final (fun act w => ((), World.next net act w)) acts ⟨fun side => .start (net side), [], [], []⟩

@[simp]
theorem World.node_set_self (side : Side) (n : Node) (w : World) : (w.set side n).node side = n :=
  Function.update_self ..

@[simp]
theorem World.node_set_of_ne {side s : Side} (h : s ≠ side) (n : Node) (w : World) :
    (w.set side n).node s = w.node s :=
  Function.update_of_ne h ..

/-! ### What a step does to a machine -/

section Step

variable {m : Machine} {n : Node}

/-- Handling an event writes nothing, or the packet of the event; then it has passed the
checks, and the client has control. -/
theorem Node.outbox_handle (now : UInt64) (item : HookItem) (rest : List HookItem) :
    (n.handle m now item rest).outbox = n.outbox ∨
      ∃ pkt, (n.handle m now item rest).outbox = n.outbox ++ [⟨pkt.toBytes, item.origin⟩] ∧
        m.client.forwarded now item.event.data = some pkt ∧ m.client.Admits item.event.data ∧
          (n.client.edgeSwitcher.observe item.event.data).state = .client := by
  rcases hcall : exec (hookCallback m.client ⟨now, some item.event⟩) n.client with ⟨stop | _, s'⟩
  · have hsent := sent_of_exec_hookCallback_error hcall
    left
    rw [handle, hcall, hsent]
    simp
  · obtain ⟨event, hev, -, hsent, hadmits⟩ := exec_hookCallback_ok hcall
    obtain rfl := Option.some.inj hev
    have houtbox : (n.handle m now item rest).outbox = n.outbox ++
        ((m.client.written n.client.edgeSwitcher now item.event.data).map
          EventPacket.toBytes).toList.map fun bytes => ⟨bytes, item.origin⟩ := by
      rw [handle, hcall, hsent]
      simp
    rcases hpkt : m.client.written n.client.edgeSwitcher now item.event.data with _ | pkt
    · left
      rw [houtbox, hpkt]
      simp
    · right
      rw [hpkt] at houtbox
      have hchecks := hadmits pkt hpkt
      rw [Client.written] at hpkt
      split_ifs at hpkt with hclient
      exact ⟨pkt, houtbox, hpkt, hchecks, hclient⟩

/-- What the hook is told of comes from the buffer, and is marked as injected. -/
theorem Node.hook_inject (message : Message) (rest : List Message) :
    ∃ new, (n.inject m message rest).hook = n.hook ++ new ∧
      ∀ item ∈ new, item.origin = message.origin ∧ item.injected = true := by
  refine ⟨_, rfl, fun item hitem => ?_⟩
  obtain ⟨p, -, hreport⟩ := List.mem_flatMap.mp hitem
  obtain ⟨event, -, rfl⟩ := List.mem_map.mp hreport
  exact ⟨rfl, rfl⟩

end Step

end Sameness
