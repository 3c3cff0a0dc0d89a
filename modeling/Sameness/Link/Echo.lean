import Sameness.Link.TwoMachines

/-!
# Events that come back

A server sets `isInjectedEvent` while it posts, to mark that the event is not the user's. The
hook callback does not look at the mark, and could not: it runs in another process. So an event
that was injected is forwarded like the user's own if the client of that machine has control
too, and comes back to be injected where it was made.

`NoEcho` asks that no key of the user be injected twice and no injected event be forwarded.
`Guarded` is the condition that is left: an injected event must find, or leave, its client without
control. In a run of guarded steps nothing comes back (`noEcho_of_guarded`). The invariant counts,
for each event of the user, the places from which it can still be injected together with the times
it has been (`World.live`); every step takes it from one place and puts it in at most one.
-/

namespace Sameness

open Bytes Cpp Eff Uiohook Runs

/-- A key event. -/
def IsKey : EventData → Prop
  | .keyTyped _ | .keyPressed _ | .keyReleased _ => True
  | _ => False

/-- If the step hands an injected event to a client, and the event is one that passes the checks
for being forwarded, then it leaves the control with the host. -/
def Guarded (net : Side → Machine) : Action → World → Prop
  | .hook side _, w => (w.node side).clientRuns = true → ∀ item ∈ (w.node side).hook.head?,
      item.injected = true → (net side).client.Admits item.event.data →
        ((w.node side).client.edgeSwitcher.observe item.event.data).state = .host
  | _, _ => True

instance decidableGuarded (net : Side → Machine) (act : Action) (w : World) :
    Decidable (Guarded net act w) :=
  match act with
  | .hook _ _ => inferInstanceAs (Decidable (_ → ∀ item ∈ (_ : Option HookItem), _ → _ → _))
  | .physical _ _ | .deliver _ | .inject _ => isTrue trivial

/-- The user's event of this number is a key event. -/
def KeyOrigin (physical : List Event) (id : ℕ) : Prop :=
  ∃ event, physical[id]? = some event ∧ IsKey event.data

/-- No key of the user has been injected twice, and no injected event has been forwarded. -/
structure NoEcho (w : World) : Prop where
  once : ∀ id, KeyOrigin w.physical id → w.injected.count id ≤ 1
  notForwarded : ∀ item ∈ w.forwarded, item.injected = false

/-! ### Counting -/

/-- The places on a machine from which the user's event can still be injected. -/
def Node.live (id : ℕ) (n : Node) : ℕ :=
  n.hook.countP (fun item => !item.injected && item.origin == id) +
    n.outbox.countP (fun message => message.origin == id) +
    n.inbox.countP (fun message => message.origin == id)

/-- These places on both machines, and the times that the event has been injected. -/
def World.live (id : ℕ) (w : World) : ℕ :=
  (w.node .a).live id + (w.node .b).live id + w.injected.count id

theorem World.live_set (id : ℕ) (side : Side) (n : Node) (w : World) :
    (w.set side n).live id + (w.node side).live id = w.live id + n.live id := by
  cases side <;> simp [live, set, Function.update] <;> omega

theorem World.live_append (id : ℕ) (ids : List ℕ) (w : World) :
    ({ w with injected := w.injected ++ ids } : World).live id = w.live id + ids.count id := by
  simp [live]
  omega

/-! ### Where events come from -/

/-- All that is on its way on a machine comes from one of the user's first `count` events. -/
structure Node.Traced (count : ℕ) (n : Node) : Prop where
  hook : ∀ item ∈ n.hook, item.origin < count
  outbox : ∀ message ∈ n.outbox, message.origin < count
  inbox : ∀ message ∈ n.inbox, message.origin < count

theorem Node.Traced.mono {count count' : ℕ} {n : Node} (h : n.Traced count)
    (hle : count ≤ count') : n.Traced count' :=
  ⟨fun item hitem => (h.hook item hitem).trans_le hle,
    fun message hm => (h.outbox message hm).trans_le hle,
    fun message hm => (h.inbox message hm).trans_le hle⟩

/-- Nothing comes from an event that has not happened. -/
private theorem Node.live_eq_zero {count : ℕ} {n : Node} (h : n.Traced count) {id : ℕ}
    (hid : count ≤ id) : n.live id = 0 := by
  have hhook : n.hook.countP (fun item => !item.injected && item.origin == id) = 0 := by
    rw [List.countP_eq_zero]
    intro item hitem
    have hlt := h.hook item hitem
    simp
    omega
  have hmessages : ∀ l : List Message, (∀ message ∈ l, message.origin < count) →
      l.countP (fun message => message.origin == id) = 0 := by
    intro l hl
    rw [List.countP_eq_zero]
    intro message hm
    have hlt := hl message hm
    simp
    omega
  rw [live, hhook, hmessages _ h.outbox, hmessages _ h.inbox]

/-! ### Steps of one machine -/

section Machine

variable {m : Machine} {n : Node} {count : ℕ}

/-- An injected event that leaves control with the host is not forwarded. -/
theorem Node.outbox_handle_of_guarded {now : UInt64} {item : HookItem} {rest : List HookItem}
    (hguard : m.client.Admits item.event.data →
      (n.client.edgeSwitcher.observe item.event.data).state = .host) :
    (n.handle m now item rest).outbox = n.outbox := by
  obtain houtbox | ⟨pkt, -, -, hadmits, hclient⟩ := n.outbox_handle (m := m) now item rest
  · exact houtbox
  · rw [hguard hadmits] at hclient
    cases hclient

theorem Node.Traced.handle {now : UInt64} {item : HookItem} {rest : List HookItem}
    (h : n.Traced count) (hhook : n.hook = item :: rest) :
    (n.handle m now item rest).Traced count := by
  have hitem : item.origin < count := h.hook item (by rw [hhook]; exact List.mem_cons_self)
  refine ⟨fun item' hitem' => ?_, ?_, h.inbox⟩
  · exact h.hook item' (by rw [hhook]; exact List.mem_cons_of_mem _ hitem')
  · obtain houtbox | ⟨pkt, houtbox, -⟩ := n.outbox_handle (m := m) now item rest
    · rw [houtbox]
      exact h.outbox
    · rw [houtbox]
      intro message hm
      rcases List.mem_append.mp hm with hold | hnew
      · exact h.outbox message hold
      · obtain rfl := List.mem_singleton.mp hnew
        exact hitem

/-- Handling an event takes it from the hook. It may put it in the outbox, but not if it was
injected. -/
theorem Node.live_handle {now : UInt64} {item : HookItem} {rest : List HookItem} {id : ℕ}
    (hhook : n.hook = item :: rest)
    (hinjected : item.injected = true → (n.handle m now item rest).outbox = n.outbox) :
    (n.handle m now item rest).live id ≤ n.live id := by
  have hafter : (n.handle m now item rest).live id =
      rest.countP (fun item => !item.injected && item.origin == id) +
        (n.handle m now item rest).outbox.countP (fun message => message.origin == id) +
        n.inbox.countP (fun message => message.origin == id) := rfl
  have hcount : n.hook.countP (fun item => !item.injected && item.origin == id) =
      rest.countP (fun item => !item.injected && item.origin == id) +
        if (!item.injected && item.origin == id) = true then 1 else 0 := by
    rw [hhook, List.countP_cons]
  rw [hafter, live, hcount]
  obtain houtbox | ⟨pkt, houtbox, -⟩ := n.outbox_handle (m := m) now item rest
  · rw [houtbox]
    omega
  · rw [houtbox, List.countP_append, List.countP_singleton]
    rcases hinj : item.injected with _ | _
    · simp only [Bool.not_false, Bool.true_and]
      omega
    · -- then nothing has been written for this event
      have hsame := hinjected hinj
      rw [houtbox] at hsame
      exact absurd (List.append_right_eq_self.mp hsame) (List.cons_ne_nil _ _)

theorem Node.Traced.inject {message : Message} {rest : List Message} (h : n.Traced count)
    (hinbox : n.inbox = message :: rest) : (n.inject m message rest).Traced count := by
  have hmessage : message.origin < count :=
    h.inbox message (by rw [hinbox]; exact List.mem_cons_self)
  obtain ⟨new, hhook, hnew⟩ := n.hook_inject (m := m) message rest
  refine ⟨?_, h.outbox, fun message' hm => ?_⟩
  · intro item hitem
    have hitem' : item ∈ (n.inject m message rest).hook := hitem
    rw [hhook] at hitem'
    rcases List.mem_append.mp hitem' with hold | hadded
    · exact h.hook item hold
    · rwa [(hnew item hadded).1]
  · exact h.inbox message' (by rw [hinbox]; exact List.mem_cons_of_mem _ hm)

/-- Injecting a buffer takes it from the inbox; what the hook is told of does not count. -/
theorem Node.live_inject {message : Message} {rest : List Message} {id : ℕ}
    (hinbox : n.inbox = message :: rest) :
    (n.inject m message rest).live id +
      (if message.origin = id then 1 else 0) = n.live id := by
  obtain ⟨new, hhook, hnew⟩ := n.hook_inject (m := m) message rest
  have hnone : new.countP (fun item => !item.injected && item.origin == id) = 0 := by
    rw [List.countP_eq_zero]
    intro item hitem
    simp [(hnew item hitem).2]
  have hafter : (n.inject m message rest).live id =
      (n.inject m message rest).hook.countP (fun item => !item.injected && item.origin == id) +
        n.outbox.countP (fun message => message.origin == id) +
        rest.countP (fun message => message.origin == id) := rfl
  have hcount : n.inbox.countP (fun message => message.origin == id) =
      rest.countP (fun message => message.origin == id) +
        if message.origin = id then 1 else 0 := by
    rw [hinbox, List.countP_cons]
    simp
  rw [hafter, live, hhook, List.countP_append, hnone, hcount]
  omega

end Machine

/-! ### Steps of the system -/

/-- The invariant of guarded runs. -/
structure World.Inv (w : World) : Prop where
  traced : ∀ side, (w.node side).Traced w.physical.length
  injected : ∀ id ∈ w.injected, id < w.physical.length
  once : ∀ id, w.live id ≤ 1
  notForwarded : ∀ item ∈ w.forwarded, item.injected = false

section System

variable {net : Side → Machine} {side : Side} {w : World}

private theorem traced_set {count : ℕ} {n : Node} (hn : n.Traced count)
    (h : ∀ s, (w.node s).Traced count) (s : Side) : ((w.set side n).node s).Traced count := by
  by_cases hs : s = side
  · subst hs
    rwa [World.node_set_self]
  · rw [World.node_set_of_ne hs]
    exact h s

/-- An event that has not happened is nowhere. -/
private theorem World.Inv.live_eq_zero (h : w.Inv) {id : ℕ} (hid : w.physical.length ≤ id) :
    w.live id = 0 := by
  have hinjected : w.injected.count id = 0 := by
    rw [List.count_eq_zero]
    intro hmem
    have hlt := h.injected id hmem
    omega
  rw [World.live, Node.live_eq_zero (h.traced .a) hid, Node.live_eq_zero (h.traced .b) hid,
    hinjected]

theorem World.Inv.act (h : w.Inv) (side : Side) (event : Event) : (w.act side event).Inv := by
  have hlength : (w.physical ++ [event]).length = w.physical.length + 1 := by
    rw [List.length_append, List.length_singleton]
  have hmono : ∀ s, (w.node s).Traced (w.physical ++ [event]).length := fun s =>
    (h.traced s).mono (by omega)
  refine ⟨traced_set ⟨?_, (hmono side).outbox, (hmono side).inbox⟩ hmono, ?_, ?_, h.notForwarded⟩
  · intro item hitem
    rcases List.mem_append.mp hitem with hold | hadded
    · exact (hmono side).hook item hold
    · rw [List.mem_singleton.mp hadded]
      exact hlength.symm ▸ Nat.lt_succ_self _
  · intro id hid
    have hlt := h.injected id hid
    change id < (w.physical ++ [event]).length
    omega
  · intro id
    have hset := World.live_set id side ((w.node side).act event w.physical.length) w
    have hnode : ((w.node side).act event w.physical.length).live id =
        (w.node side).live id + if w.physical.length = id then 1 else 0 := by
      simp [Node.live, Node.act]
      omega
    change (w.set side _).live id ≤ 1
    have honce := h.once id
    by_cases hfresh : w.physical.length = id
    · have hzero := h.live_eq_zero hfresh.le
      rw [hnode, if_pos hfresh] at hset
      omega
    · rw [hnode, if_neg hfresh] at hset
      omega

theorem World.Inv.handle (h : w.Inv) (now : UInt64) (hguard : Guarded net (.hook side now) w) :
    (w.handle net side now).Inv := by
  rw [World.handle]
  split
  case h_2 => exact h
  case h_1 item rest hruns hhook =>
    -- an injected event meets a client that the event leaves without control
    have hquiet : item.injected = true →
        ((w.node side).handle (net side) now item rest).outbox = (w.node side).outbox :=
      fun hinjected => Node.outbox_handle_of_guarded
        (hguard hruns item (by rw [hhook]; rfl) hinjected)
    refine ⟨traced_set ((h.traced side).handle hhook) h.traced, h.injected, fun id => ?_, ?_⟩
    · have hset := World.live_set id side ((w.node side).handle (net side) now item rest) w
      have hnode : ((w.node side).handle (net side) now item rest).live id ≤
          (w.node side).live id := Node.live_handle hhook hquiet
      have honce := h.once id
      change (w.set side _).live id ≤ 1
      omega
    · intro item' hmem
      rcases List.mem_append.mp hmem with hold | hadded
      · exact h.notForwarded item' hold
      · split_ifs at hadded with houtbox
        · cases hadded
        · obtain rfl := List.mem_singleton.mp hadded
          exact Bool.eq_false_iff.mpr fun hinjected => houtbox (hquiet hinjected)

theorem World.Inv.deliver (h : w.Inv) (side : Side) : (w.deliver side).Inv := by
  rw [World.deliver]
  split
  case h_1 => exact h
  case h_2 message rest houtbox =>
    have hmessage : message.origin < w.physical.length :=
      (h.traced side).outbox message (by rw [houtbox]; exact List.mem_cons_self)
    have hsent : ((w.node side).depart rest).Traced w.physical.length :=
      ⟨(h.traced side).hook, fun message' hm => (h.traced side).outbox message'
        (by rw [houtbox]; exact List.mem_cons_of_mem _ hm), (h.traced side).inbox⟩
    have hreceived : ((w.node side.other).arrive message).Traced w.physical.length := by
      refine ⟨(h.traced side.other).hook, (h.traced side.other).outbox, fun message' hm => ?_⟩
      rcases List.mem_append.mp hm with hold | hadded
      · exact (h.traced side.other).inbox message' hold
      · rwa [List.mem_singleton.mp hadded]
    have hne : side.other ≠ side := by cases side <;> decide
    simp only [World.node_set_of_ne hne]
    refine ⟨traced_set hreceived (traced_set hsent h.traced), h.injected, fun id => ?_,
      h.notForwarded⟩
    have hset := World.live_set id side ((w.node side).depart rest) w
    have hset' := World.live_set id side.other ((w.node side.other).arrive message)
      (w.set side ((w.node side).depart rest))
    rw [World.node_set_of_ne hne] at hset'
    -- what leaves one machine arrives at the other
    have hsender : (w.node side).live id = ((w.node side).depart rest).live id +
        if message.origin = id then 1 else 0 := by
      simp [Node.live, Node.depart, houtbox, List.countP_cons]
      omega
    have hreceiver : ((w.node side.other).arrive message).live id =
        (w.node side.other).live id + if message.origin = id then 1 else 0 := by
      simp [Node.live, Node.arrive]
      omega
    have honce := h.once id
    omega

theorem World.Inv.inject (h : w.Inv) (side : Side) : (w.inject net side).Inv := by
  rw [World.inject]
  split
  case h_2 => exact h
  case h_1 message rest hruns hinbox =>
    have hmessage : message.origin < w.physical.length :=
      (h.traced side).inbox message (by rw [hinbox]; exact List.mem_cons_self)
    refine ⟨traced_set ((h.traced side).inject hinbox) h.traced, ?_, fun id => ?_, h.notForwarded⟩
    · intro id hmem
      rcases List.mem_append.mp hmem with hold | hadded
      · exact h.injected id hold
      · split_ifs at hadded
        · cases hadded
        · rwa [List.mem_singleton.mp hadded]
    · have hset := World.live_set id side ((w.node side).inject (net side) message rest) w
      have hnode : ((w.node side).inject (net side) message rest).live id +
          (if message.origin = id then 1 else 0) = (w.node side).live id :=
        Node.live_inject hinbox
      have honce := h.once id
      -- what leaves the inbox is injected at most once
      have hcount : (if ((w.node side).inject (net side) message rest).server.desktop.posted =
          (w.node side).server.desktop.posted then ([] : List ℕ) else [message.origin]).count id ≤
          if message.origin = id then 1 else 0 := by
        split_ifs with hposted horigin' <;> simp_all
      refine (World.live_append id _ (w.set side _)).trans_le ?_
      omega

/-- **One step.** -/
theorem World.Inv.next (h : w.Inv) {act : Action} (hguard : Guarded net act w) :
    (World.next net act w).Inv := by
  cases act with
  | physical side event => exact h.act side event
  | hook side now => exact h.handle now hguard
  | deliver side => exact h.deliver side
  | inject side => exact h.inject side

/-- Nothing is on its way at the start. -/
theorem World.inv_start (net : Side → Machine) : (worldAfter net []).Inv := by
  have hnone : ∀ side, ((worldAfter net []).node side).Traced 0 := fun side =>
    ⟨fun item hitem => absurd hitem List.not_mem_nil,
      fun message hm => absurd hm List.not_mem_nil, fun message hm => absurd hm List.not_mem_nil⟩
  exact ⟨hnone, fun id hid => absurd hid List.not_mem_nil, fun id => Nat.zero_le 1,
    fun item hitem => absurd hitem List.not_mem_nil⟩

/-- An event that has been injected is counted, whether it is of a key or not. -/
theorem World.Inv.noEcho (h : w.Inv) : NoEcho w := by
  refine ⟨fun id _ => ?_, h.notForwarded⟩
  have honce := h.once id
  rw [World.live] at honce
  omega

end System

/-- **Nothing comes back in a run of guarded steps.** Whatever the two machines are set to and
in whatever order the steps come, no key of the user is injected twice and no injected event is
forwarded, as long as injected events leave the control with the host of the machine they are
on. -/
theorem noEcho_of_guarded (net : Side → Machine) {acts : List Action}
    (h : ∀ before act, before ++ [act] <+: acts → Guarded net act (worldAfter net before)) :
    ∀ before, before <+: acts → NoEcho (worldAfter net before) := by
  intro before hpre
  have hinv : (worldAfter net before).Inv :=
    final_of_allowed (World.inv_start net) (fun _ _ hguard hw => hw.next hguard)
      fun before' act hpre' => h before' act (hpre'.trans hpre)
  exact hinv.noEcho

/-! ### Two machines with the fallback -/

/-- A machine with default settings, on which the hook is told of every event that libuiohook
posts. -/
def fallbackMachine : Machine where
  client := defaultClient
  hostScreenHeight := 1080
  edgeThreshold := 20
  platform := .uiohook
  report
    | .uiohook event => [event]
    | _ => []

/-- The user moves over the right edge. -/
def moveOver (side : Side) : Action :=
  .physical side ⟨0, 0, .mouseMoved { button := 0, clicks := 0, x := 1925, y := 500 }⟩

/-- The user presses the key 30 on the first machine, whose client has control. -/
def pressOver : List Action :=
  [moveOver .a, .hook .a 0, .deliver .a, .inject .b, .hook .b 0, .physical .a keyPressEvent,
    .hook .a 0, .deliver .a, .inject .b]

/-- On the second machine the pointer is still on its own screen. -/
theorem noEcho_pressOver :
    NoEcho (worldAfter (fun _ => fallbackMachine) (pressOver ++ [.hook .b 0])) :=
  noEcho_of_guarded _ (by decide) _ (List.prefix_refl _)

/-- The user has moved over the edge of the second machine too: the press comes back, and is
injected on both. -/
def pressBack : List Action :=
  [moveOver .a, .hook .a 0, .deliver .a, .inject .b, .hook .b 0, moveOver .b, .hook .b 0,
    .physical .a keyPressEvent, .hook .a 0, .deliver .a, .inject .b, .hook .b 0, .deliver .b,
    .inject .a, .deliver .b, .inject .a]

theorem not_noEcho_pressBack : ¬NoEcho (worldAfter (fun _ => fallbackMachine) pressBack) := by
  intro h
  have hkey : KeyOrigin (worldAfter (fun _ => fallbackMachine) pressBack).physical 2 :=
    ⟨keyPressEvent, rfl, trivial⟩
  exact absurd (h.once 2 hkey) (by decide)

end Sameness
