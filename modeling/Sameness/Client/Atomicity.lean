import Sameness.Client.Forwarding

/-!
# Calls that throw

What a call of the hook callback leaves behind when it throws. The checks of the callback come
before its effects: an event that is refused leaves the switcher as it was
(`exec_packetOf_thrown`). The write comes after them, and nothing is taken back when it fails.
So `AtomicOnError` fails for a move that takes control and cannot be sent, which leaves control
with the client, and for no other call (`hookCallback_thrown`).
-/

namespace Sameness

open Cpp Eff Uiohook

variable {c : Client}

/-- If the call throws, control is where it was and nothing has been written. -/
def AtomicOnError (c : Client) (s : ClientState) (call : HookCall) : Prop :=
  ∀ e s', exec (hookCallback c call) s = (.error (.thrown e), s') →
    s'.edgeSwitcher.state = s.edgeSwitcher.state ∧ s'.sent = s.sent

/-- The call is for a mouse move, at coordinates that are accepted, that takes control from the
host. -/
def TakesControl (s : ClientState) (call : HookCall) : Prop :=
  ∃ event mouse, call.event = some event ∧ event.data = .mouseMoved mouse ∧
    0 ≤ mouse.x.toInt ∧ 0 ≤ mouse.y.toInt ∧ s.edgeSwitcher.state = .host ∧
      (s.edgeSwitcher.moved mouse.x.toInt).state = .client

/-! ### Refused events -/

private theorem exec_movePacket_thrown {now : UInt64} {mouse : MouseEventData}
    {sw sw' : ScreenEdgeSwitcher} {e : ClientException}
    (h : exec (movePacket c now mouse) sw = (.error (.thrown e), sw')) :
    (mouse.x.toInt < 0 ∨ mouse.y.toInt < 0) ∧ sw' = sw := by
  rw [movePacket, exec_ite, exec_ofExcept] at h
  split_ifs at h with hinvalid
  · exact ⟨hinvalid, (Prod.mk.inj h).2.symm⟩
  -- past the check only arithmetic can stop the call, and it does not throw
  obtain hupdate | ⟨newState, sw₁, -, h⟩ := exec_bind_eq_error h
  · exact absurd (congrArg Prod.fst hupdate) ScreenEdgeSwitcher.exec_update_ne_thrown
  rw [exec_ite] at h
  split_ifs at h
  · cases h
  obtain hrel | ⟨relX, sw₂, -, h⟩ := exec_bind_eq_error h
  · rw [exec_ofExcept] at hrel
    exact absurd (Prod.mk.inj hrel).1 int_ne_thrown
  · cases h

private theorem exec_gatedPacket_error {now : UInt64} {data : EventData}
    {sw sw' : ScreenEdgeSwitcher} {stop : Stop ClientException}
    (h : exec (gatedPacket c now data) sw = (.error stop, sw')) : sw' = sw := by
  rw [exec_gatedPacket] at h
  exact (Prod.mk.inj h).2.symm

/-- An event that is refused leaves the switcher alone; a move is refused for its coordinates
only. -/
theorem exec_packetOf_thrown {now : UInt64} {data : EventData} {sw sw' : ScreenEdgeSwitcher}
    {e : ClientException} (h : exec (packetOf c now data) sw = (.error (.thrown e), sw')) :
    sw' = sw ∧ ∀ mouse, data = .mouseMoved mouse → mouse.x.toInt < 0 ∨ mouse.y.toInt < 0 := by
  rcases data with _ | _ | _ | _ | _ | _ | _ | _ | mouse | _ | _
  case mouseMoved =>
    obtain ⟨hinvalid, rfl⟩ := exec_movePacket_thrown h
    refine ⟨rfl, fun mouse' hmouse => ?_⟩
    cases hmouse
    exact hinvalid
  all_goals exact ⟨exec_gatedPacket_error h, fun _ hmouse => by cases hmouse⟩

/-! ### Failed writes -/

/-- An event that is written while the host had control is a move that takes control. -/
private theorem takesControl_of_written {s : ClientState} {now : UInt64} {event : Event}
    {pkt : EventPacket} (hpkt : c.written s.edgeSwitcher now event.data = some pkt)
    (hadmits : c.Admits event.data) (hhost : s.edgeSwitcher.state = .host) :
    TakesControl s ⟨now, some event⟩ := by
  rw [Client.written] at hpkt
  split_ifs at hpkt with hclient
  obtain ⟨time, mask, data⟩ := event
  rcases data with _ | _ | _ | _ | _ | _ | _ | _ | mouse | _ | _
  case mouseMoved =>
    obtain ⟨-, hx, hy⟩ := hadmits
    exact ⟨_, mouse, rfl, rfl, hx, hy, hhost, hclient⟩
  -- no other event changes control
  all_goals
    have hstate : s.edgeSwitcher.state = .client := hclient
    rw [hhost] at hstate
    cases hstate

/-- **What a call that throws leaves behind.** Nothing has been written. Control is where it
was, unless the event takes it from the host: then the write has failed, and control is with
the client. -/
theorem hookCallback_thrown {call : HookCall} {s s' : ClientState} {e : ClientException}
    (h : exec (hookCallback c call) s = (.error (.thrown e), s')) :
    s'.sent = s.sent ∧
      (¬TakesControl s call → s'.edgeSwitcher.state = s.edgeSwitcher.state) ∧
      (TakesControl s call → s'.edgeSwitcher.state = .client ∧
        ∃ what, c.write s.writes = some what ∧
          e = .networkError s!"Network write failed: {what}") := by
  obtain ⟨now, _ | event⟩ := call
  · obtain ⟨-, rfl⟩ := Prod.mk.inj h
    refine ⟨rfl, fun _ => rfl, ?_⟩
    rintro ⟨event, -, hev, -⟩
    cases hev
  rw [exec_hookCallback_some] at h
  rcases hpacket : exec (packetOf c now event.data) s.edgeSwitcher with ⟨stop | _ | pkt, sw⟩
  · rw [hpacket] at h
    obtain ⟨hstop, rfl⟩ := Prod.mk.inj h
    obtain rfl := Except.error.inj hstop
    obtain ⟨rfl, hinvalid⟩ := exec_packetOf_thrown hpacket
    refine ⟨rfl, fun _ => rfl, ?_⟩
    rintro ⟨event', mouse, hev, hmove, hx, hy, -, -⟩
    obtain rfl := Option.some.inj hev
    have hneg := hinvalid mouse hmove
    omega
  · rw [hpacket] at h
    cases h
  · rw [hpacket] at h
    obtain ⟨rfl, hwritten, hadmits⟩ := exec_packetOf_ok hpacket
    have hclient : (s.edgeSwitcher.observe event.data).state = .client := by
      rw [Client.written] at hwritten
      split_ifs at hwritten with hclient
      exact hclient
    simp only [exec_safeWrite] at h
    rcases hnet : c.write s.writes with _ | what
    · simp only [hnet] at h
      cases h
    simp only [hnet] at h
    obtain ⟨hexception, rfl⟩ := Prod.mk.inj h
    obtain rfl := Stop.thrown.inj (Except.error.inj hexception)
    refine ⟨rfl, fun htakes => ?_, fun _ => ⟨hclient, what, rfl, rfl⟩⟩
    rcases hstate : s.edgeSwitcher.state with _ | _
    · exact absurd (takesControl_of_written hwritten.symm (hadmits pkt rfl) hstate) htakes
    · exact hclient

/-- A client whose socket is broken. -/
def brokenClient : Client := ⟨1920, .little, fun _ => some "Broken pipe"⟩

/-- A press of a key whose code is 0, while the client has control. -/
theorem hookCallback_thrown_press0 :
    let s : ClientState := ⟨⟨1920, 1080, 20, .client⟩, 0, []⟩
    let s' : ClientState :=
      (exec (hookCallback brokenClient ⟨0, some ⟨0, 0, .keyPressed ⟨0, 0, 0⟩⟩⟩) s).2
    s'.sent = s.sent ∧ s'.edgeSwitcher.state = s.edgeSwitcher.state := by
  intro s s'
  have hthrow : exec (hookCallback brokenClient ⟨0, some ⟨0, 0, .keyPressed ⟨0, 0, 0⟩⟩⟩) s =
      (.error (.thrown (.runtimeError "Invalid key code")), s') := rfl
  obtain ⟨hsent, hstate, -⟩ := hookCallback_thrown hthrow
  refine ⟨hsent, hstate ?_⟩
  rintro ⟨event, mouse, hev, hmove, -⟩
  obtain rfl := Option.some.inj hev
  cases hmove

/-- The first move over the edge cannot be sent: the call throws, and control stays with the
client. -/
theorem not_atomicOnError_handOver :
    ¬AtomicOnError brokenClient (.fresh brokenClient 1080 20) (moveTo 1919) := by
  intro hatomic
  have hthrow : exec (hookCallback brokenClient (moveTo 1919)) (.fresh brokenClient 1080 20) =
      (.error (.thrown (.networkError "Network write failed: Broken pipe")),
        ⟨⟨1920, 1080, 20, .client⟩, 1, []⟩) := by decide
  obtain ⟨hstate, -⟩ := hatomic _ _ hthrow
  exact absurd hstate (by decide)

end Sameness
