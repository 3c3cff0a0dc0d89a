import Sameness.Library.Runs
import Sameness.Server.Loop

/-!
# The server's keyboard

What a sequence of key packets does to the keys of the server. `Platform.keyCode` is the code
that an injector reads from a payload and `Platform.keyEvents` what it posts for it; the two
together are the key half of `Platform.events` (`events_keyHandler`).

`Mirrors` asks that the keys which are down after the posted events be those whose last packet
was a press. A press on Windows posts the release as well, so no key is ever down there; the
fallback reads the first two bytes of the code, which on a big-endian machine are the high ones,
and takes every key for the key 0. `mirrors_iff` is the condition that is left.
-/

namespace Sameness

open Bytes Cpp Eff Runs

namespace Platform

/-- The code that an injector reads: the fallback copies two bytes, the others copy four and
narrow them. -/
def keyCode (o : ByteOrder) (P : Platform) (pkt : EventPacket) : UInt16 :=
  match P with
  | uiohook => UInt16.ofNat (word o 0 2 pkt.payload)
  | _ => UInt16.ofNat (word o 0 4 pkt.payload)

/-- The function that is called for a press (`down`) or a release. -/
def keyHandler (down : Bool) : Handler := if down then .injectKeyPress else .injectKeyRelease

/-- The event that the fallback posts. -/
def keyData (down : Bool) (code : UInt16) : Uiohook.EventData :=
  if down then .keyPressed ⟨code, code, 0⟩ else .keyReleased ⟨code, code, 0⟩

/-- The events of a press or a release. -/
def keyEvents (P : Platform) (down : Bool) (time : UInt64) (code : UInt16) : List OsEvent :=
  match P with
  | macOS _ => [.cgKeyboard code down]
  | windows _ =>
    if down then [.keyboardInput code 0, .keyboardInput code WindowsEventInjector.keyUpFlag]
    else [.keyboardInput code WindowsEventInjector.keyUpFlag]
  | uiohook => [.uiohook ⟨time, 0, keyData down code⟩]

/-- An injector posts the events of the code that it reads. -/
theorem events_keyHandler (o : ByteOrder) (P : Platform) (down : Bool) (pkt : EventPacket) :
    P.events o (keyHandler down) pkt =
      .ok (P.keyEvents down pkt.timestamp (P.keyCode o pkt)) := by
  cases P <;> cases down <;> rfl

theorem minPayload_keyHandler_le (P : Platform) (down : Bool) :
    P.minPayload (keyHandler down) ≤ 4 := by
  cases P <;> cases down <;> simp [keyHandler, minPayload]

end Platform

/-- A key packet: a press or a release, with four bytes of payload for a code of 16 bits. -/
structure KeyPacket (o : ByteOrder) where
  packet : EventPacket
  down : Bool
  type_eq : packet.type = if down then .keyPress else .keyRelease
  length_eq : packet.payload.length = 4
  fits : word o 0 4 packet.payload < 2 ^ 16

namespace KeyPacket

variable {o : ByteOrder}

/-- The code in the packet. -/
def code (p : KeyPacket o) : UInt16 := UInt16.ofNat (word o 0 4 p.packet.payload)

/-- The server calls the function for a press or a release. -/
theorem handler?_type (p : KeyPacket o) :
    handler? p.packet.type = some (Platform.keyHandler p.down) := by
  rw [p.type_eq]
  cases p.down <;> rfl

end KeyPacket

/-- A key that an event moves, with its direction. -/
def keyAction : OsEvent → Option (UInt16 × Bool)
  | .cgKeyboard keyCode keyDown => some (keyCode, keyDown)
  | .keyboardInput wVk dwFlags => some (wVk, dwFlags &&& WindowsEventInjector.keyUpFlag = 0)
  | .uiohook ⟨_, _, .keyPressed keyboard⟩ => some (keyboard.keycode, true)
  | .uiohook ⟨_, _, .keyReleased keyboard⟩ => some (keyboard.keycode, false)
  | _ => none

/-- The server's switch for one packet after another. -/
def dispatchAll (o : ByteOrder) (P : Platform) (ps : List (KeyPacket o)) : ServerM Unit :=
  ps.forM fun p => dispatch o P p.packet

/-- The keys that are down after the events posted for the packets. -/
def heldKeys (o : ByteOrder) (P : Platform) (ps : List (KeyPacket o)) : Set UInt16 :=
  held ((exec (dispatchAll o P ps) {}).2.desktop.posted.filterMap fun e => keyAction e.event)

/-- What the packets do to the keys. -/
def keyLog {o : ByteOrder} (ps : List (KeyPacket o)) : List (UInt16 × Bool) :=
  ps.map fun p => (p.code, p.down)

/-- The keys that are down are those whose last packet is a press. -/
def Mirrors (o : ByteOrder) (P : Platform) (ps : List (KeyPacket o)) : Prop :=
  heldKeys o P ps = {k | latest k (keyLog ps) = some true}

/-! ### What the packets post -/

section Posted

variable {o : ByteOrder} {P : Platform}

/-- What a packet does to the keys of the server. -/
def actions (P : Platform) (p : KeyPacket o) : List (UInt16 × Bool) :=
  (P.keyEvents p.down p.packet.timestamp (P.keyCode o p.packet)).filterMap keyAction

/-- The switch posts the events of a key packet, and returns. -/
private theorem exec_dispatch_key (hos : ∀ n h, P.Takes n h) (p : KeyPacket o) (s : ServerState) :
    ∃ s', exec (dispatch o P p.packet) s = (.ok (), s') ∧
      (s'.desktop.posted.filterMap fun e => keyAction e.event) =
        (s.desktop.posted.filterMap fun e => keyAction e.event) ++ actions P p := by
  have hlen : P.minPayload (Platform.keyHandler p.down) ≤ p.packet.payload.length := by
    rw [p.length_eq]
    exact P.minPayload_keyHandler_le p.down
  have hinject := Platform.exec_inject_of_takes hlen
    (Platform.events_keyHandler o P p.down p.packet) (hos s.desktop.calls _)
  refine ⟨_, by rw [exec_dispatch, p.handler?_type]; simp only [hinject]; rfl, ?_⟩
  rcases P with os | os | _
  all_goals
    change (s.desktop.posted ++ List.map _ _).filterMap _ = _
    rw [List.filterMap_append, List.filterMap_map]
    rfl

/-- The run over the packets. -/
private theorem exec_dispatchAll (hos : ∀ n h, P.Takes n h) (ps : List (KeyPacket o))
    (s : ServerState) :
    ((exec (dispatchAll o P ps) s).2.desktop.posted.filterMap fun e => keyAction e.event) =
      (s.desktop.posted.filterMap fun e => keyAction e.event) ++ ps.flatMap (actions P) := by
  induction ps generalizing s with
  | nil => exact (List.append_nil _).symm
  | cons p ps ih =>
    obtain ⟨s', hs', hposted⟩ := exec_dispatch_key hos p s
    have hcons : dispatchAll o P (p :: ps) =
        (dispatch o P p.packet >>= fun _ => dispatchAll o P ps) := rfl
    rw [hcons, exec_bind_ok hs', ih, hposted, List.flatMap_cons, List.append_assoc]

/-- On a machine that takes every event, the packets' own log decides. -/
theorem mirrors_iff_latest (hos : ∀ n h, P.Takes n h) (ps : List (KeyPacket o)) :
    Mirrors o P ps ↔
      ∀ k, latest k (ps.flatMap (actions P)) = some true ↔ latest k (keyLog ps) = some true := by
  have hkeys : heldKeys o P ps = held (ps.flatMap (actions P)) := by
    rw [heldKeys, exec_dispatchAll hos]
    rfl
  rw [Mirrors, hkeys, Set.ext_iff]
  exact forall_congr' fun k => by rw [mem_held_iff, Set.mem_ofPred_eq]

/-! ### The platforms -/

/-- Where a packet moves its own key and no other, the server's keyboard follows. -/
private theorem flatMap_actions_eq {ps : List (KeyPacket o)}
    (h : ∀ p ∈ ps, actions P p = [(p.code, p.down)]) : ps.flatMap (actions P) = keyLog ps := by
  rw [List.flatMap_congr h, keyLog, List.map_eq_flatMap]

private theorem actions_uiohook (p : KeyPacket o) :
    actions .uiohook p = [(Platform.uiohook.keyCode o p.packet, p.down)] := by
  rw [actions, Platform.keyEvents, Platform.keyData]
  cases p.down <;> rfl

/-- The two bytes that the fallback reads are the low ones on a little-endian machine. -/
private theorem keyCode_little (p : KeyPacket .little) :
    Platform.uiohook.keyCode .little p.packet = p.code := by
  have htake : (p.packet.payload.drop 0).take 2 = ((p.packet.payload.drop 0).take 4).take 2 := by
    rw [List.take_take]
    rfl
  rw [Platform.keyCode, KeyPacket.code, word, htake, ByteOrder.little_decode_take, ← word]
  exact UInt16.toNat.inj (by rw [UInt16.toNat_ofNat', UInt16.toNat_ofNat']; omega)

/-- On a big-endian machine they are the high ones, which are clear. -/
private theorem keyCode_big (p : KeyPacket .big) :
    Platform.uiohook.keyCode .big p.packet = 0 := by
  have htake : (p.packet.payload.drop 0).take 2 = ((p.packet.payload.drop 0).take 4).take 2 := by
    rw [List.take_take]
    rfl
  have hlen : ((p.packet.payload.drop 0).take 4).length = 4 := by
    rw [List.drop_zero, List.length_take, p.length_eq]
    rfl
  have hzero : word .big 0 2 p.packet.payload = 0 := by
    rw [word, htake, ByteOrder.big_decode_take (by rw [hlen]; decide), hlen, ← word]
    exact Nat.div_eq_of_lt p.fits
  rw [Platform.keyCode, hzero]
  rfl

/-- A packet ends with the release of its key on Windows. -/
private theorem latest_actions_windows (os : Windows) (k : UInt16) (p : KeyPacket o) :
    latest k (actions (.windows os) p) = if p.code = k then some false else none := by
  cases hdown : p.down
  · have hactions : actions (.windows os) p = [(p.code, false)] := by
      rw [actions, hdown]
      rfl
    rw [hactions, latest_singleton]
  · have hactions : actions (.windows os) p = [(p.code, true)] ++ [(p.code, false)] := by
      rw [actions, hdown]
      rfl
    rw [hactions, latest_append, latest_singleton, latest_singleton]
    split_ifs
    · rfl
    · rfl

/-- So no key is down after a sequence of packets. -/
private theorem latest_windows (os : Windows) (k : UInt16) (ps : List (KeyPacket o)) :
    latest k (ps.flatMap (actions (.windows os))) ≠ some true := by
  intro hdown
  induction ps using List.reverseRecOn with
  | nil => cases hdown
  | append_singleton ps p ih =>
    rw [List.flatMap_append, List.flatMap_singleton, latest_append, latest_actions_windows] at hdown
    split_ifs at hdown
    · cases hdown
    · exact ih hdown

/-- The last packet of a sequence is the last for its code. -/
private theorem latest_of_getLast? {ps : List (KeyPacket o)} {p : KeyPacket o}
    (h : ps.getLast? = some p) : latest p.code (keyLog ps) = some p.down := by
  obtain ⟨before, rfl⟩ := List.getLast?_eq_some_iff.mp h
  rw [keyLog, List.map_append, latest_append, List.map_singleton, latest_singleton_self]
  rfl

end Posted

/-- When the server's keyboard follows the packets: always on macOS, and on Windows when every
press is followed by a release. The fallback follows them on a little-endian machine; on a
big-endian one, where it posts the key 0 for every code, when no other key is to be down and
the last packet is a press if the key 0 is. -/
def KeepsHeld (o : ByteOrder) (P : Platform) (ps : List (KeyPacket o)) : Prop :=
  match P with
  | .macOS _ => True
  | .windows _ => ∀ k, latest k (keyLog ps) ≠ some true
  | .uiohook => o = .big → ∀ k, latest k (keyLog ps) = some true →
      k = 0 ∧ ps.getLast?.map KeyPacket.down = some true

/-- On a big-endian fallback all packets are for the key 0. -/
private theorem mirrors_big (ps : List (KeyPacket .big)) :
    (∀ k, latest k (ps.flatMap (actions .uiohook)) = some true ↔
        latest k (keyLog ps) = some true) ↔
      ∀ k, latest k (keyLog ps) = some true →
        k = 0 ∧ ps.getLast?.map KeyPacket.down = some true := by
  have hlog : ps.flatMap (actions .uiohook) =
      (ps.map KeyPacket.down).map fun down => (0, down) := by
    rw [List.map_map, List.map_eq_flatMap]
    exact List.flatMap_congr fun p _ => by rw [actions_uiohook, keyCode_big]; rfl
  rw [hlog]
  constructor
  · intro h k hk
    have hzero := (h k).mpr hk
    rw [latest_map_key] at hzero
    split_ifs at hzero with h0
    rw [List.getLast?_map] at hzero
    exact ⟨h0.symm, hzero⟩
  · intro h k
    rw [latest_map_key, List.getLast?_map]
    constructor
    · intro hzero
      split_ifs at hzero with h0
      obtain ⟨p, hp, hdown⟩ := Option.map_eq_some_iff.mp hzero
      have hlast := latest_of_getLast? hp
      rw [hdown] at hlast
      rwa [← h0, ← (h p.code hlast).1]
    · intro hk
      obtain ⟨rfl, hlast⟩ := h k hk
      rw [if_pos rfl, hlast]

/-- **When the server's keyboard mirrors the packets.** -/
theorem mirrors_iff {o : ByteOrder} {P : Platform} (hos : ∀ n h, P.Takes n h)
    (ps : List (KeyPacket o)) : Mirrors o P ps ↔ KeepsHeld o P ps := by
  rw [mirrors_iff_latest hos]
  rcases P with os | os | _
  · have hlog : ps.flatMap (actions (.macOS os)) = keyLog ps := flatMap_actions_eq fun _ _ => rfl
    rw [hlog]
    exact iff_of_true (fun _ => Iff.rfl) trivial
  · refine forall_congr' fun k => ?_
    exact ⟨fun h hk => latest_windows os k ps (h.mpr hk), fun h =>
      iff_of_false (latest_windows os k ps) h⟩
  · rcases o with _ | _
    · have hlog : ps.flatMap (actions .uiohook) = keyLog ps :=
        flatMap_actions_eq fun p _ => by rw [actions_uiohook, keyCode_little]
      rw [hlog]
      exact iff_of_true (fun _ => Iff.rfl) fun hbig => by cases hbig
    · rw [mirrors_big]
      exact ⟨fun h _ => h, fun h => h rfl⟩

/-- A press of the key 30. -/
def pressKey30 : KeyPacket .little := ⟨⟨.keyPress, 0, 4, [30, 0, 0, 0]⟩, true, rfl, rfl, by decide⟩

/-- In the fallback the key 30 is down after its press. -/
theorem mirrors_pressKey30 : Mirrors .little .uiohook [pressKey30] :=
  (mirrors_iff (P := .uiohook) (fun _ _ => trivial) _).mpr fun hbig => by cases hbig

/-- On a Windows machine that inserts every event it is not. -/
theorem not_mirrors_pressKey30 :
    ¬Mirrors .little (.windows ⟨1920, 1080, fun _ k => k⟩) [pressKey30] := by
  intro hmirrors
  have hheld : (30 : UInt16) ∈ {k | latest k (keyLog [pressKey30]) = some true} := by decide
  rw [← hmirrors, heldKeys, mem_held_iff] at hheld
  exact absurd hheld (by decide)

end Sameness
