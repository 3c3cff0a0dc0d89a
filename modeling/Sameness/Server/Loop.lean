import Sameness.Server.Platform

/-!
# The receive loop of the server

`network_server.cpp` reads from the socket into a buffer of 4096 bytes and treats what each
`read_some` returns as one packet: it checks that a header is there, decodes, compares the
payload with the declared size, and routes the packet to an injector by its type. An
exception leaves the loop, is caught in `main` and ends the server.

The socket is a parameter: the loop runs over the results of successive reads. The state
keeps the desktop, the calls made to the injectors and the packets rejected.

`exec_handleData` says once what a round does with a chunk. Three of its four outcomes are
those of the source's branches; the fourth is a read outside the chunk, and the branch for a
payload of the wrong size is never taken.
-/

namespace Sameness

open Bytes Cpp Eff

/-- Why a chunk is skipped. -/
inductive Rejection where
  | tooSmall (len : ℕ)
  | payloadSizeMismatch (declared got : ℕ)
  | unknownEventType (type : UInt8)
  deriving DecidableEq, Repr

/-- What the server prints when it skips a chunk. -/
def Rejection.message : Rejection → String
  | tooSmall len => s!"Received packet too small: {len} bytes\n"
  | payloadSizeMismatch declared got =>
    s!"Payload size mismatch: declared {declared} but got {got} bytes\n"
  | unknownEventType type => s!"Unknown event type: {type.toNat}\n"

/-- The state of the server. -/
structure ServerState where
  desktop : Desktop := {}
  dispatched : List (Handler × EventPacket) := []
  rejected : List Rejection := []
  deriving DecidableEq

abbrev ServerM := Eff ServerState (Stop ServerException)

/-- Skip a chunk. -/
def reject (r : Rejection) : ServerM Unit :=
  modify fun s => { s with rejected := s.rejected ++ [r] }

/-- The type of the packets that a function is for. -/
def Handler.type : Handler → SamenessEventType
  | .injectKeyPress => .keyPress
  | .injectKeyRelease => .keyRelease
  | .injectMouseMove => .mouseMove
  | .injectMouseButtonPress => .mouseButtonPress
  | .injectMouseButtonRelease => .mouseButtonRelease

/-- The cases of the switch on the packet type. -/
def handler? (type : SamenessEventType) : Option Handler :=
  if type = .keyPress then some .injectKeyPress
  else if type = .keyRelease then some .injectKeyRelease
  else if type = .mouseMove then some .injectMouseMove
  else if type = .mouseButtonPress then some .injectMouseButtonPress
  else if type = .mouseButtonRelease then some .injectMouseButtonRelease
  else none

/-- What `read_some` can put into the buffer: between one byte and all of it. -/
structure Chunk where
  data : List UInt8
  nonempty : data ≠ []
  bounded : data.length ≤ 4096
  deriving DecidableEq

/-- The results of `read_some`. -/
inductive ReadSome where
  | chunk (c : Chunk)
  | eof
  | error (what : String)

section Loop

variable (o : ByteOrder) (P : Platform)

/-- Call an injector. -/
def callInjector (h : Handler) (pkt : EventPacket) : ServerM Unit := do
  modify fun s => { s with dispatched := s.dispatched ++ [(h, pkt)] }
  zoom ServerState.desktop (fun d s => { s with desktop := d }) (P.inject o h pkt)

/-- The switch. -/
def dispatch (pkt : EventPacket) : ServerM Unit :=
  match handler? pkt.type with
  | some h => callInjector o P h pkt
  | none => reject (.unknownEventType pkt.type.value)

/-- The body of the loop, once data has been read. -/
def handleData (data : List UInt8) : ServerM Unit := do
  if data.length < 13 then reject (.tooSmall data.length)
  else
    let pkt ← ofExcept (readFrom data EventPacket.fromBytes)
    -- the decoder has cut the payload to the declared size already
    if pkt.payload.length ≠ pkt.payloadSize.toNat then
      reject (.payloadSizeMismatch pkt.payloadSize.toNat pkt.payload.length)
    else dispatch o P pkt

/-- One round of the loop: break at the end of the stream, throw on a read error. -/
def round : ReadSome → ServerM (Option Unit)
  | .chunk c => do
    handleData o P c.data
    pure none
  | .eof => pure (some ())
  | .error what => throw (.thrown (.systemError what))

/-- The loop. -/
def receiveLoop (reads : List ReadSome) : ServerM (Option Unit) := loop (round o P) reads

/-- The server's side of a connection that has delivered the chunks `cs` so far. -/
def serve (cs : List Chunk) : Except (Stop ServerException) (Option Unit) × ServerState :=
  exec (receiveLoop o P (cs.map .chunk)) {}

end Loop

/-! ### What a round does -/

section Round

variable {o : ByteOrder} {P : Platform}

/-- The state after calling an injector that leaves the desktop `d`. -/
def ServerState.called (s : ServerState) (h : Handler) (pkt : EventPacket) (d : Desktop) :
    ServerState :=
  { s with dispatched := s.dispatched ++ [(h, pkt)], desktop := d }

/-- The state after skipping a chunk. -/
def ServerState.skipped (s : ServerState) (r : Rejection) : ServerState :=
  { s with rejected := s.rejected ++ [r] }

/-- **The switch.** It goes to the function of the packet's type, and to none for the other
types. -/
theorem handler?_eq_some_iff {type : SamenessEventType} {h : Handler} :
    handler? type = some h ↔ type = h.type := by
  constructor
  · intro hh
    rw [handler?] at hh
    split_ifs at hh with hpress hrelease hmove hbuttonPress hbuttonRelease
    all_goals
      obtain rfl := Option.some.inj hh
      assumption
  · rintro rfl
    cases h <;> rfl

/-- The functions are for the types from 1 to 5. -/
theorem Handler.exists_type_eq_iff {type : SamenessEventType} :
    (∃ h : Handler, type = h.type) ↔ 1 ≤ type.value.toNat ∧ type.value.toNat ≤ 5 := by
  constructor
  · rintro ⟨h, rfl⟩
    cases h <;> decide
  · rintro ⟨hmin, hmax⟩
    have hval : ∀ k : UInt8, type.value.toNat = k.toNat → type = ⟨k⟩ := fun k h =>
      congrArg SamenessEventType.mk (UInt8.toNat.inj h)
    obtain h | h | h | h | h : type.value.toNat = 1 ∨ type.value.toNat = 2 ∨
        type.value.toNat = 3 ∨ type.value.toNat = 4 ∨ type.value.toNat = 5 := by omega
    · exact ⟨.injectKeyPress, hval 1 h⟩
    · exact ⟨.injectKeyRelease, hval 2 h⟩
    · exact ⟨.injectMouseMove, hval 3 h⟩
    · exact ⟨.injectMouseButtonPress, hval 4 h⟩
    · exact ⟨.injectMouseButtonRelease, hval 5 h⟩

/-- The named types are those of the switch. -/
theorem handler?_isSome_iff {type : SamenessEventType} :
    (handler? type).isSome ↔ 1 ≤ type.value.toNat ∧ type.value.toNat ≤ 5 := by
  rw [Option.isSome_iff_exists, ← Handler.exists_type_eq_iff]
  exact exists_congr fun h => handler?_eq_some_iff

theorem exec_dispatch (pkt : EventPacket) (s : ServerState) :
    exec (dispatch o P pkt) s =
      match handler? pkt.type with
      | some h =>
        ((exec (P.inject o h pkt) s.desktop).1,
          s.called h pkt (exec (P.inject o h pkt) s.desktop).2)
      | none => (.ok (), s.skipped (.unknownEventType pkt.type.value)) := by
  rw [dispatch]
  rcases handler? pkt.type with _ | h
  · rfl
  · rfl

/-- **What a round does with a chunk.** Without a header the chunk is skipped. With a header
that declares more than follows it, the decoder reads outside the chunk. Otherwise the packet
that the chunk starts with goes through the switch; the size check never fails. -/
theorem exec_handleData (data : List UInt8) (s : ServerState) :
    exec (handleData o P data) s =
      if data.length < EventPacket.headerSize then (.ok (), s.skipped (.tooSmall data.length))
      else if data.length < EventPacket.headerSize + EventPacket.declaredSize data then
        (.error (.undefined (.outOfBounds ⟨data.length, data.length⟩)), s)
      else exec (dispatch o P (EventPacket.ofBuffer data)) s := by
  rw [handleData, exec_ite, EventPacket.headerSize]
  rcases Nat.lt_or_ge data.length 13 with hshort | hheader
  · rw [if_pos hshort, if_pos hshort]
    rfl
  rw [if_neg (Nat.not_lt.mpr hheader), if_neg (Nat.not_lt.mpr hheader)]
  rcases Nat.lt_or_ge data.length (13 + EventPacket.declaredSize data) with hlt | hle
  · -- the copy of the payload is the read that leaves the chunk
    rw [if_pos hlt]
    refine exec_bind_error ?_
    rw [exec_ofExcept, readFrom_error (EventPacket.run_fromBytes_of_lt hheader hlt)]
  · have hread : exec (ofExcept (readFrom data EventPacket.fromBytes) : ServerM EventPacket) s =
        (.ok (EventPacket.ofBuffer data), s) := by
      rw [exec_ofExcept, readFrom_ok (EventPacket.run_fromBytes_of_le hle)]
    have hsized := EventPacket.sized_ofBuffer hle
    rw [if_neg (Nat.not_lt.mpr hle), exec_bind_ok hread, exec_ite,
      if_neg (not_not.mpr hsized.symm)]

/-- A round on a chunk that has its declared payload is the switch on the packet that the
chunk starts with. -/
theorem exec_handleData_of_le {data : List UInt8}
    (h : EventPacket.headerSize + EventPacket.declaredSize data ≤ data.length)
    (s : ServerState) :
    exec (handleData o P data) s = exec (dispatch o P (EventPacket.ofBuffer data)) s := by
  rw [exec_handleData, if_neg (by omega), if_neg (by omega)]

/-- The call that a round makes on a chunk, if it makes one. -/
def dispatches (data : List UInt8) : Option (Handler × EventPacket) :=
  if data.length < EventPacket.headerSize + EventPacket.declaredSize data then none
  else (handler? (EventPacket.ofBuffer data).type).map (·, EventPacket.ofBuffer data)

/-- A round calls an injector at most once, and what it calls depends on the chunk alone. -/
theorem dispatched_handleData (data : List UInt8) (s : ServerState) :
    (exec (handleData o P data) s).2.dispatched
      = s.dispatched ++ (dispatches data).toList := by
  rcases Nat.lt_or_ge data.length (EventPacket.headerSize + EventPacket.declaredSize data)
    with hlt | hle
  · rw [exec_handleData, dispatches, if_pos hlt, if_pos hlt]
    split_ifs
    · exact (List.append_nil _).symm
    · exact (List.append_nil _).symm
  · rw [exec_handleData_of_le hle, exec_dispatch, dispatches, if_neg (Nat.not_lt.mpr hle)]
    rcases handler? (EventPacket.ofBuffer data).type with _ | h
    · exact (List.append_nil _).symm
    · rfl

/-- A round on an encoding is the switch on its packet. -/
theorem exec_handleData_toBytes {p : EventPacket} (hp : p.Sized) (s : ServerState) :
    exec (handleData o P p.toBytes) s = exec (dispatch o P p) s := by
  have hle : EventPacket.headerSize + EventPacket.declaredSize p.toBytes ≤ p.toBytes.length := by
    rw [EventPacket.declaredSize_toBytes, EventPacket.length_toBytes, hp]
  rw [exec_handleData_of_le hle, EventPacket.ofBuffer_toBytes hp]

theorem dispatches_toBytes {p : EventPacket} (hp : p.Sized) :
    dispatches p.toBytes = (handler? p.type).map (·, p) := by
  rw [dispatches, EventPacket.declaredSize_toBytes, EventPacket.length_toBytes, hp,
    if_neg (Nat.lt_irrefl _), EventPacket.ofBuffer_toBytes hp]

/-- A round that returns hands its state to the rest of the loop. -/
theorem exec_receiveLoop_continue {c : Chunk} {s s' : ServerState}
    (h : exec (handleData o P c.data) s = (.ok (), s')) (rs : List ReadSome) :
    exec (receiveLoop o P (.chunk c :: rs)) s = exec (receiveLoop o P rs) s' := by
  refine exec_loop_continue ?_ rs
  rw [round, exec_bind_ok h, exec_pure]

/-- A round that stops ends the loop. -/
theorem exec_receiveLoop_stop {c : Chunk} {s s' : ServerState} {stop : Stop ServerException}
    (h : exec (handleData o P c.data) s = (.error stop, s')) (rs : List ReadSome) :
    exec (receiveLoop o P (.chunk c :: rs)) s = (.error stop, s') := by
  refine exec_loop_error ?_ rs
  rw [round, exec_bind_error h]

end Round

end Sameness
