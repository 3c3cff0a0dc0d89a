import Sameness.Server.Provenance

/-!
# The server program

`main` of the server sets TLS up with a certificate and a key, listens on port 12345, accepts
one client, shakes hands and receives. What these calls answer, and what is read, are
parameters. An exception from anywhere is caught, printed and ends the program with the code 1.

`serverMain_exit` gives the conditions for each end: the client disconnects, the server goes
on, or the behaviour is undefined; in every other case the code is 1. The conditions are on
the bytes of each chunk alone (`Chunk.Harmless`, `Chunk.Breaks`), for an operating system that
takes every event.
-/

namespace Sameness

open Bytes Cpp Eff EventPacket

/-- The calls before the loop. -/
inductive ServerStep where
  | setOptions
  | setVerifyModeNone
  | useCertificateChainFile (path : String)
  | usePrivateKeyFile (path : String)
  | listen (port : ℕ)
  | accept
  | handshake
  deriving DecidableEq, Repr

/-- The machine that the server runs on: what each call throws, `none` if it returns, and what
is read. -/
structure ServerHost where
  byteOrder : ByteOrder
  platform : Platform
  throws : ServerStep → Option String
  reads : List ReadSome

/-- How `main` ends: it returns a code, its behaviour is undefined, or it still waits for the
next read. -/
inductive ServerExit where
  | code (n : ℕ)
  | undefined (cause : Undefined)
  | running
  deriving DecidableEq, Repr

/-- The state of the program: the calls made, and the state of the loop. -/
structure ServerProgram where
  steps : List ServerStep := []
  server : ServerState := {}
  deriving DecidableEq

/-- How the program ended, what it has printed about an exception, and its state. -/
structure ServerRun where
  exit : ServerExit
  cerr : List String := []
  program : ServerProgram

/-- `what()`. -/
def ServerException.what : ServerException → String
  | runtimeError what => what
  | systemError what => what

section Main

variable (h : ServerHost)

/-- A call that may throw. -/
def serverStep (x : ServerStep) : Eff ServerProgram (Stop ServerException) Unit := do
  modify fun p => { p with steps := p.steps ++ [x] }
  match h.throws x with
  | none => pure ()
  | some what => throw (.thrown (.systemError what))

/-- The `try` block. -/
def serverTryBlock : Eff ServerProgram (Stop ServerException) (Option Unit) := do
  serverStep h .setOptions
  serverStep h .setVerifyModeNone
  serverStep h (.useCertificateChainFile "server.crt")
  serverStep h (.usePrivateKeyFile "server.key")
  serverStep h (.listen 12345)
  serverStep h .accept
  serverStep h .handshake
  zoom ServerProgram.server (fun s p => { p with server := s })
    (receiveLoop h.byteOrder h.platform h.reads)

/-- `main`. -/
def serverMain : ServerRun :=
  match exec (serverTryBlock h) {} with
  | (.ok (some ()), p) => { exit := .code 0, program := p }
  | (.ok none, p) => { exit := .running, program := p }
  | (.error (.thrown e), p) =>
    { exit := .code 1, cerr := ["Server error: " ++ e.what ++ "\n"], program := p }
  | (.error (.undefined cause), p) => { exit := .undefined cause, program := p }

end Main

/-! ### Chunks and how they end a round -/

/-- The round on the chunk returns: there is no header, or the chunk has the payload that it
declares and its packet is accepted, if its type has a name. -/
def Chunk.Harmless (o : ByteOrder) (P : Platform) (c : Chunk) : Prop :=
  c.data.length < headerSize ∨ (headerSize + declaredSize c.data ≤ c.data.length ∧
    ∀ h ∈ handler? (ofBuffer c.data).type, P.Accepts o h (ofBuffer c.data))

/-- The round on the chunk runs into undefined behaviour: the header declares more payload than
there is, or the packet has coordinates that the platform cannot convert. -/
def Chunk.Breaks (o : ByteOrder) (P : Platform) (c : Chunk) : Prop :=
  headerSize ≤ c.data.length ∧ (c.data.length < headerSize + declaredSize c.data ∨
    ∃ h ∈ handler? (ofBuffer c.data).type,
      P.minPayload h ≤ (ofBuffer c.data).payload.length ∧ ¬P.Fits o h (ofBuffer c.data))

section Rounds

variable {o : ByteOrder} {P : Platform}

theorem Chunk.Harmless.not_breaks {c : Chunk} (h : c.Harmless o P) : ¬c.Breaks o P := by
  rintro ⟨hheader, hbreaks⟩
  rcases h with hshort | ⟨hle, haccepts⟩
  · exact absurd hheader (Nat.not_le.mpr hshort)
  · rcases hbreaks with hlt | ⟨h', hh', -, hfits⟩
    · exact absurd hle (Nat.not_le.mpr hlt)
    · have haccept := haccepts h' hh'
      rcases P with os | os | _
      · exact hfits haccept.2
      · exact hfits haccept.2
      · exact hfits trivial

/-- **The ends of a call** whose events the operating system takes: it returns, it refuses a
payload that is too short by an exception, or it cannot convert the coordinates. -/
private theorem inject_cases (h : Handler) (pkt : EventPacket) {d : Desktop}
    (ht : P.Takes d.calls h) :
    (P.Accepts o h pkt ∧ (exec (P.inject o h pkt) d).1 = .ok ()) ∨
      (pkt.payload.length < P.minPayload h ∧
        ∃ e, (exec (P.inject o h pkt) d).1 = .error (.thrown e)) ∨
      (P.minPayload h ≤ pkt.payload.length ∧ ¬P.Fits o h pkt ∧
        ∃ cause, (exec (P.inject o h pkt) d).1 = .error (.undefined cause)) := by
  rcases hcall : (exec (P.inject o h pkt) d).1 with stop | ⟨⟩
  · rcases Nat.lt_or_ge pkt.payload.length (P.minPayload h) with hlen | hlen
    · rw [Platform.exec_inject_of_short hlen] at hcall
      refine .inr (.inl ⟨hlen, ?_⟩)
      rcases P with os | os | _
      · cases h <;> exact ⟨_, congrArg _ (Except.error.inj hcall).symm⟩
      · cases h <;> exact ⟨_, congrArg _ (Except.error.inj hcall).symm⟩
      · cases hcall
    · rw [Platform.exec_inject, if_neg (Nat.not_lt.mpr hlen)] at hcall
      rcases hev : P.events o h pkt with stop' | evs
      · rw [hev] at hcall
        obtain rfl := Except.error.inj hcall
        obtain rfl := Platform.events_eq_error hev
        refine .inr (.inr ⟨hlen, fun hfits => ?_, _, rfl⟩)
        obtain ⟨evs, hok⟩ := Platform.events_ok_iff.mpr hfits
        rw [hev] at hok
        cases hok
      · rw [hev] at hcall
        have htaken := congrArg Prod.fst (Platform.offer_of_takes hev ht)
        rw [hcall] at htaken
        cases htaken
  · exact .inl ⟨(Platform.survives_iff_accepts ht).mp (Platform.inject_ok_iff.mp hcall), rfl⟩

/-- **The ends of a round** on a chunk, if the operating system takes every event. -/
private theorem handleData_cases (hos : ∀ n h, P.Takes n h) (c : Chunk) (s : ServerState) :
    (c.Harmless o P ∧ (exec (handleData o P c.data) s).1 = .ok ()) ∨
      (¬c.Harmless o P ∧ ¬c.Breaks o P ∧
        ∃ e, (exec (handleData o P c.data) s).1 = .error (.thrown e)) ∨
      (c.Breaks o P ∧ ∃ cause, (exec (handleData o P c.data) s).1 = .error (.undefined cause)) := by
  rcases Nat.lt_or_ge c.data.length headerSize with hshort | hheader
  · refine .inl ⟨.inl hshort, ?_⟩
    rw [exec_handleData, if_pos hshort]
  rcases Nat.lt_or_ge c.data.length (headerSize + declaredSize c.data) with hlt | hle
  · -- the decoder reads outside the chunk
    refine .inr (.inr ⟨⟨hheader, .inl hlt⟩, ?_⟩)
    rw [exec_handleData, if_neg (Nat.not_lt.mpr hheader), if_pos hlt]
    exact ⟨_, rfl⟩
  rw [exec_handleData_of_le hle, exec_dispatch]
  rcases hh : handler? (ofBuffer c.data).type with _ | h
  · -- a type without a name is skipped
    refine .inl ⟨.inr ⟨hle, fun h hmem => ?_⟩, rfl⟩
    rw [hh] at hmem
    cases hmem
  have hmem : ∀ h', h' ∈ handler? (ofBuffer c.data).type ↔ h' = h := fun h' => by
    rw [hh, Option.mem_some_iff, eq_comm]
  rcases inject_cases (o := o) h (ofBuffer c.data) (hos s.desktop.calls h) with
    ⟨haccepts, hok⟩ | ⟨hlen, hthrown⟩ | ⟨hlen, hfits, hundefined⟩
  · refine .inl ⟨.inr ⟨hle, fun h' hh' => ?_⟩, hok⟩
    rw [(hmem h').mp hh']
    exact haccepts
  · refine .inr (.inl ⟨?_, ?_, hthrown⟩)
    · rintro (hshort | ⟨-, haccepts⟩)
      · exact absurd hheader (Nat.not_le.mpr hshort)
      · have hsurvives := (Platform.survives_iff_accepts (hos s.desktop.calls h)).mpr
          (haccepts h ((hmem h).mpr rfl))
        have hok := Platform.inject_ok_iff.mpr hsurvives
        obtain ⟨e, he⟩ := hthrown
        rw [hok] at he
        cases he
    · rintro ⟨-, hlt | ⟨h', hh', hlong, -⟩⟩
      · exact absurd hle (Nat.not_le.mpr hlt)
      · rw [(hmem h').mp hh'] at hlong
        exact absurd hlen (Nat.not_lt.mpr hlong)
  · exact .inr (.inr ⟨⟨hheader, .inr ⟨h, (hmem h).mpr rfl, hlen, hfits⟩⟩, hundefined⟩)

/-- The loop gets past harmless chunks. -/
private theorem exec_receiveLoop_append (hos : ∀ n h, P.Takes n h) {cs : List Chunk}
    (hcs : ∀ c ∈ cs, c.Harmless o P) (rest : List ReadSome) (s : ServerState) :
    ∃ s', exec (receiveLoop o P (cs.map .chunk ++ rest)) s = exec (receiveLoop o P rest) s' := by
  induction cs generalizing s with
  | nil => exact ⟨s, rfl⟩
  | cons c cs ih =>
    obtain ⟨hc, hrest⟩ := List.forall_mem_cons.mp hcs
    rcases handleData_cases hos c s with ⟨-, hok⟩ | ⟨hnot, -⟩ | ⟨hbreaks, -⟩
    · obtain ⟨s', hs'⟩ := ih hrest (exec (handleData o P c.data) s).2
      exact ⟨s', (exec_receiveLoop_continue (Prod.ext hok rfl) _).trans hs'⟩
    · exact absurd hc hnot
    · exact absurd hbreaks hc.not_breaks

/-- Reads are harmless chunks up to some point. -/
private theorem exists_harmless (o : ByteOrder) (P : Platform) (reads : List ReadSome) :
    ∃ cs : List Chunk, (∀ c ∈ cs, c.Harmless o P) ∧ (reads = cs.map .chunk ∨
      ∃ r rest, reads = cs.map .chunk ++ r :: rest ∧ ∀ c, r = .chunk c → ¬c.Harmless o P) := by
  induction reads with
  | nil => exact ⟨[], List.forall_mem_nil _, .inl rfl⟩
  | cons r reads ih =>
    by_cases hr : ∃ c : Chunk, r = .chunk c ∧ c.Harmless o P
    · obtain ⟨c, rfl, hc⟩ := hr
      obtain ⟨cs, hcs, hreads⟩ := ih
      refine ⟨c :: cs, List.forall_mem_cons.mpr ⟨hc, hcs⟩, ?_⟩
      rcases hreads with rfl | ⟨r', rest, rfl, hr'⟩
      · exact .inl rfl
      · exact .inr ⟨r', rest, rfl, hr'⟩
    · exact ⟨[], List.forall_mem_nil _, .inr ⟨r, reads, rfl, fun c hc hharmless =>
        hr ⟨c, hc, hharmless⟩⟩⟩

end Rounds

/-! ### The program -/

/-- The calls before the loop, in order. -/
def serverSteps : List ServerStep :=
  [.setOptions, .setVerifyModeNone, .useCertificateChainFile "server.crt",
    .usePrivateKeyFile "server.key", .listen 12345, .accept, .handshake]

/-- None of the calls before the loop throws. -/
def ServerHost.SetUp (h : ServerHost) : Prop := ∀ x ∈ serverSteps, h.throws x = none

section Exit

variable {h : ServerHost}

/-- **The `try` block.** A call before the loop throws, and nothing is received; or the loop
runs. -/
private theorem exec_serverTryBlock (h : ServerHost) :
    (¬h.SetUp ∧ ∃ what steps,
        exec (serverTryBlock h) {} = (.error (.thrown (.systemError what)), ⟨steps, {}⟩)) ∨
      (h.SetUp ∧ exec (serverTryBlock h) {} =
        ((exec (receiveLoop h.byteOrder h.platform h.reads) {}).1,
          ⟨serverSteps, (exec (receiveLoop h.byteOrder h.platform h.reads) {}).2⟩)) := by
  let receive : Eff ServerProgram (Stop ServerException) (Option Unit) :=
    zoom ServerProgram.server (fun s p => { p with server := s })
      (receiveLoop h.byteOrder h.platform h.reads)
  have hblock : serverTryBlock h = inOrder (serverStep h) serverSteps receive := rfl
  have hcall : ∀ x p, exec (serverStep h x) p =
      (((h.throws x).map fun what => Stop.thrown (.systemError what)).elim (.ok ()) .error,
        { p with steps := p.steps ++ [x] }) := by
    intro x p
    rw [serverStep, exec_bind_ok (exec_modify _ p)]
    rcases h.throws x with _ | what
    · rfl
    · rfl
  rw [hblock]
  rcases exec_inOrder (fun xs p => { p with steps := p.steps ++ xs })
      (fun p => by simp only [List.append_nil])
      (fun x xs p => by simp only [List.append_assoc, List.singleton_append]) hcall
      serverSteps receive {} with ⟨hall, hexec⟩ | ⟨before, x, after, stop, hxs, hx, hexec⟩
  · exact .inr ⟨fun x hx => Option.map_eq_none_iff.mp (hall x hx), hexec⟩
  · obtain ⟨what, hwhat, rfl⟩ := Option.map_eq_some_iff.mp hx
    refine .inl ⟨fun hsetup => ?_, what, _, hexec⟩
    have hnone := hsetup x (by simp [hxs])
    rw [hwhat] at hnone
    cases hnone

/-- How `main` ends, by how the `try` block does. -/
private def exitOf : Except (Stop ServerException) (Option Unit) → ServerExit
  | .ok (some ()) => .code 0
  | .ok none => .running
  | .error (.thrown _) => .code 1
  | .error (.undefined cause) => .undefined cause

private theorem exit_serverMain (h : ServerHost) :
    (serverMain h).exit = exitOf (exec (serverTryBlock h) {}).1 := by
  rw [serverMain]
  rcases exec (serverTryBlock h) {} with ⟨(e | cause) | _ | ⟨⟩, p⟩
  · rfl
  · rfl
  · rfl
  · rfl

private theorem exit_of_not_setUp (hsetup : ¬h.SetUp) : (serverMain h).exit = .code 1 := by
  rcases exec_serverTryBlock h with ⟨-, what, steps, hexec⟩ | ⟨hyes, -⟩
  · rw [exit_serverMain, hexec]
    rfl
  · exact absurd hyes hsetup

/-- Once it has been set up, the program is the loop. -/
theorem serverMain_of_setUp (hsetup : h.SetUp) :
    ((serverMain h).exit = .code 0 ↔
        (exec (receiveLoop h.byteOrder h.platform h.reads) {}).1 = .ok (some ())) ∧
      (serverMain h).program.server =
        (exec (receiveLoop h.byteOrder h.platform h.reads) {}).2 := by
  rcases exec_serverTryBlock h with ⟨hnot, -⟩ | ⟨-, hexec⟩
  · exact absurd hsetup hnot
  rw [serverMain, hexec]
  rcases (exec (receiveLoop h.byteOrder h.platform h.reads) {}).1 with (e | cause) | _ | ⟨⟩
  · exact ⟨iff_of_false nofun nofun, rfl⟩
  · exact ⟨iff_of_false nofun nofun, rfl⟩
  · exact ⟨iff_of_false nofun nofun, rfl⟩
  · exact ⟨iff_of_true rfl rfl, rfl⟩

/-- After harmless chunks the rest of the reads decides. -/
private theorem exit_of_reads (hos : ∀ n x, h.platform.Takes n x) (hsetup : h.SetUp)
    {cs : List Chunk} {rest : List ReadSome} (hreads : h.reads = cs.map .chunk ++ rest)
    (hcs : ∀ c ∈ cs, c.Harmless h.byteOrder h.platform) :
    ∃ s, (serverMain h).exit =
      exitOf (exec (receiveLoop h.byteOrder h.platform rest) s).1 := by
  rcases exec_serverTryBlock h with ⟨hnot, -⟩ | ⟨-, hexec⟩
  · exact absurd hsetup hnot
  · obtain ⟨s, hs⟩ := exec_receiveLoop_append hos hcs rest {}
    rw [exit_serverMain, hexec, hreads, hs]
    exact ⟨s, rfl⟩

/-- Conditions for three of the four ends, one of which holds if the fourth end is not reached,
are exact. -/
private theorem exit_iff {x : ServerExit} {A B C : Prop} (hcode : A → x = .code 0)
    (hrunning : B → x = .running) (hundefined : C → ∃ cause, x = .undefined cause)
    (hcases : A ∨ B ∨ C ∨ x = .code 1) :
    (x = .code 0 ↔ A) ∧ (x = .running ↔ B) ∧ ((∃ cause, x = .undefined cause) ↔ C) ∧
      (x = .code 0 ∨ x = .code 1 ∨ x = .running ∨ ∃ cause, x = .undefined cause) := by
  grind

/-- The first read that is no harmless chunk decides how the server ends. -/
private theorem ends_serverMain (hos : ∀ n x, h.platform.Takes n x) (hsetup : h.SetUp) :
    (∃ (cs : List Chunk) (rest : List ReadSome), h.reads = cs.map .chunk ++ .eof :: rest ∧
        ∀ c ∈ cs, c.Harmless h.byteOrder h.platform) ∨
      (∃ cs : List Chunk, h.reads = cs.map .chunk ∧
        ∀ c ∈ cs, c.Harmless h.byteOrder h.platform) ∨
      (∃ (cs : List Chunk) (c : Chunk) (rest : List ReadSome),
        h.reads = cs.map .chunk ++ .chunk c :: rest ∧
          (∀ c ∈ cs, c.Harmless h.byteOrder h.platform) ∧ c.Breaks h.byteOrder h.platform) ∨
      (serverMain h).exit = .code 1 := by
  obtain ⟨cs, hcs, hreads | ⟨r, rest, hreads, hr⟩⟩ :=
    exists_harmless h.byteOrder h.platform h.reads
  · exact .inr (.inl ⟨cs, hreads, hcs⟩)
  obtain ⟨s, hs⟩ := exit_of_reads hos hsetup hreads hcs
  -- the reads after the harmless chunks start with `r`
  cases r with
  | eof => exact .inl ⟨cs, rest, hreads, hcs⟩
  | error what => exact .inr (.inr (.inr hs))
  | chunk c =>
    rcases handleData_cases hos c s with ⟨hharmless, -⟩ | ⟨-, -, e, he⟩ | ⟨hbreaks, -⟩
    · exact absurd hharmless (hr c rfl)
    · rw [exec_receiveLoop_stop (Prod.ext he rfl)] at hs
      exact .inr (.inr (.inr hs))
    · exact .inr (.inr (.inl ⟨cs, c, rest, hreads, hcs, hbreaks⟩))

/-- **How the server ends**, when the operating system takes every event. It exits with 0 if it
has been set up, and the client disconnects after chunks that are all harmless; it still runs if
there were no more reads than these; its behaviour is undefined if the first chunk that is not
harmless breaks it; and otherwise it exits with 1. -/
theorem serverMain_exit (h : ServerHost) (hos : ∀ n x, h.platform.Takes n x) :
    ((serverMain h).exit = .code 0 ↔ h.SetUp ∧ ∃ (cs : List Chunk) (rest : List ReadSome),
      h.reads = cs.map .chunk ++ .eof :: rest ∧
        ∀ c ∈ cs, c.Harmless h.byteOrder h.platform) ∧
    ((serverMain h).exit = .running ↔ h.SetUp ∧ ∃ cs : List Chunk,
      h.reads = cs.map .chunk ∧ ∀ c ∈ cs, c.Harmless h.byteOrder h.platform) ∧
    ((∃ cause, (serverMain h).exit = .undefined cause) ↔ h.SetUp ∧
      ∃ (cs : List Chunk) (c : Chunk) (rest : List ReadSome),
        h.reads = cs.map .chunk ++ .chunk c :: rest ∧
          (∀ c ∈ cs, c.Harmless h.byteOrder h.platform) ∧
          c.Breaks h.byteOrder h.platform) ∧
    ((serverMain h).exit = .code 0 ∨ (serverMain h).exit = .code 1 ∨
      (serverMain h).exit = .running ∨ ∃ cause, (serverMain h).exit = .undefined cause) := by
  refine exit_iff ?_ ?_ ?_ ?_
  · rintro ⟨hsetup, cs, rest, hreads, hcs⟩
    obtain ⟨s, hs⟩ := exit_of_reads hos hsetup hreads hcs
    exact hs
  · rintro ⟨hsetup, cs, hreads, hcs⟩
    rw [← List.append_nil (cs.map _)] at hreads
    obtain ⟨s, hs⟩ := exit_of_reads hos hsetup hreads hcs
    exact hs
  · rintro ⟨hsetup, cs, c, rest, hreads, hcs, hc⟩
    obtain ⟨s, hs⟩ := exit_of_reads hos hsetup hreads hcs
    rcases handleData_cases hos c s with ⟨hharmless, -⟩ | ⟨-, hnot, -⟩ | ⟨-, cause, hcause⟩
    · exact absurd hc hharmless.not_breaks
    · exact absurd hc hnot
    · rw [exec_receiveLoop_stop (Prod.ext hcause rfl)] at hs
      exact ⟨cause, hs⟩
  · by_cases hsetup : h.SetUp
    · rcases ends_serverMain hos hsetup with hcode | hrunning | hundefined | hone
      · exact .inl ⟨hsetup, hcode⟩
      · exact .inr (.inl ⟨hsetup, hrunning⟩)
      · exact .inr (.inr (.inl ⟨hsetup, hundefined⟩))
      · exact .inr (.inr (.inr hone))
    · exact .inr (.inr (.inr (exit_of_not_setUp hsetup)))

end Exit

/-- A machine with the fallback, on which everything works, and a client that sends one packet
that is too short before it disconnects. -/
def fallbackHost : ServerHost :=
  ⟨.little, .uiohook, fun _ => none, [.chunk emptyKeyPress.chunk, .eof]⟩

/-- The fallback survives the packet. -/
theorem serverMain_exit_fallback :
    (serverMain fallbackHost).exit = .code 0 :=
  (serverMain_exit fallbackHost fun _ _ => trivial).1.mpr
    ⟨fun _ _ => rfl, [emptyKeyPress.chunk], [], rfl,
      List.forall_mem_singleton.mpr (.inr ⟨by decide, fun _ _ => trivial⟩)⟩

end Sameness
