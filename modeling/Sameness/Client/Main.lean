import Sameness.Client.Forwarding
import Sameness.Client.Options

/-!
# The client program

`main` of the client reads the command line, sets the switcher up, loads a certificate from the
first of three places that has one, connects to the server, shakes hands and runs the hook. What
these calls of the libraries answer, and the events that the hook delivers, are parameters.

`clientMain_code_zero_iff` says when the program ends well. `clientMain_client` connects the
program with the runs of the hook callback: whatever the command line and the answers, the
client is in a state of a run with the settings of the command line, and no event is looked at
before a certificate is loaded and the server has been shaken hands with.

An exception of the callback leaves it into the hook library, which is C. What happens then is
up to that library, and the program's exit says no more than that.
-/

namespace Sameness

open Bytes Cpp Eff Runs

/-- The calls of the libraries that can throw. -/
inductive ClientStep where
  | loadVerifyFile (path : String)
  | resolve (host service : String)
  | connect
  | noDelay
  | handshake
  | ioRun
  deriving DecidableEq, Repr

/-- `UIOHOOK_SUCCESS`. -/
def uiohookSuccess : ℕ := 0

/-- The machine that the client runs on: what each call throws, `none` if it returns, the events
that the hook delivers while it runs, and the status it ends with. -/
structure ClientHost where
  byteOrder : ByteOrder
  write : ℕ → Option String
  throws : ClientStep → Option String
  calls : List HookCall
  hookStatus : ℕ

/-- How `main` ends: it returns a code, an exception of `stoi` ends the program, or the callback
does not return to the hook library. -/
inductive ClientExit where
  | code (n : ℕ)
  | terminated (e : StoiException)
  | insideHook (stop : Stop ClientException)
  deriving DecidableEq, Repr

/-- What leaves the `try` block: an exception that is caught, or none that `main` sees. -/
inductive ClientStop where
  | exception (what : String)
  | insideHook (stop : Stop ClientException)
  deriving DecidableEq, Repr

/-- The state of the program inside the `try` block: the calls made, whether
`g_ssl_socket_ptr` is set, and the state of the client. -/
structure ClientProgram where
  steps : List ClientStep := []
  socket : Bool := false
  client : ClientState

abbrev ClientMainM := Eff ClientProgram ClientStop

/-- How the program ended, what it has printed to the error stream, and where the `try` block,
if it was entered, has left off. -/
structure ClientRun where
  exit : ClientExit
  cerr : List String := []
  program : Option ClientProgram := none

/-- `printUsage`. The defaults it shows are the present settings. -/
def printUsage (programName : String) (s : Settings) : List String :=
  [s!"Usage: {programName} <server_address> [--width <width>] [--height <height>] " ++
      "[--edge <edge_threshold>] [--help]\n",
    "  server_address: The address of the server to connect to.\n",
    "  --width: The width of the screen in pixels (default: " ++
      toString s.hostScreenWidth.toInt ++ ").\n",
    "  --height: The height of the screen in pixels (default: " ++
      toString s.hostScreenHeight.toInt ++ ").\n",
    "  --edge: The edge threshold in pixels (default: " ++
      toString s.edgeThreshold.toInt ++ ").\n",
    "  --help: Display this help message and exit.\n"]

/-- The places of the certificate. -/
def certPaths : List String := ["server.crt", "../certs/server.crt", "certs/server.crt"]

section Main

variable (h : ClientHost)

/-- The client with the settings. -/
def ClientHost.client (s : Settings) : Client := ⟨s.hostScreenWidth, h.byteOrder, h.write⟩

/-- A call that may throw. -/
def clientStep (x : ClientStep) : ClientMainM Unit := do
  modify fun p => { p with steps := p.steps ++ [x] }
  match h.throws x with
  | none => pure ()
  | some what => throw (.exception what)

/-- The loop over the places of the certificate, with its own `try`. -/
def loadCertificate : List String → ClientMainM Bool
  | [] => pure false
  | path :: paths => do
    modify fun p => { p with steps := p.steps ++ [.loadVerifyFile path] }
    match h.throws (.loadVerifyFile path) with
    | none => pure true
    | some _ => loadCertificate paths

/-- `dispatch_hook`. -/
def dispatchHook (c : Client) (call : HookCall) : ClientMainM Unit := do
  let p ← get
  if p.socket then do
    modify fun p => { p with client := (hookStep c call p.client).2 }
    match (hookStep c call p.client).1 with
    | .ok () => pure ()
    | .error stop => throw (.insideHook stop)
  else pure ()

/-- The events that the hook delivers. -/
def deliver (c : Client) : List HookCall → ClientMainM Unit
  | [] => pure ()
  | call :: calls => do
    dispatchHook c call
    deliver c calls

/-- The `try` block. -/
def tryBlock (c : Client) (serverAddress : String) : ClientMainM Unit := do
  let certLoaded ← loadCertificate h certPaths
  if ¬certLoaded then throw (.exception "Could not load SSL certificate from any location")
  else
    modify fun p => { p with socket := true }
    clientStep h (.resolve serverAddress "12345")
    clientStep h .connect
    clientStep h .noDelay
    clientStep h .handshake
    deliver c h.calls
    if h.hookStatus ≠ uiohookSuccess then throw (.exception "Failed to start input hook")
    else clientStep h .ioRun

/-- `main`, with the words after the program's name. -/
def clientMain (programName : String) : List String → ClientRun
  | [] => { exit := .code 1, cerr := printUsage programName {} }
  | serverAddress :: words =>
    match parseOptions words {} with
    | .error (.help s) => { exit := .code 0, cerr := printUsage programName s }
    | .error (.uncaught e) => { exit := .terminated e }
    | .ok s =>
      let c := h.client s
      match exec (tryBlock h c serverAddress)
        { client := .fresh c s.hostScreenHeight s.edgeThreshold } with
      | (.ok (), p) => { exit := .code 0, program := some p }
      | (.error (.exception what), p) =>
        { exit := .code 1, cerr := [s!"Error: {what}\n"], program := some p }
      | (.error (.insideHook stop), p) => { exit := .insideHook stop, program := some p }

end Main

/-! ### The calls before the hook -/

section Setup

variable {h : ClientHost}

/-- The calls that are made once a certificate has been found. -/
def connecting (serverAddress : String) : List ClientStep :=
  [.resolve serverAddress "12345", .connect, .noDelay, .handshake]

/-- The calls that have to be made before the hook runs, after the first certificate that is
found: none of them throws. -/
structure ClientHost.SetUp (h : ClientHost) (serverAddress : String) : Prop where
  certificate : ∃ path ∈ certPaths, h.throws (.loadVerifyFile path) = none
  connected : ∀ x ∈ connecting serverAddress, h.throws x = none

theorem exec_clientStep (x : ClientStep) (p : ClientProgram) :
    exec (clientStep h x) p =
      (match h.throws x with
        | none => .ok ()
        | some what => .error (.exception what), { p with steps := p.steps ++ [x] }) := by
  rw [clientStep, exec_bind_ok (exec_modify _ p)]
  rcases h.throws x with _ | what
  · rfl
  · rfl

/-- The certificate is searched for in order, up to the first place that has it. -/
theorem exec_loadCertificate (paths : List String) (p : ClientProgram) :
    (∃ tried path rest, paths = tried ++ path :: rest ∧
        (∀ t ∈ tried, h.throws (.loadVerifyFile t) ≠ none) ∧
        h.throws (.loadVerifyFile path) = none ∧
        exec (loadCertificate h paths) p = (.ok true,
          { p with steps := p.steps ++ (tried ++ [path]).map .loadVerifyFile })) ∨
      ((∀ path ∈ paths, h.throws (.loadVerifyFile path) ≠ none) ∧
        exec (loadCertificate h paths) p = (.ok false,
          { p with steps := p.steps ++ paths.map .loadVerifyFile })) := by
  induction paths generalizing p with
  | nil => exact .inr ⟨List.forall_mem_nil _, by simp [loadCertificate]⟩
  | cons path paths ih =>
    have hfirst := exec_bind_ok (f := fun _ : Unit => match h.throws (.loadVerifyFile path) with
      | none => pure true
      | some _ => loadCertificate h paths)
      (exec_modify (fun p => { p with steps := p.steps ++ [.loadVerifyFile path] }) p)
    rcases hthrows : h.throws (.loadVerifyFile path) with _ | what
    · refine .inl ⟨[], path, paths, rfl, List.forall_mem_nil _, hthrows, ?_⟩
      rw [loadCertificate, hfirst, hthrows]
      rfl
    · have hstep : exec (loadCertificate h (path :: paths)) p =
          exec (loadCertificate h paths)
            { p with steps := p.steps ++ [.loadVerifyFile path] } := by
        rw [loadCertificate, hfirst, hthrows]
      have hne : h.throws (.loadVerifyFile path) ≠ none := by
        rw [hthrows]
        exact nofun
      rcases ih { p with steps := p.steps ++ [.loadVerifyFile path] } with
        ⟨tried, found, rest, rfl, htried, hfound, hexec⟩ | ⟨hnone, hexec⟩
      · refine .inl ⟨path :: tried, found, rest, rfl, List.forall_mem_cons.mpr ⟨hne, htried⟩,
          hfound, ?_⟩
        rw [hstep, hexec]
        simp
      · refine .inr ⟨List.forall_mem_cons.mpr ⟨hne, hnone⟩, ?_⟩
        rw [hstep, hexec]
        simp

/-- The calls made before the hook delivers events: the places of the certificate up to the
first that has it, and the connection. -/
def ClientHost.Connects (h : ClientHost) (serverAddress : String) (steps : List ClientStep) :
    Prop :=
  ∃ tried path rest, certPaths = tried ++ path :: rest ∧
    (∀ t ∈ tried, h.throws (.loadVerifyFile t) ≠ none) ∧
    h.throws (.loadVerifyFile path) = none ∧
    steps = (tried ++ [path]).map .loadVerifyFile ++ connecting serverAddress

/-- What follows the connection. -/
private def running (h : ClientHost) (c : Client) : ClientMainM Unit := do
  deliver c h.calls
  if h.hookStatus ≠ uiohookSuccess then throw (.exception "Failed to start input hook")
  else clientStep h .ioRun

/-- The calls after the certificate, one after the other. -/
private theorem exec_connecting (m : ClientMainM Unit) (serverAddress : String)
    (p : ClientProgram) :
    ((∀ x ∈ connecting serverAddress, h.throws x = none) ∧
        exec (inOrder (clientStep h) (connecting serverAddress) m) p =
          exec m { p with steps := p.steps ++ connecting serverAddress }) ∨
      ((∃ x ∈ connecting serverAddress, h.throws x ≠ none) ∧ ∃ what steps,
        exec (inOrder (clientStep h) (connecting serverAddress) m) p =
          (.error (.exception what), { p with steps := steps })) := by
  have hcall : ∀ x p, exec (clientStep h x) p =
      (((h.throws x).map ClientStop.exception).elim (.ok ()) .error,
        { p with steps := p.steps ++ [x] }) := by
    intro x p
    rw [exec_clientStep]
    rcases h.throws x with _ | what
    · rfl
    · rfl
  rcases exec_inOrder (fun xs p => { p with steps := p.steps ++ xs })
      (fun p => by simp only [List.append_nil])
      (fun x xs p => by simp only [List.append_assoc, List.singleton_append]) hcall
      (connecting serverAddress) m p with ⟨hall, hexec⟩ | ⟨before, x, after, stop, hxs, hx, hexec⟩
  · exact .inl ⟨fun x hx => Option.map_eq_none_iff.mp (hall x hx), hexec⟩
  · obtain ⟨what, hwhat, rfl⟩ := Option.map_eq_some_iff.mp hx
    exact .inr ⟨⟨x, by simp [hxs], by rw [hwhat]; exact nofun⟩, what, _, hexec⟩

/-- **The `try` block.** Either the connection fails, and the client has not been touched; or it
stands, and the hook runs. -/
theorem exec_tryBlock_cases (h : ClientHost) (c : Client) (serverAddress : String)
    (client : ClientState) :
    (¬h.SetUp serverAddress ∧ ∃ what steps socket,
        exec (tryBlock h c serverAddress) { client := client } =
          (.error (.exception what), ⟨steps, socket, client⟩)) ∨
      (h.SetUp serverAddress ∧ ∃ steps, h.Connects serverAddress steps ∧
        exec (tryBlock h c serverAddress) { client := client } =
          exec (running h c) ⟨steps, true, client⟩) := by
  rw [tryBlock]
  rcases exec_loadCertificate (h := h) certPaths { client := client } with
    ⟨tried, path, rest, hpaths, htried, hpath, hexec⟩ | ⟨hnone, hexec⟩
  · rw [exec_bind_ok hexec, if_neg (by simp), exec_bind_ok (exec_modify _ _)]
    have hcert : ∃ path ∈ certPaths, h.throws (.loadVerifyFile path) = none :=
      ⟨path, by simp [hpaths], hpath⟩
    change _ ∧ (∃ what steps socket, exec (inOrder (clientStep h) (connecting serverAddress)
        (running h c)) _ = _) ∨ _ ∧ ∃ steps, _ ∧
      exec (inOrder (clientStep h) (connecting serverAddress) (running h c)) _ = _
    rcases exec_connecting (running h c) serverAddress ⟨_, true, client⟩ with
      ⟨hall, hrun⟩ | ⟨⟨x, hx, hthrows⟩, what, steps, hrun⟩
    · exact .inr ⟨⟨hcert, hall⟩, _, ⟨tried, path, rest, hpaths, htried, hpath, rfl⟩, hrun⟩
    · exact .inl ⟨fun hsetup => hthrows (hsetup.connected x hx), what, steps, true, hrun⟩
  · have hnot : ¬h.SetUp serverAddress := fun hsetup => by
      obtain ⟨path, hmem, hpath⟩ := hsetup.certificate
      exact hnone path hmem hpath
    rw [exec_bind_ok hexec, if_pos (by simp)]
    exact .inl ⟨hnot, _, _, _, rfl⟩

/-! ### The events of the hook -/

/-- Once the socket is there, an event that is dispatched is a call of the hook callback. -/
theorem exec_dispatchHook (c : Client) (call : HookCall) {p : ClientProgram}
    (hsocket : p.socket = true) :
    exec (dispatchHook c call) p =
      (match (hookStep c call p.client).1 with
        | .ok () => .ok ()
        | .error stop => .error (.insideHook stop),
        { p with client := (hookStep c call p.client).2 }) := by
  rw [dispatchHook, exec_bind_ok (exec_get p), if_pos hsocket, exec_bind_ok (exec_modify _ p)]
  rcases (hookStep c call p.client).1 with stop | ⟨⟩
  · rfl
  · rfl

/-- The hook delivers events as long as the callback returns. -/
theorem exec_deliver (c : Client) (calls : List HookCall) {p : ClientProgram}
    (hsocket : p.socket = true) :
    ((∀ r ∈ results (hookStep c) calls p.client, r = .ok ()) ∧
        exec (deliver c calls) p =
          (.ok (), { p with client := final (hookStep c) calls p.client })) ∨
      ((∃ r ∈ results (hookStep c) calls p.client, r ≠ .ok ()) ∧ ∃ seen stop, seen <+: calls ∧
        exec (deliver c calls) p =
          (.error (.insideHook stop),
            { p with client := final (hookStep c) seen p.client })) := by
  induction calls generalizing p with
  | nil => exact .inl ⟨List.forall_mem_nil _, rfl⟩
  | cons call calls ih =>
    have hdispatch := exec_dispatchHook c call hsocket
    rcases hresult : (hookStep c call p.client).1 with stop | ⟨⟩
    · -- the hook library does not get to the events after this one
      rw [hresult] at hdispatch
      refine .inr ⟨⟨_, List.mem_cons_self, by rw [hresult]; exact nofun⟩, [call], stop,
        ⟨calls, rfl⟩, ?_⟩
      rw [deliver, exec_bind_error hdispatch]
      rfl
    · rw [hresult] at hdispatch
      have hsocket' : ({ p with client := (hookStep c call p.client).2 } : ClientProgram).socket =
          true := hsocket
      rw [deliver, exec_bind_ok hdispatch]
      rcases ih hsocket' with ⟨hall, hexec⟩ | ⟨⟨r, hr, hne⟩, seen, stop, hpre, hexec⟩
      · exact .inl ⟨List.forall_mem_cons.mpr ⟨hresult, hall⟩, hexec⟩
      · refine .inr ⟨⟨r, List.mem_cons_of_mem _ hr, hne⟩, call :: seen, stop, ?_, hexec⟩
        exact List.cons_prefix_cons.mpr ⟨rfl, hpre⟩

/-- What the hook and the end of the `try` block come to, on a connection. -/
private theorem exec_running (h : ClientHost) (c : Client) (steps : List ClientStep)
    (client : ClientState) :
    ∃ seen r later, seen <+: h.calls ∧
      exec (running h c) ⟨steps, true, client⟩ =
        (r, ⟨steps ++ later, true, final (hookStep c) seen client⟩) ∧
      ((∀ stop, r ≠ .error (.insideHook stop)) → seen = h.calls) ∧
      (r = .ok () ↔ (∀ r ∈ results (hookStep c) h.calls client, r = .ok ()) ∧
        h.hookStatus = uiohookSuccess ∧ h.throws .ioRun = none) := by
  have hsocket : (⟨steps, true, client⟩ : ClientProgram).socket = true := rfl
  rw [running]
  rcases exec_deliver c h.calls hsocket with ⟨hall, hexec⟩ | ⟨⟨r, hr, hne⟩, seen, stop, hpre, hexec⟩
  · rw [exec_bind_ok hexec, exec_ite, exec_clientStep]
    split_ifs with hstatus
    -- `main` looks at the status only after the hook has ended
    · refine ⟨h.calls, .error (.exception "Failed to start input hook"), [], List.prefix_refl _, ?_,
        fun _ => rfl, ?_⟩
      · rw [List.append_nil]
        rfl
      · exact iff_of_false nofun fun ⟨_, hsuccess, _⟩ => hstatus hsuccess
    · refine ⟨h.calls, _, [.ioRun], List.prefix_refl _, rfl, fun _ => rfl, ?_⟩
      rcases hio : h.throws .ioRun with _ | what
      · exact iff_of_true rfl ⟨hall, not_not.mp hstatus, rfl⟩
      · exact iff_of_false nofun fun ⟨_, _, hnone⟩ => nomatch hnone
  · rw [exec_bind_error hexec]
    refine ⟨seen, _, [], hpre, ?_, fun hinside => absurd rfl (hinside stop), ?_⟩
    · rw [List.append_nil]
    · exact iff_of_false nofun fun ⟨hall, _⟩ => hne (hall r hr)

end Setup

/-! ### The program -/

section Program

variable {h : ClientHost} (programName : String) {serverAddress : String} {words : List String}

/-- With settings and without a connection the program ends with the code 1. -/
private theorem clientMain_of_not_setUp {s : Settings} (hs : parseOptions words {} = .ok s)
    (hsetup : ¬h.SetUp serverAddress) :
    ∃ steps socket, (clientMain h programName (serverAddress :: words)).exit = .code 1 ∧
      (clientMain h programName (serverAddress :: words)).program =
        some ⟨steps, socket, .fresh (h.client s) s.hostScreenHeight s.edgeThreshold⟩ := by
  obtain ⟨-, what, steps, socket, hexec⟩ | ⟨hyes, -⟩ :=
    exec_tryBlock_cases h (h.client s) serverAddress
      (.fresh (h.client s) s.hostScreenHeight s.edgeThreshold)
  · refine ⟨steps, socket, ?_⟩
    simp only [clientMain, hs, hexec, and_self]
  · exact absurd hyes hsetup

/-- On a connection the program runs the hook. -/
private theorem clientMain_of_setUp {s : Settings} (hs : parseOptions words {} = .ok s)
    (hsetup : h.SetUp serverAddress) :
    ∃ seen steps later, seen <+: h.calls ∧ h.Connects serverAddress steps ∧
      (clientMain h programName (serverAddress :: words)).program = some ⟨steps ++ later, true,
        runState (h.client s) s.hostScreenHeight s.edgeThreshold seen⟩ ∧
      ((∀ stop, (clientMain h programName (serverAddress :: words)).exit ≠ .insideHook stop) →
        seen = h.calls) ∧
      ((clientMain h programName (serverAddress :: words)).exit = .code 0 ↔
        Returns (h.client s) s.hostScreenHeight s.edgeThreshold h.calls ∧
          h.hookStatus = uiohookSuccess ∧ h.throws .ioRun = none) := by
  obtain ⟨hno, -⟩ | ⟨-, steps, hsteps, hexec⟩ :=
    exec_tryBlock_cases h (h.client s) serverAddress
      (.fresh (h.client s) s.hostScreenHeight s.edgeThreshold)
  · exact absurd hsetup hno
  obtain ⟨seen, r, later, hseen, hrun, hall, hok⟩ := exec_running h (h.client s) steps
    (.fresh (h.client s) s.hostScreenHeight s.edgeThreshold)
  rw [hrun] at hexec
  refine ⟨seen, steps, later, hseen, hsteps, ?_⟩
  rcases r with (what | stop) | ⟨⟩
  · simp only [clientMain, hs, hexec]
    refine ⟨rfl, fun _ => hall nofun, ?_⟩
    exact iff_of_false nofun fun hgood => nomatch hok.mpr hgood
  · simp only [clientMain, hs, hexec]
    refine ⟨rfl, fun hinside => absurd rfl (hinside stop), ?_⟩
    exact iff_of_false nofun fun hgood => nomatch hok.mpr hgood
  · simp only [clientMain, hs, hexec]
    refine ⟨rfl, fun _ => hall nofun, ?_⟩
    exact iff_of_true trivial (hok.mp rfl)

/-- A program that has got to its `try` block and ends well has seen every event. -/
theorem clientMain_of_code_zero {args : List String} {p : ClientProgram}
    (hzero : (clientMain h programName args).exit = .code 0)
    (hp : (clientMain h programName args).program = some p) :
    ∃ serverAddress words s, args = serverAddress :: words ∧ parseOptions words {} = .ok s ∧
      Returns (h.client s) s.hostScreenHeight s.edgeThreshold h.calls ∧
      p.client = runState (h.client s) s.hostScreenHeight s.edgeThreshold h.calls := by
  rcases args with _ | ⟨serverAddress, words⟩
  · cases hp
  rcases hs : parseOptions words {} with (s | e) | s
  · simp only [clientMain, hs] at hp
    cases hp
  · simp only [clientMain, hs] at hp
    cases hp
  refine ⟨serverAddress, words, s, rfl, hs, ?_⟩
  by_cases hsetup : h.SetUp serverAddress
  · obtain ⟨seen, steps, later, -, -, hprogram, hall, hok⟩ :=
      clientMain_of_setUp programName hs hsetup
    have hseen : seen = h.calls := hall fun stop hstop => by
      rw [hzero] at hstop
      cases hstop
    obtain rfl := Option.some.inj (hprogram.symm.trans hp)
    exact ⟨(hok.mp hzero).1, by rw [hseen]⟩
  · obtain ⟨-, -, hone, -⟩ := clientMain_of_not_setUp programName hs hsetup
    rw [hzero] at hone
    cases hone

end Program

/-- **When the client ends well.** Exactly if help is asked for, or the settings can be read, a
certificate is found, the connection stands, the callback returns from every event, and the hook
ends with success. -/
theorem clientMain_code_zero_iff (h : ClientHost) (programName : String) (args : List String) :
    (clientMain h programName args).exit = .code 0 ↔
      ∃ serverAddress words, args = serverAddress :: words ∧
        ((∃ s, parseOptions words {} = .error (.help s)) ∨
          ∃ s, parseOptions words {} = .ok s ∧ h.SetUp serverAddress ∧
            Returns (h.client s) s.hostScreenHeight s.edgeThreshold h.calls ∧
            h.hookStatus = uiohookSuccess ∧ h.throws .ioRun = none) := by
  rcases args with _ | ⟨serverAddress, words⟩
  · exact iff_of_false nofun fun ⟨_, _, hargs, _⟩ => nomatch hargs
  simp only [List.cons.injEq, ↓existsAndEq, true_and]
  rcases hs : parseOptions words {} with (s | e) | s
  · simp [clientMain, hs]
  · simp [clientMain, hs]
  · by_cases hsetup : h.SetUp serverAddress
    · obtain ⟨-, -, -, -, -, -, -, hzero⟩ :=
        clientMain_of_setUp programName hs hsetup
      simp [hzero, hsetup]
    · obtain ⟨-, -, hone, -⟩ := clientMain_of_not_setUp programName hs hsetup
      simp [hone, hsetup]

/-- **What the client does, from its command line on.** Whenever the program gets to its `try`
block, the settings are those of the command line, and the client is in the state that the hook
callback reaches from a fresh switcher with these settings on the events seen so far. All events
have been seen unless the callback did not return from one; and none has been before a
certificate was found and the server shaken hands with. -/
theorem clientMain_client (h : ClientHost) (programName : String) (args : List String)
    (p : ClientProgram) (hp : (clientMain h programName args).program = some p) :
    ∃ serverAddress words s seen, args = serverAddress :: words ∧
      parseOptions words {} = .ok s ∧ seen <+: h.calls ∧
      p.client = runState (h.client s) s.hostScreenHeight s.edgeThreshold seen ∧
      (h.SetUp serverAddress → (∀ stop, (clientMain h programName args).exit ≠ .insideHook stop) →
        seen = h.calls) ∧
      (seen ≠ [] → h.SetUp serverAddress ∧
        ∃ steps, h.Connects serverAddress steps ∧ steps <+: p.steps) := by
  rcases args with _ | ⟨serverAddress, words⟩
  · cases hp
  rcases hs : parseOptions words {} with (s | e) | s
  · simp only [clientMain, hs] at hp
    cases hp
  · simp only [clientMain, hs] at hp
    cases hp
  refine ⟨serverAddress, words, s, ?_⟩
  by_cases hsetup : h.SetUp serverAddress
  · obtain ⟨seen, steps, later, hseen, hsteps, hprogram, hall, -⟩ :=
      clientMain_of_setUp programName hs hsetup
    obtain rfl := Option.some.inj (hprogram.symm.trans hp)
    exact ⟨seen, rfl, hs, hseen, rfl, fun _ => hall,
      fun _ => ⟨hsetup, steps, hsteps, List.prefix_append _ _⟩⟩
  · obtain ⟨steps, socket, -, hprogram⟩ :=
      clientMain_of_not_setUp programName hs hsetup
    obtain rfl := Option.some.inj (hprogram.symm.trans hp)
    exact ⟨[], rfl, hs, List.nil_prefix, rfl, fun hyes => absurd hyes hsetup,
      fun hne => absurd rfl hne⟩

/-- A machine on which everything works, with a move over the right edge and a key. -/
def workingHost : ClientHost :=
  ⟨.little, fun _ => none, fun _ => none, [moveTo 1900, press30], uiohookSuccess⟩

theorem clientMain_client_edge :
    ∃ p, (clientMain workingHost "client" ["localhost", "--edge", "30"]).program = some p ∧
      ∃ serverAddress words s seen, ["localhost", "--edge", "30"] = serverAddress :: words ∧
      parseOptions words {} = .ok s ∧ seen <+: workingHost.calls ∧
      p.client = runState (workingHost.client s) s.hostScreenHeight s.edgeThreshold seen ∧
      (workingHost.SetUp serverAddress →
        (∀ stop, (clientMain workingHost "client" ["localhost", "--edge", "30"]).exit ≠
          .insideHook stop) → seen = workingHost.calls) ∧
      (seen ≠ [] → workingHost.SetUp serverAddress ∧
        ∃ steps, workingHost.Connects serverAddress steps ∧ steps <+: p.steps) := by
  have hsome : (clientMain workingHost "client"
      ["localhost", "--edge", "30"]).program.isSome = true := by decide
  exact ⟨_, (Option.some_get hsome).symm, clientMain_client workingHost "client"
    ["localhost", "--edge", "30"] _ (Option.some_get hsome).symm⟩

end Sameness
