import Sameness.Library.Decimal
import Sameness.Library.Runs

/-!
# The command line of the client

The loop in `main` goes through the words after the server's address. `--width`, `--height` and
`--edge` take the next word as their value, `--help` ends the program, and any other word is
skipped; so is one of the three options if it is the last word. `std::stoi` reads the values,
outside every `try`.

`Reads` is the grammar of command lines: every line is read as one list of items
(`reads_iff`), and the loop goes through the items. `parseOptions_reads` says what it makes of
them, whatever the words: the last value of each option wins, and the loop ends early at the
first `--help` or at the first value that is no number. `parseOptions_render` is the round trip
with written command lines.
-/

namespace Sameness

open Cpp Runs

/-- The display settings of the client, with their defaults. -/
structure Settings where
  hostScreenWidth : Int32 := 1920
  hostScreenHeight : Int32 := 1080
  edgeThreshold : Int32 := 20
  deriving DecidableEq, Repr

/-- The settings that have an option. -/
inductive Setting where
  | width
  | height
  | edge
  deriving DecidableEq, Repr

/-- The option for a setting. -/
def Setting.option : Setting → String
  | width => "--width"
  | height => "--height"
  | edge => "--edge"

def Settings.get (s : Settings) : Setting → Int32
  | .width => s.hostScreenWidth
  | .height => s.hostScreenHeight
  | .edge => s.edgeThreshold

def Settings.set (k : Setting) (value : Int32) (s : Settings) : Settings :=
  match k with
  | .width => { s with hostScreenWidth := value }
  | .height => { s with hostScreenHeight := value }
  | .edge => { s with edgeThreshold := value }

/-- The comparisons of a word with the options. -/
def setting? (arg : String) : Option Setting :=
  if arg = "--width" then some .width
  else if arg = "--height" then some .height
  else if arg = "--edge" then some .edge
  else none

/-- How the loop ends early: with the usage, which shows the settings so far, or with an
exception that nothing catches. -/
inductive OptionExit where
  | help (s : Settings)
  | uncaught (e : StoiException)
  deriving DecidableEq, Repr

/-- One value. -/
def assign (k : Setting) (value : String) (s : Settings) : Except OptionExit Settings :=
  match stoi value with
  | .ok z => .ok (s.set k (Int32.ofInt z))
  | .error e => .error (.uncaught e)

/-- The loop over `argv[2]` and what follows it. -/
def parseOptions : List String → Settings → Except OptionExit Settings
  | [], s => .ok s
  | [arg], s =>
    -- without a next word the three options are not taken
    if arg = "--help" then .error (.help s) else .ok s
  | arg :: value :: rest, s =>
    match setting? arg with
    | some k => do parseOptions rest (← assign k value s)
    | none => if arg = "--help" then .error (.help s) else parseOptions (value :: rest) s

/-! ### Items -/

/-- What the words of a command line are for. -/
inductive Item where
  | assign (k : Setting) (value : String)
  | help
  | ignored (word : String)
  deriving DecidableEq, Repr

/-- The words are read as the items. -/
inductive Reads : List String → List Item → Prop
  | nil : Reads [] []
  | assign {k value args items} (h : Reads args items) :
    Reads (k.option :: value :: args) (.assign k value :: items)
  | help {args items} (h : Reads args items) : Reads ("--help" :: args) (.help :: items)
  | ignored {word args items} (hhelp : word ≠ "--help")
    (hoption : args ≠ [] → ∀ k : Setting, word ≠ k.option) (h : Reads args items) :
    Reads (word :: args) (.ignored word :: items)

/-- The items of a command line. -/
def items : List String → List Item
  | [] => []
  | [arg] => if arg = "--help" then [.help] else [.ignored arg]
  | arg :: value :: rest =>
    match setting? arg with
    | some k => .assign k value :: items rest
    | none => (if arg = "--help" then .help else .ignored arg) :: items (value :: rest)

theorem setting?_eq_some_iff {arg : String} {k : Setting} :
    setting? arg = some k ↔ arg = k.option := by
  constructor
  · intro h
    unfold setting? at h
    split_ifs at h with hwidth hheight hedge
    · obtain rfl := Option.some.inj h
      exact hwidth
    · obtain rfl := Option.some.inj h
      exact hheight
    · obtain rfl := Option.some.inj h
      exact hedge
  · rintro rfl
    cases k <;> decide

theorem setting?_eq_none_iff {arg : String} :
    setting? arg = none ↔ ∀ k : Setting, arg ≠ k.option := by
  rw [Option.eq_none_iff_forall_ne_some]
  exact forall_congr' fun k => not_congr setting?_eq_some_iff

theorem setting?_help : setting? "--help" = none := by decide

/-- Every command line has a reading. -/
private theorem reads_items (args : List String) : Reads args (items args) := by
  fun_induction items args with
  | case1 => exact .nil
  | case2 => exact .help .nil
  | case3 arg hhelp => exact .ignored hhelp (fun h => absurd rfl h) .nil
  | case4 arg value rest k hk ih =>
    obtain rfl := setting?_eq_some_iff.mp hk
    exact .assign ih
  | case5 arg value rest hnone ih =>
    split_ifs with hhelp
    · subst hhelp
      exact .help ih
    · exact .ignored hhelp (fun _ => setting?_eq_none_iff.mp hnone) ih

/-- **Every command line is read in one way.** -/
theorem reads_iff {args : List String} {is : List Item} : Reads args is ↔ is = items args := by
  refine ⟨fun h => ?_, fun h => h ▸ reads_items args⟩
  induction h with
  | nil => rfl
  | @assign k value args is h ih =>
    rw [items, setting?_eq_some_iff.mpr rfl, ih]
  | @help args is h ih =>
    rcases args with _ | ⟨value, rest⟩
    · rw [ih]
      rfl
    · rw [items, setting?_help, ih, if_pos rfl]
  | @ignored word args is hhelp hoption h ih =>
    -- the last word may be an option
    rcases args with _ | ⟨value, rest⟩
    · rw [ih, items, items, if_neg hhelp]
    · rw [items, setting?_eq_none_iff.mpr (hoption (List.cons_ne_nil _ _)), ih, if_neg hhelp]

/-! ### The loop over the items -/

/-- What the loop does with an item. -/
def Item.run (s : Settings) : Item → Except OptionExit Settings
  | assign k value => Sameness.assign k value s
  | help => .error (.help s)
  | ignored _ => .ok s

private theorem foldlM_cons_ok {i : Item} {is : List Item} {s s' : Settings}
    (h : i.run s = .ok s') : (i :: is).foldlM Item.run s = is.foldlM Item.run s' := by
  rw [List.foldlM_cons, h]
  rfl

private theorem foldlM_cons_error {i : Item} {is : List Item} {s : Settings} {e : OptionExit}
    (h : i.run s = .error e) : (i :: is).foldlM Item.run s = .error e := by
  rw [List.foldlM_cons, h]
  rfl

/-- The loop goes through the items. -/
theorem parseOptions_eq_foldlM {args : List String} {is : List Item} (h : Reads args is)
    (s : Settings) : parseOptions args s = is.foldlM Item.run s := by
  obtain rfl := reads_iff.mp h
  clear h
  fun_induction parseOptions args s with
  | case1 s => rfl
  | case2 s => rfl
  | case3 arg s hhelp =>
    rw [items, if_neg hhelp]
    rfl
  | case4 arg value rest s k hk ih =>
    rw [items, hk]
    rcases hrun : assign k value s with e | s'
    · rw [foldlM_cons_error (show (Item.assign k value).run s = .error e from hrun)]
      rfl
    · rw [foldlM_cons_ok (show (Item.assign k value).run s = .ok s' from hrun)]
      exact ih s'
  | case5 value rest s hnone =>
    rw [items, hnone, if_pos rfl]
    exact (foldlM_cons_error rfl).symm
  | case6 arg value rest s hnone hhelp ih =>
    rw [items, hnone, if_neg hhelp, ih]
    exact (foldlM_cons_ok rfl).symm

/-! ### What the command line sets -/

/-- The values that the items give to the settings. -/
def assigned (is : List Item) : List (Setting × Int32) :=
  is.filterMap fun
    | .assign k value => (stoi value).toOption.map fun z => (k, Int32.ofInt z)
    | _ => none

/-- The items change the settings from `s₀` to `s`: no help is asked for, every value is a
number, and of the values for a setting the last one counts. -/
structure Settles (is : List Item) (s₀ s : Settings) : Prop where
  no_help : .help ∉ is
  numbers : ∀ k value, .assign k value ∈ is → ∃ z, stoi value = .ok z
  get_eq : ∀ k, s.get k = (latest k (assigned is)).getD (s₀.get k)

@[ext]
theorem Settings.ext_get {s s' : Settings} (h : ∀ k, s.get k = s'.get k) : s = s' := by
  have hwidth : s.hostScreenWidth = s'.hostScreenWidth := h .width
  have hheight : s.hostScreenHeight = s'.hostScreenHeight := h .height
  have hedge : s.edgeThreshold = s'.edgeThreshold := h .edge
  cases s
  cases s'
  congr

theorem Settings.get_set (s : Settings) (k k' : Setting) (value : Int32) :
    (s.set k value).get k' = if k = k' then value else s.get k' := by
  cases k <;> cases k' <;> rfl

theorem assigned_append (is js : List Item) : assigned (is ++ js) = assigned is ++ assigned js :=
  List.filterMap_append

theorem assign_eq_ok_iff {k : Setting} {value : String} {s s' : Settings} :
    assign k value s = .ok s' ↔ ∃ z, stoi value = .ok z ∧ s' = s.set k (Int32.ofInt z) := by
  unfold assign
  rcases stoi value with e | z
  · exact iff_of_false nofun fun ⟨_, h, _⟩ => by cases h
  · constructor
    · intro h
      exact ⟨z, rfl, (Except.ok.inj h).symm⟩
    · rintro ⟨z', hz, rfl⟩
      obtain rfl := Except.ok.inj hz
      rfl

theorem assign_eq_error_iff {k : Setting} {value : String} {s : Settings} {exit : OptionExit} :
    assign k value s = .error exit ↔ ∃ e, stoi value = .error e ∧ exit = .uncaught e := by
  unfold assign
  rcases stoi value with e | z
  · constructor
    · intro h
      exact ⟨e, rfl, (Except.error.inj h).symm⟩
    · rintro ⟨e', he, rfl⟩
      obtain rfl := Except.error.inj he
      rfl
  · exact iff_of_false nofun fun ⟨_, h, _⟩ => by cases h

/-- Without help and bad values the loop comes to its end. -/
private theorem exists_foldlM {is : List Item} (hhelp : .help ∉ is)
    (hnumbers : ∀ k value, .assign k value ∈ is → ∃ z, stoi value = .ok z) (s₀ : Settings) :
    ∃ s, is.foldlM Item.run s₀ = .ok s := by
  induction is generalizing s₀ with
  | nil => exact ⟨s₀, rfl⟩
  | cons i is ih =>
    have hfirst : ∃ s, i.run s₀ = .ok s := by
      cases i with
      | assign k value =>
        obtain ⟨z, hz⟩ := hnumbers k value List.mem_cons_self
        exact ⟨_, assign_eq_ok_iff.mpr ⟨z, hz, rfl⟩⟩
      | help => exact absurd List.mem_cons_self hhelp
      | ignored word => exact ⟨s₀, rfl⟩
    obtain ⟨s, hs⟩ := hfirst
    rw [foldlM_cons_ok hs]
    exact ih (fun h => hhelp (List.mem_cons_of_mem _ h))
      (fun k value h => hnumbers k value (List.mem_cons_of_mem _ h)) s

/-- One more item. -/
private theorem Settles.concat {is : List Item} {i : Item} {s₀ s s' : Settings}
    (h : Settles is s₀ s) (hrun : i.run s = .ok s') : Settles (is ++ [i]) s₀ s' := by
  cases i with
  | assign k value =>
    obtain ⟨z, hz, rfl⟩ := assign_eq_ok_iff.mp hrun
    refine ⟨fun hmem => ?_, fun k' value' hmem => ?_, fun k' => ?_⟩
    · rcases List.mem_append.mp hmem with hmem | hmem
      · exact h.no_help hmem
      · cases List.mem_singleton.mp hmem
    · rcases List.mem_append.mp hmem with hmem | hmem
      · exact h.numbers k' value' hmem
      · cases List.mem_singleton.mp hmem
        exact ⟨z, hz⟩
    · -- the new value is the latest one for its setting
      have hlast : assigned [.assign k value] = [(k, Int32.ofInt z)] := by
        simp [assigned, hz, Except.toOption]
      rw [assigned_append, hlast, latest_append, latest_singleton, Settings.get_set, h.get_eq]
      split_ifs
      · rfl
      · rw [Option.none_or]
  | help => cases hrun
  | ignored word =>
    obtain rfl := Except.ok.inj hrun
    refine ⟨fun hmem => ?_, fun k value hmem => ?_, fun k => ?_⟩
    · rcases List.mem_append.mp hmem with hmem | hmem
      · exact h.no_help hmem
      · cases List.mem_singleton.mp hmem
    · rcases List.mem_append.mp hmem with hmem | hmem
      · exact h.numbers k value hmem
      · cases List.mem_singleton.mp hmem
    · have hnone : assigned [.ignored word] = [] := rfl
      rw [assigned_append, hnone, List.append_nil, h.get_eq]

/-- The loop comes to its end exactly if the items settle the settings. -/
theorem foldlM_eq_ok_iff {is : List Item} {s₀ s : Settings} :
    is.foldlM Item.run s₀ = .ok s ↔ Settles is s₀ s := by
  have hsettles : ∀ {s}, is.foldlM Item.run s₀ = .ok s → Settles is s₀ s := by
    induction is using List.reverseRecOn with
    | nil =>
      intro s h
      obtain rfl := Except.ok.inj h
      exact ⟨List.not_mem_nil, nofun, fun _ => rfl⟩
    | append_singleton is i ih =>
      intro s h
      rw [List.foldlM_append] at h
      obtain ⟨t, hbefore, hlast⟩ := bind_eq_ok h
      obtain ⟨t', hrun, hpure⟩ := bind_eq_ok hlast
      obtain rfl := Except.ok.inj hpure
      exact (ih hbefore).concat hrun
  refine ⟨hsettles, fun h => ?_⟩
  obtain ⟨s', hs'⟩ := exists_foldlM h.no_help h.numbers s₀
  rw [hs', Settings.ext_get fun k => ((hsettles hs').get_eq k).trans (h.get_eq k).symm]

/-- **What a command line means.** However its words come, it is read in exactly one way, and:
the loop comes to its end if no help is asked for and every value is a number, with the last
value for each setting; it shows the usage at the first help, with the settings from before it;
and it ends in an exception at the first bad value, if it comes before any help. -/
theorem parseOptions_reads (args : List String) (s₀ : Settings) :
    ∃ is, (∀ js, Reads args js ↔ js = is) ∧
      (∀ s, parseOptions args s₀ = .ok s ↔ Settles is s₀ s) ∧
      (∀ s, parseOptions args s₀ = .error (.help s) ↔
        ∃ before after, is = before ++ .help :: after ∧ Settles before s₀ s) ∧
      ∀ e, parseOptions args s₀ = .error (.uncaught e) ↔
        ∃ before k value after, is = before ++ .assign k value :: after ∧
          (∃ s, Settles before s₀ s) ∧ stoi value = .error e := by
  have hparse := parseOptions_eq_foldlM (reads_iff.mpr rfl : Reads args (items args)) s₀
  refine ⟨items args, fun js => reads_iff, fun s => ?_, fun s => ?_, fun e => ?_⟩
  · rw [hparse, foldlM_eq_ok_iff]
  · rw [hparse, foldlM_eq_error_iff]
    constructor
    · rintro ⟨before, i, after, t, hitems, hbefore, hstop⟩
      cases i with
      | assign k value =>
        obtain ⟨e, -, he⟩ := assign_eq_error_iff.mp hstop
        cases he
      | help =>
        obtain rfl := OptionExit.help.inj (Except.error.inj hstop)
        exact ⟨before, after, hitems, foldlM_eq_ok_iff.mp hbefore⟩
      | ignored word => cases hstop
    · rintro ⟨before, after, hitems, hsettles⟩
      exact ⟨before, .help, after, s, hitems, foldlM_eq_ok_iff.mpr hsettles, rfl⟩
  · rw [hparse, foldlM_eq_error_iff]
    constructor
    · rintro ⟨before, i, after, t, hitems, hbefore, hstop⟩
      cases i with
      | assign k value =>
        obtain ⟨e', hvalue, he⟩ := assign_eq_error_iff.mp hstop
        obtain rfl := OptionExit.uncaught.inj he
        exact ⟨before, k, value, after, hitems, ⟨t, foldlM_eq_ok_iff.mp hbefore⟩, hvalue⟩
      | help => cases hstop
      | ignored word => cases hstop
    · rintro ⟨before, k, value, after, hitems, ⟨s, hsettles⟩, hvalue⟩
      exact ⟨before, .assign k value, after, s, hitems, foldlM_eq_ok_iff.mpr hsettles,
        assign_eq_error_iff.mpr ⟨e, hvalue, rfl⟩⟩

/-! ### Written command lines -/

/-- The words that set the settings to the values, in this order. -/
def render (l : List (Setting × Int32)) : List String :=
  l.flatMap fun e => [e.1.option, toString e.2.toInt]

private theorem stoi_int32 (v : Int32) : stoi (toString v.toInt) = .ok v.toInt := by
  have hin : InInt v.toInt := ⟨v.le_toInt, v.toInt_lt⟩
  obtain ⟨sign, digits, hnumber, hvalue⟩ := exists_isNumber_toString v.toInt
  exact stoi_eq_ok_iff.mpr ⟨hin, sign, digits, hnumber, hvalue.symm⟩

private theorem reads_render (l : List (Setting × Int32)) :
    Reads (render l) (l.map fun e => .assign e.1 (toString e.2.toInt)) := by
  induction l with
  | nil => exact .nil
  | cons e l ih => exact .assign ih

private theorem assigned_render (l : List (Setting × Int32)) :
    assigned (l.map fun e => .assign e.1 (toString e.2.toInt)) = l := by
  rw [assigned, List.filterMap_map]
  refine (List.filterMap_congr fun e _ => ?_).trans List.filterMap_some
  change (stoi (toString e.2.toInt)).toOption.map (fun z => (e.1, Int32.ofInt z)) = some e
  rw [stoi_int32]
  exact congrArg (fun v => some (e.1, v)) (Int32.ofInt_toInt e.2)

/-- **Round trip.** Settings written as options are read back, in any order and however often a
setting is given: the last value counts, and what is not given stays. -/
theorem parseOptions_render (l : List (Setting × Int32)) (s₀ s : Settings) :
    parseOptions (render l) s₀ = .ok s ↔ ∀ k, s.get k = (latest k l).getD (s₀.get k) := by
  rw [parseOptions_eq_foldlM (reads_render l), foldlM_eq_ok_iff]
  constructor
  · intro h k
    rw [h.get_eq, assigned_render]
  · intro h
    refine ⟨fun hmem => ?_, fun k value hmem => ?_, fun k => ?_⟩
    · obtain ⟨e, -, he⟩ := List.mem_map.mp hmem
      cases he
    · obtain ⟨e, -, he⟩ := List.mem_map.mp hmem
      cases he
      exact ⟨_, stoi_int32 e.2⟩
    · rw [h, assigned_render]

end Sameness
