import Mathlib.Data.List.Basic
import Mathlib.Data.List.Induction
import Mathlib.Data.Set.Insert
import Mathlib.Tactic.SplitIfs
import Mathlib.Tactic.TypeStar

/-!
# Runs of a state machine

A machine answers each input with a result and a new state, and goes on whatever the result.
`final` is the state after a sequence of inputs and `results` collects the answers.

`final_induction` is the invariant rule: the invariant may speak of the history, and a step may
assume that its own result was good; `final_of_allowed` is the rule for runs whose steps are all
allowed in the states they are taken in. `Unwinding` collects what makes two runs look the same
to an observer who sees only some of the inputs, where what is seen may depend on the state;
`Unwinding.noninterference` is the induction over two runs of different lengths.

`latest` is the last entry for a key in a log, for invariants about histories. A keyboard is
the state machine of a log of presses and releases: `held` runs it, and `mem_held_iff` reads its
state off the last entries.
-/

namespace Runs

universe u v w

variable {σ : Type u} {ι : Type v} {ρ : Type w} (step : ι → σ → ρ × σ)

/-- The state after the inputs. -/
def final : List ι → σ → σ
  | [], s => s
  | i :: is, s => final is (step i s).2

/-- The results of the inputs. -/
def results : List ι → σ → List ρ
  | [], _ => []
  | i :: is, s => (step i s).1 :: results is (step i s).2

theorem final_append (is js : List ι) (s : σ) :
    final step (is ++ js) s = final step js (final step is s) := by
  induction is generalizing s with
  | nil => rfl
  | cons i is ih => exact ih _

theorem final_concat (is : List ι) (i : ι) (s : σ) :
    final step (is ++ [i]) s = (step i (final step is s)).2 := final_append step is [i] s

theorem results_append (is js : List ι) (s : σ) :
    results step (is ++ js) s = results step is s ++ results step js (final step is s) := by
  induction is generalizing s with
  | nil => rfl
  | cons i is ih => exact congrArg ((step i s).1 :: ·) (ih _)

variable {step}

/-- What a machine answers does not matter for where it goes. -/
theorem final_congr {ρ' : Type*} {step' : ι → σ → ρ' × σ} (h : ∀ i s, (step i s).2 = (step' i s).2)
    (is : List ι) (s : σ) : final step is s = final step' is s := by
  induction is generalizing s with
  | nil => rfl
  | cons i is ih => rw [final, final, h, ih]

/-- In a run with good results, so is that of each step. -/
theorem result_of_split {good : ρ → Prop} {s : σ} {before after : List ι} {i : ι}
    (h : ∀ r ∈ results step (before ++ i :: after) s, good r) :
    (∀ r ∈ results step before s, good r) ∧ good (step i (final step before s)).1 := by
  rw [results_append] at h
  exact ⟨fun r hr => h r (List.mem_append_left _ hr),
    h _ (List.mem_append_right _ List.mem_cons_self)⟩

/-- **Invariants over histories.** What holds at the start, and is kept by every step whose
result is good, holds after every run whose results are good. -/
theorem final_induction {good : ρ → Prop} {I : List ι → σ → Prop} {s : σ} (hnil : I [] s)
    (hstep : ∀ is i r s', step i (final step is s) = (r, s') → good r →
      I is (final step is s) → I (is ++ [i]) s')
    {is : List ι} (hgood : ∀ r ∈ results step is s, good r) : I is (final step is s) := by
  induction is using List.reverseRecOn with
  | nil => exact hnil
  | append_singleton is i ih =>
    obtain ⟨hbefore, hlast⟩ := result_of_split hgood
    rw [final_concat]
    exact hstep is i _ _ rfl hlast (ih hbefore)

/-- **Invariants of guarded runs.** What holds at the start, and is kept by every step that is
allowed where it is taken, holds after every run of allowed steps. -/
theorem final_of_allowed {allowed : ι → σ → Prop} {I : σ → Prop} {s : σ} (hstart : I s)
    (hstep : ∀ i t, allowed i t → I t → I (step i t).2) {is : List ι}
    (hrun : ∀ before i, before ++ [i] <+: is → allowed i (final step before s)) :
    I (final step is s) := by
  induction is using List.reverseRecOn with
  | nil => exact hstart
  | append_singleton is i ih =>
    rw [final_concat]
    have hbefore : I (final step is s) :=
      ih fun before j hpre => hrun before j (hpre.trans (List.prefix_append _ _))
    exact hstep i _ (hrun is i (List.prefix_refl _)) hbefore

/-! ### Changes -/

section Changes

variable {β : Type*} [DecidableEq β]

/-- The number of steps that change what `f` shows of the state. -/
def changes (step : ι → σ → ρ × σ) (f : σ → β) : List ι → σ → ℕ
  | [], _ => 0
  | i :: is, s => (if f (step i s).2 = f s then 0 else 1) + changes step f is (step i s).2

/-- **Simulated runs change alike.** A machine that follows another step by step, as long as the
results are good, shows as many changes. -/
theorem changes_of_simulates {τ ι' ρ' : Type*} {step' : ι' → τ → ρ' × τ} {g : ι → ι'}
    {f : σ → β} {f' : τ → β} {good : ρ → Prop} {R : σ → τ → Prop}
    (hshow : ∀ {s t}, R s t → f s = f' t)
    (hstep : ∀ {s t i}, R s t → good (step i s).1 → R (step i s).2 (step' (g i) t).2)
    {is : List ι} {s : σ} {t : τ} (hR : R s t) (hgood : ∀ r ∈ results step is s, good r) :
    changes step f is s = changes step' f' (is.map g) t := by
  induction is generalizing s t with
  | nil => rfl
  | cons i is ih =>
    have hfirst : good (step i s).1 := hgood _ List.mem_cons_self
    have hnext := hstep hR hfirst
    rw [changes, List.map_cons, changes, hshow hR, hshow hnext,
      ih hnext fun r hr => hgood r (List.mem_cons_of_mem _ hr)]

/-- An injective view of what is shown shows the same changes. -/
theorem changes_comp {γ : Type*} [DecidableEq γ] (step : ι → σ → ρ × σ) (f : σ → β) {g : β → γ}
    (hg : Function.Injective g) (is : List ι) (s : σ) :
    changes step (fun s => g (f s)) is s = changes step f is s := by
  induction is generalizing s with
  | nil => rfl
  | cons i is ih => simp only [changes, hg.eq_iff, ih]

end Changes

/-! ### Two runs -/

section Observer

variable (step) (vis : ι → σ → Bool)

/-- The visible inputs of a run, each with the state it is met in. -/
def visits : List ι → σ → List (ι × σ)
  | [], _ => []
  | i :: is, s =>
    if vis i s then (i, s) :: visits is (step i s).2 else visits is (step i s).2

variable {κ ω : Type*}

/-- Unwinding conditions for an observer who learns `low` of each visible input and `obs` of
each answer to one: a symmetric relation of states that look the same, kept by an invisible
input on one side and by visible inputs that look the same on both. -/
structure Unwinding (low : ι → κ) (obs : ρ × σ → ω) (R : σ → σ → Prop) : Prop where
  symm : ∀ {s t}, R s t → R t s
  silent : ∀ {s t i}, R s t → vis i s = false → R (step i s).2 t
  visible : ∀ {s t i j}, R s t → vis i s = true → vis j t = true → low i = low j →
    obs (step i s) = obs (step j t) ∧ R (step i s).2 (step j t).2

namespace Unwinding

variable {step vis} {low : ι → κ} {obs : ρ × σ → ω} {R : σ → σ → Prop}

private theorem silent_right (U : Unwinding step vis low obs R) {s t : σ} {j : ι} (hR : R s t)
    (hj : vis j t = false) : R s (step j t).2 :=
  U.symm (U.silent (U.symm hR) hj)

/-- A run without visible inputs is invisible. -/
private theorem final_of_visits_nil (U : Unwinding step vis low obs R) {s t : σ} {js : List ι}
    (hR : R s t) (hjs : visits step vis js t = []) : R s (final step js t) := by
  induction js generalizing t with
  | nil => exact hR
  | cons j js ih =>
    rw [visits] at hjs
    split at hjs
    · cases hjs
    · exact ih (U.silent_right hR (Bool.eq_false_iff.mpr ‹_›)) hjs

/-- Up to the first visible input nothing is seen. -/
private theorem first_visit (U : Unwinding step vis low obs R) {s t t' : σ} {js : List ι} {j : ι}
    {rest : List (ι × σ)} (hR : R s t) (hjs : visits step vis js t = (j, t') :: rest) :
    R s t' ∧ vis j t' = true ∧ ∃ js', visits step vis js' (step j t').2 = rest ∧
      final step js t = final step js' (step j t').2 := by
  induction js generalizing t with
  | nil => cases hjs
  | cons j' js ih =>
    rw [visits] at hjs
    split at hjs
    · obtain ⟨hhead, hrest⟩ := List.cons.inj hjs
      obtain ⟨rfl, rfl⟩ := Prod.mk.inj hhead
      exact ⟨hR, ‹_›, js, hrest, rfl⟩
    · exact ih (U.silent_right hR (Bool.eq_false_iff.mpr ‹_›)) hjs

/-- **Noninterference.** Two runs from states that look the same, with visible inputs that
look the same, give the observer the same answers and end in states that look the same. -/
theorem noninterference (U : Unwinding step vis low obs R) {s t : σ} {is js : List ι}
    (hR : R s t)
    (hlow : (visits step vis is s).map (fun v => low v.1)
      = (visits step vis js t).map fun v => low v.1) :
    (visits step vis is s).map (fun v => obs (step v.1 v.2))
        = (visits step vis js t).map (fun v => obs (step v.1 v.2)) ∧
      R (final step is s) (final step js t) := by
  induction is generalizing s t js with
  | nil =>
    have hjs : visits step vis js t = [] := List.map_eq_nil_iff.mp hlow.symm
    exact ⟨by rw [hjs]; rfl, U.final_of_visits_nil hR hjs⟩
  | cons i is ih =>
    rcases hi : vis i s with _ | _
    · -- an invisible input of the first run is met by none of the second
      have hskip : visits step vis (i :: is) s = visits step vis is (step i s).2 := by
        rw [visits, hi]
        rfl
      rw [hskip] at hlow ⊢
      exact ih (U.silent hR hi) hlow
    · -- a visible one is met by the next visible input of the second
      have hhead : visits step vis (i :: is) s = (i, s) :: visits step vis is (step i s).2 := by
        rw [visits, hi]
        rfl
      rw [hhead, List.map_cons] at hlow ⊢
      obtain ⟨⟨j, t'⟩, rest, hjs, hj, hrest⟩ := List.map_eq_cons_iff.mp hlow.symm
      obtain ⟨hR', hvis, js', rfl, hfinal⟩ := U.first_visit hR hjs
      obtain ⟨hobs, hnext⟩ := U.visible hR' hi hvis hj.symm
      obtain ⟨hobs', hend⟩ := ih hnext hrest.symm
      rw [hjs, List.map_cons, hobs, hobs', hfinal]
      exact ⟨rfl, hend⟩

end Unwinding

end Observer

/-! ### Histories -/

/-- What a filter keeps of a history that goes on. -/
theorem filterMap_concat {α β : Type*} (f : α → Option β) (l : List α) (a : α) :
    (l ++ [a]).filterMap f = l.filterMap f ++ (f a).toList := by
  rw [List.filterMap_append]
  rcases h : f a with _ | b
  · rw [List.filterMap_cons_none h]
    rfl
  · rw [List.filterMap_cons_some h]
    rfl

/-- What is read off each step of a history and the steps up to it, when it goes on. -/
theorem filterMap_range_concat {α β : Type*} (f : List α → α → Option β) (l : List α) (a : α) :
    (List.range (l ++ [a]).length).filterMap
        (fun i => (l ++ [a])[i]?.bind (f ((l ++ [a]).take (i + 1)))) =
      (List.range l.length).filterMap (fun i => l[i]?.bind (f (l.take (i + 1)))) ++
        (f (l ++ [a]) a).toList := by
  have hbefore : ∀ i ∈ List.range l.length,
      (l ++ [a])[i]?.bind (f ((l ++ [a]).take (i + 1))) = l[i]?.bind (f (l.take (i + 1))) := by
    intro i hi
    have hlt := List.mem_range.mp hi
    rw [List.getElem?_append_left hlt, List.take_append_of_le_length hlt]
  have hall : (l ++ [a]).take (l.length + 1) = l ++ [a] :=
    List.take_of_length_le (by rw [List.length_append, List.length_singleton])
  rw [List.length_append, List.length_singleton, List.range_succ, filterMap_concat,
    List.filterMap_congr hbefore, List.getElem?_concat_length, Option.bind_some, hall]

/-- The steps of a history, by their number. -/
theorem forall_step_iff {α : Type*} {P : List α → α → Prop} (l : List α) :
    (∀ before a, before ++ [a] <+: l → P before a) ↔
      ∀ i, ∀ hi : i < l.length, P (l.take i) l[i] := by
  constructor
  · intro h i hi
    refine h _ _ ?_
    rw [List.take_append_getElem hi]
    exact List.take_prefix _ _
  · intro h before a hpre
    have hlt : before.length < l.length := by
      have hle := hpre.length_le
      rw [List.length_append, List.length_singleton] at hle
      omega
    obtain ⟨rest, rfl⟩ := hpre
    have hP := h before.length hlt
    simpa only [List.append_assoc, List.take_left, List.getElem_append_right (Nat.le_refl _),
      Nat.sub_self, List.singleton_append, List.getElem_cons_zero] using hP

instance decidableForallStep {α : Type*} {P : List α → α → Prop}
    [∀ before a, Decidable (P before a)] (l : List α) :
    Decidable (∀ before a, before ++ [a] <+: l → P before a) :=
  decidable_of_iff _ (forall_step_iff l).symm

section Latest

variable {κ α : Type*} [DecidableEq κ]

/-- The last entry for a key. -/
def latest (k : κ) (log : List (κ × α)) : Option α :=
  ((log.filter fun e => e.1 = k).getLast?).map Prod.snd

/-- A later entry replaces an earlier one. -/
theorem latest_append (k : κ) (log log' : List (κ × α)) :
    latest k (log ++ log') = (latest k log').or (latest k log) := by
  rw [latest, latest, latest, List.filter_append, List.getLast?_append, Option.map_or]

theorem latest_singleton (k k' : κ) (a : α) :
    latest k [(k', a)] = if k' = k then some a else none := by
  by_cases h : k' = k
  · simp [latest, h]
  · simp [latest, h]

theorem latest_singleton_self (k : κ) (a : α) : latest k [(k, a)] = some a := by
  rw [latest_singleton, if_pos rfl]

/-- The last entry of a log with one key. -/
theorem latest_map_key (k k' : κ) (log : List α) :
    latest k (log.map fun a => (k', a)) = if k' = k then log.getLast? else none := by
  induction log using List.reverseRecOn with
  | nil => simp [latest]
  | append_singleton log a ih =>
    rw [List.map_append, List.map_singleton, latest_append, latest_singleton, ih,
      List.getLast?_concat]
    split_ifs
    · rfl
    · rfl

/-- Logs that are put together from parts with the same last entries have the same last entry. -/
theorem latest_flatMap_congr {κ' β γ : Type*} [DecidableEq κ'] {k : κ} {k' : κ'}
    {f : γ → List (κ × β)} {g : γ → List (κ' × β)}
    (h : ∀ a, latest k (f a) = latest k' (g a)) (l : List γ) :
    latest k (l.flatMap f) = latest k' (l.flatMap g) := by
  induction l using List.reverseRecOn with
  | nil => rfl
  | append_singleton l a ih =>
    rw [List.flatMap_append, List.flatMap_append, List.flatMap_singleton, List.flatMap_singleton,
      latest_append, latest_append, h, ih]

/-- The last entry of a log that is put together comes from one of its parts. -/
theorem exists_of_latest_flatMap {γ : Type*} {k : κ} {v : α} {f : γ → List (κ × α)} {l : List γ}
    (h : latest k (l.flatMap f) = some v) : ∃ a ∈ l, latest k (f a) = some v := by
  induction l using List.reverseRecOn with
  | nil => cases h
  | append_singleton l a ih =>
    rw [List.flatMap_append, List.flatMap_singleton, latest_append, Option.or_eq_some_iff] at h
    rcases h with hlast | ⟨-, hbefore⟩
    · exact ⟨a, List.mem_append_right l List.mem_cons_self, hlast⟩
    · obtain ⟨b, hb, hfb⟩ := ih hbefore
      exact ⟨b, List.mem_append_left [a] hb, hfb⟩

/-- The keys that are down after a log of presses (`true`) and releases, from none. -/
def held (log : List (κ × Bool)) : Set κ :=
  log.foldl (fun down e => if e.2 then insert e.1 down else down \ {e.1}) ∅

/-- A key is down if its last entry is a press. -/
theorem mem_held_iff {k : κ} {log : List (κ × Bool)} :
    k ∈ held log ↔ latest k log = some true := by
  induction log using List.reverseRecOn with
  | nil => simp [held, latest]
  | append_singleton log e ih =>
    obtain ⟨k', down⟩ := e
    rw [held, List.foldl_append, ← held, List.foldl_cons, List.foldl_nil, latest_append,
      latest_singleton]
    by_cases hk : k' = k
    · subst hk
      cases down <;> simp
    · have hne : k ≠ k' := Ne.symm hk
      cases down <;> simp [hk, hne, ih]

end Latest

end Runs
