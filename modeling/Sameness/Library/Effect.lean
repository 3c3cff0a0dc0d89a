import Mathlib.Data.List.Basic

/-!
# Computations that keep their state when they stop

`Eff σ ε` is the monad of computations over a state `σ` that may stop with a reason `ε`;
the state reached is kept when they stop, as the objects of an imperative program survive an
exception that leaves the function. `exec m s` runs `m` from `s` and is the only observation
the library offers: every lemma below computes it for one way of building a computation, so
that proofs about programs rewrite with `exec` and never unfold the monad.

`Eff.zoom` runs a computation on a part of the state, `Eff.inOrder` makes calls that may fail
one after the other, and `Eff.loop` is the loop that takes one input a round, with one rule for
each way in which a round can end. `exec_loop_rule` is the rule for a whole loop: an invariant
of the rounds that go on, and a postcondition for each way out.
-/

/-- Computations over `σ` that may stop with `ε`, keeping the state they reached. -/
abbrev Eff (σ ε : Type) := ExceptT ε (StateM σ)

namespace Eff

variable {σ τ ε α β ι : Type}

/-- The outcome of `m` from `s` and the state it leaves behind. -/
def exec (m : Eff σ ε α) (s : σ) : Except ε α × σ := Id.run (StateT.run (ExceptT.run m) s)

@[simp]
theorem exec_pure (a : α) (s : σ) : exec (pure a : Eff σ ε α) s = (.ok a, s) := rfl

@[simp]
theorem exec_get (s : σ) : exec (get : Eff σ ε σ) s = (.ok s, s) := rfl

@[simp]
theorem exec_modify (f : σ → σ) (s : σ) : exec (modify f : Eff σ ε Unit) s = (.ok (), f s) := rfl

theorem exec_bind (m : Eff σ ε α) (f : α → Eff σ ε β) (s : σ) :
    exec (m >>= f) s =
      match exec m s with
      | (.ok a, s') => exec (f a) s'
      | (.error e, s') => (.error e, s') := by
  rcases h : exec m s with ⟨_ | a, s'⟩ <;>
    simp_all [exec, ExceptT.run_bind, StateT.run_bind]

theorem exec_bind_ok {m : Eff σ ε α} {f : α → Eff σ ε β} {s s' : σ} {a : α}
    (h : exec m s = (.ok a, s')) : exec (m >>= f) s = exec (f a) s' := by
  rw [exec_bind, h]

theorem exec_bind_error {m : Eff σ ε α} {f : α → Eff σ ε β} {s s' : σ} {e : ε}
    (h : exec m s = (.error e, s')) : exec (m >>= f) s = (.error e, s') := by
  rw [exec_bind, h]

/-- A sequence returns only if both parts return, the second from where the first ended. -/
theorem exec_bind_eq_ok {m : Eff σ ε α} {f : α → Eff σ ε β} {s s' : σ} {b : β}
    (h : exec (m >>= f) s = (.ok b, s')) :
    ∃ a s₁, exec m s = (.ok a, s₁) ∧ exec (f a) s₁ = (.ok b, s') := by
  rw [exec_bind] at h
  rcases hm : exec m s with ⟨e | a, s₁⟩
  · rw [hm] at h
    cases h
  · rw [hm] at h
    exact ⟨a, s₁, rfl, h⟩

/-- A sequence stops in one of its parts, the second run from where the first ended. -/
theorem exec_bind_eq_error {m : Eff σ ε α} {f : α → Eff σ ε β} {s s' : σ} {e : ε}
    (h : exec (m >>= f) s = (.error e, s')) :
    exec m s = (.error e, s') ∨
      ∃ a s₁, exec m s = (.ok a, s₁) ∧ exec (f a) s₁ = (.error e, s') := by
  rw [exec_bind] at h
  rcases hm : exec m s with ⟨e' | a, s₁⟩
  · rw [hm] at h
    obtain ⟨herror, rfl⟩ := Prod.mk.inj h
    obtain rfl := Except.error.inj herror
    exact .inl rfl
  · rw [hm] at h
    exact .inr ⟨a, s₁, rfl, h⟩

@[simp]
theorem exec_ite (p : Prop) [Decidable p] (m m' : Eff σ ε α) (s : σ) :
    exec (if p then m else m') s = if p then exec m s else exec m' s := by
  split <;> rfl

/-- A pure fallible value as a computation leaves the state alone. -/
@[simp]
theorem exec_ofExcept (x : Except ε α) (s : σ) : exec (ofExcept x : Eff σ ε α) s = (x, s) := by
  cases x <;> rfl

/-- A check that stops has not stopped if the computation returns. -/
theorem exec_of_ite_error {p : Prop} [Decidable p] {e : ε} {m : Eff σ ε α} {s s' : σ} {a : α}
    (h : exec (if p then ofExcept (.error e) else m) s = (.ok a, s')) :
    ¬p ∧ exec m s = (.ok a, s') := by
  rw [exec_ite, exec_ofExcept] at h
  split_ifs at h with hp
  · exact absurd (Prod.mk.inj h).1 nofun
  · exact ⟨hp, h⟩

/-- Run a computation on the part of the state that `view` reads and `put` writes back. -/
def zoom (view : σ → τ) (put : τ → σ → σ) (m : Eff τ ε α) : Eff σ ε α :=
  ExceptT.mk fun s => ((exec m (view s)).1, put (exec m (view s)).2 s)

@[simp]
theorem exec_zoom (view : σ → τ) (put : τ → σ → σ) (m : Eff τ ε α) (s : σ) :
    exec (zoom view put m) s = ((exec m (view s)).1, put (exec m (view s)).2 s) := rfl

/-- A computation on a part returns exactly if it does alone. -/
theorem exec_zoom_eq_ok {view : σ → τ} {put : τ → σ → σ} {m : Eff τ ε α} {s s' : σ} {a : α}
    (h : exec (zoom view put m) s = (.ok a, s')) :
    ∃ t, exec m (view s) = (.ok a, t) ∧ s' = put t s := by
  obtain ⟨hm, rfl⟩ := Prod.mk.inj h
  exact ⟨(exec m (view s)).2, Prod.ext hm rfl, rfl⟩

/-! ### Calls that may fail -/

/-- The calls one after the other, and then `m`. -/
def inOrder (call : ι → Eff σ ε Unit) (is : List ι) (m : Eff σ ε α) : Eff σ ε α :=
  is.foldr (fun i m => call i >>= fun _ => m) m

/-- **Calls in order.** If each call is recorded in the state and may fail for a known reason,
either none of them fails and `m` is reached, or the first that fails is the last that is
recorded. -/
theorem exec_inOrder {call : ι → Eff σ ε Unit} {answer : ι → Option ε} (record : List ι → σ → σ)
    (hnil : ∀ s, record [] s = s) (hcons : ∀ i is s, record is (record [i] s) = record (i :: is) s)
    (hcall : ∀ i s, exec (call i) s = ((answer i).elim (.ok ()) .error, record [i] s))
    (is : List ι) (m : Eff σ ε α) (s : σ) :
    ((∀ i ∈ is, answer i = none) ∧
        exec (inOrder call is m) s = exec m (record is s)) ∨
      ∃ before i after e, is = before ++ i :: after ∧ answer i = some e ∧
        exec (inOrder call is m) s = (.error e, record (before ++ [i]) s) := by
  induction is generalizing s with
  | nil => exact .inl ⟨List.forall_mem_nil _, by rw [hnil]; rfl⟩
  | cons i is ih =>
    have hfirst := hcall i s
    rcases hi : answer i with _ | e
    · rw [hi] at hfirst
      have hrest : exec (inOrder call (i :: is) m) s = exec (inOrder call is m) (record [i] s) :=
        exec_bind_ok hfirst
      rw [hrest]
      rcases ih (record [i] s) with ⟨hall, hexec⟩ | ⟨before, j, after, e, rfl, hj, hexec⟩
      · exact .inl ⟨List.forall_mem_cons.mpr ⟨hi, hall⟩, by rw [hexec, hcons]⟩
      · exact .inr ⟨i :: before, j, after, e, rfl, hj, by rw [hexec, hcons]; rfl⟩
    · rw [hi] at hfirst
      exact .inr ⟨[], i, is, e, rfl, hi, exec_bind_error hfirst⟩

/-! ### Loops -/

/-- The loop `while (true)` whose rounds each take one input: `body i` continues with `none`
and breaks with `some r`. The loop returns `none` when it still runs after the last input. -/
def loop (body : ι → Eff σ ε (Option β)) : List ι → Eff σ ε (Option β)
  | [] => pure none
  | i :: is => do
    match ← body i with
    | none => loop body is
    | some r => pure (some r)

theorem exec_loop_cons (body : ι → Eff σ ε (Option β)) (i : ι) (is : List ι) (s : σ) :
    exec (loop body (i :: is)) s =
      match exec (body i) s with
      | (.ok none, s') => exec (loop body is) s'
      | (.ok (some r), s') => (.ok (some r), s')
      | (.error e, s') => (.error e, s') := by
  rw [loop, exec_bind]
  rcases exec (body i) s with ⟨_ | _ | r, s'⟩ <;> rfl

/-- A round that continues hands its state to the rest of the loop. -/
theorem exec_loop_continue {body : ι → Eff σ ε (Option β)} {i : ι} {s s' : σ}
    (h : exec (body i) s = (.ok none, s')) (is : List ι) :
    exec (loop body (i :: is)) s = exec (loop body is) s' := by
  rw [exec_loop_cons, h]

/-- A round that stops, stops the loop. -/
theorem exec_loop_error {body : ι → Eff σ ε (Option β)} {i : ι} {s s' : σ} {e : ε}
    (h : exec (body i) s = (.error e, s')) (is : List ι) :
    exec (loop body (i :: is)) s = (.error e, s') := by
  rw [exec_loop_cons, h]

/-- A round that breaks, ends the loop. -/
theorem exec_loop_break {body : ι → Eff σ ε (Option β)} {i : ι} {s s' : σ} {b : β}
    (h : exec (body i) s = (.ok (some b), s')) (is : List ι) :
    exec (loop body (i :: is)) s = (.ok (some b), s') := by
  rw [exec_loop_cons, h]

/-- More inputs are for a loop that still runs. -/
theorem exec_loop_append (body : ι → Eff σ ε (Option β)) (is js : List ι) (s : σ) :
    exec (loop body (is ++ js)) s =
      match exec (loop body is) s with
      | (.ok none, s') => exec (loop body js) s'
      | (.ok (some b), s') => (.ok (some b), s')
      | (.error e, s') => (.error e, s') := by
  induction is generalizing s with
  | nil => rfl
  | cons i is ih =>
    rw [List.cons_append]
    rcases hround : exec (body i) s with ⟨e | _ | b, s'⟩
    · rw [exec_loop_error hround, exec_loop_error hround]
    · rw [exec_loop_continue hround, exec_loop_continue hround, ih]
    · rw [exec_loop_break hround, exec_loop_break hround]

/-- **The rule for loops.** `I` is kept by the rounds that go on, and `J` follows from it at each
way out: at the end of the inputs, and by a round that breaks or stops. -/
theorem exec_loop_rule {body : ι → Eff σ ε (Option β)} {I : List ι → σ → Prop}
    {J : List ι → Except ε (Option β) → σ → Prop}
    (hgo : ∀ before i s s', I before s → exec (body i) s = (.ok none, s') → I (before ++ [i]) s')
    (hend : ∀ before s, I before s → J before (.ok none) s)
    (hbreak : ∀ before i s s' b, I before s → exec (body i) s = (.ok (some b), s') →
      J (before ++ [i]) (.ok (some b)) s')
    (hstop : ∀ before i s s' e, I before s → exec (body i) s = (.error e, s') →
      J (before ++ [i]) (.error e) s')
    (is : List ι) {before : List ι} {s : σ} (hI : I before s) :
    ∃ seen, seen <+: is ∧ ((exec (loop body is) s).1 = .ok none → seen = is) ∧
      J (before ++ seen) (exec (loop body is) s).1 (exec (loop body is) s).2 := by
  induction is generalizing before s with
  | nil => exact ⟨[], List.prefix_refl _, fun _ => rfl, by
      rw [List.append_nil]
      exact hend before s hI⟩
  | cons i is ih =>
    have hfirst : [i] <+: i :: is := ⟨is, rfl⟩
    rcases hround : exec (body i) s with ⟨e | _ | b, s'⟩
    · rw [exec_loop_error hround]
      exact ⟨[i], hfirst, nofun, hstop before i s s' e hI hround⟩
    · rw [exec_loop_continue hround]
      obtain ⟨seen, hseen, hall, hJ⟩ := ih (hgo before i s s' hI hround)
      refine ⟨i :: seen, List.cons_prefix_cons.mpr ⟨rfl, hseen⟩, fun hnone => ?_, ?_⟩
      · rw [hall hnone]
      · rwa [List.append_assoc, List.singleton_append] at hJ
    · rw [exec_loop_break hround]
      exact ⟨[i], hfirst, nofun, hbreak before i s s' b hI hround⟩

end Eff
