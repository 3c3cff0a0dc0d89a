import Mathlib.Data.List.Basic

/-!
# Programs that read a buffer by index

`Reader β α` is a program computing an `α` from the cells of a buffer of `β`s, which it may
only inspect one index at a time; which index comes next may depend on the cells read so
far. `Reader.run` is what the program computes on a buffer; there is no value for a cell outside
the buffer, and a program that asks for one stops with the index.

`slice` and `fold` are the two loops decoders are made of.
-/

/-- A program that inspects the cells of a buffer one index at a time. -/
inductive Reader (β α : Type) where
  | done (a : α)
  | read (i : ℕ) (k : β → Reader β α)

/-- A read of index `index` from a buffer of `length` cells that is too short for it. -/
structure OutOfBounds where
  index : ℕ
  length : ℕ
  deriving DecidableEq, Repr

namespace Reader

variable {β α γ : Type}

/-- Sequencing of readers: continue with `f` where the first program is done. -/
protected def bind : Reader β α → (α → Reader β γ) → Reader β γ
  | done a, f => f a
  | read i k, f => read i fun b => (k b).bind f

instance : Monad (Reader β) where
  pure := done
  bind := Reader.bind

/-- Read one cell. -/
def get (i : ℕ) : Reader β β := read i done

/-- Run a program on a buffer; a read outside the buffer is an error. -/
def run (buf : List β) : Reader β α → Except OutOfBounds α
  | done a => .ok a
  | read i k => if h : i < buf.length then (k buf[i]).run buf else .error ⟨i, buf.length⟩

/-! ### Run equations -/

@[simp]
theorem run_pure (buf : List β) (a : α) : (pure a : Reader β α).run buf = .ok a := rfl

theorem run_bind (buf : List β) (r : Reader β α) (f : α → Reader β γ) :
    (r >>= f).run buf = (r.run buf).bind fun a => (f a).run buf := by
  induction r with
  | done a => rfl
  | read i k ih =>
    change (if h : i < buf.length then ((k buf[i]).bind f).run buf else _) = _
    by_cases h : i < buf.length
    · simp only [run, h, dite_true]
      exact ih _
    · simp [run, h, Except.bind]

theorem run_bind_ok {buf : List β} {r : Reader β α} {a : α} (h : r.run buf = .ok a)
    (f : α → Reader β γ) : (r >>= f).run buf = (f a).run buf := by
  rw [run_bind, h]
  rfl

theorem run_bind_error {buf : List β} {r : Reader β α} {e : OutOfBounds}
    (h : r.run buf = .error e) (f : α → Reader β γ) : (r >>= f).run buf = .error e := by
  rw [run_bind, h]
  rfl

theorem run_get {buf : List β} {i : ℕ} (h : i < buf.length) :
    (get i).run buf = .ok buf[i] := by
  simp [get, run, h]

/-! ### Loops -/

/-- Fold `f` over the `n` cells from index `off` on, the way a loop with an accumulator
does. -/
def fold (f : α → β → α) (off : ℕ) : ℕ → α → Reader β α
  | 0, a => done a
  | n + 1, a => read off fun b => fold f (off + 1) n (f a b)

/-- The `n` cells from index `off` on. -/
def slice (off : ℕ) : ℕ → Reader β (List β)
  | 0 => done []
  | n + 1 => do
    let b ← get off
    let l ← slice (off + 1) n
    pure (b :: l)

private theorem drop_eq_cons {buf : List β} {off : ℕ} (h : off < buf.length) (n : ℕ) :
    (buf.drop off).take (n + 1) = buf[off] :: (buf.drop (off + 1)).take n := by
  rw [List.drop_eq_getElem_cons h, List.take_succ_cons]

theorem run_fold {f : α → β → α} {buf : List β} {off n : ℕ} (h : off + n ≤ buf.length) (a : α) :
    (fold f off n a).run buf = .ok (((buf.drop off).take n).foldl f a) := by
  induction n generalizing off a with
  | zero => simp [fold, run]
  | succ n ih =>
    have hoff : off < buf.length := by omega
    rw [fold, run, dif_pos hoff, ih (by omega), drop_eq_cons hoff, List.foldl_cons]

theorem run_slice {buf : List β} {off n : ℕ} (h : off + n ≤ buf.length) :
    (slice off n).run buf = .ok ((buf.drop off).take n) := by
  induction n generalizing off with
  | zero => simp [slice, run]
  | succ n ih =>
    have hoff : off < buf.length := by omega
    rw [slice, run_bind_ok (run_get hoff), run_bind_ok (ih (by omega)), run_pure,
      drop_eq_cons hoff]

/-- A slice that starts in the buffer but ends beyond it reads the first cell beyond. -/
theorem run_slice_error {buf : List β} {off n : ℕ} (hoff : off ≤ buf.length)
    (h : buf.length < off + n) :
    (slice off n).run buf = .error ⟨buf.length, buf.length⟩ := by
  induction n generalizing off with
  | zero => omega
  | succ n ih =>
    rw [slice]
    rcases Nat.lt_or_eq_of_le hoff with hlt | rfl
    · rw [run_bind_ok (run_get hlt), run_bind_error (ih hlt (by omega))]
    · exact run_bind_error (by simp [get, run]) _

end Reader
