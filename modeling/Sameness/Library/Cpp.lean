import Sameness.Library.Effect
import Sameness.Library.Reader
import Sameness.Library.Bytes
import Mathlib.Algebra.Order.Field.Basic
import Mathlib.Algebra.Order.Field.Rat
import Mathlib.Tactic.SplitIfs

/-!
# How a C++ computation can stop

A C++ function ends by returning, by throwing, or by running into undefined behaviour, after
which nothing is promised. `Stop ε` collects the last two, for exceptions of type `ε`, and
`Eff σ (Stop ε)` is a computation that may end in any of the three ways.

Three sources of undefined behaviour are covered: reads outside a buffer (`readFrom` runs a
`Reader` and turns its error into undefined behaviour), overflow of signed arithmetic (`int z`
and `int64 z` are the exact result `z` where it is representable), and conversion of a
floating-point value that does not fit the integer type (`truncate`, on exact rationals).
`copyWord` is `memcpy` of an unsigned word out of a buffer.
-/

namespace Cpp

/-- Undefined behaviour, with what caused it. -/
inductive Undefined where
  | outOfBounds (read : OutOfBounds)
  | signedOverflow (exact : ℤ)
  | conversion
  deriving DecidableEq, Repr

/-- How a computation ends other than by returning. -/
inductive Stop (ε : Type) where
  | thrown (exception : ε)
  | undefined (cause : Undefined)
  deriving DecidableEq, Repr

variable {σ ε α β : Type}

/-- A sequence of fallible steps returns only if each returns. -/
theorem bind_eq_ok {x : Except ε α} {f : α → Except ε β} {b : β} (h : x >>= f = .ok b) :
    ∃ a, x = .ok a ∧ f a = .ok b := by
  rcases x with e | a
  · cases h
  · exact ⟨a, rfl, h⟩

/-- A sequence of fallible steps stops where one of them does. -/
theorem bind_eq_error {x : Except ε α} {f : α → Except ε β} {e : ε} (h : x >>= f = .error e) :
    x = .error e ∨ ∃ a, x = .ok a ∧ f a = .error e := by
  rcases x with e' | a
  · obtain rfl := Except.error.inj h
    exact .inl rfl
  · exact .inr ⟨a, rfl, h⟩

/-- A loop of fallible steps stops in a step that is reached, and stops there. -/
theorem foldlM_eq_error_iff {f : β → α → Except ε β} {l : List α} {b : β} {e : ε} :
    l.foldlM f b = .error e ↔ ∃ before a after c,
      l = before ++ a :: after ∧ before.foldlM f b = .ok c ∧ f c a = .error e := by
  constructor
  · intro h
    induction l generalizing b with
    | nil => cases h
    | cons a l ih =>
      rw [List.foldlM_cons] at h
      obtain hfirst | ⟨c, hfirst, hrest⟩ := bind_eq_error h
      · exact ⟨[], a, l, b, rfl, rfl, hfirst⟩
      · obtain ⟨before, a', after, c', rfl, hbefore, hstop⟩ := ih hrest
        refine ⟨a :: before, a', after, c', rfl, ?_, hstop⟩
        rw [List.foldlM_cons, hfirst]
        exact hbefore
  · rintro ⟨before, a, after, c, rfl, hbefore, hstop⟩
    rw [List.foldlM_append, hbefore]
    change (a :: after).foldlM f c = _
    rw [List.foldlM_cons, hstop]
    rfl

/-- A check that throws has not thrown if the function returns. -/
theorem of_ite_error {p : Prop} [Decidable p] {e : ε} {x : Except ε α} {a : α}
    (h : (if p then .error e else x) = .ok a) : ¬p ∧ x = .ok a := by
  split_ifs at h with hp
  exact ⟨hp, h⟩

/-- The computation does not run into undefined behaviour. -/
def Defined (x : Except (Stop ε) α) : Prop := ∀ cause, x ≠ .error (.undefined cause)

theorem defined_ok (a : α) : Defined (.ok a : Except (Stop ε) α) := nofun

theorem defined_thrown (e : ε) : Defined (.error (.thrown e) : Except (Stop ε) α) := nofun

theorem not_defined_undefined (cause : Undefined) :
    ¬Defined (.error (.undefined cause) : Except (Stop ε) α) := fun h => h cause rfl

theorem defined_map_iff {f : α → β} {x : Except (Stop ε) α} : Defined (x.map f) ↔ Defined x := by
  rcases x with (e | cause) | a
  · exact iff_of_true (defined_thrown _) (defined_thrown _)
  · exact iff_of_false (not_defined_undefined _) (not_defined_undefined _)
  · exact iff_of_true (defined_ok _) (defined_ok _)

/-! ### Signed arithmetic -/

/-- The range of a 32-bit `int`. -/
def InInt (z : ℤ) : Prop := -2 ^ 31 ≤ z ∧ z < 2 ^ 31

instance (z : ℤ) : Decidable (InInt z) := inferInstanceAs (Decidable (_ ∧ _))

/-- The result of an `int` operation whose exact value is `z`. -/
def int (z : ℤ) : Except (Stop ε) ℤ :=
  if InInt z then .ok z else .error (.undefined (.signedOverflow z))

theorem int_eq_ok_iff {z w : ℤ} : (int z : Except (Stop ε) ℤ) = .ok w ↔ InInt z ∧ z = w := by
  rw [int]
  split_ifs with h <;> simp [h]

theorem int_of_inInt {z : ℤ} (h : InInt z) : (int z : Except (Stop ε) ℤ) = .ok z := if_pos h

theorem int_of_not_inInt {z : ℤ} (h : ¬InInt z) :
    (int z : Except (Stop ε) ℤ) = .error (.undefined (.signedOverflow z)) := if_neg h

/-- Overflow is not an exception. -/
theorem int_ne_thrown {z : ℤ} {e : ε} : (int z : Except (Stop ε) ℤ) ≠ .error (.thrown e) := by
  intro h
  rw [int] at h
  split_ifs at h
  cases Except.error.inj h

/-- The range of a 64-bit signed integer. -/
def InInt64 (z : ℤ) : Prop := -2 ^ 63 ≤ z ∧ z < 2 ^ 63

instance (z : ℤ) : Decidable (InInt64 z) := inferInstanceAs (Decidable (_ ∧ _))

/-- The result of an `int64_t` operation whose exact value is `z`. -/
def int64 (z : ℤ) : Except (Stop ε) Int64 :=
  if InInt64 z then .ok (Int64.ofInt z) else .error (.undefined (.signedOverflow z))

theorem int64_of_inInt64 {z : ℤ} (h : InInt64 z) :
    (int64 z : Except (Stop ε) Int64) = .ok (Int64.ofInt z) := if_pos h

theorem int64_of_not_inInt64 {z : ℤ} (h : ¬InInt64 z) :
    (int64 z : Except (Stop ε) Int64) = .error (.undefined (.signedOverflow z)) := if_neg h

/-- A value in range is represented exactly. -/
theorem toInt_ofInt64 {z : ℤ} (h : InInt64 z) : (Int64.ofInt z).toInt = z :=
  Int64.toInt_ofInt_of_le h.1 h.2

/-- The value of the word that represents an integer. -/
theorem toNat_ofInt (z : ℤ) : ((UInt32.ofInt z).toNat : ℤ) = z % 2 ^ 32 := by
  have hpos : 0 ≤ z % 2 ^ 32 := Int.emod_nonneg _ (by decide)
  have hsize : (z % 2 ^ 32).toNat < UInt32.size := by
    have hmod : z % 2 ^ 32 < 2 ^ 32 := Int.emod_lt_of_pos _ (by decide)
    have hval : UInt32.size = 2 ^ 32 := rfl
    omega
  rw [UInt32.ofInt, UInt32.toNat_ofNat_of_lt' hsize, Int.toNat_of_nonneg hpos]

/-- `static_cast` of a floating-point value to a 32-bit signed integer: the value truncated
toward zero, where that fits. -/
def truncate (q : ℚ) : Except (Stop ε) ℤ :=
  if InInt (q.num.tdiv q.den) then .ok (q.num.tdiv q.den) else .error (.undefined .conversion)

theorem exists_truncate_iff {q : ℚ} :
    (∃ z, (truncate q : Except (Stop ε) ℤ) = .ok z) ↔ InInt (q.num.tdiv q.den) := by
  rw [truncate]
  split_ifs with h <;> simp [h]

/-- Truncated division is not negative for dividends above minus the divisor. -/
theorem tdiv_nonneg_iff {a b : ℤ} (hb : 0 < b) : 0 ≤ a.tdiv b ↔ -b < a := by
  rcases lt_or_ge a 0 with ha | ha
  · have hlt := Int.ediv_lt_iff_lt_mul (a := -a) (b := 1) hb
    rw [← Int.neg_neg a, Int.neg_tdiv, Int.tdiv_eq_ediv_of_nonneg (by omega)]
    omega
  · exact iff_of_true (Int.tdiv_nonneg ha hb.le) (by omega)

private theorem tdiv_le_iff {a b n : ℤ} (hb : 0 < b) (hn : 0 ≤ n) :
    a.tdiv b ≤ n ↔ a < (n + 1) * b := by
  rcases lt_or_ge a 0 with ha | ha
  · have hnonpos : a.tdiv b ≤ 0 := by
      rw [← Int.neg_neg a, Int.neg_tdiv]
      exact Int.neg_nonpos_of_nonneg (Int.tdiv_nonneg (by omega) hb.le)
    have hpos : 0 < (n + 1) * b := Int.mul_pos (by omega) hb
    exact iff_of_true (hnonpos.trans hn) (ha.trans hpos)
  · rw [Int.tdiv_eq_ediv_of_nonneg ha, ← Int.ediv_lt_iff_lt_mul hb, Int.lt_add_one_iff]

/-- The values that are converted to the integers from 0 to `n`. -/
theorem truncate_mem_iff {q : ℚ} {n : ℤ} (hn : 0 ≤ n) (hmax : n < 2 ^ 31) :
    (∃ z, (truncate q : Except (Stop ε) ℤ) = .ok z ∧ 0 ≤ z ∧ z ≤ n) ↔ -1 < q ∧ q < n + 1 := by
  have hden : (0 : ℤ) < q.den := Int.natCast_pos.mpr q.pos
  have hden' : (0 : ℚ) < q.den := Nat.cast_pos.mpr q.pos
  have hquot : (q.num : ℚ) / q.den = q := Rat.num_div_den q
  have hlow : -1 < (q.num : ℚ) / q.den ↔ -(q.den : ℤ) < q.num := by
    rw [lt_div_iff₀ hden', neg_one_mul]
    exact_mod_cast Iff.rfl
  have hhigh : (q.num : ℚ) / q.den < n + 1 ↔ q.num < (n + 1) * q.den := by
    rw [div_lt_iff₀ hden']
    exact_mod_cast Iff.rfl
  rw [hquot] at hlow hhigh
  rw [hlow, hhigh, ← tdiv_nonneg_iff hden, ← tdiv_le_iff hden hn, truncate]
  constructor
  · rintro ⟨z, hz, h0, hle⟩
    split_ifs at hz
    obtain rfl := Except.ok.inj hz
    exact ⟨h0, hle⟩
  · rintro ⟨h0, hle⟩
    rw [if_pos ⟨by omega, by omega⟩]
    exact ⟨_, rfl, h0, hle⟩

/-! ### Buffers -/

/-- Run a reader on a buffer; a read outside it is undefined behaviour. -/
def readFrom (buf : List UInt8) (r : Reader UInt8 α) : Except (Stop ε) α :=
  match r.run buf with
  | .ok a => .ok a
  | .error e => .error (.undefined (.outOfBounds e))

theorem readFrom_ok {buf : List UInt8} {r : Reader UInt8 α} {a : α} (h : r.run buf = .ok a) :
    (readFrom buf r : Except (Stop ε) α) = .ok a := by
  rw [readFrom, h]

theorem readFrom_error {buf : List UInt8} {r : Reader UInt8 α} {e : OutOfBounds}
    (h : r.run buf = .error e) :
    (readFrom buf r : Except (Stop ε) α) = .error (.undefined (.outOfBounds e)) := by
  rw [readFrom, h]

/-- `memcpy` of an `n`-byte word from offset `off`, under the byte order `o` of the machine. -/
def copyWord (o : Bytes.ByteOrder) (off n : ℕ) : Reader UInt8 ℕ := do
  let l ← Reader.slice off n
  pure (o.decode l)

/-- The word in the `n` bytes from offset `off`. -/
def word (o : Bytes.ByteOrder) (off n : ℕ) (buf : List UInt8) : ℕ :=
  o.decode ((buf.drop off).take n)

theorem readFrom_copyWord {buf : List UInt8} {off n : ℕ} (o : Bytes.ByteOrder)
    (h : off + n ≤ buf.length) :
    (readFrom buf (copyWord o off n) : Except (Stop ε) ℕ) = .ok (word o off n buf) :=
  readFrom_ok (Reader.run_bind_ok (Reader.run_slice h) _)

end Cpp
