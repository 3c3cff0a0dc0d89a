import Sameness.Library.Runs
import Mathlib.Data.Set.Disjoint
import Mathlib.Order.CompletePartialOrder
import Mathlib.Tactic.Linarith
import Mathlib.Topology.MetricSpace.Pseudo.Defs

/-!
# Triggers

A trigger is a switch with memory: a reading in the zone of a position puts it there, and any
other reading leaves it where it is. With the zones apart, a reading that wavers at the edge of
one of them does not throw the switch back and forth.

* `exists_next_eq_iff`: what puts the switch in a position from anywhere.
* `next_le_next_iff`: when a later reading leaves the switch at least as far on as an earlier
  one.
* `switches_mul_le_travel`: between two changes of the switch the reading travels from one zone
  to the other, so their number is bounded by the distance travelled.
-/

/-- A switch with a zone of readings for each of its two positions. -/
structure Trigger (α : Type*) where
  zone : Bool → Set α
  disjoint : Disjoint (zone true) (zone false)

namespace Trigger

variable {α : Type*} (t : Trigger α)

open Classical in
/-- The position of the switch after a reading. -/
noncomputable def next (b : Bool) (x : α) : Bool :=
  if x ∈ t.zone true then true else if x ∈ t.zone false then false else b

variable {t} {b c : Bool} {x y : α}

theorem notMem_zone_of_mem (h : x ∈ t.zone c) : x ∉ t.zone (!c) := by
  cases c with
  | false => exact Set.disjoint_right.mp t.disjoint h
  | true => exact Set.disjoint_left.mp t.disjoint h

/-- A reading in a zone decides. -/
theorem next_of_mem (h : x ∈ t.zone c) (b : Bool) : t.next b x = c := by
  cases c with
  | false =>
    have hon : x ∉ t.zone true := notMem_zone_of_mem h
    rw [next, if_neg hon, if_pos h]
  | true => rw [next, if_pos h]

/-- A reading in neither zone leaves the switch alone. -/
theorem next_of_notMem (h : ∀ c, x ∉ t.zone c) (b : Bool) : t.next b x = b := by
  rw [next, if_neg (h true), if_neg (h false)]

/-- The switch is in a position after a reading of its zone, or if it was there and the reading
is in no other. -/
theorem next_eq_iff : t.next b x = c ↔ x ∈ t.zone c ∨ (b = c ∧ x ∉ t.zone (!c)) := by
  constructor
  · rintro rfl
    by_cases hon : x ∈ t.zone true
    · exact .inl (by rwa [next_of_mem hon])
    by_cases hoff : x ∈ t.zone false
    · exact .inl (by rwa [next_of_mem hoff])
    have hneither : ∀ c, x ∉ t.zone c := Bool.rec hoff hon
    rw [next_of_notMem hneither]
    exact .inr ⟨rfl, hneither _⟩
  · rintro (h | ⟨rfl, h⟩)
    · exact next_of_mem h b
    · by_cases hb : x ∈ t.zone b
      · exact next_of_mem hb b
      · refine next_of_notMem (fun c => ?_) b
        rcases Bool.eq_or_eq_not c b with rfl | rfl
        · exact hb
        · exact h

/-- Only a reading of a zone throws the switch. -/
theorem mem_zone_of_next_ne (h : t.next b x ≠ b) : x ∈ t.zone (t.next b x) := by
  obtain hzone | ⟨heq, -⟩ := next_eq_iff.mp (rfl : t.next b x = t.next b x)
  · exact hzone
  · exact absurd heq.symm h

/-- The readings of a set put the switch in a position, wherever it is, exactly if one of them
is in its zone. -/
theorem exists_next_eq_iff {S : Set α} :
    (∀ b, ∃ x ∈ S, t.next b x = c) ↔ (S ∩ t.zone c).Nonempty := by
  constructor
  · intro h
    obtain ⟨x, hx, hnext⟩ := h (!c)
    obtain hzone | ⟨hc, -⟩ := next_eq_iff.mp hnext
    · exact ⟨x, hx, hzone⟩
    · cases c <;> cases hc
  · rintro ⟨x, hx, hzone⟩ b
    exact ⟨x, hx, next_of_mem hzone b⟩

/-- A reading leaves the switch at least as far on as another, unless only the other turns it
on, or only this one turns it off. -/
theorem next_le_next_iff :
    t.next b x ≤ t.next b y ↔
      (b = false → x ∈ t.zone true → y ∈ t.zone true) ∧
        (b = true → y ∈ t.zone false → x ∈ t.zone false) := by
  rw [Bool.le_iff_imp, next_eq_iff, next_eq_iff]
  have hx : x ∈ t.zone true → x ∉ t.zone false := notMem_zone_of_mem
  have hy : y ∈ t.zone true → y ∉ t.zone false := notMem_zone_of_mem
  cases b with
  | false => simp
  | true => simp; tauto

/-! ### Runs -/

variable (t) in
/-- A reading as a step of the switch. -/
noncomputable def read (x : α) (b : Bool) : Unit × Bool := ((), t.next b x)

variable (t) in
/-- The number of readings that throw the switch. -/
noncomputable def switches (l : List α) (b : Bool) : ℕ := Runs.changes t.read id l b

theorem switches_cons_of_eq {l : List α} (h : t.next b x = b) :
    t.switches (x :: l) b = t.switches l b := by
  rw [switches, Runs.changes]
  change (if t.next b x = b then 0 else 1) + t.switches l (t.next b x) = _
  rw [if_pos h, h, Nat.zero_add]

theorem switches_cons_of_ne {l : List α} (h : t.next b x ≠ b) :
    t.switches (x :: l) b = t.switches l (t.next b x) + 1 := by
  rw [switches, Runs.changes, Nat.add_comm]
  change t.switches l (t.next b x) + (if t.next b x = b then 0 else 1) = _
  rw [if_neg h]

section Travel

variable [PseudoMetricSpace α] {d : ℝ}

/-- The length of the way from reading to reading. -/
def travel : List α → ℝ
  | x :: y :: l => dist x y + travel (y :: l)
  | _ => 0

theorem travel_cons_cons (x y : α) (l : List α) :
    travel (x :: y :: l) = dist x y + travel (y :: l) := rfl

theorem travel_nonneg (l : List α) : 0 ≤ travel l := by
  induction l with
  | nil => exact le_rfl
  | cons x l ih =>
    cases l with
    | nil => exact le_rfl
    | cons y l => exact add_nonneg dist_nonneg ih

theorem travel_le_cons (x : α) (l : List α) : travel l ≤ travel (x :: l) := by
  cases l with
  | nil => exact le_rfl
  | cons y l => exact le_add_of_nonneg_left dist_nonneg

/-- The readings of the two zones are at least `d` apart. -/
def Apart (t : Trigger α) (d : ℝ) : Prop :=
  ∀ x ∈ t.zone true, ∀ y ∈ t.zone false, d ≤ dist x y

theorem Apart.le_dist (h : t.Apart d) (hx : x ∈ t.zone b) (hy : y ∈ t.zone (!b)) :
    d ≤ dist x y := by
  cases b with
  | false =>
    rw [dist_comm]
    exact h y hy x hx
  | true => exact h x hx y hy

/-- Once a reading `z` has decided, every change is paid for by the way from there. -/
private theorem switches_mul_le_of_mem (hd : t.Apart d) (l : List α) {z p : α}
    (hz : z ∈ t.zone b) : t.switches l b * d ≤ dist z p + travel (p :: l) := by
  induction l generalizing b z p with
  | nil =>
    have hnone : t.switches [] b = 0 := rfl
    rw [hnone, Nat.cast_zero, zero_mul]
    exact add_nonneg dist_nonneg (travel_nonneg _)
  | cons x l ih =>
    have hway : dist z x ≤ dist z p + dist p x := dist_triangle z p x
    rw [travel_cons_cons]
    by_cases hx : t.next b x = b
    · have hrest := ih (p := x) hz
      rw [switches_cons_of_eq hx]
      linarith
    · -- the reading is in the other zone, and decides
      have hzone := mem_zone_of_next_ne hx
      have hother : x ∈ t.zone (!b) := by rwa [Bool.eq_not_of_ne hx] at hzone
      have hgap : d ≤ dist z x := hd.le_dist hz hother
      have hrest := ih (p := x) hzone
      rw [dist_self, zero_add] at hrest
      rw [switches_cons_of_ne hx]
      push_cast
      linarith

/-- **Changes cost travel.** The first change of the switch is free; each further one takes the
reading from one zone to the other. -/
theorem switches_mul_le_travel (hd : t.Apart d) (hd0 : 0 ≤ d) (l : List α) (b : Bool) :
    (t.switches l b - 1) * d ≤ travel l := by
  induction l generalizing b with
  | nil =>
    have hnone : t.switches [] b = 0 := rfl
    rw [hnone, Nat.cast_zero]
    linarith [travel_nonneg ([] : List α)]
  | cons x l ih =>
    by_cases hx : t.next b x = b
    · rw [switches_cons_of_eq hx]
      exact (ih b).trans (travel_le_cons x l)
    · have hrest := switches_mul_le_of_mem hd l (p := x) (mem_zone_of_next_ne hx)
      rw [dist_self, zero_add] at hrest
      rw [switches_cons_of_ne hx, Nat.cast_add, Nat.cast_one, add_sub_cancel_right]
      exact hrest

end Travel

end Trigger
