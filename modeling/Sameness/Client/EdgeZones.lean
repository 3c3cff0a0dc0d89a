import Sameness.Client.ScreenEdgeSwitcher
import Sameness.Library.Trigger
import Mathlib.Analysis.Normed.Ring.Lemmas

/-!
# The edge zones

The switcher is a trigger: the columns near an edge and right of the middle give control to the
client, those near an edge and not right of the middle to the host (`isClientControlled_moved`).
Where twice the threshold is below the width these are the zone of the right edge and the zone
of the left edge (`zone_true_eq`, `zone_false_eq`), at least `hostWidth - 2 * edgeThreshold`
columns apart, and `stateChanges_mul_le_sideways` bounds how often control changes. With a larger
threshold a column of the right zone gives control to the host (`decidesZones_iff`).

The zones end five columns beyond the edges. A cursor further out leaves control as it was, so
the switcher does not follow the cursor from there to the zones or back
(`update_le_update_iff`).
-/

namespace Sameness

namespace ScreenEdgeSwitcher

open Cpp Eff Runs

/-- A call of `update` as a step. -/
def updateStep (move : ℤ × ℤ) (s : ScreenEdgeSwitcher) :
    Except (Stop Empty) ControlState × ScreenEdgeSwitcher :=
  exec (update move.1 move.2) s

/-- The switcher as a trigger, which is on while the client has control. -/
def trigger (s : ScreenEdgeSwitcher) : Trigger ℤ where
  zone b := {x | s.Near x ∧ decide (s.hostWidth.toInt.tdiv 2 < x) = b}
  disjoint := Set.disjoint_left.mpr fun _ hon hoff =>
    Bool.false_ne_true (hoff.2.symm.trans hon.2)

/-- Moving the switcher is reading the column. -/
theorem isClientControlled_moved (s : ScreenEdgeSwitcher) (x : ℤ) :
    (s.moved x).isClientControlled = s.trigger.next s.isClientControlled x := by
  rw [moved]
  by_cases hnear : s.Near x
  · have hdecision : decide (s.decision x = .client) = decide (s.hostWidth.toInt.tdiv 2 < x) := by
      rw [decision]
      by_cases hx : s.hostWidth.toInt.tdiv 2 < x
      · rw [if_pos hx, decide_eq_true hx]
        rfl
      · rw [if_neg hx, decide_eq_false hx]
        rfl
    have hzone : x ∈ s.trigger.zone (decide (s.hostWidth.toInt.tdiv 2 < x)) := ⟨hnear, rfl⟩
    rw [if_pos hnear, isClientControlled, hdecision, Trigger.next_of_mem hzone]
  · have hzone : ∀ b, x ∉ s.trigger.zone b := fun _ hmem => hnear hmem.1
    rw [if_neg hnear, Trigger.next_of_notMem hzone]

/-- Moves change nothing but the state. -/
theorem trigger_moved (s : ScreenEdgeSwitcher) (x : ℤ) : (s.moved x).trigger = s.trigger := by
  rw [moved]
  split_ifs
  · rfl
  · rfl

/-- The control state of a trigger. -/
def controlOf (client : Bool) : ControlState := if client then .client else .host

theorem controlOf_injective : Function.Injective controlOf := by decide

theorem state_eq_controlOf (s : ScreenEdgeSwitcher) : s.state = controlOf s.isClientControlled := by
  rw [isClientControlled]
  cases s.state <;> rfl

/-- A column of a zone gives control to its side. -/
theorem updateStep_of_mem_zone {s : ScreenEdgeSwitcher} {b : Bool} {x : ℤ} (hfits : s.Fits x)
    (hzone : x ∈ s.trigger.zone b) (y : ℤ) :
    (updateStep (x, y) s).1 = .ok (controlOf b) := by
  have hupdate : updateStep (x, y) s = _ := exec_update_of_fits hfits y
  rw [hupdate, state_eq_controlOf, isClientControlled_moved, Trigger.next_of_mem hzone]

/-! ### Two zones -/

section Zones

variable {s : ScreenEdgeSwitcher}

/-- The middle of the screen, without the division. -/
theorem half_lt_iff {w x : ℤ} (hw : 0 < w) : w.tdiv 2 < x ↔ w < 2 * x := by
  rw [Int.tdiv_eq_ediv_of_nonneg hw.le]
  omega

theorem mem_zone_true_iff (hW : 0 < s.hostWidth.toInt) {x : ℤ} :
    x ∈ s.trigger.zone true ↔ s.Near x ∧ s.hostWidth.toInt < 2 * x := by
  rw [← half_lt_iff hW, ← decide_eq_true_iff (p := _ < x)]
  rfl

theorem mem_zone_false_iff (hW : 0 < s.hostWidth.toInt) {x : ℤ} :
    x ∈ s.trigger.zone false ↔ s.Near x ∧ 2 * x ≤ s.hostWidth.toInt := by
  rw [← not_lt, ← half_lt_iff hW, ← decide_eq_false_iff_not]
  rfl

/-- The columns that give control to the client are those of the right edge. -/
theorem zone_true_eq (hT : 0 ≤ s.edgeThreshold.toInt)
    (hzones : 2 * s.edgeThreshold.toInt < s.hostWidth.toInt) :
    s.trigger.zone true =
      Set.Icc (s.hostWidth.toInt - s.edgeThreshold.toInt) (s.hostWidth.toInt + 5) := by
  ext x
  rw [mem_zone_true_iff (by omega), Near, hysteresis, Set.mem_Icc]
  omega

/-- The columns that give control to the host are those of the left edge. -/
theorem zone_false_eq (hT : 0 ≤ s.edgeThreshold.toInt)
    (hzones : 2 * s.edgeThreshold.toInt < s.hostWidth.toInt) :
    s.trigger.zone false = Set.Icc (-5) s.edgeThreshold.toInt := by
  ext x
  rw [mem_zone_false_iff (by omega), Near, hysteresis, Set.mem_Icc]
  omega

/-- Every column of the right zone gives control to the client, and every column of the left
zone to the host, whatever the state. -/
def DecidesZones (s : ScreenEdgeSwitcher) : Prop :=
  ∀ (state : ControlState) (x y : ℤ),
    (s.hostWidth.toInt - s.edgeThreshold.toInt ≤ x → x ≤ s.hostWidth.toInt + hysteresis →
      (updateStep (x, y) { s with state := state }).1 = .ok .client) ∧
    (-hysteresis ≤ x → x ≤ s.edgeThreshold.toInt →
      (updateStep (x, y) { s with state := state }).1 = .ok .host)

private theorem fits_of_far (hW : 0 < s.hostWidth.toInt) (hT : 0 ≤ s.edgeThreshold.toInt)
    (hfar : InInt (s.hostWidth.toInt + 5)) (x : ℤ) : s.Fits x := by
  have hmax := s.hostWidth.toInt_lt
  have hmax' := s.edgeThreshold.toInt_lt
  exact ⟨⟨by omega, by omega⟩, fun _ => hfar⟩

/-- **When the zones decide.** Each zone gives control to its own side exactly if the threshold
is below half the width. -/
theorem decidesZones_iff (hW : 0 < s.hostWidth.toInt) (hT : 0 ≤ s.edgeThreshold.toInt)
    (hfar : InInt (s.hostWidth.toInt + 5)) :
    s.DecidesZones ↔ 2 * s.edgeThreshold.toInt < s.hostWidth.toInt := by
  constructor
  · intro hdecides
    by_contra hwide
    -- the first column of the right zone is not right of the middle
    have hzone : s.hostWidth.toInt - s.edgeThreshold.toInt ∈ s.trigger.zone false := by
      rw [mem_zone_false_iff hW, Near, hysteresis]
      omega
    have hclient := (hdecides s.state _ 0).1 le_rfl (by rw [hysteresis]; omega)
    rw [updateStep_of_mem_zone (fits_of_far hW hT hfar _) hzone 0] at hclient
    cases hclient
  · intro hzones state x y
    have hfits : ({ s with state := state } : ScreenEdgeSwitcher).Fits x :=
      fits_of_far hW hT hfar x
    refine ⟨fun hnear hbeyond => ?_, fun hbeyond hnear => ?_⟩
    · have hzone : x ∈ s.trigger.zone true := by
        rw [zone_true_eq hT hzones]
        exact ⟨hnear, hbeyond⟩
      exact updateStep_of_mem_zone hfits hzone y
    · have hzone : x ∈ s.trigger.zone false := by
        rw [zone_false_eq hT hzones]
        exact ⟨hbeyond, hnear⟩
      exact updateStep_of_mem_zone hfits hzone y

/-- The default settings. -/
theorem decidesZones_default : DecidesZones ⟨1920, 1080, 20, .host⟩ :=
  (decidesZones_iff (by decide) (by decide) (by decide)).mpr (by decide)

/-! ### Order -/

/-- Over all positions that a hook can report: further to the right, control is at least as far
on the client's side. -/
def FollowsCursor (s : ScreenEdgeSwitcher) : Prop :=
  ∀ x₁ x₂ : Int16, x₁ ≤ x₂ → ∀ y₁ y₂ : ℤ,
    (updateStep (x₁.toInt, y₁) s).2.isClientControlled ≤
      (updateStep (x₂.toInt, y₂) s).2.isClientControlled

/-- The columns that a hook can report are too small for an overflow. -/
theorem fits_of_int16 (hT : 0 ≤ s.edgeThreshold.toInt)
    (hzones : 2 * s.edgeThreshold.toInt < s.hostWidth.toInt) (x : Int16) : s.Fits x.toInt := by
  have hx := x.toInt_lt
  have hmax := s.hostWidth.toInt_lt
  exact ⟨⟨by omega, by omega⟩, fun hnear => ⟨by rw [hysteresis]; omega, by rw [hysteresis]; omega⟩⟩

/-- **Where the switcher follows the cursor.** Of two positions from left to right the second
leaves control at least as far on the client's side, unless the first takes control and the
second is past the right zone, or the second gives it back and the first is before the left
zone. Positions past the zones leave control as it was. -/
theorem update_le_update_iff (hT : 0 ≤ s.edgeThreshold.toInt)
    (hzones : 2 * s.edgeThreshold.toInt < s.hostWidth.toInt) {x₁ x₂ : Int16} (hx : x₁ ≤ x₂)
    (y₁ y₂ : ℤ) :
    ∃ s₁ s₂ : ScreenEdgeSwitcher,
      updateStep (x₁.toInt, y₁) s = (.ok s₁.state, s₁) ∧
      updateStep (x₂.toInt, y₂) s = (.ok s₂.state, s₂) ∧
      (s₁.isClientControlled ≤ s₂.isClientControlled ↔
        ¬(s.state = .host ∧ s.hostWidth.toInt - s.edgeThreshold.toInt ≤ x₁.toInt ∧
          x₁.toInt ≤ s.hostWidth.toInt + 5 ∧ s.hostWidth.toInt + 5 < x₂.toInt) ∧
        ¬(s.state = .client ∧ x₁.toInt < -5 ∧ -5 ≤ x₂.toInt ∧
          x₂.toInt ≤ s.edgeThreshold.toInt)) ∧
      (s.hostWidth.toInt + 5 < x₂.toInt → s₂ = s) ∧ (x₁.toInt < -5 → s₁ = s) := by
  have hle : x₁.toInt ≤ x₂.toInt := Int16.le_iff_toInt_le.mp hx
  have hhost : s.isClientControlled = false ↔ s.state = .host := by
    rw [isClientControlled]
    cases s.state <;> decide
  have hclient : s.isClientControlled = true ↔ s.state = .client := decide_eq_true_iff
  refine ⟨s.moved x₁.toInt, s.moved x₂.toInt, exec_update_of_fits (fits_of_int16 hT hzones x₁) y₁,
    exec_update_of_fits (fits_of_int16 hT hzones x₂) y₂, ?_, fun hpast => ?_, fun hbefore => ?_⟩
  · rw [isClientControlled_moved, isClientControlled_moved, Trigger.next_le_next_iff,
      zone_true_eq hT hzones, zone_false_eq hT hzones, hhost, hclient]
    simp only [Set.mem_Icc]
    cases s.state with
    | host => simp; omega
    | client => simp; omega
  · rw [moved, if_neg (by rw [Near, hysteresis]; omega)]
  · rw [moved, if_neg (by rw [Near, hysteresis]; omega)]

/-- From the host's side to the first column of the right zone and on. -/
theorem update_le_update_default :
    ∃ s₁ s₂ : ScreenEdgeSwitcher,
      updateStep ((960 : Int16).toInt, 500) ⟨1920, 1080, 20, .host⟩ = (.ok s₁.state, s₁) ∧
      updateStep ((1900 : Int16).toInt, 500) ⟨1920, 1080, 20, .host⟩ = (.ok s₂.state, s₂) ∧
      s₁.isClientControlled ≤ s₂.isClientControlled := by
  obtain ⟨s₁, s₂, h₁, h₂, hiff, -⟩ :=
    update_le_update_iff (s := ⟨1920, 1080, 20, .host⟩) (by decide) (by decide)
      (by decide : (960 : Int16) ≤ 1900) 500 500
  exact ⟨s₁, s₂, h₁, h₂, hiff.mpr (by decide)⟩

/-- A cursor on the last column takes control, one that is first seen beyond the zone does
not. -/
theorem not_followsCursor_default : ¬FollowsCursor ⟨1920, 1080, 20, .host⟩ := by
  intro hfollows
  exact absurd (hfollows 1919 1926 (by decide) 500 500) (by decide)

end Zones

/-! ### Runs -/

section Run

/-- How far the cursor moves sideways from position to position. -/
def sideways (moves : List (ℤ × ℤ)) : ℤ :=
  (List.zipWith (fun p q => |q.1 - p.1|) moves moves.tail).sum

/-- The number of moves that change the control state. -/
def stateChanges (moves : List (ℤ × ℤ)) (s : ScreenEdgeSwitcher) : ℕ :=
  changes updateStep state moves s

/-- No call of `update` overflows. -/
def UpdatesReturn (moves : List (ℤ × ℤ)) (s : ScreenEdgeSwitcher) : Prop :=
  ∀ r ∈ results updateStep moves s, ∃ state, r = .ok state

instance (moves : List (ℤ × ℤ)) (s : ScreenEdgeSwitcher) : Decidable (UpdatesReturn moves s) :=
  decidable_of_iff (∀ r ∈ results updateStep moves s, r.isOk) <| forall₂_congr fun r _ => by
    cases r <;> simp [Except.isOk, Except.toBool]

/-- The trigger is thrown whenever the control state changes. -/
theorem stateChanges_eq_switches {moves : List (ℤ × ℤ)} {s : ScreenEdgeSwitcher}
    (hret : UpdatesReturn moves s) :
    stateChanges moves s = s.trigger.switches (moves.map Prod.fst) s.isClientControlled := by
  let R (s' : ScreenEdgeSwitcher) (b : Bool) : Prop :=
    s'.trigger = s.trigger ∧ s'.isClientControlled = b
  have hshow : ∀ {s' b}, R s' b → s'.state = controlOf b := by
    rintro s' b ⟨-, rfl⟩
    exact state_eq_controlOf s'
  have hstep : ∀ {s' b move}, R s' b → (∃ state, (updateStep move s').1 = .ok state) →
      R (updateStep move s').2 (s.trigger.read move.1 b).2 := by
    rintro s' b ⟨x, y⟩ ⟨htrigger, rfl⟩ ⟨state, hstate⟩
    obtain ⟨-, hmoved⟩ := exec_update_ok (Prod.ext hstate rfl)
    have hnext : (updateStep (x, y) s').2 = s'.moved x := hmoved
    rw [hnext]
    exact ⟨(trigger_moved s' x).trans htrigger, by rw [isClientControlled_moved, htrigger]; rfl⟩
  rw [stateChanges, changes_of_simulates (R := R) hshow hstep ⟨rfl, rfl⟩ hret, Trigger.switches,
    ← changes_comp _ id controlOf_injective]
  rfl

theorem travel_map_fst (moves : List (ℤ × ℤ)) :
    Trigger.travel (moves.map Prod.fst) = sideways moves := by
  induction moves with
  | nil => simp [Trigger.travel, sideways]
  | cons p moves ih =>
    cases moves with
    | nil => simp [Trigger.travel, sideways]
    | cons q moves =>
      have hstep : sideways (p :: q :: moves) = |q.1 - p.1| + sideways (q :: moves) := rfl
      rw [List.map_cons, List.map_cons, Trigger.travel_cons_cons, ← List.map_cons, ih, hstep,
        Int.dist_eq', abs_sub_comm]
      push_cast
      rfl

/-- The zones are at least the width less two thresholds apart. -/
private theorem apart_trigger {s : ScreenEdgeSwitcher} (hT : 0 ≤ s.edgeThreshold.toInt)
    (hzones : 2 * s.edgeThreshold.toInt < s.hostWidth.toInt) :
    s.trigger.Apart ((s.hostWidth.toInt - 2 * s.edgeThreshold.toInt : ℤ) : ℝ) := by
  intro x hx y hy
  rw [zone_true_eq hT hzones, Set.mem_Icc] at hx
  rw [zone_false_eq hT hzones, Set.mem_Icc] at hy
  rw [Int.dist_eq', Int.cast_le]
  have hle : x - y ≤ |x - y| := le_abs_self _
  omega

/-- **Control does not flap.** From a fresh switcher on, every change of the control state after
the first has cost a way from one zone to the other. -/
theorem stateChanges_mul_le_sideways {hostWidth hostHeight threshold : Int32}
    (hT : 0 ≤ threshold.toInt) (hzones : 2 * threshold.toInt < hostWidth.toInt)
    {moves : List (ℤ × ℤ)}
    (hret : UpdatesReturn moves ((create hostWidth hostHeight).setEdgeThreshold threshold)) :
    ((stateChanges moves ((create hostWidth hostHeight).setEdgeThreshold threshold) : ℤ) - 1) *
      (hostWidth.toInt - 2 * threshold.toInt) ≤ sideways moves := by
  have hgap : (0 : ℝ) ≤ ((hostWidth.toInt - 2 * threshold.toInt : ℤ) : ℝ) :=
    Int.cast_nonneg (by omega)
  have htravel := Trigger.switches_mul_le_travel
    (apart_trigger (s := (create hostWidth hostHeight).setEdgeThreshold threshold) hT hzones) hgap
    (moves.map Prod.fst) ((create hostWidth hostHeight).setEdgeThreshold
      threshold).isClientControlled
  rw [← stateChanges_eq_switches hret, travel_map_fst] at htravel
  exact_mod_cast htravel

/-- Over the screen and back, with a wobble at the right edge. -/
theorem stateChanges_mul_le_sideways_wobble :
    ((stateChanges [(960, 0), (1919, 0), (1890, 0), (1919, 0), (5, 0)]
        ((create 1920 1080).setEdgeThreshold 20) : ℤ) - 1) * (1920 - 2 * 20) ≤
      sideways [(960, 0), (1919, 0), (1890, 0), (1919, 0), (5, 0)] := by
  have hret : UpdatesReturn [(960, 0), (1919, 0), (1890, 0), (1919, 0), (5, 0)]
      ((create 1920 1080).setEdgeThreshold 20) := by decide
  exact stateChanges_mul_le_sideways (by decide) (by decide) hret

end Run

end ScreenEdgeSwitcher

end Sameness
