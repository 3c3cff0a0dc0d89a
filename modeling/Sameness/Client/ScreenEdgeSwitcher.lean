import Sameness.Library.Cpp

/-!
# The edge switcher

`ScreenEdgeSwitcher` holds which machine has control. A mouse move near an edge decides it
anew, by the half of the screen the cursor is in; any other move leaves it as it was.

The bounds of the right zone are computed in `int` arithmetic, and the second only where the
cursor is past the first. `near_eq_true_iff` says that where this does not overflow, the test
is membership in the two zones, and `exec_update_ok` that such a move replaces the state by
the decision. `Fits` is the exact condition for that (`exec_update_of_fits`,
`exec_update_of_not_fits`).
-/

namespace Sameness

open Cpp Eff

/-- `enum class ControlState`. -/
inductive ControlState where
  | host
  | client
  deriving DecidableEq, Repr

/-- `class ScreenEdgeSwitcher`. -/
structure ScreenEdgeSwitcher where
  hostWidth : Int32
  hostHeight : Int32
  edgeThreshold : Int32
  state : ControlState
  deriving DecidableEq

namespace ScreenEdgeSwitcher

/-- The constructor. -/
def create (hostWidth hostHeight : Int32) : ScreenEdgeSwitcher where
  hostWidth := hostWidth
  hostHeight := hostHeight
  edgeThreshold := 20
  state := .host

def setEdgeThreshold (threshold : Int32) (s : ScreenEdgeSwitcher) : ScreenEdgeSwitcher :=
  { s with edgeThreshold := threshold }

def isClientControlled (s : ScreenEdgeSwitcher) : Bool := s.state = .client

/-- `HYSTERESIS`. -/
def hysteresis : ℤ := 5

variable {ε : Type}

/-- `x >= hostWidth_ - edgeThreshold_ && x <= hostWidth_ + HYSTERESIS`: the far bound is
computed only past the near one. -/
def nearRight (s : ScreenEdgeSwitcher) (x : ℤ) : Except (Stop ε) Bool := do
  let rightEdge ← int (s.hostWidth.toInt - s.edgeThreshold.toInt)
  if rightEdge ≤ x then
    let beyond ← int (s.hostWidth.toInt + hysteresis)
    pure (decide (x ≤ beyond))
  else pure false

/-- The test for the two edges. -/
def nearEdge (s : ScreenEdgeSwitcher) (x : ℤ) : Except (Stop ε) Bool := do
  if ← s.nearRight x then pure true
  else pure (decide (x ≤ s.edgeThreshold.toInt ∧ -hysteresis ≤ x))

/-- The side that a move near an edge gives control to. -/
def decision (s : ScreenEdgeSwitcher) (x : ℤ) : ControlState :=
  if x > s.hostWidth.toInt.tdiv 2 then .client else .host

/-- `update`. The vertical coordinate is logged only. -/
def update (x _y : ℤ) : Eff ScreenEdgeSwitcher (Stop ε) ControlState := do
  let s ← get
  let near ← ofExcept (s.nearEdge x)
  if near then
    modify fun s => { s with state := s.decision x }
    pure (s.decision x)
  else pure s.state

/-! ### Zones -/

/-- The column is in one of the edge zones. -/
def Near (s : ScreenEdgeSwitcher) (x : ℤ) : Prop :=
  (s.hostWidth.toInt - s.edgeThreshold.toInt ≤ x ∧ x ≤ s.hostWidth.toInt + hysteresis) ∨
    (-hysteresis ≤ x ∧ x ≤ s.edgeThreshold.toInt)

instance (s : ScreenEdgeSwitcher) (x : ℤ) : Decidable (s.Near x) :=
  inferInstanceAs (Decidable (_ ∨ _))

/-- The switcher after a move, where the arithmetic does not overflow. -/
def moved (s : ScreenEdgeSwitcher) (x : ℤ) : ScreenEdgeSwitcher :=
  if s.Near x then { s with state := s.decision x } else s

private theorem nearRight_eq_true_iff {s : ScreenEdgeSwitcher} {x : ℤ} {near : Bool}
    (h : (s.nearRight x : Except (Stop ε) Bool) = .ok near) :
    near = true ↔
      s.hostWidth.toInt - s.edgeThreshold.toInt ≤ x ∧ x ≤ s.hostWidth.toInt + hysteresis := by
  obtain ⟨rightEdge, hright, h⟩ := bind_eq_ok h
  obtain ⟨-, rfl⟩ := int_eq_ok_iff.mp hright
  split_ifs at h with hx
  · obtain ⟨beyond, hfar, h⟩ := bind_eq_ok h
    obtain ⟨-, rfl⟩ := int_eq_ok_iff.mp hfar
    obtain rfl := Except.ok.inj h
    rw [decide_eq_true_iff, and_iff_right hx]
  · -- left of the zone its far bound is not computed
    obtain rfl := Except.ok.inj h
    exact iff_of_false Bool.false_ne_true fun hzone => hx hzone.1

/-- Where the test returns, it tests for the zones. -/
theorem near_eq_true_iff {s : ScreenEdgeSwitcher} {x : ℤ} {near : Bool}
    (h : (s.nearEdge x : Except (Stop ε) Bool) = .ok near) : near = true ↔ s.Near x := by
  obtain ⟨right, hright, h⟩ := bind_eq_ok h
  have hzone := nearRight_eq_true_iff hright
  rcases right with _ | _
  · obtain rfl := Except.ok.inj h
    rw [decide_eq_true_iff, Near, or_iff_right fun hr => Bool.false_ne_true (hzone.mpr hr),
      and_comm]
  · obtain rfl := Except.ok.inj h
    exact iff_of_true rfl (.inl (hzone.mp rfl))

theorem exec_update (s : ScreenEdgeSwitcher) (x y : ℤ) :
    exec (update x y : Eff _ (Stop ε) _) s =
      match (s.nearEdge x : Except (Stop ε) Bool) with
      | .ok true => (.ok (s.decision x), { s with state := s.decision x })
      | .ok false => (.ok s.state, s)
      | .error stop => (.error stop, s) := by
  rw [update, exec_bind_ok (exec_get s), exec_bind, exec_ofExcept]
  rcases (s.nearEdge x : Except (Stop ε) Bool) with stop | _ | _
  · rfl
  · rfl
  · rfl

/-- **What `update` does.** Where it returns, the switcher has moved, and its new state is the
result. -/
theorem exec_update_ok {s s' : ScreenEdgeSwitcher} {x y : ℤ} {state : ControlState}
    (h : exec (update x y : Eff _ (Stop ε) _) s = (.ok state, s')) :
    state = s'.state ∧ s' = s.moved x := by
  rw [exec_update] at h
  rcases hnear : (s.nearEdge x : Except (Stop ε) Bool) with stop | near
  · rw [hnear] at h
    exact absurd (Prod.mk.inj h).1 nofun
  have hiff := near_eq_true_iff hnear
  rw [hnear] at h
  rcases near with _ | _
  · obtain ⟨hstate, rfl⟩ := Prod.mk.inj h
    refine ⟨(Except.ok.inj hstate).symm, ?_⟩
    rw [moved, if_neg fun hzone => Bool.false_ne_true (hiff.mpr hzone)]
  · obtain ⟨hstate, rfl⟩ := Prod.mk.inj h
    refine ⟨(Except.ok.inj hstate).symm, ?_⟩
    rw [moved, if_pos (hiff.mp rfl)]

/-- The test throws nothing. -/
private theorem nearEdge_ne_thrown {s : ScreenEdgeSwitcher} {x : ℤ} {e : ε} :
    (s.nearEdge x : Except (Stop ε) Bool) ≠ .error (.thrown e) := by
  intro h
  obtain hright | ⟨right, -, h⟩ := bind_eq_error h
  · obtain hedge | ⟨rightEdge, -, hfar⟩ := bind_eq_error hright
    · exact int_ne_thrown hedge
    · split_ifs at hfar
      · obtain hbeyond | ⟨beyond, -, hpure⟩ := bind_eq_error hfar
        · exact int_ne_thrown hbeyond
        · cases hpure
      · cases hfar
  · rcases right with _ | _
    · cases h
    · cases h

/-- `update` throws nothing. -/
theorem exec_update_ne_thrown {s : ScreenEdgeSwitcher} {x y : ℤ} {e : ε} :
    (exec (update x y : Eff _ (Stop ε) _) s).1 ≠ .error (.thrown e) := by
  intro h
  rw [exec_update] at h
  rcases hnear : (s.nearEdge x : Except (Stop ε) Bool) with stop | _ | _
  · rw [hnear] at h
    obtain rfl := Except.error.inj h
    exact nearEdge_ne_thrown hnear
  · rw [hnear] at h
    cases h
  · rw [hnear] at h
    cases h

/-! ### When `update` returns -/

/-- The bounds of the right zone that are computed for a column fit an `int`. -/
def Fits (s : ScreenEdgeSwitcher) (x : ℤ) : Prop :=
  InInt (s.hostWidth.toInt - s.edgeThreshold.toInt) ∧
    (s.hostWidth.toInt - s.edgeThreshold.toInt ≤ x → InInt (s.hostWidth.toInt + hysteresis))

instance (s : ScreenEdgeSwitcher) (x : ℤ) : Decidable (s.Fits x) :=
  inferInstanceAs (Decidable (_ ∧ _))

private theorem exists_nearRight_of_fits {s : ScreenEdgeSwitcher} {x : ℤ} (h : s.Fits x) :
    ∃ right, (s.nearRight x : Except (Stop ε) Bool) = .ok right := by
  obtain ⟨hedge, hfar⟩ := h
  rw [nearRight, int_of_inInt hedge]
  by_cases hx : s.hostWidth.toInt - s.edgeThreshold.toInt ≤ x
  · exact ⟨_, by simp only [bind, Except.bind, if_pos hx, int_of_inInt (hfar hx)]; rfl⟩
  · exact ⟨_, by simp only [bind, Except.bind, if_neg hx]; rfl⟩

/-- Where its bounds fit, the test returns, and tests for the zones. -/
theorem nearEdge_of_fits {s : ScreenEdgeSwitcher} {x : ℤ} (h : s.Fits x) :
    (s.nearEdge x : Except (Stop ε) Bool) = .ok (decide (s.Near x)) := by
  have hret : ∃ near, (s.nearEdge x : Except (Stop ε) Bool) = .ok near := by
    obtain ⟨right, hright⟩ : ∃ right, (s.nearRight x : Except (Stop ε) Bool) = .ok right :=
      exists_nearRight_of_fits h
    rw [nearEdge, hright]
    cases right <;> exact ⟨_, rfl⟩
  obtain ⟨near, hnear⟩ := hret
  have hiff := near_eq_true_iff hnear
  rw [hnear, Bool.eq_iff_iff.mpr (hiff.trans (decide_eq_true_iff (p := s.Near x)).symm)]

/-- Where they do not, the test overflows. -/
theorem nearEdge_of_not_fits {s : ScreenEdgeSwitcher} {x : ℤ} (h : ¬s.Fits x) :
    ∃ z, (s.nearEdge x : Except (Stop ε) Bool) = .error (.undefined (.signedOverflow z)) := by
  by_cases hedge : InInt (s.hostWidth.toInt - s.edgeThreshold.toInt)
  · have hx : s.hostWidth.toInt - s.edgeThreshold.toInt ≤ x := by
      by_contra hx
      exact h ⟨hedge, fun hle => absurd hle hx⟩
    have hfar : ¬InInt (s.hostWidth.toInt + hysteresis) := fun hfar => h ⟨hedge, fun _ => hfar⟩
    refine ⟨s.hostWidth.toInt + hysteresis, ?_⟩
    simp only [nearEdge, nearRight, int_of_inInt hedge, bind, Except.bind, if_pos hx,
      int_of_not_inInt hfar]
  · refine ⟨s.hostWidth.toInt - s.edgeThreshold.toInt, ?_⟩
    simp only [nearEdge, nearRight, int_of_not_inInt hedge, bind, Except.bind]

/-- Where the bounds fit, `update` moves the switcher and returns its state. -/
theorem exec_update_of_fits {s : ScreenEdgeSwitcher} {x : ℤ} (h : s.Fits x) (y : ℤ) :
    exec (update x y : Eff _ (Stop ε) _) s = (.ok (s.moved x).state, s.moved x) := by
  rw [exec_update, nearEdge_of_fits h, moved]
  by_cases hnear : s.Near x
  · rw [if_pos hnear, decide_eq_true hnear]
  · rw [if_neg hnear, decide_eq_false hnear]

/-- Where they do not, it overflows before it has changed anything. -/
theorem exec_update_of_not_fits {s : ScreenEdgeSwitcher} {x : ℤ} (h : ¬s.Fits x) (y : ℤ) :
    ∃ z, exec (update x y : Eff _ (Stop ε) _) s =
      (.error (.undefined (.signedOverflow z)), s) := by
  obtain ⟨z, hz⟩ : ∃ z, (s.nearEdge x : Except (Stop ε) Bool) =
      .error (.undefined (.signedOverflow z)) := nearEdge_of_not_fits h
  exact ⟨z, by rw [exec_update, hz]⟩

end ScreenEdgeSwitcher

end Sameness
