import Sameness.Link.Pointer
import Mathlib.Algebra.Order.Floor.Ring
import Mathlib.Data.Int.ConditionallyCompleteOrder
import Mathlib.Data.Rat.Floor

/-!
# The columns of a Mac's screen

`MacOS.column` is the column at which a Mac places a column of the host: the client subtracts
the host's width, and the injector adds its own and takes half of the sum (`postsCG_column`).
So two neighbouring columns of the host are half a point apart, and the last one falls half a
point short of the middle of the Mac's screen (`column_last`), whatever the two widths. The
right half of the screen is reached from no column of the host (`column_lt_half`).

`coversScreen_iff` says for which widths that is still what a full screen asks for.
-/

namespace Sameness

open Bytes Cpp Eff Uiohook

/-- Where a column of a host's screen of the width is placed on the Mac's, in exact
arithmetic. -/
def MacOS.column (os : MacOS) (width x : ℤ) : ℚ := MacOSEventInjector.screenX os (x - width)

/-- From left to right over the host's screen, the pointer goes from left to right over the
Mac's, from the first column to where the last column of the host belongs. -/
structure MacOS.CoversScreen (os : MacOS) (width : ℤ) : Prop where
  monotone : ∀ x x', 0 ≤ x → x ≤ x' → x' < width → os.column width x ≤ os.column width x'
  first : ⌊os.column width 0⌋ = 0
  last : |os.screenWidth - os.column width (width - 1)| ≤ os.screenWidth / width

/-- A move that is forwarded to a Mac of the client's byte order is posted there. -/
theorem postsCG_column {c : Client} {s : ClientState} {call : HookCall} {event : Event}
    {bytes : List UInt8} (h : Forwards c s call event bytes) {mouse : MouseEventData}
    (hmove : event.data = .mouseMoved mouse) {os : MacOS} {t : ServerState}
    (ht : os.createsEvent t.desktop.calls = true) :
    PostsCG c.byteOrder os t bytes (.cgMouse .mouseMoved
      (os.column c.hostScreenWidth.toInt mouse.x.toInt) mouse.y.toInt .left) := by
  obtain ⟨pkt, hpkt, rfl⟩ := h.packet
  have hadmits : c.Admits event.data := h.admits
  rw [hmove] at hpkt hadmits
  have hposts : PostsCG c.byteOrder os t pkt.toBytes _ := postsCG_move hpkt ht
  have hx : received c c.byteOrder (mouse.x.toInt - c.hostScreenWidth.toInt) = _ :=
    (received_eq_self_iff hadmits.1).mpr (.inl rfl)
  have hy : received c c.byteOrder mouse.y.toInt = mouse.y.toInt :=
    (received_eq_self_iff (inInt_toInt16 mouse.y)).mpr (.inl rfl)
  rwa [MacOS.placedX, MacOS.placedY, hx, hy, screenY_eq] at hposts

section Columns

variable {os : MacOS} {width : ℤ}

theorem column_eq (os : MacOS) (width x : ℤ) :
    os.column width x = (x - width + os.screenWidth) / 2 := by
  rw [MacOS.column, screenX_eq, Int.cast_sub]

/-- The last column of the host is placed half a point left of the middle. -/
theorem column_last (os : MacOS) (width : ℤ) :
    os.column width (width - 1) = (os.screenWidth - 1) / 2 := by
  rw [column_eq, Int.cast_sub, Int.cast_one]
  ring

theorem column_monotone (os : MacOS) (width : ℤ) : Monotone (os.column width) := by
  intro x x' hx
  have hcast : (x : ℚ) ≤ x' := Int.cast_le.mpr hx
  rw [column_eq, column_eq]
  linarith

/-- **No column of the host reaches the right half of the screen.** -/
theorem column_lt_half {x : ℤ} (hx : x < width) : os.column width x < os.screenWidth / 2 := by
  have hle : os.column width x ≤ os.column width (width - 1) :=
    column_monotone os width (Int.le_sub_one_of_lt hx)
  rw [column_last] at hle
  linarith

/-- Only the one column of a very narrow host stands for half of the screen. -/
theorem column_last_iff (hwidth : 0 < width) :
    |os.screenWidth - os.column width (width - 1)| ≤ os.screenWidth / width ↔
      width = 1 ∧ 1 ≤ os.screenWidth := by
  have hpos := os.screenWidth_pos
  have hcast : (0 : ℚ) < width := Int.cast_pos.mpr hwidth
  have hhalf : os.column width (width - 1) < os.screenWidth / 2 := column_lt_half (by omega)
  rw [abs_of_pos (by linarith)]
  constructor
  · intro hnear
    have hlt : os.screenWidth / 2 < os.screenWidth / width := by linarith
    have hwide : (width : ℚ) < 2 := (div_lt_div_iff_of_pos_left hpos two_pos hcast).mp hlt
    have hone : width = 1 := by
      have hwide' : width < 2 := by exact_mod_cast hwide
      omega
    rw [column_last, hone, Int.cast_one, div_one] at hnear
    exact ⟨hone, by linarith⟩
  · rintro ⟨rfl, hone⟩
    rw [column_last, Int.cast_one, div_one]
    linarith

/-- **When the whole screen is covered.** -/
theorem coversScreen_iff (hwidth : 0 < width) :
    os.CoversScreen width ↔ width = 1 ∧ 1 ≤ os.screenWidth ∧ os.screenWidth < 3 := by
  have hfirst : ⌊os.column 1 0⌋ = 0 ↔ 1 ≤ os.screenWidth ∧ os.screenWidth < 3 := by
    rw [Int.floor_eq_zero_iff, Set.mem_Ico, column_eq, Int.cast_zero, Int.cast_one]
    constructor
    · rintro ⟨h0, h1⟩
      exact ⟨by linarith, by linarith⟩
    · rintro ⟨h1, h3⟩
      exact ⟨by linarith, by linarith⟩
  constructor
  · rintro ⟨-, hcolumn, hlast⟩
    obtain ⟨rfl, -⟩ := (column_last_iff hwidth).mp hlast
    exact ⟨rfl, hfirst.mp hcolumn⟩
  · rintro ⟨rfl, hone, hthree⟩
    exact ⟨fun x x' _ hx _ => column_monotone os 1 hx, hfirst.mpr ⟨hone, hthree⟩,
      (column_last_iff hwidth).mpr ⟨rfl, hone⟩⟩

end Columns

/-- A screen of two points, for a host with one column. -/
theorem coversScreen_twoPoints : MacOS.CoversScreen ⟨2, 1, by decide, by decide, fun _ => true⟩ 1 :=
  (coversScreen_iff (by decide)).mpr (by decide +kernel)

/-- With two screens of the same width the first column is reached, and the right half is
not. -/
theorem not_coversScreen_sameWidth : ¬iMac.CoversScreen 2560 := by
  intro hcovers
  have hhalf := (column_last_iff (by decide)).mp hcovers.last
  exact absurd hhalf.1 (by decide)

end Sameness
