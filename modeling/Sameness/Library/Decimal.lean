import Sameness.Library.Cpp
import Mathlib.Data.List.TakeWhile

/-!
# Reading numbers

`stoi` follows the documented behaviour of `std::stoi` in base ten: white space, a sign, as many
digits as there are, and whatever comes after them. It throws if there is no digit, or if the
number does not fit an `int`.

`IsNumber` is the grammar of the words that are read as a number, and `stoi_eq_ok_iff` says that
`stoi` accepts exactly these, with their values, as far as they fit. `exists_isNumber_toString` is
the round trip with the numerals that are printed.
-/

namespace Cpp

/-- The exceptions of `std::stoi`. -/
inductive StoiException where
  | invalidArgument
  | outOfRange
  deriving DecidableEq, Repr

/-- `isspace` in the default locale. -/
def isSpace (c : Char) : Bool :=
  c = ' ' || c = '\t' || c = '\n' || c = '\x0b' || c = '\x0c' || c = '\r'

/-- The sign of a number, if it has one, and the rest. -/
def splitSign : List Char → List Char × List Char
  | '-' :: rest => (['-'], rest)
  | '+' :: rest => (['+'], rest)
  | rest => ([], rest)

/-- A number with the sign. -/
def signed (sign : List Char) (n : ℕ) : ℤ := if sign = ['-'] then -n else n

/-- `std::stoi`. -/
def stoi (s : String) : Except StoiException ℤ :=
  let (sign, rest) := splitSign (s.toList.dropWhile isSpace)
  let digits := rest.takeWhile Char.isDigit
  let z := signed sign (Nat.ofDigitChars 10 digits 0)
  if digits = [] then .error .invalidArgument
  else if InInt z then .ok z
  else .error .outOfRange

/-- The characters start with a number of the given sign and digits: white space may come
before it, and anything but a digit after it. -/
structure IsNumber (l sign digits : List Char) : Prop where
  sign_eq : sign = [] ∨ sign = ['+'] ∨ sign = ['-']
  digits_ne : digits ≠ []
  isDigit : ∀ c ∈ digits, c.isDigit = true
  parts : ∃ space rest, l = space ++ (sign ++ (digits ++ rest)) ∧ (∀ c ∈ space, isSpace c = true) ∧
    ∀ c ∈ rest.head?, c.isDigit = false

/-! ### Parts -/

/-- The longest prefix that satisfies a predicate, where it is followed by something that does
not. -/
private theorem takeWhile_parts {p : Char → Bool} {l rest : List Char} (hl : ∀ c ∈ l, p c = true)
    (hrest : ∀ c ∈ rest.head?, p c = false) :
    (l ++ rest).takeWhile p = l ∧ (l ++ rest).dropWhile p = rest := by
  rw [List.takeWhile_append_of_pos hl, List.dropWhile_append_of_pos hl]
  rcases rest with _ | ⟨c, rest⟩
  · exact ⟨List.append_nil l, rfl⟩
  · have hc : p c = false := hrest c rfl
    simp [hc]

private theorem isSpace_of_isDigit {c : Char} (h : c.isDigit = true) : isSpace c = false := by
  by_contra hspace
  rw [Bool.not_eq_false, isSpace] at hspace
  simp only [Bool.or_eq_true, decide_eq_true_eq] at hspace
  rcases hspace with ((((rfl | rfl) | rfl) | rfl) | rfl) | rfl
  all_goals exact absurd h (by decide)

/-- A digit is no sign. -/
private theorem splitSign_of_isDigit {c : Char} (h : c.isDigit = true) (l : List Char) :
    splitSign (c :: l) = ([], c :: l) := by
  rw [splitSign]
  · rintro rest heq
    obtain ⟨rfl, -⟩ := List.cons.inj heq
    exact absurd h (by decide)
  · rintro rest heq
    obtain ⟨rfl, -⟩ := List.cons.inj heq
    exact absurd h (by decide)

/-- The sign and the rest make up what was split. -/
private theorem splitSign_append (l : List Char) :
    (splitSign l).1 ++ (splitSign l).2 = l ∧
      ((splitSign l).1 = [] ∨ (splitSign l).1 = ['+'] ∨ (splitSign l).1 = ['-']) := by
  unfold splitSign
  split
  · exact ⟨rfl, .inr (.inr rfl)⟩
  · exact ⟨rfl, .inr (.inl rfl)⟩
  · exact ⟨rfl, .inl rfl⟩

/-- A sign in front of a digit is split off, and no white space comes before it. -/
private theorem splitSign_parts {sign l : List Char}
    (hsign : sign = [] ∨ sign = ['+'] ∨ sign = ['-']) {c : Char} (hc : c.isDigit = true) :
    splitSign (sign ++ c :: l) = (sign, c :: l) ∧
      ∀ d ∈ (sign ++ c :: l).head?, isSpace d = false := by
  rcases hsign with rfl | rfl | rfl
  · refine ⟨splitSign_of_isDigit hc l, fun d hd => ?_⟩
    obtain rfl := Option.some.inj hd
    exact isSpace_of_isDigit hc
  · refine ⟨rfl, fun d hd => ?_⟩
    obtain rfl := Option.some.inj hd
    rfl
  · refine ⟨rfl, fun d hd => ?_⟩
    obtain rfl := Option.some.inj hd
    rfl

/-- What `stoi` does with a number. -/
private theorem stoi_of_isNumber {s : String} {sign digits : List Char}
    (h : IsNumber s.toList sign digits) :
    stoi s =
      if InInt (signed sign (Nat.ofDigitChars 10 digits 0)) then
        .ok (signed sign (Nat.ofDigitChars 10 digits 0))
      else .error .outOfRange := by
  obtain ⟨hsign, hne, hdigits, space, rest, hl, hspace, hrest⟩ := h
  obtain ⟨c, digits', rfl⟩ := List.exists_cons_of_ne_nil hne
  obtain ⟨hsplit, hhead⟩ := splitSign_parts (l := digits' ++ rest) hsign
    (hdigits c List.mem_cons_self)
  have hdrop : s.toList.dropWhile isSpace = sign ++ c :: (digits' ++ rest) := by
    rw [hl]
    exact (takeWhile_parts hspace hhead).2
  have htake : (c :: (digits' ++ rest)).takeWhile Char.isDigit = c :: digits' :=
    (takeWhile_parts hdigits hrest).1
  simp only [stoi, hdrop, hsplit, htake, if_neg hne]

/-- A word in which `stoi` finds a digit is a number. -/
private theorem exists_isNumber {s : String} (h : stoi s ≠ .error .invalidArgument) :
    ∃ sign digits, IsNumber s.toList sign digits := by
  obtain ⟨happend, hsign⟩ := splitSign_append (s.toList.dropWhile isSpace)
  rcases hsplit : splitSign (s.toList.dropWhile isSpace) with ⟨sign, rest⟩
  rw [hsplit] at happend hsign
  have hne : rest.takeWhile Char.isDigit ≠ [] := by
    intro hnil
    refine h ?_
    simp only [stoi, hsplit, if_pos hnil]
  refine ⟨sign, rest.takeWhile Char.isDigit, hsign, hne, fun c hc => List.mem_takeWhile_imp hc,
    s.toList.takeWhile isSpace, rest.dropWhile Char.isDigit, ?_,
    fun c hc => List.mem_takeWhile_imp hc, fun c hc => ?_⟩
  · rw [List.takeWhile_append_dropWhile]
    rw [happend, List.takeWhile_append_dropWhile]
  · have hhead := List.head?_dropWhile_not Char.isDigit rest
    rw [Option.mem_def.mp hc] at hhead
    simpa using hhead

/-- **What `stoi` accepts.** A word is read as a number exactly if it starts with one that fits
an `int`, after white space, and its value is that of the sign and the digits. -/
theorem stoi_eq_ok_iff {s : String} {z : ℤ} :
    stoi s = .ok z ↔ InInt z ∧ ∃ sign digits, IsNumber s.toList sign digits ∧
      z = signed sign (Nat.ofDigitChars 10 digits 0) := by
  constructor
  · intro hok
    obtain ⟨sign, digits, hnumber⟩ := exists_isNumber (by rw [hok]; exact nofun)
    rw [stoi_of_isNumber hnumber] at hok
    split_ifs at hok with hint
    obtain rfl := Except.ok.inj hok
    exact ⟨hint, sign, digits, hnumber, rfl⟩
  · rintro ⟨hint, sign, digits, hnumber, rfl⟩
    rw [stoi_of_isNumber hnumber, if_pos hint]

/-- **Round trip.** A printed number is one, and its value is the number. -/
theorem exists_isNumber_toString (z : ℤ) :
    ∃ sign digits, IsNumber (toString z).toList sign digits ∧
      signed sign (Nat.ofDigitChars 10 digits 0) = z := by
  have hdigit : ∀ c ∈ Nat.toDigits 10 z.natAbs, c.isDigit = true := fun c hc =>
    Nat.isDigit_of_mem_toDigits (by decide) (by decide) hc
  have hvalue := Nat.ofDigitChars_ten_toDigits (n := z.natAbs)
  rw [Int.toString_eq_repr, Int.repr_eq_if]
  by_cases hneg : 0 ≤ z
  · have habs : z.toNat = z.natAbs := by omega
    refine ⟨[], _, ⟨.inl rfl, Nat.toDigits_ne_nil, hdigit, [], [], ?_, nofun, nofun⟩, ?_⟩
    · rw [if_pos hneg, Nat.toList_repr, habs, List.append_nil]
      rfl
    · have hsign : ([] : List Char) ≠ ['-'] := nofun
      rw [hvalue, signed, if_neg hsign]
      omega
  · have habs : (-z).toNat = z.natAbs := by omega
    refine ⟨['-'], _, ⟨.inr (.inr rfl), Nat.toDigits_ne_nil, hdigit, [], [], ?_, nofun, nofun⟩, ?_⟩
    · rw [if_neg hneg, String.toList_append, Nat.toList_repr, habs, List.append_nil]
      rfl
    · rw [hvalue, signed, if_pos rfl]
      omega

end Cpp
