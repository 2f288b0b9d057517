import Mathlib.Algebra.Group.Nat.Defs

/-!
# Finite floats of Python

A float by the decimal digits that `repr` shows, the shortest ones that read back as the same
double. `repr` writes them with an exponent outside of a range, and a decimal column keeps
their value.
-/

namespace Kit

/-- `± digits * 10 ^ exponent`, the shortest digits of a double. -/
structure PyFloat where
  negative : Bool
  digits : Nat
  exponent : Int
  normal : digits = 0 ∧ exponent = 0 ∨ digits % 10 ≠ 0
  short : digits < 10 ^ 17
  deriving DecidableEq, Repr

namespace PyFloat

/-- The digits as a text. -/
def shown (x : PyFloat) : List Char := Nat.toDigits 10 x.digits

/-- The place of the point, counted from the first digit. -/
def point (x : PyFloat) : Int := x.shown.length + x.exponent

/-- `repr` writes an exponent. -/
def scientific (x : PyFloat) : Bool := x.point ≤ -4 || 16 < x.point

def sign (negative : Bool) : List Char := if negative then ['-'] else []

/-- The exponent, with its sign and at least two digits. -/
def exponentText (e : Int) : List Char :=
  let ds := Nat.toDigits 10 e.natAbs
  'e' :: (if e < 0 then '-' else '+') :: (if ds.length < 2 then '0' :: ds else ds)

/-- The digits with the point among them, before them or after them. -/
def fixedText (x : PyFloat) : List Char :=
  if x.point ≤ 0 then '0' :: '.' :: (List.replicate (-x.point).toNat '0' ++ x.shown)
  else if x.shown.length ≤ x.point then
    x.shown ++ List.replicate (x.point.toNat - x.shown.length) '0' ++ ['.', '0']
  else x.shown.take x.point.toNat ++ '.' :: x.shown.drop x.point.toNat

def scientificText (x : PyFloat) : List Char :=
  (match x.shown with
    | first :: [] => [first]
    | first :: rest => first :: '.' :: rest
    | [] => []) ++ exponentText (x.point - 1)

/-- `repr(x)`. -/
def repr (x : PyFloat) : String :=
  String.ofList (sign x.negative ++ if x.scientific then x.scientificText else x.fixedText)

/-! ## Values -/

/-- `± n`. -/
def signed (negative : Bool) (n : Nat) : Int := if negative then -n else n

/-- The double next to a natural number, the even one of two. -/
def round53 (n : Nat) : Nat :=
  if n < 2 ^ 53 then n
  else
    let unit := 2 ^ (n.log2 - 52)
    let rest := n % unit
    if unit < 2 * rest ∨ unit = 2 * rest ∧ n / unit % 2 = 1 then (n / unit + 1) * unit
    else n / unit * unit

/-- The integer that equals the float, if there is one. -/
def integer? (x : PyFloat) : Option Int :=
  if 0 ≤ x.exponent then
    some (signed x.negative (round53 (x.digits * 10 ^ x.exponent.toNat)))
  else none

/-- `int(x)`. -/
def trunc (x : PyFloat) : Int :=
  (integer? x).getD (signed x.negative (x.digits / 10 ^ (-x.exponent).toNat))

/-- The same float without the sign of a zero. -/
def unsigned (x : PyFloat) : PyFloat :=
  { x with negative := x.negative && x.digits ≠ 0 }

/-- `x == y`. -/
def eq (x y : PyFloat) : Bool := x.unsigned = y.unsigned

/-- The decimal value, if it is an integer. -/
def decimal? (x : PyFloat) : Option Int :=
  if 0 ≤ x.exponent then some (signed x.negative (x.digits * 10 ^ x.exponent.toNat)) else none

/-- The value with which a `numeric` column keeps the float, if it shows it without a point. -/
def wide? (x : PyFloat) : Option Int :=
  if 16 < x.point then some (signed x.negative (x.digits * 10 ^ x.exponent.toNat)) else none

theorem unsigned_unsigned (x : PyFloat) : x.unsigned.unsigned = x.unsigned := by
  simp [unsigned]

theorem wide?_unsigned (x : PyFloat) : x.unsigned.wide? = none ↔ x.wide? = none := by
  have hpoint : x.unsigned.point = x.point := rfl
  unfold wide?
  rw [hpoint]
  split
  · exact iff_of_false nofun nofun
  · exact Iff.rfl

/-- Only a float other than zero has an integer that wide. -/
theorem digits_of_wide? {x : PyFloat} {n : Int} (h : x.wide? = some n) :
    n = 0 ↔ x.digits = 0 := by
  obtain ⟨-, heq⟩ := Option.ite_none_right_eq_some.1 h
  obtain rfl := Option.some.inj heq
  have hpower : 10 ^ x.exponent.toNat ≠ 0 := Nat.ne_of_gt (Nat.pow_pos (by decide))
  unfold signed
  split
  · rw [Int.neg_eq_zero, Int.natCast_eq_zero, Nat.mul_eq_zero, or_iff_left hpower]
  · rw [Int.natCast_eq_zero, Nat.mul_eq_zero, or_iff_left hpower]

/-! ## The first character -/

theorem shown_digit {c : Char} (x : PyFloat) (h : c ∈ x.shown) : c.isDigit :=
  Nat.isDigit_of_mem_toDigits (by decide) (by decide) h

theorem shown_cons (x : PyFloat) : ∃ c rest, x.shown = c :: rest ∧ c.isDigit = true := by
  cases hshown : x.shown with
  | nil => exact absurd hshown Nat.toDigits_ne_nil
  | cons c rest =>
      refine ⟨c, rest, rfl, x.shown_digit ?_⟩
      rw [hshown]
      exact List.mem_cons_self

theorem fixedText_head (x : PyFloat) : ∃ c rest, x.fixedText = c :: rest ∧ c.isDigit = true := by
  obtain ⟨c, rest, hshown, hdigit⟩ := x.shown_cons
  unfold fixedText
  split
  next => exact ⟨'0', _, rfl, by decide⟩
  next hpoint =>
    split
    next =>
      rw [hshown]
      exact ⟨c, _, rfl, hdigit⟩
    next =>
      -- the point is after the first digit
      obtain ⟨n, hn⟩ : ∃ n, x.point.toNat = n + 1 := ⟨x.point.toNat - 1, by omega⟩
      rw [hshown, hn]
      exact ⟨c, _, rfl, hdigit⟩

theorem scientificText_head (x : PyFloat) :
    ∃ c rest, x.scientificText = c :: rest ∧ c.isDigit = true := by
  obtain ⟨c, rest, hshown, hdigit⟩ := x.shown_cons
  unfold scientificText
  rw [hshown]
  cases rest with
  | nil => exact ⟨c, _, rfl, hdigit⟩
  | cons d rest => exact ⟨c, _, rfl, hdigit⟩

/-- A float begins with a digit or a sign. -/
theorem repr_head (x : PyFloat) :
    ∃ c rest, x.repr.toList = c :: rest ∧ (c = '-' ∨ c.isDigit = true) := by
  have htext : ∃ c rest, (if x.scientific then x.scientificText else x.fixedText) = c :: rest ∧
      c.isDigit = true := by
    split
    next => exact x.scientificText_head
    next => exact x.fixedText_head
  obtain ⟨c, rest, heq, hdigit⟩ := htext
  unfold repr
  rw [String.toList_ofList, heq]
  cases x.negative with
  | true => exact ⟨'-', _, rfl, .inl rfl⟩
  | false => exact ⟨c, _, rfl, .inr hdigit⟩

/-- A float has a point or an exponent. -/
theorem repr_marked (x : PyFloat) : '.' ∈ x.repr.toList ∨ 'e' ∈ x.repr.toList := by
  unfold repr
  rw [String.toList_ofList]
  split
  next =>
    refine .inr (List.mem_append_right _ ?_)
    unfold scientificText exponentText
    exact List.mem_append_right _ List.mem_cons_self
  next =>
    refine .inl (List.mem_append_right _ ?_)
    unfold fixedText
    split
    · exact List.mem_cons_of_mem _ List.mem_cons_self
    · split
      · exact List.mem_append_right _ List.mem_cons_self
      · exact List.mem_append_right _ List.mem_cons_self

end PyFloat

end Kit
