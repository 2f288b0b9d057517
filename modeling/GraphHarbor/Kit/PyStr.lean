import Mathlib.Algebra.Group.Nat.Defs
import Mathlib.Data.List.Lex
import Mathlib.Order.Fin.Basic

/-!
# Strings and integers of Python

A string is a list of code points, lone surrogates included, and strings are compared code
point by code point. `int` reads what Python's `int(s)` reads, `str` writes a number.
-/

namespace Kit

abbrev CodePoint := Fin 0x110000

abbrev PyStr := List CodePoint

namespace PyStr

def ofChar (c : Char) : CodePoint :=
  ⟨c.toNat, by
    rcases c.valid with h | ⟨-, h⟩
    · exact Nat.lt_trans h (by decide)
    · exact h⟩

def ofString (s : String) : PyStr := s.toList.map ofChar

/-! ## Reading -/

/-- The zeros of the decimal digits of Unicode 14 above ASCII, each followed by its other nine
digits. -/
def wideZeros : List Nat :=
  [1632, 1776, 1984, 2406, 2534, 2662, 2790, 2918, 3046, 3174, 3302, 3430, 3558, 3664,
    3792, 3872, 4160, 4240, 6112, 6160, 6470, 6608, 6784, 6800, 6992, 7088, 7232, 7248, 42528,
    43216, 43264, 43472, 43504, 43600, 44016, 65296, 66720, 68912, 69734, 69872, 69942, 70096,
    70384, 70736, 70864, 71248, 71360, 71472, 71904, 72016, 72784, 73040, 73120, 92768, 92864,
    93008, 120782, 120792, 120802, 120812, 120822, 123200, 123632, 125264, 130032]

def decimal (c : CodePoint) : Option Nat :=
  ((48 :: wideZeros).find? fun first => first ≤ c.val && c.val < first + 10).map fun first =>
    c.val - first

/-- The spaces around a number. -/
def spaces : List Nat :=
  [0x9, 0xa, 0xb, 0xc, 0xd, 0x20, 0x85, 0xa0, 0x1680, 0x2000, 0x2001, 0x2002, 0x2003, 0x2004,
    0x2005, 0x2006, 0x2007, 0x2008, 0x2009, 0x200a, 0x2028, 0x2029, 0x202f, 0x205f, 0x3000]

def isSpace (c : CodePoint) : Bool := c.val ∈ spaces

def strip (t : PyStr) : PyStr := ((t.dropWhile isSpace).reverse.dropWhile isSpace).reverse

/-- Digits, with at most one underscore between two of them; `inside` says that a digit came
just before. -/
def digits : Bool → PyStr → Option (List Nat)
  | inside, [] => if inside then some [] else none
  | inside, c :: t =>
      match decimal c with
      | some d => (digits true t).map (d :: ·)
      | none => if inside && c = ofChar '_' then digits false t else none

/-- `sys.int_info.default_max_str_digits`, for both directions. -/
def maxStrDigits : Nat := 4300

def magnitude (t : PyStr) : Option Nat :=
  match digits false t with
  | none => none
  | some ds => if ds.length ≤ maxStrDigits then some (ds.foldl (fun n d => 10 * n + d) 0) else none

/-- `int(t)`, where `none` is a `ValueError`. -/
def int (t : PyStr) : Option Int :=
  match strip t with
  | [] => none
  | c :: rest =>
      if c = ofChar '-' then (magnitude rest).map fun n => -(n : Int)
      else if c = ofChar '+' then (magnitude rest).map fun n => (n : Int)
      else (magnitude (c :: rest)).map fun n => (n : Int)

/-- `str(n)`, where `none` is a `ValueError`. -/
def str (n : Nat) : Option PyStr :=
  let t := (Nat.toDigits 10 n).map ofChar
  if t.length ≤ maxStrDigits then some t else none

/-- `t.split(sep, 1)` in two parts, if it has two. -/
def splitOnce (sep : CodePoint) : PyStr → Option (PyStr × PyStr)
  | [] => none
  | c :: t =>
      if c = sep then some ([], t) else (splitOnce sep t).map fun parts => (c :: parts.1, parts.2)

theorem splitOnce_append {sep : CodePoint} {a b : PyStr} (h : sep ∉ a) :
    splitOnce sep (a ++ sep :: b) = some (a, b) := by
  induction a with
  | nil => simp [splitOnce]
  | cons c a ih =>
      rw [List.mem_cons, not_or] at h
      rw [List.cons_append, splitOnce, if_neg (Ne.symm h.1), ih h.2]
      rfl

theorem append_of_splitOnce {sep : CodePoint} {t a b : PyStr} (h : splitOnce sep t = some (a, b)) :
    t = a ++ sep :: b := by
  induction t generalizing a with
  | nil => exact nomatch h
  | cons c t ih =>
      unfold splitOnce at h
      split at h
      · next hc =>
          obtain ⟨rfl, rfl⟩ := Prod.mk.inj (Option.some.inj h)
          rw [hc]
          rfl
      · obtain ⟨parts, hparts, heq⟩ := Option.map_eq_some_iff.1 h
        obtain ⟨rfl, rfl⟩ := Prod.mk.inj heq
        rw [ih hparts]
        rfl

/-! ## Reading what was written -/

theorem ofChar_digit {c : Char} (h : c.isDigit = true) :
    48 ≤ (ofChar c).val ∧ (ofChar c).val ≤ 57 := by
  rw [Char.isDigit, Bool.and_eq_true, decide_eq_true_iff, decide_eq_true_iff] at h
  exact ⟨h.1, h.2⟩

theorem decimal_ofChar {c : Char} (h : c.isDigit = true) :
    decimal (ofChar c) = some (c.toNat - '0'.toNat) := by
  have hrange := ofChar_digit h
  have hfound : (decide (48 ≤ (ofChar c).val) && decide ((ofChar c).val < 48 + 10)) = true := by
    simp only [Bool.and_eq_true, decide_eq_true_eq]
    omega
  rw [decimal, List.find?_cons_of_pos (by exact hfound)]
  rfl

theorem isSpace_ofChar {c : Char} (h : c.isDigit = true) : isSpace (ofChar c) = false := by
  have hrange := ofChar_digit h
  simp only [isSpace, spaces, List.mem_cons, List.not_mem_nil, or_false, decide_eq_false_iff_not]
  omega

/-- No digit is the character with the code `n`, below the digits. -/
theorem ofChar_ne_of_digit {c d : Char} (h : c.isDigit = true) (hd : d.isDigit = false) :
    ofChar c ≠ ofChar d := by
  intro heq
  have hval : c.toNat = d.toNat := Fin.mk.inj heq
  have hcd : c = d := Char.toNat_inj.1 hval
  rw [hcd, hd] at h
  exact Bool.false_ne_true h

theorem strip_ofChar {cs : List Char} (h : ∀ c ∈ cs, c.isDigit = true) :
    strip (cs.map ofChar) = cs.map ofChar := by
  have hspace : ∀ t : PyStr, (∀ c ∈ t, isSpace c = false) → t.dropWhile isSpace = t := by
    intro t ht
    cases t with
    | nil => rfl
    | cons c t => exact List.dropWhile_cons_of_neg (by simp [ht c List.mem_cons_self])
  have hall : ∀ c ∈ cs.map ofChar, isSpace c = false := by
    intro c hc
    obtain ⟨c, hmem, rfl⟩ := List.mem_map.1 hc
    exact isSpace_ofChar (h c hmem)
  rw [strip, hspace _ hall, hspace, List.reverse_reverse]
  intro c hc
  exact hall c (List.mem_reverse.1 hc)

theorem digits_ofChar {cs : List Char} (h : ∀ c ∈ cs, c.isDigit = true) (inside : Bool)
    (hcs : inside = true ∨ cs ≠ []) :
    digits inside (cs.map ofChar) = some (cs.map fun c => c.toNat - '0'.toNat) := by
  induction cs generalizing inside with
  | nil =>
      obtain rfl : inside = true := by simpa using hcs
      rfl
  | cons c cs ih =>
      have hrest := ih (fun d hd => h d (List.mem_cons_of_mem c hd)) true (.inl rfl)
      rw [List.map_cons, digits, decimal_ofChar (h c List.mem_cons_self), hrest]
      rfl

theorem toDigits_isDigit (n : Nat) : ∀ c ∈ Nat.toDigits 10 n, c.isDigit = true := fun _ hc =>
  Nat.isDigit_of_mem_toDigits (by decide) (by decide) hc

/-- Neither sign nor hyphen is among the digits of a number. -/
theorem not_mem_str {n : Nat} {t : PyStr} (h : str n = some t) {d : Char}
    (hd : d.isDigit = false) : ofChar d ∉ t := by
  obtain ⟨-, rfl⟩ : _ ∧ (Nat.toDigits 10 n).map ofChar = t := by
    simpa [str, Option.ite_none_right_eq_some] using h
  intro hmem
  obtain ⟨c, hc, heq⟩ := List.mem_map.1 hmem
  exact ofChar_ne_of_digit (toDigits_isDigit n c hc) hd heq

/-- `int(str(n))` is `n`, whenever `str(n)` returns. -/
theorem int_str {n : Nat} {t : PyStr} (h : str n = some t) : int t = some (n : Int) := by
  have hlength : (Nat.toDigits 10 n).length ≤ maxStrDigits := by
    by_contra hlong
    rw [str, List.length_map, if_neg hlong] at h
    exact nomatch h
  rw [str, List.length_map, if_pos hlength] at h
  obtain rfl := Option.some.inj h
  have hdigits := toDigits_isDigit n
  have hvalue : magnitude ((Nat.toDigits 10 n).map ofChar) = some n := by
    rw [magnitude, digits_ofChar hdigits false (.inr Nat.toDigits_ne_nil)]
    show (if _ then _ else _) = _
    rw [List.length_map, if_pos hlength, List.foldl_map, ← Nat.ofDigitChars_eq_foldl,
      Nat.ofDigitChars_ten_toDigits]
  rw [int, strip_ofChar hdigits]
  cases hchars : Nat.toDigits 10 n with
  | nil => exact absurd hchars Nat.toDigits_ne_nil
  | cons c cs =>
      have hc : c.isDigit = true := hdigits c (by rw [hchars]; exact List.mem_cons_self)
      rw [hchars, List.map_cons] at hvalue
      show (if _ then _ else if _ then _ else _) = _
      rw [if_neg (ofChar_ne_of_digit hc (by decide)), if_neg (ofChar_ne_of_digit hc (by decide)),
        hvalue]
      rfl

theorem decimal_lt {c : CodePoint} {d : Nat} (h : decimal c = some d) : d < 10 := by
  obtain ⟨first, hfirst, rfl⟩ := Option.map_eq_some_iff.1 h
  have hrange := List.find?_some hfirst
  simp only [Bool.and_eq_true, decide_eq_true_eq] at hrange
  omega

theorem digits_lt {t : PyStr} {inside : Bool} {ds : List Nat} (h : digits inside t = some ds) :
    ∀ d ∈ ds, d < 10 := by
  induction t generalizing inside ds with
  | nil =>
      cases inside with
      | false => exact nomatch h
      | true =>
          obtain rfl := Option.some.inj h
          exact nofun
  | cons c t ih =>
      unfold digits at h
      cases hc : decimal c with
      | some d =>
          rw [hc] at h
          obtain ⟨rest, hrest, rfl⟩ := Option.map_eq_some_iff.1 h
          intro d' hd'
          rcases List.mem_cons.1 hd' with rfl | hd'
          · exact decimal_lt hc
          · exact ih hrest d' hd'
      | none =>
          rw [hc] at h
          exact ih (Option.ite_none_right_eq_some.1 h).2

theorem foldl_lt {ds : List Nat} (h : ∀ d ∈ ds, d < 10) {n k : Nat} (hn : n < 10 ^ k) :
    ds.foldl (fun n d => 10 * n + d) n < 10 ^ (k + ds.length) := by
  induction ds generalizing n k with
  | nil => exact hn
  | cons d ds ih =>
      have hd := h d List.mem_cons_self
      have hnext : 10 * n + d < 10 ^ (k + 1) := by
        rw [Nat.pow_succ]
        omega
      have hrest := ih (fun d' hd' => h d' (List.mem_cons_of_mem d hd')) hnext
      rw [List.length_cons, Nat.add_comm ds.length 1, ← Nat.add_assoc]
      exact hrest

theorem magnitude_length {t : PyStr} {n : Nat} (h : magnitude t = some n) :
    (Nat.toDigits 10 n).length ≤ maxStrDigits := by
  unfold magnitude at h
  split at h
  · exact nomatch h
  · next ds hds =>
      obtain ⟨hlength, heq⟩ := Option.ite_none_right_eq_some.1 h
      obtain rfl := Option.some.inj heq
      rw [Nat.length_toDigits_le_iff (by decide) (by decide)]
      have hlt := foldl_lt (digits_lt hds) (n := 0) (k := 0) (by decide)
      rw [Nat.zero_add] at hlt
      exact Nat.lt_of_lt_of_le hlt (Nat.pow_le_pow_right (by decide) hlength)

/-- A code point that no integer has, neither in it nor around it. -/
def foreign (c : CodePoint) : Bool :=
  (decimal c).isNone && !isSpace c && c ∉ ['_', '-', '+'].map ofChar

theorem mem_strip {c : CodePoint} {t : PyStr} (h : c ∈ t) (hc : isSpace c = false) :
    c ∈ strip t := by
  have hdrop (t : PyStr) (h : c ∈ t) : c ∈ t.dropWhile isSpace := by
    rw [← List.takeWhile_append_dropWhile (p := isSpace) (l := t), List.mem_append] at h
    refine h.resolve_left fun hspace => ?_
    rw [List.all_eq_true.1 List.all_takeWhile c hspace] at hc
    exact nomatch hc
  exact List.mem_reverse.2 (hdrop _ (List.mem_reverse.2 (hdrop t h)))

theorem digits_foreign {c : CodePoint} {t : PyStr} (h : c ∈ t) (hc : foreign c = true)
    (inside : Bool) : digits inside t = none := by
  simp only [foreign, List.map_cons, List.map_nil, Bool.and_eq_true, Option.isNone_iff_eq_none,
    decide_eq_true_eq, List.mem_cons, List.not_mem_nil, or_false, not_or] at hc
  obtain ⟨⟨hdecimal, -⟩, hunderscore, -⟩ := hc
  induction t generalizing inside with
  | nil => cases h
  | cons d t ih =>
      rcases List.mem_cons.1 h with rfl | h
      · have hno : ¬ (inside && c = ofChar '_') = true := by
          rw [Bool.and_eq_true, decide_eq_true_eq]
          exact fun hcut => hunderscore hcut.2
        rw [digits, hdecimal]
        exact if_neg hno
      · cases hd : decimal d with
        | none =>
            rw [digits, hd]
            show (if _ then digits false t else none) = none
            rw [ih h false]
            exact ite_self none
        | some n =>
            rw [digits, hd]
            show (digits true t).map (n :: ·) = none
            rw [ih h true]
            rfl

/-- A text with a code point that no integer has is no integer. -/
theorem int_foreign {c : CodePoint} {t : PyStr} (h : c ∈ t) (hc : foreign c = true) :
    int t = none := by
  have hmagnitude {t : PyStr} (h : c ∈ t) : magnitude t = none := by
    rw [magnitude, digits_foreign h hc]
  have hspace : isSpace c = false := by
    simp only [foreign, Bool.and_eq_true, Bool.not_eq_true'] at hc
    exact hc.1.2
  have hsign : c ≠ ofChar '-' ∧ c ≠ ofChar '+' := by
    simp only [foreign, List.map_cons, List.map_nil, Bool.and_eq_true, decide_eq_true_eq,
      List.mem_cons, List.not_mem_nil, or_false, not_or] at hc
    exact hc.2.2
  have hstrip := mem_strip h hspace
  unfold int
  cases hcs : strip t with
  | nil => rfl
  | cons d rest =>
      rw [hcs] at hstrip
      dsimp only
      split
      next hd =>
        rw [hmagnitude ((List.mem_cons.1 hstrip).resolve_left fun heq => hsign.1 (heq.trans hd))]
        rfl
      next =>
        split
        next hd =>
          rw [hmagnitude ((List.mem_cons.1 hstrip).resolve_left fun heq => hsign.2 (heq.trans hd))]
          rfl
        next =>
          rw [hmagnitude hstrip]
          rfl

/-- A number that was read can be written again. -/
theorem int_length {t : PyStr} {n : Int} (h : int t = some n) :
    (Nat.toDigits 10 n.natAbs).length ≤ maxStrDigits := by
  have hread {t : PyStr} {k : Int} (hk : ((magnitude t).bind fun m => some (m : Int)) = some k) :
      (Nat.toDigits 10 k.natAbs).length ≤ maxStrDigits := by
    obtain ⟨m, hm, heq⟩ := Option.bind_eq_some_iff.1 hk
    obtain rfl := Option.some.inj heq
    exact magnitude_length hm
  unfold int at h
  split at h
  · exact nomatch h
  · split at h
    · obtain ⟨k, hk, rfl⟩ := Option.map_eq_some_iff.1 h
      rw [Int.natAbs_neg]
      exact hread hk
    · split at h
      · obtain ⟨k, hk, rfl⟩ := Option.map_eq_some_iff.1 h
        exact hread hk
      · obtain ⟨k, hk, rfl⟩ := Option.map_eq_some_iff.1 h
        exact hread hk

example : int (ofString " -1_0\n") = some (-10) := by decide
example : int (ofString "1__0") = none := by decide

end PyStr

end Kit
