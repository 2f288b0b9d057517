import Mathlib.Data.List.Basic

/-!
# Base64 with the URL-safe alphabet

`encode` leaves the padding out. `decode` is the lenient reader: characters outside the
alphabet are skipped, and padding ends the text.
-/

namespace Kit.Base64

/-- The character of a number below 64. -/
def charOf (n : Nat) : Char :=
  if n < 26 then Char.ofNat (65 + n)
  else if n < 52 then Char.ofNat (71 + n)
  else if n < 62 then Char.ofNat (n - 4)
  else if n = 62 then '-'
  else '_'

/-- The number of a character, in either alphabet. -/
def sextet (c : Char) : Option Nat :=
  if 'A' ≤ c ∧ c ≤ 'Z' then some (c.toNat - 65)
  else if 'a' ≤ c ∧ c ≤ 'z' then some (c.toNat - 71)
  else if '0' ≤ c ∧ c ≤ '9' then some (c.toNat + 4)
  else if c = '-' ∨ c = '+' then some 62
  else if c = '_' ∨ c = '/' then some 63
  else none

/-- `base64.urlsafe_b64encode(bytes).rstrip(b"=")`. -/
def encode : List UInt8 → List Char
  | a :: b :: c :: rest =>
      charOf (a.toNat / 4) :: charOf (a.toNat % 4 * 16 + b.toNat / 16) ::
        charOf (b.toNat % 16 * 4 + c.toNat / 64) :: charOf (c.toNat % 64) :: encode rest
  | [a, b] =>
      [charOf (a.toNat / 4), charOf (a.toNat % 4 * 16 + b.toNat / 16), charOf (b.toNat % 16 * 4)]
  | [a] => [charOf (a.toNat / 4), charOf (a.toNat % 4 * 16)]
  | [] => []

/-- The bytes of the rest of a text: `quad` characters of a group were read, `left` is what
remains of them, and `pads` padding characters followed. -/
def decodeFrom : Nat → Nat → Nat → List Char → Option (List UInt8)
  | quad, _, _, [] => if quad = 0 then some [] else none
  | quad, left, pads, c :: text =>
      if c = '=' then
        if 2 ≤ quad then
          if 4 ≤ quad + (pads + 1) then some [] else decodeFrom quad left (pads + 1) text
        else decodeFrom quad left pads text
      else
        match sextet c with
        | none => decodeFrom quad left pads text
        | some n =>
            if quad = 0 then decodeFrom 1 n 0 text
            else if quad = 1 then
              (decodeFrom 2 (n % 16) 0 text).map (UInt8.ofNat (left * 4 + n / 16) :: ·)
            else if quad = 2 then
              (decodeFrom 3 (n % 4) 0 text).map (UInt8.ofNat (left * 16 + n / 4) :: ·)
            else (decodeFrom 0 0 0 text).map (UInt8.ofNat (left * 64 + n) :: ·)

/-- `base64.urlsafe_b64decode(text)`, where `none` is a `ValueError`. -/
def decode (text : List Char) : Option (List UInt8) :=
  if text.all fun c => c.toNat < 128 then decodeFrom 0 0 0 text else none

/-- `"=" * (-len(text) % 4)`. -/
def padding (text : List Char) : List Char := List.replicate ((4 - text.length % 4) % 4) '='

/-! ## Reading what was written -/

theorem sextet_charOf : ∀ n < 64, sextet (charOf n) = some n := by decide

theorem charOf_ne_pad : ∀ n < 64, charOf n ≠ '=' := by decide

theorem charOf_ascii : ∀ n < 64, (charOf n).toNat < 128 ∧ charOf n ≠ '.' := by decide

variable {n quad left pads : Nat} {text : List Char} {bytes : List UInt8}

theorem decodeFrom_charOf (hn : n < 64) : decodeFrom quad left pads (charOf n :: text) =
    if quad = 0 then decodeFrom 1 n 0 text
    else if quad = 1 then
      (decodeFrom 2 (n % 16) 0 text).map (UInt8.ofNat (left * 4 + n / 16) :: ·)
    else if quad = 2 then
      (decodeFrom 3 (n % 4) 0 text).map (UInt8.ofNat (left * 16 + n / 4) :: ·)
    else (decodeFrom 0 0 0 text).map (UInt8.ofNat (left * 64 + n) :: ·) := by
  rw [decodeFrom, if_neg (charOf_ne_pad n hn), sextet_charOf n hn]

theorem ofNat_eq {a : UInt8} (h : n = a.toNat) : UInt8.ofNat n = a := by
  rw [h, UInt8.ofNat_toNat]

/-- A whole group gives its three bytes back. -/
theorem decodeFrom_group (a b c : UInt8) :
    decodeFrom 0 0 0 (charOf (a.toNat / 4) :: charOf (a.toNat % 4 * 16 + b.toNat / 16) ::
        charOf (b.toNat % 16 * 4 + c.toNat / 64) :: charOf (c.toNat % 64) :: text) =
      (decodeFrom 0 0 0 text).map fun rest => a :: b :: c :: rest := by
  have ha := a.toNat_lt
  have hb := b.toNat_lt
  have hc := c.toNat_lt
  rw [decodeFrom_charOf (by omega), if_pos rfl, decodeFrom_charOf (by omega),
    if_neg (by decide), if_pos rfl, decodeFrom_charOf (by omega), if_neg (by decide),
    if_neg (by decide), if_pos rfl, decodeFrom_charOf (by omega), if_neg (by decide),
    if_neg (by decide), if_neg (by decide), Option.map_map, Option.map_map]
  have hfirst : UInt8.ofNat (a.toNat / 4 * 4 + (a.toNat % 4 * 16 + b.toNat / 16) / 16) = a :=
    ofNat_eq (by omega)
  have hsecond : UInt8.ofNat ((a.toNat % 4 * 16 + b.toNat / 16) % 16 * 16 +
      (b.toNat % 16 * 4 + c.toNat / 64) / 4) = b := ofNat_eq (by omega)
  have hthird : UInt8.ofNat ((b.toNat % 16 * 4 + c.toNat / 64) % 4 * 64 + c.toNat % 64) = c :=
    ofNat_eq (by omega)
  rw [hfirst, hsecond, hthird]
  rfl

theorem decodeFrom_two (a b : UInt8) :
    decodeFrom 0 0 0 [charOf (a.toNat / 4), charOf (a.toNat % 4 * 16 + b.toNat / 16),
      charOf (b.toNat % 16 * 4), '='] = some [a, b] := by
  have ha := a.toNat_lt
  have hb := b.toNat_lt
  rw [decodeFrom_charOf (by omega), if_pos rfl, decodeFrom_charOf (by omega),
    if_neg (by decide), if_pos rfl, decodeFrom_charOf (by omega), if_neg (by decide),
    if_neg (by decide), if_pos rfl, decodeFrom, if_pos rfl, if_pos (by decide),
    if_pos (by decide)]
  have hfirst : UInt8.ofNat (a.toNat / 4 * 4 + (a.toNat % 4 * 16 + b.toNat / 16) / 16) = a :=
    ofNat_eq (by omega)
  have hsecond : UInt8.ofNat ((a.toNat % 4 * 16 + b.toNat / 16) % 16 * 16 +
      b.toNat % 16 * 4 / 4) = b := ofNat_eq (by omega)
  rw [hfirst, hsecond]
  rfl

theorem decodeFrom_one (a : UInt8) :
    decodeFrom 0 0 0 [charOf (a.toNat / 4), charOf (a.toNat % 4 * 16), '=', '='] = some [a] := by
  have ha := a.toNat_lt
  rw [decodeFrom_charOf (by omega), if_pos rfl, decodeFrom_charOf (by omega),
    if_neg (by decide), if_pos rfl, decodeFrom, if_pos rfl, if_pos (by decide),
    if_neg (by decide), decodeFrom, if_pos rfl, if_pos (by decide), if_pos (by decide)]
  have hfirst : UInt8.ofNat (a.toNat / 4 * 4 + a.toNat % 4 * 16 / 16) = a := ofNat_eq (by omega)
  rw [hfirst]
  rfl

theorem padding_cons (a b c d : Char) : padding (a :: b :: c :: d :: text) = padding text := by
  unfold padding
  rw [List.length_cons, List.length_cons, List.length_cons, List.length_cons,
    show text.length + 1 + 1 + 1 + 1 = text.length + 4 from rfl, Nat.add_mod_right]

theorem decodeFrom_encode : ∀ bytes : List UInt8,
    decodeFrom 0 0 0 (encode bytes ++ padding (encode bytes)) = some bytes
  | a :: b :: c :: rest => by
      rw [encode, padding_cons, List.cons_append, List.cons_append, List.cons_append,
        List.cons_append, decodeFrom_group, decodeFrom_encode rest]
      rfl
  | [a, b] => decodeFrom_two a b
  | [a] => decodeFrom_one a
  | [] => rfl

/-- The text is of ASCII characters, and none of them is a dot. -/
theorem encode_ascii : ∀ bytes : List UInt8, ∀ c ∈ encode bytes, c.toNat < 128 ∧ c ≠ '.'
  | a :: b :: c :: rest => by
      have ha := a.toNat_lt
      have hb := b.toNat_lt
      have hc := c.toNat_lt
      intro d hd
      simp only [encode, List.mem_cons] at hd
      rcases hd with rfl | rfl | rfl | rfl | hd
      · exact charOf_ascii _ (by omega)
      · exact charOf_ascii _ (by omega)
      · exact charOf_ascii _ (by omega)
      · exact charOf_ascii _ (by omega)
      · exact encode_ascii rest d hd
  | [a, b] => by
      have ha := a.toNat_lt
      have hb := b.toNat_lt
      intro d hd
      simp only [encode, List.mem_cons, List.not_mem_nil, or_false] at hd
      rcases hd with rfl | rfl | rfl
      · exact charOf_ascii _ (by omega)
      · exact charOf_ascii _ (by omega)
      · exact charOf_ascii _ (by omega)
  | [a] => by
      have ha := a.toNat_lt
      intro d hd
      simp only [encode, List.mem_cons, List.not_mem_nil, or_false] at hd
      rcases hd with rfl | rfl
      · exact charOf_ascii _ (by omega)
      · exact charOf_ascii _ (by omega)
  | [] => nofun

theorem decode_encode (bytes : List UInt8) :
    decode (encode bytes ++ padding (encode bytes)) = some bytes := by
  unfold decode
  rw [if_pos, decodeFrom_encode]
  rw [List.all_append, Bool.and_eq_true, List.all_eq_true, List.all_eq_true]
  refine ⟨fun c hc => decide_eq_true (encode_ascii bytes c hc).1, fun c hc => ?_⟩
  rw [List.eq_of_mem_replicate hc]
  decide

end Kit.Base64
