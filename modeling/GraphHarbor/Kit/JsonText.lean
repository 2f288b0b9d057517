import Mathlib.Data.List.Basic

/-!
# JSON text

Values with numbers as literals, their compact text without ASCII escapes, and a reader.
A text is a list of Unicode characters. `loads_smear` says what the reader makes of a text
in which some characters were overwritten by line feeds: the value, or an error if one of
them was in the value.
-/

namespace Kit.JsonText

abbrev Text := List Char

/-! ## Values -/

def isNumberChar (c : Char) : Bool :=
  c.isDigit || c = '-' || c = '+' || c = '.' || c = 'e' || c = 'E'

def isDigits (t : Text) : Bool := !t.isEmpty && t.all Char.isDigit

/-- Without leading zeros. -/
def isIntPart (t : Text) : Bool := t = ['0'] || isDigits t && t.head? ≠ some '0'

def isExponent : Text → Bool
  | '+' :: t | '-' :: t => isDigits t
  | t => isDigits t

/-- An unsigned literal: an integer part, a fraction, an exponent. -/
def isMagnitude (t : Text) : Bool :=
  let mantissa := t.takeWhile fun c => c ≠ 'e' && c ≠ 'E'
  let exponent := t.dropWhile fun c => c ≠ 'e' && c ≠ 'E'
  let int := mantissa.takeWhile (· ≠ '.')
  let fraction := mantissa.dropWhile (· ≠ '.')
  isIntPart int && (fraction.isEmpty || isDigits fraction.tail) &&
    (exponent.isEmpty || isExponent exponent.tail)

/-- The grammar of a number. -/
def isNumber (t : Text) : Bool :=
  !t.isEmpty && t.all isNumberChar &&
    match t with
    | '-' :: t => isMagnitude t
    | t => isMagnitude t

/-- A number is its literal. -/
structure Number where
  literal : Text
  valid : isNumber literal = true

/-- JSON values. The members of an object are in document order. -/
inductive Value where
  | null
  | bool (b : Bool)
  | num (n : Number)
  | str (s : Text)
  | arr (items : List Value)
  | obj (members : List (Text × Value))

/-! ## The text of a value -/

def hexDigit (n : Nat) : Char := if n < 10 then Char.ofNat (48 + n) else Char.ofNat (87 + n)

/-- `"`, the backslash and the control characters are escaped, and nothing else. -/
def escapeChar (c : Char) : Text :=
  if c = '"' then ['\\', '"']
  else if c = '\\' then ['\\', '\\']
  else if c = '\n' then ['\\', 'n']
  else if c = '\r' then ['\\', 'r']
  else if c = '\t' then ['\\', 't']
  else if c = '\x08' then ['\\', 'b']
  else if c = '\x0c' then ['\\', 'f']
  else if c.toNat < 32 then
    ['\\', 'u', '0', '0', hexDigit (c.toNat / 16), hexDigit (c.toNat % 16)]
  else [c]

def dumpsString (s : Text) : Text := '"' :: (s.flatMap escapeChar ++ ['"'])

mutual

/-- `json.dumps(value, ensure_ascii=False, separators=(",", ":"))`. -/
def Value.dumps : Value → Text
  | .null => ['n', 'u', 'l', 'l']
  | .bool true => ['t', 'r', 'u', 'e']
  | .bool false => ['f', 'a', 'l', 's', 'e']
  | .num n => n.literal
  | .str s => dumpsString s
  | .arr items => '[' :: (dumpsItems items ++ [']'])
  | .obj members => '{' :: (dumpsMembers members ++ ['}'])

def dumpsItems : List Value → Text
  | [] => []
  | [a] => a.dumps
  | a :: b :: rest => a.dumps ++ ',' :: dumpsItems (b :: rest)

def dumpsMembers : List (Text × Value) → Text
  | [] => []
  | [(k, a)] => dumpsString k ++ ':' :: a.dumps
  | (k, a) :: m :: rest => dumpsString k ++ ':' :: (a.dumps ++ ',' :: dumpsMembers (m :: rest))

end

/-! ## The reader -/

def isSpace (c : Char) : Bool := c = ' ' || c = '\t' || c = '\n' || c = '\r'

def skip (t : Text) : Text := t.dropWhile isSpace

def hexValue (c : Char) : Option Nat :=
  if '0' ≤ c ∧ c ≤ '9' then some (c.toNat - 48)
  else if 'a' ≤ c ∧ c ≤ 'f' then some (c.toNat - 87)
  else if 'A' ≤ c ∧ c ≤ 'F' then some (c.toNat - 55)
  else none

def unescape (c : Char) : Option Char :=
  if c = '"' then some '"'
  else if c = '\\' then some '\\'
  else if c = '/' then some '/'
  else if c = 'n' then some '\n'
  else if c = 'r' then some '\r'
  else if c = 't' then some '\t'
  else if c = 'b' then some '\x08'
  else if c = 'f' then some '\x0c'
  else none

/-- Where the reader of a string is: in an escape `first` is the first surrogate of a pair
and `digits` are the hexadecimal digits so far. -/
inductive Mode
  | plain
  | escape
  | hex (first : Option Nat) (digits : List Nat)
  | second (first : Nat)
  | secondEscape (first : Nat)

/-- What one more character does. -/
inductive Effect
  | fail
  | close
  | emit (c : Char)
  | more (m : Mode)

/-- Four hexadecimal digits were read. A surrogate stands only in a pair. -/
def codeUnit (n : Nat) : Option Nat → Effect
  | none =>
      if 0xd800 ≤ n ∧ n < 0xdc00 then .more (.second n)
      else if 0xdc00 ≤ n ∧ n < 0xe000 then .fail
      else .emit (Char.ofNat n)
  | some first =>
      if 0xdc00 ≤ n ∧ n < 0xe000 then
        .emit (Char.ofNat (0x10000 + (first - 0xd800) * 0x400 + (n - 0xdc00)))
      else .fail

/-- The next character. Control characters are not allowed in a string. -/
def Mode.next : Mode → Char → Effect
  | .plain, c =>
      if c = '"' then .close
      else if c = '\\' then .more .escape
      else if c.toNat < 32 then .fail
      else .emit c
  | .escape, c =>
      if c = 'u' then .more (.hex none [])
      else match unescape c with
        | none => .fail
        | some c => .emit c
  | .hex first digits, c =>
      match hexValue c with
      | none => .fail
      | some d =>
          if digits.length < 3 then .more (.hex first (digits ++ [d]))
          else codeUnit ((digits ++ [d]).foldl (fun n d => n * 16 + d) 0) first
  | .second first, c => if c = '\\' then .more (.secondEscape first) else .fail
  | .secondEscape first, c => if c = 'u' then .more (.hex (some first) []) else .fail

def consTo (c : Char) (r : Text × Text) : Text × Text := (c :: r.1, r.2)

/-- The characters up to the closing quote, and the rest. -/
def readChars : Mode → Text → Option (Text × Text)
  | _, [] => none
  | m, c :: t =>
      match m.next c with
      | .fail => none
      | .close => some ([], t)
      | .emit c => (readChars .plain t).map (consTo c)
      | .more m => readChars m t

def readString (t : Text) : Option (Text × Text) := readChars .plain t

/-- The literal is as long as possible. -/
def readNumber (t : Text) : Option (Value × Text) :=
  if h : isNumber (t.takeWhile isNumberChar) = true then
    some (.num ⟨t.takeWhile isNumberChar, h⟩, t.dropWhile isNumberChar)
  else none

/-- The rest of a keyword. -/
def readWord (word : Text) (v : Value) (t : Text) : Option (Value × Text) :=
  if word.isPrefixOf t then some (v, t.drop word.length) else none

/-- What follows an item: the closing bracket or another item. -/
def afterItem {α : Type} (close : Char) (more : Text → Option (List α × Text)) (a : α)
    (t : Text) : Option (List α × Text) :=
  match skip t with
  | [] => none
  | c :: t =>
      if c = close then some ([a], t)
      else if c = ',' then (more t).map fun r => (a :: r.1, r.2)
      else none

/-- A key and its colon. -/
def readKey (t : Text) : Option (Text × Text) :=
  match skip t with
  | [] => none
  | c :: t =>
      if c = '"' then
        (readString t).bind fun r =>
          match skip r.2 with
          | [] => none
          | c :: t => if c = ':' then some (r.1, t) else none
      else none

/-- The items up to the closing bracket, if there are any. -/
def enclosed {α : Type} (close : Char) (more : Text → Option (List α × Text)) (t : Text) :
    Option (List α × Text) :=
  match skip t with
  | [] => none
  | c :: rest => if c = close then some ([], rest) else more t

mutual

/-- A value and the rest of the text, with this much fuel. -/
def readValue : Nat → Text → Option (Value × Text)
  | 0, _ => none
  | n + 1, t =>
      match skip t with
      | [] => none
      | c :: t =>
          if c = '"' then (readString t).map fun r => (.str r.1, r.2)
          else if c = '[' then (enclosed ']' (readItems n) t).map fun r => (.arr r.1, r.2)
          else if c = '{' then (enclosed '}' (readMembers n) t).map fun r => (.obj r.1, r.2)
          else if c = 'n' then readWord ['u', 'l', 'l'] .null t
          else if c = 't' then readWord ['r', 'u', 'e'] (.bool true) t
          else if c = 'f' then readWord ['a', 'l', 's', 'e'] (.bool false) t
          else readNumber (c :: t)

def readItems : Nat → Text → Option (List Value × Text)
  | 0, _ => none
  | n + 1, t => (readValue n t).bind fun r => afterItem ']' (readItems n) r.1 r.2

def readMembers : Nat → Text → Option (List (Text × Value) × Text)
  | 0, _ => none
  | n + 1, t =>
      (readKey t).bind fun k => (readValue n k.2).bind fun r =>
        afterItem '}' (readMembers n) (k.1, r.1) r.2

end

/-- `json.loads(text)`; `none` for `JSONDecodeError`. Every level of the value takes a
character, so the length of the text is fuel enough. -/
def loads (t : Text) : Option Value :=
  match readValue (t.length + 1) t with
  | none => none
  | some (v, rest) => if skip rest = [] then some v else none

/-! ## Overwritten characters -/

/-- The text with the characters of `p` overwritten by line feeds. -/
def smear (p : Char → Bool) (t : Text) : Text := t.map fun c => if p c then '\n' else c

mutual

/-- No string and no key of the value has a character of `p`. -/
def Value.avoids (p : Char → Bool) : Value → Bool
  | .str s => !s.any p
  | .arr items => avoidsItems p items
  | .obj members => avoidsMembers p members
  | _ => true

def avoidsItems (p : Char → Bool) : List Value → Bool
  | [] => true
  | a :: rest => a.avoids p && avoidsItems p rest

def avoidsMembers (p : Char → Bool) : List (Text × Value) → Bool
  | [] => true
  | (k, a) :: rest => !k.any p && a.avoids p && avoidsMembers p rest

end

mutual

/-- The fuel a value takes. -/
def Value.need : Value → Nat
  | .arr items => 1 + needItems items
  | .obj members => 1 + needMembers members
  | _ => 1

def needItems : List Value → Nat
  | [] => 0
  | a :: rest => 1 + max a.need (needItems rest)

def needMembers : List (Text × Value) → Nat
  | [] => 0
  | (_, a) :: rest => 1 + max a.need (needMembers rest)

end

/-- Only characters of strings are overwritten: none of ASCII. -/
def Wide (p : Char → Bool) : Prop := ∀ c, p c = true → 128 ≤ c.toNat

section Smear

variable {p : Char → Bool} {t s : Text} {c : Char}

@[simp] theorem smear_append : smear p (t ++ s) = smear p t ++ smear p s := by simp [smear]

theorem smear_cons (hp : Wide p) (hc : c.toNat < 128) : smear p (c :: t) = c :: smear p t := by
  have hpc : p c = false := by
    by_contra h
    have := hp c (by simpa using h)
    omega
  simp [smear, hpc]

@[simp] theorem smear_nil : smear p [] = [] := rfl

theorem smear_ascii (hp : Wide p) (ht : ∀ c ∈ t, c.toNat < 128) : smear p t = t := by
  induction t with
  | nil => rfl
  | cons c t ih =>
      rw [smear_cons hp (ht c (by simp)), ih fun d hd => ht d (by simp [hd])]

end Smear

/-! ## Strings -/

theorem hexValue_hexDigit : ∀ n < 16, hexValue (hexDigit n) = some n := by decide

theorem hexDigit_ascii : ∀ n < 16, (hexDigit n).toNat < 128 := by decide

theorem escapeChar_ascii {c : Char} (hc : c.toNat < 128) : ∀ d ∈ escapeChar c, d.toNat < 128 := by
  intro d hd
  unfold escapeChar at hd
  repeat' split at hd
  all_goals simp only [List.mem_cons, List.not_mem_nil, or_false] at hd
  all_goals first
    | (rcases hd with rfl | rfl <;> decide)
    | (rcases hd with rfl | rfl | rfl | rfl | rfl | rfl <;>
        first | decide | exact hexDigit_ascii _ (by omega))
    | exact hd ▸ hc

/-- Reading an escaped character. -/
theorem readString_escapeChar (c : Char) (t : Text) :
    readString (escapeChar c ++ t) = (readString t).map (consTo c) := by
  unfold escapeChar readString
  split
  · next h => subst h; rfl
  split
  · next h => subst h; rfl
  split
  · next h => subst h; rfl
  split
  · next h => subst h; rfl
  split
  · next h => subst h; rfl
  split
  · next h => subst h; rfl
  split
  · next h => subst h; rfl
  split
  · next hlt =>
      have hsixteens := hexValue_hexDigit (c.toNat / 16) (by omega)
      have hones := hexValue_hexDigit (c.toNat % 16) (by omega)
      have hzero : hexValue '0' = some 0 := by decide
      have hsum : (((0 * 16 + 0) * 16 + 0) * 16 + c.toNat / 16) * 16 + c.toNat % 16 = c.toNat := by
        omega
      have hunit : codeUnit c.toNat none = .emit c := by
        rw [codeUnit, if_neg (by omega), if_neg (by omega), Char.ofNat_toNat]
      simp [readChars, Mode.next, hzero, hsixteens, hones] at hsum ⊢
      rw [hsum, hunit]
  · next hquote hbackslash _ _ _ _ _ hlt =>
      simp only [List.cons_append, List.nil_append, readChars, Mode.next, if_neg hquote,
        if_neg hbackslash, if_neg hlt]

/-- A character beyond ASCII stands for itself in the text. -/
theorem escapeChar_wide {c : Char} (hc : 128 ≤ c.toNat) : escapeChar c = [c] := by
  have hne (d : Char) (hd : d.toNat < 128) : c ≠ d := by
    rintro rfl
    omega
  unfold escapeChar
  rw [if_neg (hne _ (by decide)), if_neg (hne _ (by decide)), if_neg (hne _ (by decide)),
    if_neg (hne _ (by decide)), if_neg (hne _ (by decide)), if_neg (hne _ (by decide)),
    if_neg (hne _ (by decide)), if_neg (by omega)]

section Strings

variable {p : Char → Bool}

theorem smear_escapeChar (hp : Wide p) {c : Char} (hc : ¬ p c = true) :
    smear p (escapeChar c) = escapeChar c := by
  by_cases hascii : c.toNat < 128
  · exact smear_ascii hp (escapeChar_ascii hascii)
  · rw [escapeChar_wide (by omega)]
    simp [smear, hc]

/-- A string reads back, unless a character of it was overwritten. -/
theorem readString_smear (hp : Wide p) (s t : Text) :
    readString (smear p (s.flatMap escapeChar) ++ '"' :: t) =
      if s.any p then none else some (s, t) := by
  induction s with
  | nil => rfl
  | cons c s ih =>
      rw [List.flatMap_cons, smear_append, List.append_assoc, List.any_cons]
      by_cases hc : p c = true
      · -- a line feed is a control character
        rw [escapeChar_wide (hp c hc), hc, show smear p [c] = ['\n'] by simp [smear, hc]]
        rfl
      · rw [smear_escapeChar hp hc, readString_escapeChar, ih]
        by_cases hs : s.any p = true
        · simp [hs]
        · simp [hs, hc, consTo]

theorem smear_dumpsString (hp : Wide p) (s t : Text) :
    smear p (dumpsString s) ++ t = '"' :: (smear p (s.flatMap escapeChar) ++ '"' :: t) := by
  rw [dumpsString, smear_cons hp (by decide), smear_append, smear_cons hp (by decide), smear_nil]
  simp

end Strings

/-! ## First characters -/

/-- What a value starts with. -/
def isStart (c : Char) : Bool :=
  c = '"' || c = '[' || c = '{' || c = 'n' || c = 't' || c = 'f' || isNumberChar c

theorem Number.literal_ne_nil (n : Number) : n.literal ≠ [] := by
  have h := n.valid
  simp only [isNumber, Bool.and_eq_true] at h
  simpa using h.1.1

theorem Number.isNumberChar (n : Number) : ∀ c ∈ n.literal, isNumberChar c = true := by
  have h := n.valid
  simp only [isNumber, Bool.and_eq_true, List.all_eq_true] at h
  exact h.1.2

theorem isNumberChar_cases {c : Char} (h : isNumberChar c = true) :
    c ∈ ['0', '1', '2', '3', '4', '5', '6', '7', '8', '9', '-', '+', '.', 'e', 'E'] := by
  simp only [isNumberChar, Bool.or_eq_true, decide_eq_true_eq] at h
  rcases h with ((((h | rfl) | rfl) | rfl) | rfl) | rfl
  · simp only [Char.isDigit, Bool.and_eq_true, decide_eq_true_eq] at h
    have hlow : 48 ≤ c.toNat := h.1
    have hhigh : c.toNat ≤ 57 := h.2
    have hc : c = Char.ofNat c.toNat := (Char.ofNat_toNat c).symm
    have : c.toNat = 48 ∨ c.toNat = 49 ∨ c.toNat = 50 ∨ c.toNat = 51 ∨ c.toNat = 52 ∨
        c.toNat = 53 ∨ c.toNat = 54 ∨ c.toNat = 55 ∨ c.toNat = 56 ∨ c.toNat = 57 := by omega
    rcases this with h | h | h | h | h | h | h | h | h | h <;> rw [hc, h] <;> decide
  all_goals decide

theorem isStart_cases {c : Char} (h : isStart c = true) :
    c ∈ ['"', '[', '{', 'n', 't', 'f', '0', '1', '2', '3', '4', '5', '6', '7', '8', '9', '-', '+',
      '.', 'e', 'E'] := by
  simp only [isStart, Bool.or_eq_true, decide_eq_true_eq] at h
  rcases h with (((((rfl | rfl) | rfl) | rfl) | rfl) | rfl) | h
  all_goals first | decide | skip
  have hmem := isNumberChar_cases h
  simp only [List.mem_cons] at hmem ⊢
  tauto

theorem isStart_spec {c : Char} (h : isStart c = true) :
    c.toNat < 128 ∧ isSpace c = false ∧ c ≠ ']' ∧ c ≠ '}' := by
  have hall : ∀ c ∈ ['"', '[', '{', 'n', 't', 'f', '0', '1', '2', '3', '4', '5', '6', '7', '8',
      '9', '-', '+', '.', 'e', 'E'],
      c.toNat < 128 ∧ isSpace c = false ∧ c ≠ ']' ∧ c ≠ '}' :=
    List.forall_iff_forall_mem.1 (by decide)
  exact hall c (isStart_cases h)

theorem dumps_start (v : Value) : ∃ c t, v.dumps = c :: t ∧ isStart c = true := by
  cases v with
  | null => exact ⟨_, _, rfl, rfl⟩
  | bool b => cases b <;> exact ⟨_, _, rfl, rfl⟩
  | num n =>
      obtain ⟨c, t, h⟩ := List.exists_cons_of_ne_nil n.literal_ne_nil
      refine ⟨c, t, h, ?_⟩
      have hc := n.isNumberChar c (by simp [h])
      simp [isStart, hc]
  | str s => exact ⟨_, _, rfl, rfl⟩
  | arr items => exact ⟨_, _, rfl, rfl⟩
  | obj members => exact ⟨_, _, rfl, rfl⟩

theorem skip_cons {c : Char} {t : Text} (h : isSpace c = false) : skip (c :: t) = c :: t := by
  simp [skip, h]

/-! ## Reading a text back -/

/-- A number before this text ends where it begins. -/
def EndsNumber (t : Text) : Prop := ∀ c, t.head? = some c → isNumberChar c = false

section Read

variable {p : Char → Bool} {α : Type}

theorem smear_dumps_start (hp : Wide p) (v : Value) (t : Text) :
    ∃ c s, smear p v.dumps ++ t = c :: s ∧ isStart c = true := by
  obtain ⟨c, s, hs, hc⟩ := dumps_start v
  refine ⟨c, smear p s ++ t, ?_, hc⟩
  rw [hs, smear_cons hp (isStart_spec hc).1, List.cons_append]

/-- A value reads back from `t`, up to a rest that does not go on with a number. -/
def Reads (p : Char → Bool) (v : Value) : Prop :=
  ∀ n t, EndsNumber t → readValue n (smear p v.dumps ++ t) =
    if v.avoids p = true ∧ v.need ≤ n then some (v, t) else none

theorem reads_num (hp : Wide p) (l : Number) : Reads p (.num l) := by
  intro n t ht
  obtain ⟨c, s, hs⟩ := List.exists_cons_of_ne_nil l.literal_ne_nil
  have hascii : ∀ c ∈ l.literal, c.toNat < 128 := fun c hc =>
    (isStart_spec (c := c) (by simp [isStart, l.isNumberChar c hc])).1
  have hliteral : smear p (Value.num l).dumps = l.literal := smear_ascii hp hascii
  rw [hliteral]
  cases n with
  | zero => simp [readValue, Value.need]
  | succ n =>
      have hc : isNumberChar c = true := l.isNumberChar c (by simp [hs])
      have hspace := (isStart_spec (c := c) (by simp [isStart, hc])).2.1
      have htake : (l.literal ++ t).takeWhile isNumberChar = l.literal := by
        rw [List.takeWhile_append_of_pos l.isNumberChar]
        cases t with
        | nil => simp
        | cons d t => simp [ht d rfl]
      have hdrop : (l.literal ++ t).dropWhile isNumberChar = t := by
        rw [List.dropWhile_append_of_pos l.isNumberChar]
        cases t with
        | nil => rfl
        | cons d t => simp [ht d rfl]
      have hother : c ≠ '"' ∧ c ≠ '[' ∧ c ≠ '{' ∧ c ≠ 'n' ∧ c ≠ 't' ∧ c ≠ 'f' := by
        have hall : ∀ c ∈ ['0', '1', '2', '3', '4', '5', '6', '7', '8', '9', '-', '+', '.', 'e',
            'E'], c ≠ '"' ∧ c ≠ '[' ∧ c ≠ '{' ∧ c ≠ 'n' ∧ c ≠ 't' ∧ c ≠ 'f' :=
          List.forall_iff_forall_mem.1 (by decide)
        exact hall c (isNumberChar_cases hc)
      obtain ⟨h₁, h₂, h₃, h₄, h₅, h₆⟩ := hother
      have hnumber : readNumber (l.literal ++ t) = some (.num l, t) := by
        unfold readNumber
        rw [dif_pos (by rw [htake]; exact l.valid), hdrop]
        simp only [htake]
      have hcons : l.literal ++ t = c :: (s ++ t) := by rw [hs, List.cons_append]
      rw [hcons] at hnumber ⊢
      rw [readValue, skip_cons hspace]
      simp only [if_neg h₁, if_neg h₂, if_neg h₃, if_neg h₄, if_neg h₅, if_neg h₆, hnumber]
      simp [Value.avoids, Value.need]

theorem reads_word (hp : Wide p) {v : Value} {n : Nat} {t : Text}
    (hv : v = .null ∨ v = .bool true ∨ v = .bool false) :
    readValue n (smear p v.dumps ++ t) =
      if v.avoids p = true ∧ v.need ≤ n then some (v, t) else none := by
  cases n with
  | zero => rcases hv with rfl | rfl | rfl <;> simp [readValue, Value.need]
  | succ n =>
      rcases hv with rfl | rfl | rfl <;>
        rw [smear_ascii hp (List.forall_iff_forall_mem.1 (by decide))] <;>
        simp [Value.dumps, readValue, skip, isSpace, readWord, Value.avoids, Value.need,
          List.isPrefixOf]

theorem reads_str (hp : Wide p) (s : Text) : Reads p (.str s) := by
  intro n t _
  change readValue n (smear p (dumpsString s) ++ t) = _
  rw [smear_dumpsString hp]
  cases n with
  | zero => simp [readValue, Value.need]
  | succ n =>
      rw [readValue, skip_cons (by decide)]
      simp only [if_true, readString_smear hp]
      by_cases hs : s.any p = true <;> simp [hs, Value.avoids, Value.need]

theorem endsNumber_cons {c : Char} {t : Text} (h : isNumberChar c = false) :
    EndsNumber (c :: t) := by
  intro d hd
  obtain rfl := Option.some.inj hd
  exact h

theorem enclosed_start {close c : Char} {more : Text → Option (List α × Text)} {s : Text}
    (hspace : isSpace c = false) (hclose : c ≠ close) :
    enclosed close more (c :: s) = more (c :: s) := by
  simp only [enclosed, skip_cons hspace, if_neg hclose]

mutual

theorem reads (hp : Wide p) : ∀ v : Value, Reads p v
  | .null => fun _ _ _ => reads_word hp (.inl rfl)
  | .bool true => fun _ _ _ => reads_word hp (.inr (.inl rfl))
  | .bool false => fun _ _ _ => reads_word hp (.inr (.inr rfl))
  | .num l => reads_num hp l
  | .str s => reads_str hp s
  | .arr [] => by
      intro n t _
      cases n with
      | zero => simp [readValue, Value.need]
      | succ n =>
          rw [smear_ascii hp (List.forall_iff_forall_mem.1 (by decide))]
          simp [Value.dumps, dumpsItems, readValue, skip, isSpace, enclosed, Value.avoids,
            avoidsItems, Value.need, needItems]
  | .arr (a :: rest) => by
      intro n t _
      have hread := readsItems hp (a :: rest) (by simp)
      cases n with
      | zero => simp [readValue, Value.need]
      | succ n =>
          obtain ⟨c, s, hs, hc⟩ : ∃ c s, smear p (dumpsItems (a :: rest)) ++ ']' :: t = c :: s ∧
              isStart c = true := by
            cases rest with
            | nil => exact smear_dumps_start hp a _
            | cons b rest =>
                rw [dumpsItems, smear_append, List.append_assoc]
                exact smear_dumps_start hp a _
          have htext : smear p (Value.arr (a :: rest)).dumps ++ t =
              '[' :: (smear p (dumpsItems (a :: rest)) ++ ']' :: t) := by
            rw [Value.dumps, smear_cons hp (by decide), smear_append, smear_cons hp (by decide)]
            simp
          obtain ⟨-, hspace, hclose, -⟩ := isStart_spec hc
          rw [htext, readValue, skip_cons (by decide)]
          simp only [if_neg (show ('[' : Char) ≠ '"' by decide), if_true]
          rw [hs, enclosed_start hspace hclose, ← hs, hread n t]
          have hneed : needItems (a :: rest) ≤ n ↔ (Value.arr (a :: rest)).need ≤ n + 1 := by
            simp only [Value.need]
            omega
          by_cases h : avoidsItems p (a :: rest) = true ∧ needItems (a :: rest) ≤ n
          · rw [if_pos h, if_pos ⟨h.1, hneed.mp h.2⟩]
            rfl
          · rw [if_neg h, if_neg fun hall => h ⟨hall.1, hneed.mpr hall.2⟩]
            rfl
  | .obj [] => by
      intro n t _
      cases n with
      | zero => simp [readValue, Value.need]
      | succ n =>
          rw [smear_ascii hp (List.forall_iff_forall_mem.1 (by decide))]
          simp [Value.dumps, dumpsMembers, readValue, skip, isSpace, enclosed, Value.avoids,
            avoidsMembers, Value.need, needMembers]
  | .obj ((k, a) :: rest) => by
      intro n t _
      have hread := readsMembers hp ((k, a) :: rest) (by simp)
      cases n with
      | zero => simp [readValue, Value.need]
      | succ n =>
          obtain ⟨s, hs⟩ : ∃ s, smear p (dumpsMembers ((k, a) :: rest)) ++ '}' :: t = '"' :: s := by
            cases rest with
            | nil =>
                rw [dumpsMembers, smear_append, List.append_assoc, smear_dumpsString hp]
                exact ⟨_, rfl⟩
            | cons b rest =>
                rw [dumpsMembers, smear_append, List.append_assoc, smear_dumpsString hp]
                exact ⟨_, rfl⟩
          have htext : smear p (Value.obj ((k, a) :: rest)).dumps ++ t =
              '{' :: (smear p (dumpsMembers ((k, a) :: rest)) ++ '}' :: t) := by
            rw [Value.dumps, smear_cons hp (by decide), smear_append, smear_cons hp (by decide)]
            simp
          rw [htext, readValue, skip_cons (by decide)]
          simp only [if_neg (show ('{' : Char) ≠ '"' by decide),
            if_neg (show ('{' : Char) ≠ '[' by decide), if_true]
          rw [hs, enclosed_start (by decide) (by decide), ← hs, hread n t]
          have hneed : needMembers ((k, a) :: rest) ≤ n ↔
              (Value.obj ((k, a) :: rest)).need ≤ n + 1 := by
            simp only [Value.need]
            omega
          by_cases h : avoidsMembers p ((k, a) :: rest) = true ∧ needMembers ((k, a) :: rest) ≤ n
          · rw [if_pos h, if_pos ⟨h.1, hneed.mp h.2⟩]
            rfl
          · rw [if_neg h, if_neg fun hall => h ⟨hall.1, hneed.mpr hall.2⟩]
            rfl

theorem readsItems (hp : Wide p) : ∀ items : List Value, items ≠ [] → ∀ n t,
    readItems n (smear p (dumpsItems items) ++ ']' :: t) =
      if avoidsItems p items = true ∧ needItems items ≤ n then some (items, t) else none
  | [], h => absurd rfl h
  | [a], _ => by
      intro n t
      have hread := reads hp a
      cases n with
      | zero => simp [readItems, needItems]
      | succ n =>
          rw [readItems, dumpsItems, hread n _ (endsNumber_cons (by decide))]
          have hneed : needItems [a] ≤ n + 1 ↔ a.need ≤ n := by
            simp only [needItems]
            omega
          rw [if_congr (and_congr Iff.rfl hneed) rfl rfl]
          by_cases h : a.avoids p = true ∧ a.need ≤ n
          · rw [if_pos h, if_pos ⟨by simp [avoidsItems, h.1], h.2⟩, Option.bind_some, afterItem,
              skip_cons (by decide)]
            rfl
          · rw [if_neg h, if_neg fun h' => h ⟨by simpa [avoidsItems] using h'.1, h'.2⟩]
            rfl
  | a :: b :: rest, _ => by
      intro n t
      have hread := reads hp a
      have hrest := readsItems hp (b :: rest) (by simp)
      cases n with
      | zero => simp [readItems, needItems]
      | succ n =>
          have htext : smear p (dumpsItems (a :: b :: rest)) ++ ']' :: t =
              smear p a.dumps ++ ',' :: (smear p (dumpsItems (b :: rest)) ++ ']' :: t) := by
            rw [dumpsItems, smear_append, smear_cons hp (by decide)]
            simp
          rw [readItems, htext, hread n _ (endsNumber_cons (by decide))]
          have hneed : needItems (a :: b :: rest) ≤ n + 1 ↔
              a.need ≤ n ∧ needItems (b :: rest) ≤ n := by
            simp only [needItems]
            omega
          have havoids : avoidsItems p (a :: b :: rest) = true ↔
              a.avoids p = true ∧ avoidsItems p (b :: rest) = true := by
            rw [avoidsItems, Bool.and_eq_true]
          rw [if_congr (and_congr havoids hneed) rfl rfl]
          by_cases h : a.avoids p = true ∧ a.need ≤ n
          · rw [if_pos h, Option.bind_some, afterItem, skip_cons (by decide)]
            simp only [if_neg (show (',' : Char) ≠ ']' by decide), if_true, hrest n t]
            by_cases h' : avoidsItems p (b :: rest) = true ∧ needItems (b :: rest) ≤ n
            · rw [if_pos h', if_pos ⟨⟨h.1, h'.1⟩, h.2, h'.2⟩]
              rfl
            · rw [if_neg h', if_neg fun hall => h' ⟨hall.1.2, hall.2.2⟩]
              rfl
          · rw [if_neg h, if_neg fun hall => h ⟨hall.1.1, hall.2.1⟩]
            rfl

theorem readsMembers (hp : Wide p) : ∀ members : List (Text × Value), members ≠ [] → ∀ n t,
    readMembers n (smear p (dumpsMembers members) ++ '}' :: t) =
      if avoidsMembers p members = true ∧ needMembers members ≤ n then some (members, t) else none
  | [], h => absurd rfl h
  | [(k, a)], _ => by
      intro n t
      have hread := reads hp a
      cases n with
      | zero => simp [readMembers, needMembers]
      | succ n =>
          have htext : smear p (dumpsMembers [(k, a)]) ++ '}' :: t =
              '"' :: (smear p (k.flatMap escapeChar) ++ '"' :: ':' ::
                (smear p a.dumps ++ '}' :: t)) := by
            rw [dumpsMembers, smear_append, List.append_assoc, smear_dumpsString hp,
              smear_cons hp (by decide), List.cons_append]
          rw [readMembers, htext, readKey, skip_cons (by decide)]
          simp only [if_true, readString_smear hp]
          have hneed : needMembers [(k, a)] ≤ n + 1 ↔ a.need ≤ n := by
            simp only [needMembers]
            omega
          have havoids : avoidsMembers p [(k, a)] = true ↔
              ¬ k.any p = true ∧ a.avoids p = true := by
            simp [avoidsMembers]
          rw [if_congr (and_congr havoids hneed) rfl rfl]
          by_cases hk : k.any p = true
          · rw [if_pos hk, if_neg fun hall => hall.1.1 hk]
            rfl
          · rw [if_neg hk, Option.bind_some, skip_cons (by decide)]
            simp only [if_true, Option.bind_some]
            rw [hread n _ (endsNumber_cons (by decide))]
            by_cases h : a.avoids p = true ∧ a.need ≤ n
            · rw [if_pos h, if_pos ⟨⟨hk, h.1⟩, h.2⟩, Option.bind_some, afterItem,
                skip_cons (by decide)]
              rfl
            · rw [if_neg h, if_neg fun hall => h ⟨hall.1.2, hall.2⟩]
              rfl
  | (k, a) :: b :: rest, _ => by
      intro n t
      have hread := reads hp a
      have hrest := readsMembers hp (b :: rest) (by simp)
      cases n with
      | zero => simp [readMembers, needMembers]
      | succ n =>
          have htext : smear p (dumpsMembers ((k, a) :: b :: rest)) ++ '}' :: t =
              '"' :: (smear p (k.flatMap escapeChar) ++ '"' :: ':' ::
                (smear p a.dumps ++ ',' :: (smear p (dumpsMembers (b :: rest)) ++ '}' :: t))) := by
            rw [dumpsMembers, smear_append, List.append_assoc, smear_dumpsString hp,
              smear_cons hp (by decide), smear_append, smear_cons hp (by decide)]
            simp
          rw [readMembers, htext, readKey, skip_cons (by decide)]
          simp only [if_true, readString_smear hp]
          have hneed : needMembers ((k, a) :: b :: rest) ≤ n + 1 ↔
              a.need ≤ n ∧ needMembers (b :: rest) ≤ n := by
            obtain ⟨k', b⟩ := b
            simp only [needMembers]
            omega
          have havoids : avoidsMembers p ((k, a) :: b :: rest) = true ↔
              (¬ k.any p = true ∧ a.avoids p = true) ∧ avoidsMembers p (b :: rest) = true := by
            simp [avoidsMembers]
          rw [if_congr (and_congr havoids hneed) rfl rfl]
          by_cases hk : k.any p = true
          · rw [if_pos hk, if_neg fun hall => hall.1.1.1 hk]
            rfl
          · rw [if_neg hk, Option.bind_some, skip_cons (by decide)]
            simp only [if_true, Option.bind_some]
            rw [hread n _ (endsNumber_cons (by decide))]
            by_cases h : a.avoids p = true ∧ a.need ≤ n
            · rw [if_pos h, Option.bind_some, afterItem, skip_cons (by decide)]
              simp only [if_neg (show (',' : Char) ≠ '}' by decide), if_true, hrest n t]
              by_cases h' : avoidsMembers p (b :: rest) = true ∧ needMembers (b :: rest) ≤ n
              · rw [if_pos h', if_pos ⟨⟨⟨hk, h.1⟩, h'.1⟩, h.2, h'.2⟩]
                rfl
              · rw [if_neg h', if_neg fun hall => h' ⟨hall.1.2, hall.2.2⟩]
                rfl
            · rw [if_neg h, if_neg fun hall => h ⟨hall.1.1.2, hall.2.1⟩]
              rfl

end

mutual

/-- Every level of a value takes a character. -/
theorem need_le : ∀ v : Value, v.need ≤ v.dumps.length
  | .null => by decide
  | .bool true => by decide
  | .bool false => by decide
  | .num l => by
      have h : 0 < l.literal.length := List.length_pos_iff.mpr l.literal_ne_nil
      exact h
  | .str s => by
      simp only [Value.need, Value.dumps, dumpsString, List.length_cons]
      omega
  | .arr items => by
      have h := needItems_le items
      simp only [Value.need, Value.dumps, List.length_cons, List.length_append, List.length_nil]
      omega
  | .obj members => by
      have h := needMembers_le members
      simp only [Value.need, Value.dumps, List.length_cons, List.length_append, List.length_nil]
      omega

theorem needItems_le : ∀ items : List Value, needItems items ≤ (dumpsItems items).length + 1
  | [] => by simp [needItems]
  | [a] => by
      have h := need_le a
      simp only [needItems, dumpsItems]
      omega
  | a :: b :: rest => by
      have h := need_le a
      have hrest := needItems_le (b :: rest)
      have hneed : needItems (a :: b :: rest) = 1 + max a.need (needItems (b :: rest)) := rfl
      simp only [dumpsItems, List.length_append, List.length_cons]
      omega

theorem needMembers_le : ∀ members : List (Text × Value),
    needMembers members ≤ (dumpsMembers members).length + 1
  | [] => by simp [needMembers]
  | [(k, a)] => by
      have h := need_le a
      simp only [needMembers, dumpsMembers, List.length_append, List.length_cons]
      omega
  | (k, a) :: b :: rest => by
      have h := need_le a
      have hrest := needMembers_le (b :: rest)
      have hneed : needMembers ((k, a) :: b :: rest) =
        1 + max a.need (needMembers (b :: rest)) := rfl
      simp only [dumpsMembers, List.length_append, List.length_cons]
      omega

end

@[simp] theorem length_smear {t : Text} : (smear p t).length = t.length := by simp [smear]

/-- The reader of an overwritten text finds the value, or fails if a character of the value
was overwritten. -/
theorem loads_smear (hp : Wide p) (v : Value) :
    loads (smear p v.dumps) = if v.avoids p then some v else none := by
  have hread := reads hp v ((smear p v.dumps).length + 1) [] (by intro c hc; simp at hc)
  rw [List.append_nil] at hread
  have hneed : v.need ≤ (smear p v.dumps).length + 1 := by
    have h := need_le v
    rw [length_smear]
    omega
  rw [loads, hread]
  by_cases h : v.avoids p = true
  · rw [if_pos ⟨h, hneed⟩, if_pos h]
    rfl
  · rw [if_neg fun hall => h hall.1, if_neg h]

mutual

theorem avoids_false : ∀ v : Value, v.avoids (fun _ => false) = true
  | .null | .bool _ | .num _ => rfl
  | .str s => by simp [Value.avoids]
  | .arr items => avoidsItems_false items
  | .obj members => avoidsMembers_false members

theorem avoidsItems_false : ∀ items : List Value, avoidsItems (fun _ => false) items = true
  | [] => rfl
  | a :: rest => by rw [avoidsItems, avoids_false a, avoidsItems_false rest, Bool.and_self]

theorem avoidsMembers_false : ∀ members : List (Text × Value),
    avoidsMembers (fun _ => false) members = true
  | [] => rfl
  | (k, a) :: rest => by
      rw [avoidsMembers, avoids_false a, avoidsMembers_false rest]
      simp

end

/-- The round trip of a value. -/
theorem loads_dumps (v : Value) : loads v.dumps = some v := by
  have hwide : Wide fun _ => false := fun _ h => absurd h (by simp)
  have htext : smear (fun _ => false) v.dumps = v.dumps := by simp [smear]
  have h := loads_smear hwide v
  rwa [htext, if_pos (avoids_false v)] at h

end Read

/-! ## Characters of a text -/

theorem hexDigit_printable : ∀ n < 16, 32 ≤ (hexDigit n).toNat := by decide

theorem escapeChar_printable (c : Char) : ∀ d ∈ escapeChar c, 32 ≤ d.toNat := by
  intro d hd
  unfold escapeChar at hd
  repeat' split at hd
  all_goals simp only [List.mem_cons, List.not_mem_nil, or_false] at hd
  all_goals first
    | (rcases hd with rfl | rfl <;> decide)
    | (rcases hd with rfl | rfl | rfl | rfl | rfl | rfl <;>
        first | decide | exact hexDigit_printable _ (by omega))
    | (rw [hd]; omega)

theorem dumpsString_printable (s : Text) : ∀ c ∈ dumpsString s, 32 ≤ c.toNat := by
  intro c hc
  simp only [dumpsString, List.mem_cons, List.mem_append, List.mem_flatMap, List.not_mem_nil,
    or_false] at hc
  rcases hc with rfl | ⟨d, -, hd⟩ | rfl
  · decide
  · exact escapeChar_printable d c hd
  · decide

mutual

/-- A text has no control characters. -/
theorem dumps_printable : ∀ v : Value, ∀ c ∈ v.dumps, 32 ≤ c.toNat
  | .null => List.forall_iff_forall_mem.1 (by decide)
  | .bool true => List.forall_iff_forall_mem.1 (by decide)
  | .bool false => List.forall_iff_forall_mem.1 (by decide)
  | .num l => by
      intro c hc
      have hall : ∀ c ∈ ['0', '1', '2', '3', '4', '5', '6', '7', '8', '9', '-', '+', '.', 'e',
          'E'], 32 ≤ c.toNat := List.forall_iff_forall_mem.1 (by decide)
      exact hall c (isNumberChar_cases (l.isNumberChar c hc))
  | .str s => dumpsString_printable s
  | .arr items => by
      intro c hc
      simp only [Value.dumps, List.mem_cons, List.mem_append, List.not_mem_nil, or_false] at hc
      rcases hc with rfl | hc | rfl
      · decide
      · exact dumpsItems_printable items c hc
      · decide
  | .obj members => by
      intro c hc
      simp only [Value.dumps, List.mem_cons, List.mem_append, List.not_mem_nil, or_false] at hc
      rcases hc with rfl | hc | rfl
      · decide
      · exact dumpsMembers_printable members c hc
      · decide

theorem dumpsItems_printable : ∀ items : List Value, ∀ c ∈ dumpsItems items, 32 ≤ c.toNat
  | [] => by simp [dumpsItems]
  | [a] => dumps_printable a
  | a :: b :: rest => by
      intro c hc
      simp only [dumpsItems, List.mem_cons, List.mem_append] at hc
      rcases hc with hc | rfl | hc
      · exact dumps_printable a c hc
      · decide
      · exact dumpsItems_printable (b :: rest) c hc

theorem dumpsMembers_printable : ∀ members : List (Text × Value),
    ∀ c ∈ dumpsMembers members, 32 ≤ c.toNat
  | [] => by simp [dumpsMembers]
  | [(k, a)] => by
      intro c hc
      simp only [dumpsMembers, List.mem_cons, List.mem_append] at hc
      rcases hc with hc | rfl | hc
      · exact dumpsString_printable k c hc
      · decide
      · exact dumps_printable a c hc
  | (k, a) :: b :: rest => by
      intro c hc
      simp only [dumpsMembers, List.mem_cons, List.mem_append] at hc
      rcases hc with hc | rfl | hc | rfl | hc
      · exact dumpsString_printable k c hc
      · decide
      · exact dumps_printable a c hc
      · decide
      · exact dumpsMembers_printable (b :: rest) c hc

end

/-- The last character of a text is an ASCII character. -/
theorem dumps_last (v : Value) : ∃ t c, v.dumps = t ++ [c] ∧ c.toNat < 128 := by
  cases v with
  | null => exact ⟨['n', 'u', 'l'], 'l', rfl, by decide⟩
  | bool b =>
      cases b with
      | true => exact ⟨['t', 'r', 'u'], 'e', rfl, by decide⟩
      | false => exact ⟨['f', 'a', 'l', 's'], 'e', rfl, by decide⟩
  | num l =>
      refine ⟨l.literal.dropLast, l.literal.getLast l.literal_ne_nil, ?_, ?_⟩
      · exact (List.dropLast_append_getLast l.literal_ne_nil).symm
      · have hc := l.isNumberChar _ (List.getLast_mem l.literal_ne_nil)
        exact (isStart_spec (by simp [isStart, hc])).1
  | str s => exact ⟨'"' :: s.flatMap escapeChar, '"', rfl, by decide⟩
  | arr items => exact ⟨'[' :: dumpsItems items, ']', rfl, by decide⟩
  | obj members => exact ⟨'{' :: dumpsMembers members, '}', rfl, by decide⟩

theorem smear_congr {p q : Char → Bool} {t : Text} (h : ∀ c ∈ t, p c = q c) :
    smear p t = smear q t := by
  refine List.map_congr_left fun c hc => ?_
  rw [h c hc]

end Kit.JsonText
