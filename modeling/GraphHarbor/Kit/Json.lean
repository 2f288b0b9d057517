import GraphHarbor.Kit.PyFloat
import GraphHarbor.Kit.Printable

/-!
# JSON values

Values of a JSON column, and the dictionary operations on objects. Numbers are
integers and finite floats. An object is the list of its fields in insertion order.
-/

namespace Kit

inductive Json where
  | null
  | bool (b : Bool)
  | num (n : Int)
  | float (x : PyFloat)
  | str (s : String)
  | arr (items : List Json)
  | obj (fields : List (String × Json))
  deriving Repr

namespace Json

/-! ## Decidable equality -/

mutual

/-- Structural equality test. -/
def beq : Json → Json → Bool
  | null, null => true
  | bool a, bool b => a == b
  | num a, num b => a == b
  | float a, float b => a == b
  | str a, str b => a == b
  | arr a, arr b => beqItems a b
  | obj a, obj b => beqFields a b
  | _, _ => false

def beqItems : List Json → List Json → Bool
  | [], [] => true
  | a :: as, b :: bs => beq a b && beqItems as bs
  | _, _ => false

def beqFields : List (String × Json) → List (String × Json) → Bool
  | [], [] => true
  | (k, a) :: as, (l, b) :: bs => k == l && beq a b && beqFields as bs
  | _, _ => false

end

mutual

theorem beq_iff : ∀ a b : Json, beq a b = true ↔ a = b
  | null, b => by cases b <;> simp [beq]
  | bool a, b => by cases b <;> simp [beq]
  | num a, b => by cases b <;> simp [beq]
  | float a, b => by cases b <;> simp [beq]
  | str a, b => by cases b <;> simp [beq]
  | arr a, b => by cases b <;> simp [beq, beqItems_iff a]
  | obj a, b => by cases b <;> simp [beq, beqFields_iff a]

theorem beqItems_iff : ∀ a b : List Json, beqItems a b = true ↔ a = b
  | [], b => by cases b <;> simp [beqItems]
  | a :: as, b => by cases b <;> simp [beqItems, beq_iff a, beqItems_iff as]

theorem beqFields_iff : ∀ a b : List (String × Json), beqFields a b = true ↔ a = b
  | [], b => by cases b <;> simp [beqFields]
  | (k, a) :: as, b => by
      cases b with
      | nil => simp [beqFields]
      | cons p ps => obtain ⟨l, b⟩ := p; simp [beqFields, beq_iff a, beqFields_iff as, and_assoc]

end

instance : DecidableEq Json := fun a b => decidable_of_iff _ (beq_iff a b)

/-! ## Reading values -/

/-- `bool(value)`. -/
def truthy : Json → Bool
  | null => false
  | bool b => b
  | num n => n ≠ 0
  | float x => x.digits ≠ 0
  | str s => s ≠ ""
  | arr items => !items.isEmpty
  | obj fields => !fields.isEmpty

/-- The JSONB operator `?`: `key` is a field of the object, a string element of the
array, or the string itself. -/
def hasKey (key : String) : Json → Bool
  | obj fields => fields.any (·.1 = key)
  | arr items => items.any (· = str key)
  | str s => s = key
  | _ => false

/-! ## `str` -/

/-- `repr(text)`, in single quotes unless only these occur in the text. -/
def quote (text : String) : String :=
  let single := Char.ofNat 39
  let double := Char.ofNat 34
  let q := if single ∈ text.toList && double ∉ text.toList then double else single
  String.ofList ([q] ++ text.toList.flatMap (Printable.escape q) ++ [q])

mutual

/-- `repr(value)`. -/
def pyRepr : Json → String
  | null => "None"
  | bool b => if b then "True" else "False"
  | num n => toString n
  | float x => x.repr
  | str s => quote s
  | arr items => "[" ++ reprItems items ++ "]"
  | obj fields => "\x7b" ++ reprFields fields ++ "\x7d"

def reprItems : List Json → String
  | [] => ""
  | [a] => pyRepr a
  | a :: as => pyRepr a ++ ", " ++ reprItems as

def reprFields : List (String × Json) → String
  | [] => ""
  | [(k, a)] => quote k ++ ": " ++ pyRepr a
  | (k, a) :: as => quote k ++ ": " ++ pyRepr a ++ ", " ++ reprFields as

end

/-- `str(value)`. -/
def pyStr : Json → String
  | str s => s
  | value => value.pyRepr

/-- `str(value or "")`. -/
def strOrEmpty (value : Option Json) : String :=
  match value with
  | some v => if v.truthy then v.pyStr else ""
  | none => ""

end Json

/-! ## Dictionaries -/

/-- A JSON object, a Python dictionary with string keys. -/
abbrev Dict := List (String × Json)

namespace Dict

def get? (d : Dict) (key : String) : Option Json := (d.find? (·.1 = key)).map (·.2)

def contains (d : Dict) (key : String) : Bool := d.any (·.1 = key)

/-- `d[key] = value`. -/
def set (d : Dict) (key : String) (value : Json) : Dict :=
  if d.contains key then d.map fun f => if f.1 = key then (key, value) else f
  else d ++ [(key, value)]

/-- `d.setdefault(key, value)`. -/
def setDefault (d : Dict) (key : String) (value : Json) : Dict :=
  if d.contains key then d else d ++ [(key, value)]

/-- `{k: v for k, v in d.items() if k != key}`. -/
def without (d : Dict) (key : String) : Dict := d.filter (·.1 ≠ key)

variable {d : Dict} {key k : String} {value : Json}

theorem get?_setDefault_of_ne (h : k ≠ key) :
    (d.setDefault key value).get? k = d.get? k := by
  unfold setDefault
  split
  · rfl
  · simp [get?, List.find?_append, Ne.symm h]

theorem get?_without_of_ne (h : k ≠ key) : (d.without key).get? k = d.get? k := by
  unfold without get?
  rw [List.find?_filter]
  congr 2
  funext f
  by_cases hf : f.1 = k
  · simp [hf, h]
  · simp [hf]

theorem get?_set_of_ne (h : k ≠ key) : (d.set key value).get? k = d.get? k := by
  unfold set
  split
  · next hc =>
      clear hc
      induction d with
      | nil => rfl
      | cons f fs ih =>
          by_cases hf : f.1 = key
          · simp only [get?, List.map_cons, if_pos hf] at ih ⊢
            rw [List.find?_cons_of_neg (by simpa using Ne.symm h),
              List.find?_cons_of_neg (by simpa [hf] using Ne.symm h)]
            exact ih
          · simp only [get?, List.map_cons, if_neg hf] at ih ⊢
            by_cases hk : f.1 = k
            · rw [List.find?_cons_of_pos (by simpa using hk),
                List.find?_cons_of_pos (by simpa using hk)]
            · rw [List.find?_cons_of_neg (by simpa using hk),
                List.find?_cons_of_neg (by simpa using hk)]
              exact ih
  · simp [get?, List.find?_append, Ne.symm h]

end Dict

end Kit
