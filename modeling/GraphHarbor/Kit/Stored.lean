import GraphHarbor.Kit.Dict
import Mathlib.Data.Prod.Lex
import Mathlib.Data.String.Basic

/-!
# JSON values after they were stored

A JSONB column keeps the fields of an object by the length of their keys, then by the keys,
and a number without an exponent. `stored` is the value that is read back.
-/

namespace Kit

namespace Json

/-! ## Fields in the order of JSONB -/

/-- The place of a key: by its bytes in UTF-8, a shorter one first. -/
def rank (key : String) : Nat ×ₗ String := toLex (key.utf8ByteSize, key)

/-- Puts a field at its place. It replaces the field of its key. -/
def place (f : String × Json) : List (String × Json) → List (String × Json)
  | [] => [f]
  | g :: gs =>
      if rank f.1 < rank g.1 then f :: g :: gs
      else if f.1 = g.1 then f :: gs
      else g :: place f gs

/-- The fields stand in the order of JSONB. -/
def Placed (fields : List (String × Json)) : Prop :=
  fields.Pairwise fun f g => rank f.1 < rank g.1

mutual

/-- The value after it was stored and read. -/
def stored : Json → Json
  | float x => (x.wide?.map num).getD (float x.unsigned)
  | arr items => arr (storedItems items)
  | obj fields => obj (storedFields fields)
  | null => null
  | bool b => bool b
  | num n => num n
  | str s => str s

def storedItems : List Json → List Json
  | [] => []
  | a :: as => stored a :: storedItems as

def storedFields : List (String × Json) → List (String × Json)
  | [] => []
  | (key, a) :: as => place (key, stored a) (storedFields as)

end

/-- The same value, whatever the order of its fields and however its numbers are written. -/
def Same (a b : Json) : Prop := a.stored = b.stored

section

variable {f g : String × Json} {fields : List (String × Json)} {key : String}

theorem rank_injective : Function.Injective rank := by
  intro k l h
  exact congrArg (fun p => (ofLex p).2) h

theorem mem_place (h : g ∈ place f fields) : g = f ∨ g ∈ fields := by
  induction fields with
  | nil => exact .inl (List.mem_singleton.1 h)
  | cons e fields ih =>
      unfold place at h
      split at h
      · exact List.mem_cons.1 h
      · split at h
        · exact (List.mem_cons.1 h).imp_right (List.mem_cons_of_mem e)
        · rcases List.mem_cons.1 h with rfl | h
          · exact .inr List.mem_cons_self
          · exact (ih h).imp_right (List.mem_cons_of_mem e)

theorem Placed.place (h : Placed fields) : Placed (place f fields) := by
  induction fields with
  | nil => exact List.pairwise_singleton _ _
  | cons e fields ih =>
      obtain ⟨hfirst, hrest⟩ := List.pairwise_cons.1 h
      unfold Json.place
      split
      next hlt =>
        refine List.pairwise_cons.2 ⟨fun g hg => ?_, h⟩
        rcases List.mem_cons.1 hg with rfl | hg
        · exact hlt
        · exact hlt.trans (hfirst g hg)
      next hge =>
        split
        next heq =>
          refine List.pairwise_cons.2 ⟨fun g hg => ?_, hrest⟩
          rw [heq]
          exact hfirst g hg
        next hne =>
          refine List.pairwise_cons.2 ⟨fun g hg => ?_, ih hrest⟩
          rcases mem_place hg with rfl | hg
          · exact lt_of_le_of_ne (not_lt.1 hge) fun heq => hne (rank_injective heq).symm
          · exact hfirst g hg

theorem placed_storedFields : ∀ fields, Placed (storedFields fields)
  | [] => List.Pairwise.nil
  | (_, _) :: as => (placed_storedFields as).place

theorem get?_place : Dict.get? (place f fields) key =
    if f.1 = key then some f.2 else Dict.get? fields key := by
  induction fields with
  | nil => exact Dict.get?_cons f []
  | cons e fields ih =>
      unfold place
      split
      next => exact Dict.get?_cons f _
      next =>
        split
        next heq =>
          rw [Dict.get?_cons, Dict.get?_cons]
          split
          next => rfl
          next hne => rw [if_neg (heq ▸ hne)]
        next hne =>
          rw [Dict.get?_cons, Dict.get?_cons, ih]
          by_cases he : e.1 = key
          · rw [if_pos he, if_pos he, if_neg (he ▸ hne)]
          · rw [if_neg he, if_neg he]

/-- A stored object has the same keys, with the stored values. -/
theorem get?_storedFields :
    Dict.get? (storedFields fields) key = (Dict.get? fields key).map stored := by
  induction fields with
  | nil => rfl
  | cons f fields ih =>
      obtain ⟨k, a⟩ := f
      rw [storedFields, get?_place, Dict.get?_cons, ih]
      split <;> rfl

/-- Fields in their order are known by the values of their keys. -/
theorem Placed.ext {a b : List (String × Json)} (ha : Placed a) (hb : Placed b)
    (h : ∀ key, Dict.get? a key = Dict.get? b key) : a = b := by
  have hkeyed {d : Dict} (hd : Placed d) : d.Keyed := by
    refine List.pairwise_map.2 (hd.imp fun hlt heq => ?_)
    rw [heq] at hlt
    exact lt_irrefl _ hlt
  have hmem (f : String × Json) : f ∈ a ↔ f ∈ b := by
    obtain ⟨k, v⟩ := f
    constructor
    · intro hf
      exact Dict.mem_of_get? ((h k).symm.trans ((hkeyed ha).get?_of_mem hf))
    · intro hf
      exact Dict.mem_of_get? ((h k).trans ((hkeyed hb).get?_of_mem hf))
  have hperm : a.Perm b :=
    (List.perm_ext_iff_of_nodup (hkeyed ha).of_map (hkeyed hb).of_map).2 hmem
  refine hperm.eq_of_pairwise (fun f g hf hg hlt hgt => ?_) ha hb
  exact absurd hgt (lt_asymm hlt)

theorem same_obj_iff {a b : List (String × Json)} : Same (obj a) (obj b) ↔
    ∀ key, (Dict.get? a key).map stored = (Dict.get? b key).map stored := by
  unfold Same
  rw [stored, stored, obj.injEq]
  constructor
  · intro h key
    rw [← get?_storedFields, ← get?_storedFields, h]
  · intro h
    refine (placed_storedFields a).ext (placed_storedFields b) fun key => ?_
    rw [get?_storedFields, get?_storedFields, h]

end

/-! ## Values as they are read -/

theorem place_ne_nil {f : String × Json} {fields : List (String × Json)} :
    place f fields ≠ [] := by
  unfold place
  split
  · exact List.cons_ne_nil _ _
  · split
    · exact List.cons_ne_nil _ _
    · split <;> exact List.cons_ne_nil _ _

theorem truthy_stored (v : Json) : v.stored.truthy = v.truthy := by
  cases v with
  | float x =>
      rw [stored]
      cases hwide : x.wide? with
      | none => rfl
      | some n =>
          show decide (n ≠ 0) = decide (x.digits ≠ 0)
          rw [decide_eq_decide, not_iff_not]
          exact PyFloat.digits_of_wide? hwide
  | arr items => cases items <;> rfl
  | obj fields =>
      cases fields with
      | nil => rfl
      | cons f fields =>
          show (!(place (f.1, f.2.stored) (storedFields fields)).isEmpty) = true
          rw [Bool.not_eq_true', List.isEmpty_eq_false_iff]
          exact place_ne_nil
  | null | bool | num | str => rfl

theorem any_truthy_stored (value : Option Json) :
    (value.map stored).any truthy = value.any truthy := by
  cases value with
  | none => rfl
  | some v => exact v.truthy_stored

mutual

theorem stored_stored : ∀ v : Json, v.stored.stored = v.stored
  | null | bool _ | num _ | str _ => rfl
  | float x => by
      rw [stored]
      cases hwide : x.wide? with
      | some n => rfl
      | none =>
          show (x.unsigned.wide?.map num).getD (float x.unsigned.unsigned) = float x.unsigned
          rw [(PyFloat.wide?_unsigned x).2 hwide, PyFloat.unsigned_unsigned]
          rfl
  | arr items => congrArg arr (storedItems_storedItems items)
  | obj fields => by
      refine same_obj_iff.2 fun key => ?_
      rw [get?_storedFields, Option.map_map]
      cases hkey : Dict.get? fields key with
      | none => rfl
      | some v => exact congrArg some (stored_of_get? fields hkey)

theorem storedItems_storedItems : ∀ items, storedItems (storedItems items) = storedItems items
  | [] => rfl
  | a :: as => congrArg₂ List.cons (stored_stored a) (storedItems_storedItems as)

theorem stored_of_get? : ∀ (fields : List (String × Json)) {key : String} {v : Json},
    Dict.get? fields key = some v → v.stored.stored = v.stored
  | [], _, _, h => by cases h
  | (k, a) :: fields, key, v, h => by
      rw [Dict.get?_cons] at h
      split at h
      · obtain rfl := Option.some.inj h
        exact stored_stored a
      · exact stored_of_get? fields h

end

theorem same_stored (v : Json) : Same v.stored v := stored_stored v

theorem stored_eq_null_iff {v : Json} : v.stored = null ↔ v = null := by
  cases v with
  | float x =>
      rw [stored]
      cases x.wide? <;> exact iff_of_false nofun nofun
  | null | bool | num | str => exact Iff.rfl
  | arr items => exact iff_of_false nofun nofun
  | obj fields => exact iff_of_false nofun nofun

theorem stored_eq_str_iff {v : Json} {text : String} : v.stored = str text ↔ v = str text := by
  cases v with
  | float x =>
      rw [stored]
      cases x.wide? <;> exact iff_of_false nofun nofun
  | null | bool | num | str => exact Iff.rfl
  | arr items => exact iff_of_false nofun nofun
  | obj fields => exact iff_of_false nofun nofun

/-- Fields may be stored before their object is. -/
theorem storedFields_map (fields : List (String × Json)) :
    storedFields (fields.map fun f => (f.1, f.2.stored)) = storedFields fields := by
  induction fields with
  | nil => rfl
  | cons f fields ih => rw [List.map_cons, storedFields, storedFields, stored_stored, ih]

theorem storedItems_eq (items : List Json) : storedItems items = items.map stored := by
  induction items with
  | nil => rfl
  | cons a as ih => rw [storedItems, List.map_cons, ih]

theorem dict?_stored (v : Json) : v.stored.dict? = v.dict?.map storedFields := by
  cases v with
  | float x =>
      rw [stored]
      cases x.wide? <;> rfl
  | null | bool | num | str | arr | obj => rfl

/-! ## Their texts -/

/-- The text of the value stays what it is when the value is stored. -/
def Steady (v : Json) : Prop := v.stored.pyStr = v.pyStr

instance (v : Json) : Decidable v.Steady := inferInstanceAs (Decidable (_ = _))

/-- The characters with which the text of a number, an array or an object begins. -/
def opening (c : Char) : Bool := c.isDigit || c ∈ ['-', '[', '\x7b']

/-- The text begins like a number, an array or an object. -/
def opens (text : String) : Bool := text.toList.head?.any opening

theorem opens_toString (n : Int) : opens (toString n) = true := by
  unfold opens
  rw [Int.toString_eq_repr]
  cases n with
  | ofNat k =>
      show (Nat.repr k).toList.head?.any opening = true
      rw [Nat.repr_eq_ofList_toDigits, String.toList_ofList]
      cases hdigits : Nat.toDigits 10 k with
      | nil => exact absurd hdigits Nat.toDigits_ne_nil
      | cons c rest =>
          have hdigit : c.isDigit = true := Nat.isDigit_of_mem_toDigits (by decide) (by decide)
            (hdigits ▸ List.mem_cons_self)
          show (c.isDigit || _) = true
          rw [hdigit, Bool.true_or]
  | negSucc k =>
      show ("-" ++ Nat.repr (k + 1)).toList.head?.any opening = true
      rw [String.toList_append]
      rfl

theorem opens_repr (x : PyFloat) : opens x.repr = true := by
  obtain ⟨c, rest, htext, rfl | hdigit⟩ := x.repr_head
  · unfold opens
    rw [htext]
    rfl
  · unfold opens
    rw [htext]
    show (c.isDigit || _) = true
    rw [hdigit, Bool.true_or]

theorem opens_arr (items : List Json) : opens (arr items).pyStr = true := by
  unfold opens
  show ("[" ++ reprItems items ++ "]").toList.head?.any opening = true
  rw [String.toList_append, String.toList_append]
  rfl

theorem opens_obj (fields : List (String × Json)) : opens (obj fields).pyStr = true := by
  unfold opens
  show ("\x7b" ++ reprFields fields ++ "\x7d").toList.head?.any opening = true
  rw [String.toList_append, String.toList_append]
  rfl

/-- A value whose text a database could change is a number, an array or an object. -/
theorem steady_or_opens (v : Json) :
    v.stored = v ∨ opens v.pyStr = true ∧ opens v.stored.pyStr = true := by
  cases v with
  | null | bool | num | str => exact .inl rfl
  | float x =>
      refine .inr ⟨opens_repr x, ?_⟩
      rw [stored]
      cases x.wide? with
      | none => exact opens_repr x.unsigned
      | some n => exact opens_toString n
  | arr items => exact .inr ⟨opens_arr items, opens_arr (storedItems items)⟩
  | obj fields => exact .inr ⟨opens_obj fields, opens_obj (storedFields fields)⟩

/-- A word stays what it is, and nothing else becomes one. -/
theorem pyStr_stored_word {v : Json} {word : String} (h : opens word = false) :
    v.stored.pyStr = word ↔ v.pyStr = word := by
  rcases steady_or_opens v with heq | ⟨hlive, hstored⟩
  · rw [heq]
  · refine iff_of_false ?_ ?_
    · rintro rfl
      exact Bool.false_ne_true (h.symm.trans hstored)
    · rintro rfl
      exact Bool.false_ne_true (h.symm.trans hlive)

end Json

end Kit
