import GraphHarbor.Kit.Dict

/-!
# Comparisons of JSON values

Equality as Python and as JSONB have it, and the containment `@>`. The order of the fields
never counts.
-/

namespace Kit

namespace Json

/-- Equality of JSONB values that are not containers: numbers have their decimal value. -/
def sameScalar : Json → Json → Bool
  | null, null => true
  | bool a, bool b => a = b
  | num a, num b => a = b
  | num a, float y => y.decimal? = some a
  | float x, num b => x.decimal? = some b
  | float x, float y => x.eq y
  | str a, str b => a = b
  | _, _ => false

/-- `int(b)`. -/
def ofBool (b : Bool) : Int := if b then 1 else 0

/-- Equality of Python values that are not containers: a boolean is a number, and a float has
its binary value. -/
def pyScalar : Json → Json → Bool
  | bool a, num b => ofBool a = b
  | num a, bool b => a = ofBool b
  | num a, float y => y.integer? = some a
  | float x, num b => x.integer? = some b
  | bool a, float y => y.integer? = some (ofBool a)
  | float x, bool b => x.integer? = some (ofBool b)
  | a, b => sameScalar a b

mutual

/-- Equality of values, with `eq` on those that are not containers of one kind. -/
def equalBy (eq : Json → Json → Bool) : Json → Json → Bool
  | arr a, arr b => equalItems eq a b
  | obj a, obj b => a.length = b.length && equalFields eq a b
  | a, b => eq a b

def equalItems (eq : Json → Json → Bool) : List Json → List Json → Bool
  | [], [] => true
  | a :: as, b :: bs => equalBy eq a b && equalItems eq as bs
  | _, _ => false

def equalFields (eq : Json → Json → Bool) : List (String × Json) → Dict → Bool
  | [], _ => true
  | (key, a) :: as, b =>
      (match b.get? key with
        | some y => equalBy eq a y
        | none => false) && equalFields eq as b

end

/-- `a == b`. -/
def pyEq : Json → Json → Bool := equalBy pyScalar

/-- `a = b` of JSONB values. -/
def jsonbEq : Json → Json → Bool := equalBy sameScalar

mutual

/-- `a @> b`, below the top level. -/
def includes : Json → Json → Bool
  | arr a, arr b => includesItems a b
  | obj a, obj b => includesFields a b
  | a, b => sameScalar a b

def includesItems (a : List Json) : List Json → Bool
  | [] => true
  | y :: ys => a.any (fun x => includes x y) && includesItems a ys

def includesFields (a : Dict) : List (String × Json) → Bool
  | [] => true
  | (key, y) :: ys =>
      (match a.get? key with
        | some x => includes x y
        | none => false) && includesFields a ys

end

mutual

/-- No object in the value has two fields of one key. -/
def wellKeyed : Json → Bool
  | arr items => wellKeyedItems items
  | obj fields => decide (fields.map Prod.fst).Nodup && wellKeyedFields fields
  | _ => true

def wellKeyedItems : List Json → Bool
  | [] => true
  | a :: as => wellKeyed a && wellKeyedItems as

def wellKeyedFields : List (String × Json) → Bool
  | [] => true
  | (_, a) :: as => wellKeyed a && wellKeyedFields as

end

end Json

end Kit
