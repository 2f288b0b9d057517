import GraphHarbor.Kit.Jsonb
import Mathlib.Data.List.Infix

/-!
# Authorization filters

Three readings of the filter an auth handler returns: the matcher in Python, which
`Assistants.get` uses; the containment that `search` and `count` push down where the filter
has no operators; and the clauses that `metadata_predicate` compiles. Each gives a filter
the meaning that the conjunctions and disjunctions of its entries have, and they differ in
what an entry means.
-/

namespace GraphHarbor

open Kit

/-- What a reading of a filter raises. -/
inductive FilterError
  | http (detail : String)
  | python (name : String)
  deriving DecidableEq, Repr

/-- `str(k).startswith("$")`. -/
def operatorName (key : String) : Bool := key.toList.head? = some '$'

/-- The keys of logical groups. -/
def groupName (key : String) : Bool := key = "$or" || key = "$and"

/-! ## Matching in Python -/

/-- What `for x in value` runs over, if anything. -/
def iterated : Json → Option (List Json)
  | .arr items => some items
  | .obj fields => some (fields.map fun f => .str f.1)
  | .str text => some (text.toList.map fun c => .str (String.singleton c))
  | _ => none

/-- The operand of `$contains` as a list. -/
def members : Json → List Json
  | .arr items => items
  | operand => [operand]

/-- `el in items`. -/
def pyIn (items : List Json) (el : Json) : Bool := items.any fun x => x.pyEq el

/-- `_check_operator_filter`: only the first operator counts. -/
def checkOperatorFilter (metadata : Dict) (key : String) : Dict → Except FilterError Bool
  | [] => .error (.python "StopIteration")
  | (op, filterValue) :: _ =>
      if op = "$eq" then
        .ok ((metadata.get? key).any fun x => x.pyEq filterValue)
      else if op = "$contains" then
        match metadata.get? key with
        | some (.arr items) => .ok ((members filterValue).all (pyIn items))
        | _ => .ok false
      else .ok true

/-- One round of the loop of `_check_kv_filters`. -/
def checkKvFilter (metadata : Dict) (key : String) (value : Json) : Except FilterError Bool :=
  match value with
  | .obj fields => checkOperatorFilter metadata key fields
  | _ => .ok ((metadata.get? key).any fun x => x.pyEq value)

/-- `_check_kv_filters`. -/
def checkKvFilters (metadata : Dict) : Dict → Except FilterError Bool
  | [] => .ok true
  | (key, value) :: filters => do
      if ← checkKvFilter metadata key value then checkKvFilters metadata filters
      else pure false

/-- A `StopIteration` that leaves a generator or a coroutine becomes a `RuntimeError`. -/
def unstopped (r : Except FilterError Bool) : Except FilterError Bool :=
  r.mapError fun e => if e = .python "StopIteration" then .python "RuntimeError" else e

/-- `any` or `all` of the filters of a group. -/
def matchGroups (check : Json → Except FilterError Bool) (op : String) (groups : List Json) :
    Except FilterError Bool :=
  unstopped (if op = "$or" then groups.anyM check else groups.allM check)

/-- `_check_logical_group`, with the match one level deeper. -/
def checkLogicalGroup (check : Json → Except FilterError Bool) (filters : Dict) (op : String) :
    Except FilterError Bool :=
  match (filters.get? op).bind iterated with
  | none => .error (.python "TypeError")
  | some groups => do
      if ← matchGroups check op groups then
        let remaining := filters.without op
        if remaining.isEmpty then pure true else check (.obj remaining)
      else pure false

/-- `op in filters`, for a value that is no object. -/
def hasGroup (op : String) : Json → Bool
  | .arr items => pyIn items (.str op)
  | .str text => decide (op.toList <:+: text.toList)
  | _ => false

/-- What a value raises that is neither an object nor empty: a number has no `in`; a list or
a text with a group in it has no `filters[op]`, and any other one no `items`. -/
def noFilter (filters : Json) : FilterError :=
  if (iterated filters).isNone || hasGroup "$or" filters || hasGroup "$and" filters then
    .python "TypeError"
  else .python "AttributeError"

/-- `_check_filter_match`, with the number of levels that are left. -/
def checkFilterMatch (metadata : Dict) : Nat → Json → Except FilterError Bool
  | 0, filters =>
      if filters.truthy then .error (.http "Too many nested filter operators") else .ok true
  | left + 1, filters =>
      if filters.truthy then
        match filters with
        | .obj fields =>
            if Dict.contains fields "$or" then
              checkLogicalGroup (checkFilterMatch metadata left) fields "$or"
            else if Dict.contains fields "$and" then
              checkLogicalGroup (checkFilterMatch metadata left) fields "$and"
            else checkKvFilters metadata fields
        | _ => .error (noFilter filters)
      else .ok true

/-- The levels of a filter: the checks fail where `nesting_level > 2`. -/
def filterLevels : Nat := 3

/-! ## The paths of a row -/

/-- `_plain_metadata_filter`. -/
def plainMetadataFilter (filters : Dict) : Option Dict :=
  if filters.isEmpty then some []
  else if filters.any fun f => operatorName f.1 then none
  else if filters.any fun f =>
      match f.2 with
      | .obj fields => fields.any fun g => operatorName g.1
      | _ => false
    then none
  else some filters

/-- `Assistants.get`: whether the row is returned. -/
def getAdmits (metadata filters : Dict) : Except FilterError Bool :=
  if filters.isEmpty then .ok true
  else unstopped (checkFilterMatch metadata filterLevels (.obj filters))

/-- `Assistants.search`: whether the row is in the result. -/
def searchIncludes (metadata filters : Dict) : Except FilterError Bool :=
  match plainMetadataFilter filters with
  | some (f :: plain) => .ok ((Json.obj metadata).includes (.obj (f :: plain)))
  | _ =>
      if filters.isEmpty then .ok true
      else unstopped (checkFilterMatch metadata filterLevels (.obj filters))

/-- `_count_with_auth`: whether the row is counted. -/
def countIncludes (metadata filters : Dict) : Except FilterError Bool :=
  if !filters.isEmpty && (plainMetadataFilter filters).isNone then
    unstopped (checkFilterMatch metadata filterLevels (.obj filters))
  else
    match plainMetadataFilter filters with
    | some (f :: plain) => .ok ((Json.obj metadata).includes (.obj (f :: plain)))
    | _ => .ok true

/-! ## Compiled filters -/

/-- A clause of a query, as the rows on which it is true. -/
abbrev Clause := Dict → Bool

/-- `and_(true(), *clauses)`. -/
def allOf (clauses : List Clause) : Clause := fun metadata => clauses.all fun c => c metadata

/-- `or_(false(), *clauses)`. -/
def anyOf (clauses : List Clause) : Clause := fun metadata => clauses.any fun c => c metadata

/-- `column[key] == type_coerce(operand, JSONB)`. -/
def columnEquals (key : String) (operand : Json) : Clause := fun metadata =>
  (metadata.get? key).any fun x => x.jsonbEq operand

/-- `jsonb_typeof(column[key]) = 'array'` and `column[key] @> members`. -/
def columnContains (key : String) (items : List Json) : Clause := fun metadata =>
  match metadata.get? key with
  | some (.arr stored) => (Json.arr stored).includes (.arr items)
  | _ => false

/-- One round of the loop of `metadata_predicate`; `compile` is the call one level deeper. -/
def filterClause (compile : Json → Except FilterError Clause) (key : String) (value : Json) :
    Except FilterError Clause :=
  if groupName key then
    match value with
    | .arr items => do
        let nested ← items.mapM compile
        pure (if key = "$and" then allOf nested else anyOf nested)
    | _ => .error (.http "Invalid authorization filter group")
  else if operatorName key then .error (.http "Unsupported authorization filter")
  else
    match value with
    | .obj [(operator, operand)] =>
        if operator = "$eq" then .ok (columnEquals key operand)
        else if operator = "$contains" then .ok (columnContains key (members operand))
        else .error (.http "Unsupported authorization filter operator")
    | .obj _ => .error (.http "Invalid authorization filter operator")
    | _ => .ok (columnEquals key value)

/-- `metadata_predicate`, with the number of levels that are left. -/
def metadataPredicate : Nat → Json → Except FilterError Clause
  | left + 1, .obj filters => do
      let clauses ← filters.mapM fun f => filterClause (metadataPredicate left) f.1 f.2
      pure (allOf clauses)
  | _, _ => .error (.http "Invalid authorization filter")

/-! ## The paths together -/

/-- An entry of the filter, or of a filter in one of its groups. -/
inductive Entry : Dict → String → Json → Prop
  | here {filters : Dict} {key : String} {value : Json} (h : (key, value) ∈ filters)
      (hkey : groupName key = false) : Entry filters key value
  | group {filters group : Dict} {op key : String} {items : List Json} {value : Json}
      (h : (op, .arr items) ∈ filters) (hop : groupName op = true) (hgroup : .obj group ∈ items)
      (hentry : Entry group key value) : Entry filters key value

/-- The entry has an operator that no reading implements. -/
def unknownOperator (key : String) (value : Json) : Bool :=
  operatorName key ||
    match value with
    | .obj fields => fields.any fun f => operatorName f.1 && f.1 ≠ "$eq" && f.1 ≠ "$contains"
    | _ => false

/-- The paths agree on the row, and an unknown operator keeps it out. -/
structure Agrees (metadata filters : Dict) : Prop where
  search : getAdmits metadata filters = .ok true ↔ searchIncludes metadata filters = .ok true
  count : getAdmits metadata filters = .ok true ↔ countIncludes metadata filters = .ok true
  compiled : ∀ clause, metadataPredicate filterLevels (.obj filters) = .ok clause →
    (getAdmits metadata filters = .ok true ↔ clause metadata = true)
  unknown : ∀ key value, Entry filters key value → unknownOperator key value = true →
    getAdmits metadata filters ≠ .ok true

/-! ## The meaning of a filter -/

/-- What an entry means to the matcher: an object with any other first operator passes, and
the empty object does not. -/
def matchedEntry (metadata : Dict) (key : String) (value : Json) : Bool :=
  match value with
  | .obj [] => false
  | .obj ((op, operand) :: _) =>
      if op = "$eq" then (metadata.get? key).any fun x => x.pyEq operand
      else if op = "$contains" then
        match metadata.get? key with
        | some (.arr items) => (members operand).all (pyIn items)
        | _ => false
      else true
  | value => (metadata.get? key).any fun x => x.pyEq value

/-- What a filter means, where `entry` is what its entries mean. -/
def meaning (entry : String → Json → Bool) : Nat → Json → Bool
  | depth + 1, .obj fields => fields.all fun f =>
      if groupName f.1 then
        (iterated f.2).any fun groups =>
          if f.1 = "$or" then groups.any (meaning entry depth)
          else groups.all (meaning entry depth)
      else entry f.1 f.2
  | _, filters => !filters.truthy

/-- The logical group that is matched first. -/
def firstGroup (filters : Dict) : Option String :=
  if filters.contains "$or" then some "$or"
  else if filters.contains "$and" then some "$and"
  else none

/-- `_check_filter_match` raises: no level is left, a value is no filter or no group, or the
first entry that does not pass is the empty object. -/
def raises (metadata : Dict) : Nat → Json → Bool
  | left + 1, .obj fields =>
      match firstGroup fields with
      | none =>
          (fields.find? fun f => !matchedEntry metadata f.1 f.2).any fun f => f.2 = .obj []
      | some op =>
          match (Dict.get? fields op).bind iterated with
          | none => true
          | some groups =>
              let met := meaning (matchedEntry metadata) left
              -- the first filter that decides the group, or raises before
              (groups.find? fun g => raises metadata left g || met g = (op = "$or" : Bool)).any
                  (raises metadata left) ||
                (if op = "$or" then groups.any met else groups.all met) &&
                  raises metadata left (.obj (Dict.without fields op))
  | _, filters => filters.truthy

variable {metadata filters : Dict} {key op : String} {value : Json} {left depth : Nat}

/-- A call that raises, or answers `b`. -/
def Answers (stops b : Bool) (r : Except FilterError Bool) : Prop :=
  if stops then ∃ e, r = .error e else r = .ok b

theorem Answers.raised {e : FilterError} {b : Bool} : Answers true b (.error e) := ⟨e, rfl⟩

theorem Answers.unstopped {stops b : Bool} {r : Except FilterError Bool} (h : Answers stops b r) :
    Answers stops b (unstopped r) := by
  cases stops with
  | true =>
      obtain ⟨e, rfl⟩ := h
      exact ⟨_, rfl⟩
  | false =>
      obtain rfl : r = .ok b := h
      rfl

end GraphHarbor
