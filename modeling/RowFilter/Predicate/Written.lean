import RowFilter.Predicate

/-!
# Predicates as records

A host may write a predicate down as a record. Its kind tells which predicate it is, and its
other entries are the parts: the children of a conjunction or disjunction, the child of a
denial, relation, cardinality, path and inner predicate of a related node, field, path, operator
and value of a comparison. Further entries do not matter, and neither does what made the record.

A record shows itself as a predicate by its kind alone, but can be read as one only if the parts
are there too: what reads as a predicate shows itself as one, and not the other way round.
-/

namespace RowFilter.Value

/-- Does a value show itself as a predicate (`isPredicateNode`)? Only its kind is looked at. -/
def looksLikePredicate (v : Value) : Bool :=
  match v.member? "kind" with
  | some (.text kind) => Predicate.kinds.contains kind
  | _ => false

/-! ## Parts -/

/-- A text under a name. -/
def textAt? (v : Value) (name : String) : Option String := (v.member? name).bind text?

def scalarField? (v : Value) : Option ScalarField := do
  return ⟨← v.textAt? "name", ← v.textAt? "model", .ofLabel (← v.textAt? "valueType")⟩

/-- The relation of a related node, to one row or to many as the node says. -/
def relationField? (v : Value) (cardinality : Cardinality) : Option RelationField := do
  return ⟨← v.textAt? "name", ← v.textAt? "model", ← (← v.member? "target").textAt? "name",
    cardinality⟩

/-- The comparison under a label. An operand that is left out is absent. -/
def comparison? (label : String) (operand : Value) : Option Comparison :=
  match CompareOp.ofLabel? label, label with
  | some op, _ => some (.compare op operand)
  | none, "like" => operand.text?.map .like
  | none, "in" => operand.list?.map .among
  | none, "mod" => if operand.modulus?.isSome then some (.modulo operand) else none
  | none, "isNull" => some .isNull
  | none, "notNull" => some .notNull
  | none, _ => none

def test? (v : Value) : Option Predicate := do
  let field ← (← v.member? "field").scalarField?
  let path ← v.textAt? "path"
  let comparison ← comparison? (← v.textAt? "op") ((v.member? "value").getD .absent)
  return .test field (.ofText path) comparison

/-- A related node around a predicate that is read already. -/
def related? (v : Value) (inner : Predicate) : Option Predicate := do
  let cardinality ← Cardinality.ofLabel? (← v.textAt? "cardinality")
  let relation ← (← v.member? "relation").relationField? cardinality
  return .related relation (.ofText (← v.textAt? "path")) inner

/-! ## Reading -/

mutual

/-- The predicate that a value is written as. -/
def predicate? : Value → Option Predicate
  | .record kind entries =>
    let v : Value := .record kind entries
    match v.textAt? "kind" with
    | some "and" => (childrenAt? "children" entries).map .all
    | some "or" => (childrenAt? "children" entries).map .any
    | some "not" => (childAt? "child" entries).map .not
    | some "exists" => (childAt? "inner" entries).bind v.related?
    | some "comparison" => v.test?
    | _ => none
  | _ => none

/-- The predicate under a name. -/
def childAt? (name : String) : List (String × Value) → Option Predicate
  | [] => none
  | (key, v) :: rest => if key = name then predicate? v else childAt? name rest

/-- The predicates of the list under a name. -/
def childrenAt? (name : String) : List (String × Value) → Option (List Predicate)
  | [] => none
  | (key, .list items) :: rest => if key = name then predicates? items else childrenAt? name rest
  | (key, _) :: rest => if key = name then none else childrenAt? name rest

def predicates? : List Value → Option (List Predicate)
  | [] => some []
  | v :: rest => do return (← predicate? v) :: (← predicates? rest)

end

/-! ## Kinds -/

theorem kind_of_related? {v : Value} {inner p : Predicate} (h : v.related? inner = some p) :
    p.kind = "exists" := by
  simp only [related?, Option.bind_eq_bind, Option.bind_eq_some_iff, Option.pure_def,
    Option.some.injEq] at h
  obtain ⟨_, _, _, _, _, _, _, _, _, _, rfl⟩ := h
  rfl

theorem kind_of_test? {v : Value} {p : Predicate} (h : v.test? = some p) :
    p.kind = "comparison" := by
  simp only [test?, Option.bind_eq_bind, Option.bind_eq_some_iff, Option.pure_def,
    Option.some.injEq] at h
  obtain ⟨_, _, _, _, _, _, _, _, _, _, rfl⟩ := h
  rfl

/-- A predicate has the kind that its record names. -/
theorem textAt?_kind_of_predicate? {v : Value} {p : Predicate} (h : v.predicate? = some p) :
    v.textAt? "kind" = some p.kind := by
  cases v with
  | record kind entries =>
    simp only [predicate?] at h
    split at h
    · rename_i hk
      obtain ⟨ps, _, rfl⟩ := Option.map_eq_some_iff.1 h
      exact hk
    · rename_i hk
      obtain ⟨ps, _, rfl⟩ := Option.map_eq_some_iff.1 h
      exact hk
    · rename_i hk
      obtain ⟨q, _, rfl⟩ := Option.map_eq_some_iff.1 h
      exact hk
    · rename_i hk
      obtain ⟨q, _, hq⟩ := Option.bind_eq_some_iff.1 h
      rw [hk, kind_of_related? hq]
    · rename_i hk
      rw [hk, kind_of_test? h]
    · cases h
  | _ => simp [predicate?] at h

/-- What reads as a predicate shows itself as one. -/
theorem looksLikePredicate_of_predicate? {v : Value} {p : Predicate}
    (h : v.predicate? = some p) : v.looksLikePredicate = true := by
  obtain ⟨w, hw, ht⟩ := Option.bind_eq_some_iff.1 (textAt?_kind_of_predicate? h)
  cases w with
  | text kind =>
    cases ht
    simpa [looksLikePredicate, hw] using p.kind_mem_kinds
  | _ => cases ht

example : (ofEntries [("kind", .text "or"), ("children", .list [])]).predicate? =
    some (.any []) := by rfl
example : (ofEntries [("kind", .text "and")]).looksLikePredicate = true ∧
    (ofEntries [("kind", .text "and")]).predicate? = none := ⟨by decide +kernel, by rfl⟩

end RowFilter.Value
