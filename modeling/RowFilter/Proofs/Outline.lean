import RowFilter.Traversal

/-!
# Outlines of documents

A document read by plain recursion, beside the traversal that reads it from a work list. Every
fragment is outlined where it stands, in the order of its entries, and every list in the order
of its items.

An outline is the predicate of a document before it is put together. It still shows what the
predicate does not: which field keys were opened, which related nodes are scopes, which nodes
come from operators, and which conditions the policies put into a scope. A fragment contributes
at most one node to what is around it, and the predicate of a document is its node, or true.
-/

namespace RowFilter

namespace Value

theorem sizeOf_lt_of_mapping? {v : Value} {f : Entries Value} (h : v.mapping? = some f) :
    sizeOf f < sizeOf v := by
  unfold mapping? at h
  split at h <;> cases h <;>
  · rw [record.sizeOf_spec]
    omega

/-- A list is a list of mappings if all its items are mappings. -/
theorem isSome_fragments?_list (items : List Value) :
    (list items).fragments?.isSome = items.all isMapping := by
  show (items.mapM mapping?).isSome = _
  induction items with
  | nil => rfl
  | cons v items ih =>
    rw [List.mapM_cons, List.all_cons, ← ih, isMapping]
    cases v.mapping? <;> cases items.mapM mapping? <;> rfl

/-- The fragments of a list are the mappings in it. -/
theorem exists_mapping_of_mem_fragments? {v : Value} {fs : List Fragment} {f : Fragment}
    (h : v.fragments? = some fs) (hf : f ∈ fs) :
    ∃ items, v = .list items ∧ ∃ w ∈ items, w.mapping? = some f := by
  obtain ⟨items, rfl⟩ := exists_list_of_fragments? h
  refine ⟨items, rfl, ?_⟩
  induction items generalizing fs with
  | nil =>
    cases h
    cases hf
  | cons w items ih =>
    obtain ⟨g, gs, hg, hgs, rfl⟩ := fragments?_cons_eq_some_iff.mp h
    rcases List.mem_cons.mp hf with rfl | hf
    · exact ⟨w, List.mem_cons_self, hg⟩
    · obtain ⟨w', hw', hwf⟩ := ih hf hgs
      exact ⟨w', List.mem_cons_of_mem _ hw', hwf⟩

/-- Documents are read entry by entry. What holds of an entry follows from what holds of the
entries of the mapping under its key, and of the mappings in the list under its key. -/
theorem entry_induction {motive : String × Value → Prop}
    (entry : ∀ key v,
      (∀ f, v.mapping? = some f → ∀ e ∈ f, motive e) →
      (∀ fs, v.fragments? = some fs → ∀ f ∈ fs, ∀ e ∈ f, motive e) → motive (key, v)) :
    ∀ e, motive e
  | (key, v) => by
    have hpair : sizeOf (key, v) = 1 + sizeOf key + sizeOf v := rfl
    refine entry key v ?_ ?_
    · intro f hf e he
      have : sizeOf e < sizeOf (key, v) := by
        have := List.sizeOf_lt_of_mem he
        have := sizeOf_lt_of_mapping? hf
        omega
      exact entry_induction entry e
    · intro fs hfs f hf e he
      obtain ⟨items, hv, w, hw, hwf⟩ := exists_mapping_of_mem_fragments? hfs hf
      have : sizeOf e < sizeOf (key, v) := by
        have := List.sizeOf_lt_of_mem he
        have := sizeOf_lt_of_mapping? hwf
        have := List.sizeOf_lt_of_mem hw
        have : sizeOf v = 1 + sizeOf items := by simp [hv]
        omega
      exact entry_induction entry e
termination_by e => sizeOf e
decreasing_by all_goals assumption

end Value

/-- Where a fragment stands: the keys open around it, and whether a field is open there that no
scope contains. -/
structure Place where
  key : OpenKey
  isField : Bool

namespace Place

def root : Place := ⟨⟨[], []⟩, false⟩

/-- The place under a key. -/
def enter (place : Place) (key : OpenKey) : Place :=
  ⟨⟨place.key.external ++ key.external, place.key.internal ++ key.internal⟩, true⟩

/-- The same place inside a scope on the relation there. -/
def inScope (place : Place) : Place := { place with isField := false }

/-- What the place is called inside, without list indices. -/
def path (place : Place) : Path := place.key.internal.strip

end Place

inductive Outline where
  /-- A fragment without entries. -/
  | nothing
  | all (children : List Outline)
  | any (children : List Outline)
  | not (child : Outline)
  | scope (relation : RelationField) (path : Path) (conditions : List Predicate) (body : Outline)
  /-- What an operator came to at a place. -/
  | operator (place : Place) (p : Predicate)
  /-- A field key, by the whole path it was checked under, and its value. -/
  | field (path : Path) (inside : Outline)

namespace Outline

/-! ## Nodes -/

mutual

/-- The node that an outline contributes to what is around it, if any. -/
def node? : Outline → Option Predicate
  | .nothing => none
  | .all children => some (.conjunction (nodes children))
  | .any children => some (.disjunction (nodes children))
  | .not child => some (.not ((node? child).getD .true))
  | .scope relation path conditions body =>
    some (.related relation path (.conjunction (conditions ++ (node? body).toList)))
  | .operator _ p => some p
  | .field _ inside => node? inside

def nodes : List Outline → List Predicate
  | [] => []
  | o :: rest => (node? o).toList ++ nodes rest

end

def predicate (o : Outline) : Predicate := o.node?.getD .true

/-- The outlines of the entries of one fragment, joined: several stand for their conjunction. -/
def joined : List Outline → Outline
  | [] => .nothing
  | [o] => o
  | os => .all os

/-! ## Reading -/

variable (setup : Setup)

/-- The field that the keys open at a place lead to. -/
def fieldAt? (place : Place) : Traced (Option Field) := do
  return leaf? (← Traversal.resolve setup place.key.internal place.key.external)

def ofOperator (token : String) (value : Value) (place : Place) : Traced Outline :=
  let refuse (cause : Cause) := Traced.refuse cause place.key.external value (some token)
  match FieldOperator.ofToken? token with
  | none => refuse .invalidOperator
  | some _ => do
    match ← fieldAt? setup place with
    | some target =>
      return .operator place
        (← Traced.ofExcept (target.evaluate token value place.key.external place.path))
    | none => refuse .relationComparison

/-- A scope on the relation at a place. The value is what a refusal shows. -/
def ofScope (value : Value) (body : Place → Traced Outline) (place : Place) :
    Traced Outline := do
  match ← fieldAt? setup place with
  | some (.relation relation) =>
    let conditions ← setup.policies.conditionsFor place.path
    Traced.log "Opened relation scope"
      [("path", .text place.path.text), ("cardinality", .text relation.cardinality.label),
        ("nestedConditions", .number (.ofNat conditions.length))]
    return .scope relation place.path conditions (← body place.inScope)
  | _ => Traced.refuse .misplacedMatch place.key.external value (some "$elemMatch")

/-- A field key. Up to the last relation on its way, every relation gets a scope around the rest
of the key, which is checked once more as a key of its own. `inside` and `onRelation` read the
value where the key ends, at a field and at a relation. -/
def ofKey (value : Value) (inside onRelation : Place → Traced Outline) (key : Path)
    (place : Place) : Traced Outline := do
  let dataKey := place.key.external ++ key
  Traced.ofExcept (key.check dataKey)
  let inner ← Traversal.innerKey setup key dataKey value
  let path := place.key.internal ++ inner
  let allowed ← setup.policies.isWhitelisted setup.schema setup.root path.strip
  if !allowed then Traced.refuse .forbidden dataKey value none
  else if place.isField then
    Traced.refuse .attributeObject place.key.external (.ofEntries [(key.text, value)]) (some "$eq")
  else do
    let steps ← Traversal.resolve setup path dataKey
    let depth := place.key.internal.length
    match (crossings steps).find? (depth ≤ ·) with
    | none => return .field path.strip (← inside (place.enter ⟨key, inner⟩))
    | some next =>
      let width := next - depth + 1
      let here := place.enter ⟨key.take width, inner.take width⟩
      match _h : key.drop width with
      | [] => return .field path.strip (← onRelation here)
      | first :: rest =>
        return .field path.strip
          (← ofScope setup (.ofEntries [(Path.text (first :: rest), value)])
            (ofKey value inside onRelation (first :: rest)) here)
termination_by key.length
decreasing_by
  have hlen := congrArg List.length _h
  simp only [List.length_drop, List.length_cons] at hlen ⊢
  omega

mutual

/-- A value as a mapping, or `otherwise`. -/
def ofValue (otherwise : Place → Traced Outline) : Value → Place → Traced Outline
  | .record kind entries, place =>
    if kind = .ofClass then otherwise place
    else do return joined (← ofEntries entries place)
  | _, place => otherwise place

/-- The value of a bare relation key. Its entries share no scope on that relation. -/
def ofRelationValue : Value → Place → Traced Outline
  | .record kind entries, place =>
    let value := Value.record kind entries
    if kind = .ofClass then Traced.refuse .relationPrimitive place.key.external value none
    else if entries = [] then Traced.refuse .emptyObject place.key.external value none
    else do return .all (← ofRelationEntries entries place)
  | value, place => Traced.refuse .relationPrimitive place.key.external value none

/-- A list of mappings. -/
def ofList (op : String) : Value → Place → Traced (List Outline)
  | .list items, place =>
    if items.all Value.isMapping then ofItems items place
    else Traced.refuse .logicalList place.key.external (.list items) (some op)
  | value, place => Traced.refuse .logicalList place.key.external value (some op)

def ofItems : List Value → Place → Traced (List Outline)
  | [], _ => return []
  | v :: rest, place => do
    return (← ofValue (fun _ => return .nothing) v place) :: (← ofItems rest place)

def ofEntries : List (String × Value) → Place → Traced (List Outline)
  | [], _ => return []
  | e :: rest, place => do return (← ofEntry e place) :: (← ofEntries rest place)

def ofRelationEntries : List (String × Value) → Place → Traced (List Outline)
  | [], _ => return []
  | e :: rest, place => do
    let head ←
      if e.1 = "$elemMatch" ∨ e.1 = "$exists" then ofEntry e place
      else ofScope setup (.ofEntries [e]) (ofEntry e) place
    return head :: (← ofRelationEntries rest place)

def ofEntry : String × Value → Place → Traced Outline
  | (key, value), place =>
    match DocumentKey.ofText key with
    | .all => return .all (← ofList key value place)
    | .any => return .any (← ofList key value place)
    | .none => return .not (.any (← ofList "$nor" value place))
    | .not => return .not (← ofValue (fun place =>
        Traced.refuse .logicalObject place.key.external value (some "$not")) value place)
    | .elemMatch =>
      if place.isField && value.isMapping then
        ofScope setup value (ofValue (fun _ => return .nothing) value) place
      else Traced.refuse .misplacedMatch place.key.external value (some "$elemMatch")
    | .operator token => ofOperator setup token value place
    | .field text =>
      ofKey setup value (ofValue (ofOperator setup "$eq" value) value) (ofRelationValue value)
        (.ofText text) place

end

def ofFragment (f : Fragment) (place : Place) : Traced Outline := do
  return joined (← ofEntries setup f place)

def ofDocument (document : Fragment) : Traced Outline := ofFragment setup document .root

/-- One entry of the mapping under a bare relation key. -/
def ofRelationEntry (e : String × Value) (place : Place) : Traced Outline :=
  if e.1 = "$elemMatch" ∨ e.1 = "$exists" then ofEntry setup e place
  else ofScope setup (.ofEntries [e]) (ofEntry setup e) place

/-! ## The reading of a field key -/

section Opening

variable {value : Value} {inside onRelation : Place → Traced Outline} {place : Place}

/-- What is left of a key behind a relation is shorter, since the relation takes a segment. -/
theorem length_lt_of_drop_eq {key rest : Path} {first : String} {width : Nat}
    (hdrop : key.drop width = first :: rest) (hpos : 0 < width) :
    (first :: rest).length < key.length := by
  have hlength := congrArg List.length hdrop
  rw [List.length_drop, List.length_cons] at hlength
  rw [List.length_cons]
  omega

/-- What a key comes to that has passed its checks and resolves by these steps: as a whole, or up
to the next relation on its way. -/
def ofOpened (setup : Setup) (value : Value) (inside onRelation : Place → Traced Outline)
    (key : OpenKey) (steps : List Step) (place : Place) : Traced Outline :=
  match (crossings steps).find? (place.key.internal.length ≤ ·) with
  | none => inside (place.enter key)
  | some next =>
    let width := next - place.key.internal.length + 1
    let here := place.enter ⟨key.external.take width, key.internal.take width⟩
    match key.external.drop width with
    | [] => onRelation here
    | first :: rest =>
      ofScope setup (.ofEntries [(Path.text (first :: rest), value)])
        (ofKey setup value inside onRelation (first :: rest)) here

theorem ofKey_eq_ofOpened (setup : Setup) (key : Path) :
    ofKey setup value inside onRelation key place = (do
      let dataKey := place.key.external ++ key
      Traced.ofExcept (key.check dataKey)
      let inner ← Traversal.innerKey setup key dataKey value
      let path := place.key.internal ++ inner
      let allowed ← setup.policies.isWhitelisted setup.schema setup.root path.strip
      if !allowed then Traced.refuse .forbidden dataKey value none
      else if place.isField then
        Traced.refuse .attributeObject place.key.external (.ofEntries [(key.text, value)])
          (some "$eq")
      else do
        let steps ← Traversal.resolve setup path dataKey
        return .field path.strip
          (← ofOpened setup value inside onRelation ⟨key, inner⟩ steps place)) := by
  rw [ofKey]
  refine bind_congr fun _ => bind_congr fun inner => bind_congr fun allowed => ?_
  refine ite_congr rfl (fun _ => rfl) fun _ => ite_congr rfl (fun _ => rfl) fun _ => ?_
  refine bind_congr fun steps => ?_
  unfold ofOpened
  split
  · next hfind => simp only [hfind]
  · next next hfind =>
    simp only [hfind]
    split
    · next hdrop => rw [hdrop]
    · next first rest hdrop => rw [hdrop]

end Opening

/-! ## The reading of each kind of value -/

theorem nodes_eq_flatMap (os : List Outline) : nodes os = os.flatMap (·.node?.toList) := by
  induction os with
  | nil => rfl
  | cons o os ih => simp [nodes, ih]

variable {setup}

theorem ofEntries_eq_mapM (f : Fragment) (place : Place) :
    ofEntries setup f place = f.mapM (ofEntry setup · place) := by
  induction f with
  | nil => rfl
  | cons e f ih => simp [ofEntries, ih]

theorem ofFragment_singleton (e : String × Value) (place : Place) :
    ofFragment setup [e] place = ofEntry setup e place := by
  simp [ofFragment, ofEntries, joined]

theorem ofRelationEntries_eq_mapM (f : Fragment) (place : Place) :
    ofRelationEntries setup f place = f.mapM (ofRelationEntry setup · place) := by
  induction f with
  | nil => rfl
  | cons e f ih =>
    rw [List.mapM_cons, ← ih]
    simp only [ofRelationEntries, ofRelationEntry]
    split <;> rfl

theorem ofValue_of_mapping? {v : Value} {f : Fragment} {otherwise : Place → Traced Outline}
    (h : v.mapping? = some f) : ofValue setup otherwise v = ofFragment setup f := by
  funext place
  cases v with
  | record kind entries =>
    cases kind <;> simp_all [Value.mapping?, ofValue, ofFragment]
  | _ => simp [Value.mapping?] at h

theorem ofValue_of_mapping?_eq_none {v : Value} {otherwise : Place → Traced Outline}
    (h : v.mapping? = none) : ofValue setup otherwise v = otherwise := by
  funext place
  cases v with
  | record kind entries => cases kind <;> simp_all [Value.mapping?, ofValue]
  | _ => simp [ofValue]

theorem ofRelationValue_of_mapping? {v : Value} {f : Fragment} (h : v.mapping? = some f)
    (hne : f ≠ []) (place : Place) : ofRelationValue setup v place =
      (do return .all (← f.mapM (ofRelationEntry setup · place))) := by
  cases v with
  | record kind entries =>
    cases kind <;> simp_all [Value.mapping?, ofRelationValue, ofRelationEntries_eq_mapM]
  | _ => simp [Value.mapping?] at h

theorem ofRelationValue_of_empty {v : Value} (h : v.mapping? = some []) (place : Place) :
    ofRelationValue setup v place =
      Traced.refuse .emptyObject place.key.external v none := by
  cases v with
  | record kind entries => cases kind <;> simp_all [Value.mapping?, ofRelationValue]
  | _ => simp [Value.mapping?] at h

theorem ofRelationValue_of_mapping?_eq_none {v : Value} (h : v.mapping? = none) (place : Place) :
    ofRelationValue setup v place =
      Traced.refuse .relationPrimitive place.key.external v none := by
  cases v with
  | record kind entries => cases kind <;> simp_all [Value.mapping?, ofRelationValue]
  | _ => simp [ofRelationValue]

theorem ofItems_eq_mapM {items : List Value} {fs : List Fragment}
    (h : (Value.list items).fragments? = some fs) (place : Place) :
    ofItems setup items place = fs.mapM (ofFragment setup · place) := by
  induction items generalizing fs with
  | nil =>
    cases h
    rfl
  | cons v items ih =>
    obtain ⟨f, rest, hf, hrest, rfl⟩ := Value.fragments?_cons_eq_some_iff.mp h
    simp only [ofItems, ofValue_of_mapping? hf, ih hrest, List.mapM_cons]

theorem ofList_of_fragments? {op : String} {v : Value} {fs : List Fragment}
    (h : v.fragments? = some fs) (place : Place) :
    ofList setup op v place = fs.mapM (ofFragment setup · place) := by
  obtain ⟨items, rfl⟩ := Value.exists_list_of_fragments? h
  simp only [ofList, ← Value.isSome_fragments?_list, h, Option.isSome_some, if_true]
  exact ofItems_eq_mapM h place

theorem ofList_of_fragments?_eq_none {op : String} {v : Value} (h : v.fragments? = none)
    (place : Place) :
    ofList setup op v place = Traced.refuse .logicalList place.key.external v (some op) := by
  cases v with
  | list items => simp [ofList, ← Value.isSome_fragments?_list, h]
  | _ => simp [ofList]

end Outline
end RowFilter
