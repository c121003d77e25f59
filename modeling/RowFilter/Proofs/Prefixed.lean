import RowFilter.Proofs.Parts

/-!
# Predicates behind a path

A predicate about the rows behind a path is the same predicate with all its paths behind that
path, and so is the outline that it comes from. The node of the outline follows it, and an operator
comes to the same comparison at whatever path its field is found.
-/

namespace RowFilter

namespace Predicate

mutual

/-- The same predicate with all its paths behind another. -/
def under (outer : Path) : Predicate → Predicate
  | .all children => .all (underAll outer children)
  | .any children => .any (underAll outer children)
  | .not child => .not (under outer child)
  | .related relation path inner => .related relation (outer ++ path) (under outer inner)
  | .test field path comparison => .test field (outer ++ path) comparison

def underAll (outer : Path) : List Predicate → List Predicate
  | [] => []
  | p :: rest => under outer p :: underAll outer rest

end

variable {outer : Path}

theorem underAll_eq_map (ps : List Predicate) : underAll outer ps = ps.map (under outer) := by
  induction ps with
  | nil => rfl
  | cons p ps ih => rw [underAll, ih, List.map_cons]

theorem under_conjunction (ps : List Predicate) :
    (conjunction ps).under outer = conjunction (ps.map (under outer)) := by
  rcases ps with _ | ⟨p, _ | ⟨q, ps⟩⟩
  · rfl
  · rfl
  · show Predicate.all (underAll outer (p :: q :: ps)) = _
    rw [underAll_eq_map]
    rfl

theorem under_disjunction (ps : List Predicate) :
    (disjunction ps).under outer = disjunction (ps.map (under outer)) := by
  rcases ps with _ | ⟨p, _ | ⟨q, ps⟩⟩
  · rfl
  · rfl
  · show Predicate.any (underAll outer (p :: q :: ps)) = _
    rw [underAll_eq_map]
    rfl

theorem compare_under {field : ScalarField} {op : CompareOp} {operand : Value} {path : Path}
    {p : Predicate} (h : compare field op operand path = .ok p) :
    compare field op operand (outer ++ path) = .ok (p.under outer) := by
  unfold compare at h ⊢
  split at h
  · next hsingle =>
    cases h
    rw [if_pos hsingle]
    rfl
  · cases h

end Predicate

namespace FieldOperator

variable {refuse refuse' : Cause → Fault} {op : FieldOperator} {operand : Value}
  {path outer : Path} {p : Predicate}

theorem membership_under {field : ScalarField}
    (h : onScalar.membership refuse field operand path = .ok p) :
    onScalar.membership refuse' field operand (outer ++ path) = .ok (p.under outer) := by
  unfold onScalar.membership at h ⊢
  split at h
  · obtain ⟨ws, hws, h⟩ := ok_of_bind h
    cases h
    rw [ok_of_mapError hws]
    rfl
  · cases h

/-- An operator comes to the same comparison wherever the field stands. -/
theorem onScalar_under {field : ScalarField} (h : op.onScalar refuse field operand path = .ok p) :
    op.onScalar refuse' field operand (outer ++ path) = .ok (p.under outer) := by
  cases op with
  | compare op =>
    simp only [onScalar] at h ⊢
    obtain ⟨w, hw, h⟩ := ok_of_bind h
    rw [ok_of_mapError hw]
    exact Predicate.compare_under h
  | like =>
    simp only [onScalar] at h ⊢
    split at h
    · cases h
      rfl
    · cases h
  | among =>
    simp only [onScalar] at h ⊢
    exact membership_under h
  | notAmong =>
    simp only [onScalar] at h ⊢
    obtain ⟨q, hq, h⟩ := ok_of_bind h
    cases h
    rw [membership_under hq]
    rfl
  | modulo =>
    simp only [onScalar] at h ⊢
    split at h
    · cases h
    · next htype =>
      obtain ⟨⟨divisor, remainder⟩, hmodulus, h⟩ := ok_of_bind h
      cases h
      rw [if_neg htype, ok_of_mapError hmodulus]
      rfl
  | presence =>
    simp only [onScalar] at h ⊢
    cases h
    split <;> rfl

theorem onRelation_under {relation : RelationField}
    (h : op.onRelation refuse relation operand path = .ok p) :
    op.onRelation refuse' relation operand (outer ++ path) = .ok (p.under outer) := by
  unfold onRelation at h ⊢
  split at h
  · next hop =>
    cases h
    rw [if_pos hop]
    dsimp only
    split <;> rfl
  · cases h

end FieldOperator

theorem Field.evaluate_under {target : Field} {token : String} {operand : Value}
    {dataKey path outer : Path} {p : Predicate}
    (h : target.evaluate token operand dataKey path = .ok p) (dataKey' : Path) :
    target.evaluate token operand dataKey' (outer ++ path) = .ok (p.under outer) := by
  unfold evaluate at h ⊢
  cases htoken : FieldOperator.ofToken? token with
  | none =>
    rw [htoken] at h
    cases h
  | some op =>
    rw [htoken] at h
    cases target with
    | scalar field => exact FieldOperator.onScalar_under h
    | relation relation => exact FieldOperator.onRelation_under h

def Place.under (outer : Path) (place : Place) : Place :=
  ⟨⟨outer ++ place.key.external, outer ++ place.key.internal⟩, place.isField⟩

theorem Place.under_enter (outer : Path) (place : Place) (key : OpenKey) :
    (place.enter key).under outer = (place.under outer).enter key := by
  simp [under, enter, List.append_assoc]

namespace Outline

mutual

/-- The same outline with all its paths and places behind a path. -/
def under (outer : Path) : Outline → Outline
  | .nothing => .nothing
  | .all children => .all (underAll outer children)
  | .any children => .any (underAll outer children)
  | .not child => .not (under outer child)
  | .scope relation path conditions body =>
    .scope relation (outer ++ path) (conditions.map (Predicate.under outer)) (under outer body)
  | .operator place p => .operator (place.under outer) (p.under outer)
  | .field path inside => .field (outer ++ path) (under outer inside)

def underAll (outer : Path) : List Outline → List Outline
  | [] => []
  | o :: rest => under outer o :: underAll outer rest

end

variable {outer : Path}

theorem underAll_eq_map (os : List Outline) : underAll outer os = os.map (under outer) := by
  induction os with
  | nil => rfl
  | cons o os ih => rw [underAll, ih, List.map_cons]

theorem joined_under (os : List Outline) :
    (joined os).under outer = joined (os.map (under outer)) := by
  rcases os with _ | ⟨o, _ | ⟨o', os⟩⟩
  · rfl
  · rfl
  · show Outline.all (underAll outer (o :: o' :: os)) = _
    rw [underAll_eq_map]
    rfl

theorem nodes_map_under {os : List Outline}
    (h : ∀ o ∈ os, (o.under outer).node? = o.node?.map (Predicate.under outer)) :
    nodes (os.map (under outer)) = (nodes os).map (Predicate.under outer) := by
  induction os with
  | nil => rfl
  | cons o os ih =>
    obtain ⟨ho, hos⟩ := List.forall_mem_cons.mp h
    rw [List.map_cons, nodes, nodes, ho, ih hos, List.map_append]
    cases o.node? <;> rfl

/-- The node of an outline behind a path is the node of the outline, behind the path. -/
theorem node?_under (o : Outline) :
    (o.under outer).node? = o.node?.map (Predicate.under outer) := by
  induction o using induction with
  | nothing => rfl
  | all os ih =>
    rw [under, underAll_eq_map, node?, node?, nodes_map_under ih, Option.map_some,
      Predicate.under_conjunction]
  | any os ih =>
    rw [under, underAll_eq_map, node?, node?, nodes_map_under ih, Option.map_some,
      Predicate.under_disjunction]
  | not o ih =>
    rw [under, node?, node?, ih]
    cases o.node? <;> rfl
  | scope relation path conditions body ih =>
    rw [under, node?, node?, ih, Option.map_some, Predicate.under, Predicate.under_conjunction,
      List.map_append]
    cases body.node? <;> rfl
  | operator place p => rfl
  | field path inside ih => exact ih

theorem predicate_under (o : Outline) : (o.under outer).predicate = o.predicate.under outer := by
  rw [predicate, predicate, node?_under]
  cases o.node? <;> rfl

end Outline

end RowFilter
