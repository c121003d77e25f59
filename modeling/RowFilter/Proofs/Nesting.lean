import RowFilter.Proofs.Operators
import RowFilter.Proofs.Rows

/-!
# Nesting

Related nodes lead from row to row. A predicate is stepwise if every related node goes on by one
relation from the related node around it, so that the relation can be looked up on the row at
hand. A compiled predicate is stepwise if and only if every operator of the document stands at a
field: a question of existence that stands in a scope by itself, with no key around it there,
asks the related rows about the relation that led to them.
-/

namespace RowFilter

namespace Predicate

/-- Every related node goes on by one relation of the model at hand. Model and path are those of
the related node around the predicate, or of the root. -/
inductive Stepwise (schema : Schema) : String → Path → Predicate → Prop
  | all {model : String} {path : Path} {children : List Predicate} :
      (∀ p ∈ children, Stepwise schema model path p) → Stepwise schema model path (.all children)
  | any {model : String} {path : Path} {children : List Predicate} :
      (∀ p ∈ children, Stepwise schema model path p) → Stepwise schema model path (.any children)
  | not {model : String} {path : Path} {child : Predicate} :
      Stepwise schema model path child → Stepwise schema model path (.not child)
  | related {model name : String} {path : Path} {relation : RelationField} {inner : Predicate} :
      schema.field? model name = some (.relation relation) →
      Stepwise schema relation.target (path ++ [name]) inner →
      Stepwise schema model path (.related relation (path ++ [name]) inner)
  | test {model : String} {path path' : Path} {field : ScalarField} {c : Comparison} :
      Stepwise schema model path (.test field path' c)

variable {schema : Schema} {model name : String} {path : Path} {relation : RelationField}
  {p : Predicate} {ps : List Predicate}

theorem stepwise_true : Stepwise schema model path true := .all fun _ hp => nomatch hp

theorem stepwise_not_iff : Stepwise schema model path (.not p) ↔ Stepwise schema model path p := by
  constructor
  · rintro ⟨⟩
    assumption
  · exact .not

theorem stepwise_conjunction_iff :
    Stepwise schema model path (.conjunction ps) ↔ ∀ p ∈ ps, Stepwise schema model path p := by
  unfold conjunction
  split
  · simp
  · constructor
    · rintro ⟨⟩
      assumption
    · exact .all

theorem stepwise_disjunction_iff :
    Stepwise schema model path (.disjunction ps) ↔ ∀ p ∈ ps, Stepwise schema model path p := by
  unfold disjunction
  split
  · simp [stepwise_true]
  · simp
  · constructor
    · rintro ⟨⟩
      assumption
    · exact .any

theorem exists_name_of_stepwise_related {path' : Path}
    (h : Stepwise schema model path (.related relation path' p)) :
    ∃ name, path' = path ++ [name] ∧ schema.field? model name = some (.relation relation) ∧
      Stepwise schema relation.target path' p := by
  generalize hq : Predicate.related relation path' p = q at h
  cases h with
  | related hfield hinner =>
    cases hq
    exact ⟨_, rfl, hfield, hinner⟩
  | _ => cases hq

theorem stepwise_related_iff (h : schema.field? model name = some (.relation relation)) :
    Stepwise schema model path (.related relation (path ++ [name]) p) ↔
      Stepwise schema relation.target (path ++ [name]) p := by
  constructor
  · intro hrelated
    obtain ⟨_, _, _, hinner⟩ := exists_name_of_stepwise_related hrelated
    exact hinner
  · exact .related h

/-- No related node is at the path of the one around it. -/
theorem not_stepwise_related_self : ¬Stepwise schema model path (.related relation path p) := by
  intro h
  obtain ⟨name, hpath, _⟩ := exists_name_of_stepwise_related h
  have := congrArg List.length hpath
  rw [List.length_append, List.length_singleton] at this
  omega

end Predicate

namespace Outline

/-- Every operator stands at a field that no scope contains. -/
def OperatorsAtFields (o : Outline) : Prop :=
  ∀ place p, .operator place p ∈ o.parts → place.isField = true

section AtFields
variable {o : Outline} {os : List Outline} {path : Path} {relation : RelationField}
  {conditions : List Predicate}

/-- What is no operator has the operators of the outlines in it. -/
theorem operatorsAtFields_iff_of_parts (hparts : o.parts = o :: os.flatMap parts)
    (hne : ∀ place p, o ≠ .operator place p) :
    o.OperatorsAtFields ↔ ∀ o' ∈ os, o'.OperatorsAtFields := by
  unfold OperatorsAtFields
  rw [hparts]
  constructor
  · intro h o' ho place p hpart
    exact h place p (List.mem_cons_of_mem o (List.mem_flatMap.mpr ⟨o', ho, hpart⟩))
  · intro h place p hpart
    obtain hpart | hpart := List.mem_cons.mp hpart
    · exact absurd hpart.symm (hne place p)
    · obtain ⟨o', ho, hpart⟩ := List.mem_flatMap.mp hpart
      exact h o' ho place p hpart

theorem operatorsAtFields_all_iff :
    (all os).OperatorsAtFields ↔ ∀ o ∈ os, o.OperatorsAtFields :=
  operatorsAtFields_iff_of_parts (by rw [parts, partsOfAll_eq]) (fun _ _ => Outline.noConfusion)

theorem operatorsAtFields_any_iff :
    (any os).OperatorsAtFields ↔ ∀ o ∈ os, o.OperatorsAtFields :=
  operatorsAtFields_iff_of_parts (by rw [parts, partsOfAll_eq]) (fun _ _ => Outline.noConfusion)

theorem operatorsAtFields_iff_of_inside {inside : Outline} (hparts : o.parts = o :: inside.parts)
    (hne : ∀ place p, o ≠ .operator place p) : o.OperatorsAtFields ↔ inside.OperatorsAtFields := by
  have hparts : o.parts = o :: [inside].flatMap parts := by simpa using hparts
  rw [operatorsAtFields_iff_of_parts hparts hne]
  exact List.forall_mem_singleton

theorem operatorsAtFields_not_iff : (not o).OperatorsAtFields ↔ o.OperatorsAtFields :=
  operatorsAtFields_iff_of_inside (by rw [parts]) (fun _ _ => Outline.noConfusion)

theorem operatorsAtFields_scope_iff :
    (scope relation path conditions o).OperatorsAtFields ↔ o.OperatorsAtFields :=
  operatorsAtFields_iff_of_inside (by rw [parts]) (fun _ _ => Outline.noConfusion)

theorem operatorsAtFields_field_iff :
    (field path o).OperatorsAtFields ↔ o.OperatorsAtFields :=
  operatorsAtFields_iff_of_inside (by rw [parts]) (fun _ _ => Outline.noConfusion)

theorem operatorsAtFields_operator_iff {place : Place} {p : Predicate} :
    (operator place p).OperatorsAtFields ↔ place.isField = true := by
  constructor
  · intro h
    exact h place p List.mem_cons_self
  · intro h place' p' hpart
    cases List.mem_singleton.mp hpart
    exact h

end AtFields

variable {setup : Setup} {o : Outline}

/-- The node of a relation that the model at hand has leads on by one relation. -/
theorem Names.stepwise_related_iff {place : Place} {model name : String} {path : Path}
    {relation : RelationField} {inner : Predicate}
    (h : Names setup place model path name (.relation relation)) :
    (Predicate.related relation place.path inner).Stepwise setup.schema model path ↔
      inner.Stepwise setup.schema relation.target place.path := by
  rw [h.path, Predicate.stepwise_related_iff h.field]

/-- An operator at a field contributes a node that leads on by one relation at most. -/
theorem Names.stepwise_operator {place : Place} {model name token : String}
    {path dataKey : Path} {target : Field} {value : Value} {p : Predicate}
    (h : Names setup place model path name target)
    (hp : target.evaluate token value dataKey place.path = .ok p) :
    p.Stepwise setup.schema model path := by
  rcases Field.evaluate_eq_ok hp with ⟨_, _, _, _, rfl | rfl⟩ | ⟨relation, rfl, rfl | rfl⟩
  · exact .test
  · exact .not .test
  · exact h.stepwise_related_iff.mpr Predicate.stepwise_true
  · exact .not (h.stepwise_related_iff.mpr Predicate.stepwise_true)

/-- An operator that stands in a scope by itself contributes a node that does not lead on. -/
theorem not_stepwise_of_evaluate_relation {model token : String} {path dataKey : Path}
    {relation : RelationField} {value : Value} {p : Predicate}
    (hp : Field.evaluate (.relation relation) token value dataKey path = .ok p) :
    ¬p.Stepwise setup.schema model path := by
  intro hstepwise
  rcases Field.evaluate_eq_ok hp with ⟨_, _, hscalar, _⟩ | ⟨_, _, rfl | rfl⟩
  · cases hscalar
  · exact Predicate.not_stepwise_related_self hstepwise
  · exact Predicate.not_stepwise_related_self (Predicate.stepwise_not_iff.mp hstepwise)

theorem About.stepwise_iff (hconditions : setup.policies.NoConditions) {model : String}
    {path : Path} (h : About setup model path o) :
    (∀ p, o.node? = some p → p.Stepwise setup.schema model path) ↔ o.OperatorsAtFields := by
  induction h with
  | nothing =>
    refine iff_of_true (fun p hp => nomatch hp) fun place p hpart => ?_
    cases List.mem_singleton.mp hpart
  | all _ ih =>
    simp only [node?, Option.some.injEq, forall_eq', operatorsAtFields_all_iff,
      Predicate.stepwise_conjunction_iff, mem_nodes]
    constructor
    · intro hstepwise o ho
      exact (ih o ho).mp fun p hp => hstepwise p ⟨o, ho, hp⟩
    · rintro hfields p ⟨o, ho, hp⟩
      exact (ih o ho).mpr (hfields o ho) p hp
  | any _ ih =>
    simp only [node?, Option.some.injEq, forall_eq', operatorsAtFields_any_iff,
      Predicate.stepwise_disjunction_iff, mem_nodes]
    constructor
    · intro hstepwise o ho
      exact (ih o ho).mp fun p hp => hstepwise p ⟨o, ho, hp⟩
    · rintro hfields p ⟨o, ho, hp⟩
      exact (ih o ho).mpr (hfields o ho) p hp
  | @not _ _ o _ ih =>
    rw [operatorsAtFields_not_iff, ← ih]
    simp only [node?, Option.some.injEq, forall_eq', Predicate.stepwise_not_iff]
    cases o.node? with
    | none => simp [Predicate.stepwise_true]
    | some p => simp
  | scope hnamed hread _ ih =>
    rw [hconditions _ _ hread, operatorsAtFields_scope_iff, ← ih]
    simp only [node?, Option.some.injEq, forall_eq', List.nil_append, Option.mem_toList,
      hnamed.stepwise_related_iff, Predicate.stepwise_conjunction_iff]
  | operator hnamed hp =>
    simp only [node?, Option.some.injEq, forall_eq', operatorsAtFields_operator_iff]
    exact iff_of_true (hnamed.stepwise_operator hp) hnamed.isField
  | lone hclosed _ hp =>
    simp only [node?, Option.some.injEq, forall_eq', operatorsAtFields_operator_iff, hclosed]
    exact iff_of_false (not_stepwise_of_evaluate_relation hp) Bool.false_ne_true
  | field _ ih =>
    rw [operatorsAtFields_field_iff]
    exact ih

end Outline

section Compiled
variable {definition : Value} {catalog : Catalog} {root : String} {document : Value}
  {options : OptionsArgument} {policies : Policies} {p : Predicate}

/-- Without conditions from the host, a compiled predicate leads from row to row by one relation
at a time if and only if every operator of the document stands at a field. -/
theorem compiled_stepwise_iff (hdefine : Definition.define definition = .ok catalog)
    (hpolicies : Policies.resolve options = .ok policies)
    (hconditions : policies.NoConditions)
    (h : (compile catalog.schema root document options).result = .ok (some p)) :
    ∃ f o, document.mapping? = some f ∧
      (Outline.ofDocument ⟨catalog.schema, root, policies⟩ f).result = .ok o ∧ o.predicate = p ∧
      (p.Stepwise catalog.schema root [] ↔ o.OperatorsAtFields) := by
  obtain ⟨f, o, hf, ho, rfl, habout⟩ := exists_about_of_compile hdefine hpolicies h
  refine ⟨f, o, hf, ho, rfl, ?_⟩
  rw [← habout.stepwise_iff hconditions]
  unfold Outline.predicate
  cases o.node? with
  | none => simp [Predicate.stepwise_true]
  | some p => simp

end Compiled

namespace Sample

def indexedDocument : Value := .ofEntries
  [("tracks.0.playlists", .ofEntries [("$exists", .bool true), ("name", .text "x")])]

def indexedPredicate : Predicate :=
  .related tracks ["tracks"] (.all
    [.related playlists ["tracks", "playlists"] .true,
      .related playlists ["tracks", "playlists"]
        (.test ⟨"name", "Playlist", .scalar .text⟩ ["tracks", "playlists", "name"]
          (.compare .eq (.text "x")))])

theorem compile_indexedDocument :
    (compile catalog.schema "Album" indexedDocument (.settings .empty)).result =
      .ok (some indexedPredicate) := by
  rfl

theorem compiled_stepwise_iff_indexed :
    Definition.define definition = .ok catalog ∧
      Policies.resolve (.settings .empty) = .ok (.ofOptions .empty) ∧
      (Policies.ofOptions .empty).NoConditions ∧
      (compile catalog.schema "Album" indexedDocument (.settings .empty)).result =
        .ok (some indexedPredicate) ∧
      ∃ f o, indexedDocument.mapping? = some f ∧
        (Outline.ofDocument ⟨catalog.schema, "Album", .ofOptions .empty⟩ f).result = .ok o ∧
        o.predicate = indexedPredicate ∧
        (indexedPredicate.Stepwise catalog.schema "Album" [] ↔ o.OperatorsAtFields) :=
  have hconditions := Policies.noConditions_of_none rfl
  ⟨define_definition, rfl, hconditions, compile_indexedDocument,
    compiled_stepwise_iff define_definition rfl hconditions compile_indexedDocument⟩

/-- Asks the tracks of an album, inside their scope, whether there are any. -/
def loneExistenceDocument : Value := .ofEntries
  [("tracks", .ofEntries [("$elemMatch", .ofEntries [("$exists", .bool true)])])]

def loneExistencePredicate : Predicate :=
  .related tracks ["tracks"] (.related tracks ["tracks"] .true)

/-- An operator in a scope by itself is not refused, and its node leads back to the relation of
the scope. -/
theorem compiled_not_stepwise :
    Definition.define definition = .ok catalog ∧
      Policies.resolve (.settings .empty) = .ok (.ofOptions .empty) ∧
      (Policies.ofOptions .empty).NoConditions ∧
      (compile catalog.schema "Album" loneExistenceDocument (.settings .empty)).result =
        .ok (some loneExistencePredicate) ∧
      ¬loneExistencePredicate.Stepwise catalog.schema "Album" [] := by
  refine ⟨define_definition, rfl, Policies.noConditions_of_none rfl, rfl, fun h => ?_⟩
  obtain ⟨name, _, hfield, hinner⟩ := Predicate.exists_name_of_stepwise_related h
  exact Predicate.not_stepwise_related_self hinner

end Sample
end RowFilter
