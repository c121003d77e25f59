import RowFilter.Proofs.Outline

/-!
# Parts

The nodes of a predicate and the parts of an outline, each with the whole among them. Every
comparison and every related node of an outline's predicate was contributed by one of the parts:
it stands in what an operator came to or in a condition, or it is the node of a scope.
-/

namespace RowFilter

namespace Predicate

/-- Predicates are built from the predicates in them. -/
theorem induction {motive : Predicate → Prop}
    (all : ∀ ps, (∀ p ∈ ps, motive p) → motive (.all ps))
    (any : ∀ ps, (∀ p ∈ ps, motive p) → motive (.any ps))
    (not : ∀ p, motive p → motive (.not p))
    (related : ∀ relation path inner, motive inner → motive (.related relation path inner))
    (test : ∀ field path c, motive (.test field path c)) : ∀ p, motive p
  | .all ps => all ps fun p _ => induction all any not related test p
  | .any ps => any ps fun p _ => induction all any not related test p
  | .not p => not p (induction all any not related test p)
  | .related relation path inner =>
    related relation path inner (induction all any not related test inner)
  | .test field path c => test field path c

mutual

/-- The nodes of a predicate, itself first. -/
def parts : Predicate → List Predicate
  | .all children => .all children :: partsOfAll children
  | .any children => .any children :: partsOfAll children
  | .not child => .not child :: parts child
  | .related relation path inner => .related relation path inner :: parts inner
  | .test field path comparison => [.test field path comparison]

def partsOfAll : List Predicate → List Predicate
  | [] => []
  | p :: rest => parts p ++ partsOfAll rest

end

/-- The path of a node that has one. -/
def path? : Predicate → Option Path
  | .related _ path _ | .test _ path _ => some path
  | _ => none

theorem partsOfAll_eq (ps : List Predicate) : partsOfAll ps = ps.flatMap parts := by
  induction ps with
  | nil => rfl
  | cons p ps ih =>
    show p.parts ++ partsOfAll ps = _
    rw [ih, List.flatMap_cons]

theorem self_mem_parts (p : Predicate) : p ∈ p.parts := by
  cases p <;> exact List.mem_cons_self

theorem mem_parts_all {ps : List Predicate} {q : Predicate} :
    q ∈ (all ps).parts ↔ q = .all ps ∨ ∃ p ∈ ps, q ∈ p.parts := by
  show q ∈ .all ps :: partsOfAll ps ↔ _
  rw [partsOfAll_eq, List.mem_cons, List.mem_flatMap]

theorem mem_parts_any {ps : List Predicate} {q : Predicate} :
    q ∈ (any ps).parts ↔ q = .any ps ∨ ∃ p ∈ ps, q ∈ p.parts := by
  show q ∈ .any ps :: partsOfAll ps ↔ _
  rw [partsOfAll_eq, List.mem_cons, List.mem_flatMap]

theorem mem_parts_not {p q : Predicate} : q ∈ (not p).parts ↔ q = .not p ∨ q ∈ p.parts :=
  List.mem_cons

theorem mem_parts_related {relation : RelationField} {path : Path} {p q : Predicate} :
    q ∈ (related relation path p).parts ↔ q = .related relation path p ∨ q ∈ p.parts :=
  List.mem_cons

theorem mem_parts_test {field : ScalarField} {path : Path} {c : Comparison} {q : Predicate} :
    q ∈ (test field path c).parts ↔ q = .test field path c :=
  List.mem_singleton

/-- A conjunction has no nodes with a path but those of its children. -/
theorem exists_of_mem_parts_conjunction {ps : List Predicate} {q : Predicate}
    (h : q ∈ (conjunction ps).parts) (hpath : q.path?.isSome) : ∃ p ∈ ps, q ∈ p.parts := by
  unfold conjunction at h
  split at h
  · exact ⟨_, List.mem_singleton_self _, h⟩
  · rcases mem_parts_all.mp h with rfl | h
    · cases hpath
    · exact h

theorem exists_of_mem_parts_disjunction {ps : List Predicate} {q : Predicate}
    (h : q ∈ (disjunction ps).parts) (hpath : q.path?.isSome) : ∃ p ∈ ps, q ∈ p.parts := by
  unfold disjunction at h
  split at h
  · exact absurd (mem_parts_all.mp h) (by rintro (rfl | ⟨p, hp, _⟩) <;> simp_all [path?])
  · exact ⟨_, List.mem_singleton_self _, h⟩
  · rcases mem_parts_any.mp h with rfl | h
    · cases hpath
    · exact h

/-- And a conjunction has all the nodes of its children. -/
theorem mem_parts_conjunction {ps : List Predicate} {p q : Predicate} (hp : p ∈ ps)
    (hq : q ∈ p.parts) : q ∈ (conjunction ps).parts := by
  unfold conjunction
  split
  · rw [← List.mem_singleton.mp hp]
    exact hq
  · exact mem_parts_all.mpr (.inr ⟨p, hp, hq⟩)

theorem mem_parts_disjunction {ps : List Predicate} {p q : Predicate} (hp : p ∈ ps)
    (hq : q ∈ p.parts) : q ∈ (disjunction ps).parts := by
  unfold disjunction
  split
  · cases hp
  · rw [← List.mem_singleton.mp hp]
    exact hq
  · exact mem_parts_any.mpr (.inr ⟨p, hp, hq⟩)

end Predicate

namespace Outline

/-- Outlines are built from the outlines in them. -/
theorem induction {motive : Outline → Prop}
    (nothing : motive .nothing)
    (all : ∀ os, (∀ o ∈ os, motive o) → motive (.all os))
    (any : ∀ os, (∀ o ∈ os, motive o) → motive (.any os))
    (not : ∀ o, motive o → motive (.not o))
    (scope : ∀ relation path conditions body, motive body →
      motive (.scope relation path conditions body))
    (operator : ∀ place p, motive (.operator place p))
    (field : ∀ path inside, motive inside → motive (.field path inside)) : ∀ o, motive o
  | .nothing => nothing
  | .all os => all os fun o _ => induction nothing all any not scope operator field o
  | .any os => any os fun o _ => induction nothing all any not scope operator field o
  | .not o => not o (induction nothing all any not scope operator field o)
  | .scope relation path conditions body =>
    scope relation path conditions body (induction nothing all any not scope operator field body)
  | .operator place p => operator place p
  | .field path inside =>
    field path inside (induction nothing all any not scope operator field inside)

mutual

/-- The parts of an outline, itself first. -/
def parts : Outline → List Outline
  | .nothing => [.nothing]
  | .all children => .all children :: partsOfAll children
  | .any children => .any children :: partsOfAll children
  | .not child => .not child :: parts child
  | .scope relation path conditions body => .scope relation path conditions body :: parts body
  | .operator place p => [.operator place p]
  | .field path inside => .field path inside :: parts inside

def partsOfAll : List Outline → List Outline
  | [] => []
  | o :: rest => parts o ++ partsOfAll rest

end

variable {o : Outline}

theorem partsOfAll_eq (os : List Outline) : partsOfAll os = os.flatMap parts := by
  induction os with
  | nil => rfl
  | cons o os ih =>
    show o.parts ++ partsOfAll os = _
    rw [ih, List.flatMap_cons]

theorem self_mem_parts (o : Outline) : o ∈ o.parts := by
  cases o <;> exact List.mem_cons_self

theorem mem_parts_all {os : List Outline} {q : Outline} :
    q ∈ (all os).parts ↔ q = .all os ∨ ∃ o ∈ os, q ∈ o.parts := by
  show q ∈ .all os :: partsOfAll os ↔ _
  rw [partsOfAll_eq, List.mem_cons, List.mem_flatMap]

theorem mem_parts_any {os : List Outline} {q : Outline} :
    q ∈ (any os).parts ↔ q = .any os ∨ ∃ o ∈ os, q ∈ o.parts := by
  show q ∈ .any os :: partsOfAll os ↔ _
  rw [partsOfAll_eq, List.mem_cons, List.mem_flatMap]

theorem parts_subset_of_mem_all {os : List Outline} (h : o ∈ os) : o.parts ⊆ (all os).parts :=
  fun _ hpart => mem_parts_all.mpr (.inr ⟨o, h, hpart⟩)

theorem parts_subset_of_mem_any {os : List Outline} (h : o ∈ os) : o.parts ⊆ (any os).parts :=
  fun _ hpart => mem_parts_any.mpr (.inr ⟨o, h, hpart⟩)

theorem parts_subset_not : o.parts ⊆ (not o).parts := fun _ => List.mem_cons_of_mem _

theorem parts_subset_scope {relation : RelationField} {path : Path}
    {conditions : List Predicate} : o.parts ⊆ (scope relation path conditions o).parts :=
  fun _ => List.mem_cons_of_mem _

theorem parts_subset_field {path : Path} : o.parts ⊆ (field path o).parts :=
  fun _ => List.mem_cons_of_mem _

/-- What contributed a node of the predicate of an outline. -/
inductive Origin (o : Outline) (q : Predicate) : Prop
  | operator {place : Place} {p : Predicate} :
      .operator place p ∈ o.parts → q ∈ p.parts → Origin o q
  | scope {relation : RelationField} {path : Path} {conditions : List Predicate} {body : Outline}
      {inner : Predicate} : .scope relation path conditions body ∈ o.parts →
      q = .related relation path inner → Origin o q
  | condition {relation : RelationField} {path : Path} {conditions : List Predicate}
      {body : Outline} {condition : Predicate} : .scope relation path conditions body ∈ o.parts →
      condition ∈ conditions → q ∈ condition.parts → Origin o q

theorem Origin.of_subset {o' : Outline} {q : Predicate} (h : Origin o' q)
    (hparts : o'.parts ⊆ o.parts) : Origin o q := by
  cases h with
  | operator hpart hq => exact .operator (hparts hpart) hq
  | scope hpart hq => exact .scope (hparts hpart) hq
  | condition hpart hc hq => exact .condition (hparts hpart) hc hq

theorem mem_nodes {os : List Outline} {p : Predicate} :
    p ∈ nodes os ↔ ∃ o ∈ os, o.node? = some p := by
  rw [nodes_eq_flatMap, List.mem_flatMap]
  simp only [Option.mem_toList]

/-- Every node with a path comes from a part of the outline. -/
theorem origin_of_mem_node (o : Outline) : ∀ p, o.node? = some p → ∀ q ∈ p.parts,
    q.path?.isSome → Origin o q := by
  induction o using induction with
  | nothing =>
    intro p hp
    cases hp
  | all os ih =>
    intro p hp q hq hpath
    cases hp
    obtain ⟨p, hp, hq⟩ := Predicate.exists_of_mem_parts_conjunction hq hpath
    obtain ⟨o, ho, hnode⟩ := mem_nodes.mp hp
    exact (ih o ho p hnode q hq hpath).of_subset (parts_subset_of_mem_all ho)
  | any os ih =>
    intro p hp q hq hpath
    cases hp
    obtain ⟨p, hp, hq⟩ := Predicate.exists_of_mem_parts_disjunction hq hpath
    obtain ⟨o, ho, hnode⟩ := mem_nodes.mp hp
    exact (ih o ho p hnode q hq hpath).of_subset (parts_subset_of_mem_any ho)
  | not o ih =>
    intro p hp q hq hpath
    cases hp
    rcases Predicate.mem_parts_not.mp hq with rfl | hq
    · cases hpath
    · cases hnode : o.node? with
      | none =>
        rw [hnode] at hq
        simp only [Option.getD_none, Predicate.true, Predicate.parts, Predicate.partsOfAll,
          List.mem_singleton] at hq
        subst hq
        cases hpath
      | some p =>
        rw [hnode] at hq
        exact (ih p hnode q hq hpath).of_subset parts_subset_not
  | scope relation path conditions body ih =>
    intro p hp q hq hpath
    cases hp
    rcases Predicate.mem_parts_related.mp hq with rfl | hq
    · exact .scope (self_mem_parts _) rfl
    · obtain ⟨p, hp, hq⟩ := Predicate.exists_of_mem_parts_conjunction hq hpath
      rcases List.mem_append.mp hp with hp | hp
      · exact .condition (self_mem_parts _) hp hq
      · exact (ih p (Option.mem_toList.mp hp) q hq hpath).of_subset parts_subset_scope
  | operator place p =>
    intro p' hp q hq _
    cases hp
    exact .operator (self_mem_parts _) hq
  | field path inside ih =>
    intro p hp q hq hpath
    exact (ih p hp q hq hpath).of_subset parts_subset_field

/-- A part that contributes a node contributes it to the node of the whole. -/
theorem exists_node_of_mem_parts {part : Outline} {n : Predicate} (hn : part.node? = some n)
    (o : Outline) : part ∈ o.parts → ∃ p, o.node? = some p ∧ n.parts ⊆ p.parts := by
  have hself : ∃ p, part.node? = some p ∧ n.parts ⊆ p.parts :=
    ⟨n, hn, fun _ hq => hq⟩
  induction o using induction with
  | nothing =>
    intro hpart
    cases List.mem_singleton.mp hpart
    exact hself
  | all os ih =>
    intro hpart
    obtain rfl | ⟨o, ho, hpart⟩ := mem_parts_all.mp hpart
    · exact hself
    · obtain ⟨p, hp, hsubset⟩ := ih o ho hpart
      have hmem : p ∈ nodes os := mem_nodes.mpr ⟨o, ho, hp⟩
      exact ⟨_, rfl, fun _ hq => Predicate.mem_parts_conjunction hmem (hsubset hq)⟩
  | any os ih =>
    intro hpart
    obtain rfl | ⟨o, ho, hpart⟩ := mem_parts_any.mp hpart
    · exact hself
    · obtain ⟨p, hp, hsubset⟩ := ih o ho hpart
      have hmem : p ∈ nodes os := mem_nodes.mpr ⟨o, ho, hp⟩
      exact ⟨_, rfl, fun _ hq => Predicate.mem_parts_disjunction hmem (hsubset hq)⟩
  | not o ih =>
    intro hpart
    obtain rfl | hpart := List.mem_cons.mp hpart
    · exact hself
    · obtain ⟨p, hp, hsubset⟩ := ih hpart
      refine ⟨_, rfl, fun _ hq => Predicate.mem_parts_not.mpr (.inr ?_)⟩
      rw [hp]
      exact hsubset hq
  | scope relation path conditions body ih =>
    intro hpart
    obtain rfl | hpart := List.mem_cons.mp hpart
    · exact hself
    · obtain ⟨p, hp, hsubset⟩ := ih hpart
      have hmem : p ∈ conditions ++ body.node?.toList :=
        List.mem_append_right _ (Option.mem_toList.mpr hp)
      refine ⟨_, rfl, fun _ hq => Predicate.mem_parts_related.mpr (.inr ?_)⟩
      exact Predicate.mem_parts_conjunction hmem (hsubset hq)
  | operator place p =>
    intro hpart
    cases List.mem_singleton.mp hpart
    exact hself
  | field path inside ih =>
    intro hpart
    obtain rfl | hpart := List.mem_cons.mp hpart
    · exact hself
    · exact ih hpart

theorem parts_subset_of_mem_parts {part : Outline} {n : Predicate} (hn : part.node? = some n)
    (hpart : part ∈ o.parts) : n.parts ⊆ o.predicate.parts := by
  obtain ⟨p, hp, hsubset⟩ := exists_node_of_mem_parts hn o hpart
  rw [predicate, hp]
  exact hsubset

/-- The nodes of the conditions in a scope are among the nodes of the predicate. -/
theorem mem_predicate_of_condition {relation : RelationField} {path : Path}
    {conditions : List Predicate} {body : Outline} {condition q : Predicate}
    (hpart : .scope relation path conditions body ∈ o.parts) (hcondition : condition ∈ conditions)
    (hq : q ∈ condition.parts) : q ∈ o.predicate.parts := by
  refine parts_subset_of_mem_parts rfl hpart (Predicate.mem_parts_related.mpr (.inr ?_))
  exact Predicate.mem_parts_conjunction (List.mem_append_left _ hcondition) hq

/-- And so are the nodes that an operator came to. -/
theorem mem_predicate_of_operator {place : Place} {p q : Predicate}
    (hpart : .operator place p ∈ o.parts) (hq : q ∈ p.parts) : q ∈ o.predicate.parts :=
  parts_subset_of_mem_parts rfl hpart hq

theorem origin_of_mem_predicate {q : Predicate} (hq : q ∈ o.predicate.parts)
    (hpath : q.path?.isSome) : Origin o q := by
  unfold predicate at hq
  cases hnode : o.node? with
  | some p =>
    rw [hnode] at hq
    exact origin_of_mem_node o p hnode q hq hpath
  | none =>
    rw [hnode] at hq
    cases List.mem_singleton.mp hq
    cases hpath

end Outline
end RowFilter
