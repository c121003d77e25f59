import RowFilter.Proofs.Compiled
import RowFilter.Proofs.Operators

/-!
# Rendering

A predicate can be rendered if and only if each of its comparisons can. What a document itself
contributes can always be rendered, so that only conditions of the host stand in the way.
-/

namespace RowFilter

/-- A predicate that can be rendered. -/
def Predicate.Renders (p : Predicate) : Prop := ∃ s, p.render = .ok s

namespace Predicate

theorem renderAll_eq_mapM (ps : List Predicate) : renderAll ps = ps.mapM render := by
  induction ps with
  | nil => rfl
  | cons p ps ih => rw [renderAll, List.mapM_cons, ih]

theorem exists_renderAll_iff {ps : List Predicate} :
    (∃ texts, renderAll ps = .ok texts) ↔ ∀ p ∈ ps, p.Renders := by
  rw [renderAll_eq_mapM]
  exact exists_mapM_ok_iff

theorem renders_all_iff {ps : List Predicate} : (all ps).Renders ↔ ∀ p ∈ ps, p.Renders := by
  rw [← exists_renderAll_iff]
  cases ps with
  | nil => exact iff_of_true ⟨"TRUE", rfl⟩ ⟨[], rfl⟩
  | cons p ps => exact exists_return_eq_ok_iff

theorem renders_any_iff {ps : List Predicate} : (any ps).Renders ↔ ∀ p ∈ ps, p.Renders := by
  rw [← exists_renderAll_iff]
  cases ps with
  | nil => exact iff_of_true ⟨"TRUE", rfl⟩ ⟨[], rfl⟩
  | cons p ps => exact exists_return_eq_ok_iff

theorem renders_conjunction_iff {ps : List Predicate} :
    (conjunction ps).Renders ↔ ∀ p ∈ ps, p.Renders := by
  unfold conjunction
  split
  · simp
  · exact renders_all_iff

theorem renders_disjunction_iff {ps : List Predicate} :
    (disjunction ps).Renders ↔ ∀ p ∈ ps, p.Renders := by
  unfold disjunction
  split
  · exact iff_of_true ⟨"TRUE", rfl⟩ fun _ hp => nomatch hp
  · simp
  · exact renders_any_iff

theorem renders_disjunction {ps : List Predicate} (h : ∀ p ∈ ps, p.Renders) :
    (disjunction ps).Renders := renders_disjunction_iff.mpr h

theorem renders_not_iff {p : Predicate} : (not p).Renders ↔ p.Renders :=
  exists_return_eq_ok_iff

theorem renders_test_iff {field : ScalarField} {path : Path} {c : Comparison} :
    (test field path c).Renders ↔ c.Renders :=
  exists_return_eq_ok_iff

theorem eq_true_of_isTrue {p : Predicate} (h : p.isTrue = Bool.true) : p = true := by
  unfold isTrue at h
  split at h
  · rfl
  · cases h

/-- An inner predicate that is true is not rendered, and could be. -/
theorem renders_related_iff {relation : RelationField} {path : Path} {p : Predicate} :
    (related relation path p).Renders ↔ p.Renders := by
  unfold Renders
  rw [render]
  by_cases htrue : p.isTrue = Bool.true
  · rw [eq_true_of_isTrue htrue]
    exact iff_of_true ⟨_, rfl⟩ ⟨"TRUE", rfl⟩
  · simp only [htrue]
    exact exists_return_eq_ok_iff

theorem renders_iff_of_children {p : Predicate} {ps : List Predicate}
    (hrenders : p.Renders ↔ ∀ q ∈ ps, q.Renders)
    (hparts : ∀ {r}, r ∈ p.parts ↔ r = p ∨ ∃ q ∈ ps, r ∈ q.parts)
    (hne : ∀ field path c, p ≠ .test field path c)
    (hchildren : ∀ q ∈ ps,
      (q.Renders ↔ ∀ field path c, .test field path c ∈ q.parts → c.Renders)) :
    p.Renders ↔ ∀ field path c, .test field path c ∈ p.parts → c.Renders := by
  rw [hrenders]
  constructor
  · intro h field path c hpart
    obtain hpart | ⟨q, hq, hpart⟩ := hparts.mp hpart
    · exact absurd hpart.symm (hne field path c)
    · exact (hchildren q hq).mp (h q hq) field path c hpart
  · intro h q hq
    rw [hchildren q hq]
    intro field path c hpart
    exact h field path c (hparts.mpr (.inr ⟨q, hq, hpart⟩))

/-- A predicate can be rendered if and only if each of its comparisons can. -/
theorem renders_iff (p : Predicate) :
    p.Renders ↔ ∀ field path c, .test field path c ∈ p.parts → c.Renders := by
  induction p using induction with
  | all ps ih =>
    have hne (field path c) : all ps ≠ .test field path c := Predicate.noConfusion
    exact renders_iff_of_children renders_all_iff mem_parts_all hne ih
  | any ps ih =>
    have hne (field path c) : any ps ≠ .test field path c := Predicate.noConfusion
    exact renders_iff_of_children renders_any_iff mem_parts_any hne ih
  | not p ih =>
    rw [renders_not_iff, ih]
    simp [mem_parts_not]
  | related relation path inner ih =>
    rw [renders_related_iff, ih]
    simp [mem_parts_related]
  | test field path c =>
    rw [renders_test_iff]
    constructor
    · intro h field' path' c' hpart
      cases mem_parts_test.mp hpart
      exact h
    · intro h
      exact h field path c (self_mem_parts _)

end Predicate

namespace Outline

variable {setup : Setup} {record : List Event} {place : Place} {o : Outline}

/-- Every condition that the host put into a scope can be rendered. -/
def ConditionsRender (o : Outline) : Prop :=
  ∀ relation path conditions body, .scope relation path conditions body ∈ o.parts →
    ∀ condition ∈ conditions, condition.Renders

/-- The predicate of a document can be rendered if and only if the conditions in it can. -/
theorem Stands.renders_iff (h : Stands setup record place o) :
    o.predicate.Renders ↔ o.ConditionsRender := by
  rw [Predicate.renders_iff]
  constructor
  · intro hrenders relation path conditions body hpart condition hcondition
    rw [Predicate.renders_iff]
    intro field path' c hc
    exact hrenders field path' c (mem_predicate_of_condition hpart hcondition hc)
  · intro hconditions field path c hc
    cases origin_of_mem_predicate hc rfl with
    | operator hpart hmem =>
      obtain ⟨place', hoperator⟩ := h.of_mem_parts hpart
      cases hoperator with
      | operator _ hevaluate =>
        exact Field.renders_of_mem_parts hevaluate hmem
    | scope _ heq => cases heq
    | condition hpart hcondition hmem =>
      have hrenders := hconditions _ _ _ _ hpart _ hcondition
      rw [Predicate.renders_iff] at hrenders
      exact hrenders field path c hmem

end Outline

/-! ## Compiled predicates -/

section Compiled
variable {schema : Schema} {root : String} {document : Value} {options : OptionsArgument}
  {policies : Policies} {f : Fragment} {p : Predicate}

theorem Setup.compileMapping_eq_ok_iff {setup : Setup} (hf : document.mapping? = some f) :
    (setup.compileMapping document).result = .ok p ↔
      (Traversal.run setup f).result = .ok p ∧
        (setup.policies.sink.isLive = true → p.Renders) := by
  unfold compileMapping
  rw [hf]
  dsimp only
  rw [Traced.bind_result_eq_ok_iff]
  by_cases hlive : setup.policies.sink.isLive = true
  · simp only [hlive, if_true, forall_const, Traced.bind_result_eq_ok_iff, Traced.ofExcept_result,
      Traced.pure_result, Except.ok.injEq]
    constructor
    · rintro ⟨_, hrun, text, htext, _, _, rfl⟩
      exact ⟨hrun, text, htext⟩
    · rintro ⟨hrun, text, htext⟩
      exact ⟨p, hrun, text, htext, (), rfl, rfl⟩
  · simp [hlive, Traced.pure_result]

/-- A mapping compiles to what its traversal comes to, if that can be rendered for a live log. -/
theorem compile_eq_ok_iff (hpolicies : Policies.resolve options = .ok policies)
    (hf : document.mapping? = some f) :
    (compile schema root document options).result = .ok (some p) ↔
      (Traversal.run ⟨schema, root, policies⟩ f).result = .ok p ∧
        (policies.sink.isLive = true → p.Renders) := by
  rw [compile_of_resolve hpolicies]
  show (Setup.compile ⟨schema, root, policies⟩ document).result.mapError _ = _ ↔ _
  rw [Setup.compile_result, Value.isMissing_of_mapping? hf,
    ← Setup.compileMapping_eq_ok_iff hf]
  cases (Setup.compileMapping ⟨schema, root, policies⟩ document).result with
  | error fault => exact iff_of_false (fun h => nomatch h) fun h => nomatch h
  | ok p' =>
    constructor
    · intro h
      cases h
      rfl
    · intro h
      cases h
      rfl

/-- A live log has the text of every compiled predicate. -/
theorem renders_of_compile (hpolicies : Policies.resolve options = .ok policies)
    (h : (compile schema root document options).result = .ok (some p))
    (hlive : policies.sink.isLive = true) : p.Renders := by
  obtain ⟨f, _, hf, _⟩ := Setup.exists_outline_of_compile (yields_of_compile hpolicies h)
  exact ((compile_eq_ok_iff hpolicies hf).mp h).2 hlive

/-- A mapping that compiles has an outline. -/
theorem outline_of_compile (hpolicies : Policies.resolve options = .ok policies)
    (hf : document.mapping? = some f)
    (h : (compile schema root document options).result = .ok (some p)) :
    ∃ o, (Outline.ofDocument ⟨schema, root, policies⟩ f).result = .ok o ∧ o.predicate = p := by
  obtain ⟨f', o, hf', ho, hp⟩ := Setup.exists_outline_of_compile (yields_of_compile hpolicies h)
  rw [hf, Option.some.injEq] at hf'
  exact ⟨o, hf' ▸ ho.result, hp⟩

/-- Without a limit whatever has an outline compiles, if it can be rendered. -/
theorem compile_of_outline (hpolicies : Policies.resolve options = .ok policies)
    (hlimit : policies.limit = none) {o : Outline}
    (hf : document.mapping? = some f)
    (ho : (Outline.ofDocument ⟨schema, root, policies⟩ f).result = .ok o)
    (hrenders : policies.sink.isLive = true → o.predicate.Renders) :
    (compile schema root document options).result = .ok (some o.predicate) := by
  have hrun : Traversal.run ⟨schema, root, policies⟩ f = _ := Traversal.run_eq_outline hlimit f
  rw [compile_eq_ok_iff hpolicies hf, hrun]
  exact ⟨Traced.bind_result_eq_ok_iff.mpr ⟨o, ho, rfl⟩, hrenders⟩

end Compiled

/-! ## Faults -/

theorem Value.not_isRejection_of_render {v : Value} {fault : Fault} (h : v.render = .error fault) :
    fault.isRejection = false := by
  unfold render at h
  split at h <;> try cases h
  · rfl
  · split at h
    · cases h
    · split at h <;> cases h
      rfl

theorem Comparison.not_isRejection_of_render {c : Comparison} {fault : Fault}
    (h : c.render = .error fault) : fault.isRejection = false := by
  cases c with
  | compare op operand => exact Value.not_isRejection_of_render (error_of_return h)
  | among operands =>
    obtain ⟨v, _, h⟩ := exists_mem_of_mapM_error (error_of_return h)
    exact Value.not_isRejection_of_render h
  | modulo operand =>
    simp only [render] at h
    split at h <;> cases h
    rfl
  | _ => cases h

namespace Predicate

theorem exists_mem_of_renderAll_error {ps : List Predicate} {fault : Fault}
    (h : renderAll ps = .error fault) : ∃ p ∈ ps, p.render = .error fault := by
  rw [renderAll_eq_mapM] at h
  exact exists_mem_of_mapM_error h

/-- A document is never to blame for a fault of rendering. -/
theorem not_isRejection_of_render {p : Predicate} {fault : Fault} (h : p.render = .error fault) :
    fault.isRejection = false := by
  induction p using induction with
  | all ps ih =>
    cases ps with
    | nil => cases h
    | cons p ps =>
      obtain ⟨q, hq, h⟩ := exists_mem_of_renderAll_error (error_of_return h)
      exact ih q hq h
  | any ps ih =>
    cases ps with
    | nil => cases h
    | cons p ps =>
      obtain ⟨q, hq, h⟩ := exists_mem_of_renderAll_error (error_of_return h)
      exact ih q hq h
  | not p ih => exact ih (error_of_return h)
  | related relation path inner ih =>
    rw [render] at h
    split at h
    · cases h
    · exact ih (error_of_return h)
  | test field path c => exact Comparison.not_isRejection_of_render (error_of_return h)

end Predicate
end RowFilter
