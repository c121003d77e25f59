import RowFilter.Proofs.Compiled
import RowFilter.Proofs.Operators

/-!
# Well-typed comparisons

Every comparison that a document itself contributes comes from an operator on a scalar field, and
so suits the type of this field. Only conditions from the host are taken as they are.
-/

namespace RowFilter

namespace Outline

variable {setup : Setup} {record : List Event} {place : Place} {o : Outline}

/-- A comparison comes from an operator, if the host puts no conditions into any scope. -/
theorem Stands.exists_evaluate_of_test (hconditions : setup.policies.NoConditions)
    (h : Stands setup record place o) {field : ScalarField} {path : Path} {c : Comparison}
    (hc : .test field path c ∈ o.predicate.parts) :
    ∃ (target : Field) (token : String) (operand : Value) (dataKey path' : Path) (p : Predicate),
      target.evaluate token operand dataKey path' = .ok p ∧ .test field path c ∈ p.parts := by
  cases origin_of_mem_predicate hc rfl with
  | operator hpart hmem =>
    obtain ⟨place', hoperator⟩ := h.of_mem_parts hpart
    cases hoperator with
    | operator _ hevaluate => exact ⟨_, _, _, _, _, _, hevaluate, hmem⟩
  | scope _ heq => cases heq
  | condition hpart hcondition hmem =>
    obtain ⟨place', hscope⟩ := h.of_mem_parts hpart
    cases hscope with
    | scope _ _ hread =>
      rw [hconditions _ _ hread] at hcondition
      cases hcondition

end Outline

variable {schema : Schema} {root : String} {document : Value} {options : OptionsArgument}
  {policies : Policies} {p : Predicate}

/-- Without conditions from the host, every comparison of a compiled predicate suits the type of
its field: whatever the document compares with is null or a value of that type, patterns stand
between wildcards, and remainders are asked of whole numbers only. -/
theorem compiled_comparisons_wellTyped (hpolicies : Policies.resolve options = .ok policies)
    (hconditions : policies.NoConditions)
    (h : (compile schema root document options).result = .ok (some p)) :
    ∀ field path c, .test field path c ∈ p.parts → c.WellTyped field.valueType := by
  obtain ⟨f, o, _, ho, rfl⟩ := Setup.exists_outline_of_compile (yields_of_compile hpolicies h)
  intro field path c hc
  obtain ⟨_, _, _, _, _, q, hevaluate, hmem⟩ :=
    (Outline.stands_of_yields_ofDocument ho).exists_evaluate_of_test hconditions hc
  exact Field.wellTyped_of_mem_parts hevaluate hmem

namespace Sample

/-- Compares with numbers in several spellings, and with null. -/
def spelledDocument : Value := .ofEntries
  [("milliseconds", .ofEntries
    [("$in", .list [.text " +7 ", .bool true, .text "NULL"]),
      ("$mod", .list [.number (.ofNat 2), .number (.ofNat 1)])]),
    ("name", .ofEntries [("$like", .number (.ofNat 5))])]

def spelledPredicate : Predicate := .all
  [.all [.test milliseconds ["milliseconds"]
        (.among [.number (.signed false 7), .number (.ofNat 1), .null]),
      .test milliseconds ["milliseconds"] (.modulo (.ofModulus (.ofNat 2) (.ofNat 1)))],
    .test ⟨"name", "Track", .scalar .text⟩ ["name"] (.like "%5%")]

theorem compile_spelledDocument :
    (compile catalog.schema "Track" spelledDocument .absent).result =
      .ok (some spelledPredicate) := by
  rfl

theorem compiled_comparisons_wellTyped_spelled :
    Policies.resolve .absent = .ok (.ofOptions .empty) ∧
      (Policies.ofOptions .empty).NoConditions ∧
      (compile catalog.schema "Track" spelledDocument .absent).result =
        .ok (some spelledPredicate) ∧
      ∀ field path c, .test field path c ∈ spelledPredicate.parts → c.WellTyped field.valueType :=
  have hconditions := Policies.noConditions_of_none rfl
  ⟨rfl, hconditions, compile_spelledDocument,
    compiled_comparisons_wellTyped rfl hconditions compile_spelledDocument⟩

end Sample
end RowFilter
