import RowFilter.Proofs.Coercions
import RowFilter.Proofs.Parts

/-!
# What operators come to

An operator on a scalar field comes to one comparison with that field, or to its denial. An
operator on a relation comes to a related node that asks for existence and nothing else, or to
its denial. Every node has the path that the operator was applied at, and every comparison suits
the type of its field, and so can be rendered. Whatever else an operator comes to is a refusal, but
for a comparison with a time of day that passes for a remainder operand.
-/

namespace RowFilter

namespace Comparison

/-- A comparison that can be rendered. -/
def Renders (c : Comparison) : Prop := ∃ s, c.render = .ok s

/-- A comparison that suits its field can be rendered. -/
theorem renders_of_wellTyped {type : ValueType} {c : Comparison} (h : c.WellTyped type) :
    c.Renders := by
  cases c with
  | compare op operand => exact exists_return_eq_ok_iff.mpr h.exists_render
  | among operands =>
    exact exists_return_eq_ok_iff.mpr
      (exists_mapM_ok_iff.mpr fun operand hmem => (h operand hmem).exists_render)
  | modulo operand =>
    obtain ⟨_, divisor, remainder, rfl, _⟩ := h
    refine ⟨"% " ++ divisor.text ++ " = " ++ remainder.text, ?_⟩
    simp only [render, Value.modulus?_ofModulus]
    rfl
  | like pattern => exact ⟨_, rfl⟩
  | isNull => exact ⟨_, rfl⟩
  | notNull => exact ⟨_, rfl⟩

end Comparison

namespace FieldOperator

variable {refuse : Cause → Fault} {op : FieldOperator} {operand : Value} {path : Path}
  {p : Predicate} {field : ScalarField} {fault : Fault}

theorem coercion_of_coerced {type : ValueType} {v w : Value} (h : coerced type v = .ok w) :
    Coercion.Coerced type v w := by
  unfold coerced at h
  split at h
  · next w' hw =>
    cases h
    exact Coercion.coerced_of_coerce hw
  · cases h

theorem suits_of_coerced {type : ValueType} {v w : Value} (h : coerced type v = .ok w) :
    w.Suits type :=
  (coercion_of_coerced h).suits

/-- A remainder operand is two safe integers, and its divisor is not zero. -/
theorem modulus_eq_ok {divisor remainder : Number} (h : modulus operand = .ok (divisor, remainder)) :
    divisor.isSafeInteger = true ∧ remainder.isSafeInteger = true ∧ divisor.isZero = false := by
  unfold modulus at h
  split at h
  · split at h
    · cases h
    · next hsafe =>
      split at h <;> cases h
      next hzero =>
      simp only [Bool.not_eq_true', Bool.not_eq_false, Bool.and_eq_true] at hsafe
      exact ⟨hsafe.1, hsafe.2, by simpa using hzero⟩
  · cases h

theorem membership_eq_ok (h : onScalar.membership refuse field operand path = .ok p) :
    ∃ c, p = .test field path c ∧ c.WellTyped field.valueType := by
  unfold onScalar.membership at h
  split at h
  · obtain ⟨ws, hws, h⟩ := ok_of_bind h
    refine ⟨.among ws, (Except.ok.inj h).symm, fun w hw => ?_⟩
    obtain ⟨v, _, hv⟩ := (mem_iff_of_mapM_ok (ok_of_mapError hws) w).mp hw
    exact suits_of_coerced hv
  · cases h

theorem membership_eq_error (h : onScalar.membership refuse field operand path = .error fault) :
    ∃ cause, fault = refuse cause := by
  unfold onScalar.membership at h
  split at h
  · obtain ⟨cause, _, hcause⟩ := error_of_mapError (error_of_return h)
    exact ⟨cause, hcause.symm⟩
  · exact ⟨.notAList, (Except.error.inj h).symm⟩

theorem onScalar_eq_ok (h : op.onScalar refuse field operand path = .ok p) :
    ∃ c, c.WellTyped field.valueType ∧ (p = .test field path c ∨ p = .not (.test field path c)) := by
  cases op with
  | compare op =>
    simp only [onScalar] at h
    obtain ⟨w, hw, h⟩ := ok_of_bind h
    have hsuits := suits_of_coerced (ok_of_mapError hw)
    unfold Predicate.compare at h
    split at h <;> cases h
    exact ⟨.compare op w, hsuits, .inl rfl⟩
  | among =>
    simp only [onScalar] at h
    obtain ⟨c, rfl, hc⟩ := membership_eq_ok h
    exact ⟨c, hc, .inl rfl⟩
  | notAmong =>
    simp only [onScalar] at h
    obtain ⟨p', hp, h⟩ := ok_of_bind h
    obtain ⟨c, rfl, hc⟩ := membership_eq_ok hp
    exact ⟨c, hc, .inr (Except.ok.inj h).symm⟩
  | modulo =>
    simp only [onScalar] at h
    split at h
    · cases h
    · next htype =>
      obtain ⟨⟨divisor, remainder⟩, hmodulus, h⟩ := ok_of_bind h
      exact ⟨.modulo (.ofModulus divisor remainder), ⟨Decidable.not_not.mp htype, divisor, remainder,
        rfl, modulus_eq_ok (ok_of_mapError hmodulus)⟩, .inl (Except.ok.inj h).symm⟩
  | like =>
    simp only [onScalar] at h
    split at h <;> cases h
    next s _ => exact ⟨.like ("%" ++ s ++ "%"), ⟨s, rfl⟩, .inl rfl⟩
  | presence =>
    simp only [onScalar] at h
    split at h <;> cases h
    · exact ⟨.notNull, rfl, .inl rfl⟩
    · exact ⟨.isNull, rfl, .inl rfl⟩

/-- A time field is compared with a time of day that passes for a remainder operand. -/
structure Misread (field : ScalarField) (operand : Value) : Prop where
  valueType : field.valueType = .scalar .time
  isTimeOfDay : operand.isTimeOfDay = true
  modulus : operand.modulus?.isSome

theorem onScalar_eq_error (h : op.onScalar refuse field operand path = .error fault) :
    (∃ cause, fault = refuse cause) ∨
      ∃ c, op = .compare c ∧ fault = .misused (.single c.label) ∧ Misread field operand := by
  cases op with
  | compare op =>
    simp only [onScalar] at h
    obtain h | ⟨w, hw, h⟩ := error_of_bind h
    · obtain ⟨cause, _, hcause⟩ := error_of_mapError h
      exact .inl ⟨cause, hcause.symm⟩
    · unfold Predicate.compare at h
      split at h
      · cases h
      · next hsingle =>
        obtain hw | ⟨htype, _, htime, hmodulus⟩ :=
          (coercion_of_coerced (ok_of_mapError hw)).isSingle_or
        · exact absurd hw hsingle
        · exact .inr ⟨op, rfl, (Except.error.inj h).symm, htype, htime, hmodulus⟩
  | among =>
    simp only [onScalar] at h
    exact .inl (membership_eq_error h)
  | notAmong =>
    simp only [onScalar] at h
    exact .inl (membership_eq_error (error_of_return h))
  | modulo =>
    simp only [onScalar] at h
    split at h
    · exact .inl ⟨.moduloField, (Except.error.inj h).symm⟩
    · obtain h | ⟨_, _, h⟩ := error_of_bind h
      · obtain ⟨cause, _, hcause⟩ := error_of_mapError h
        exact .inl ⟨cause, hcause.symm⟩
      · cases h
  | like =>
    simp only [onScalar] at h
    split at h <;> cases h
    exact .inl ⟨.unconvertible, rfl⟩
  | presence =>
    simp only [onScalar] at h
    cases h

theorem onScalar_of_misread (c : CompareOp) (h : Misread field operand) :
    (compare c).onScalar refuse field operand path = .error (.misused (.single c.label)) := by
  have hcoerced : coerced field.valueType operand = .ok operand := by
    rw [h.valueType, coerced, Coercion.coerce_time_of_isTimeOfDay h.isTimeOfDay]
  have hsingle : Predicate.isSingle operand = false := by
    obtain ⟨kind, entries, rfl⟩ := Value.exists_record_of_isTimeOfDay h.isTimeOfDay
    show (Value.record kind entries).modulus?.isNone = false
    rw [← Option.not_isSome, h.modulus]
    rfl
  simp only [onScalar, hcoerced]
  show Predicate.compare field c operand path = _
  unfold Predicate.compare
  rw [hsingle]
  rfl

theorem onRelation_eq_ok {relation : RelationField}
    (h : op.onRelation refuse relation operand path = .ok p) :
    op = .presence ∧
      (p = .related relation path .true ∨ p = .not (.related relation path .true)) := by
  unfold onRelation at h
  split at h
  · next hop =>
    dsimp only at h
    split at h <;> cases h
    · exact ⟨hop, .inl rfl⟩
    · exact ⟨hop, .inr rfl⟩
  · cases h

end FieldOperator

namespace Field

variable {target : Field} {token : String} {operand : Value} {dataKey path : Path} {p : Predicate}

theorem evaluate_eq_ok (h : target.evaluate token operand dataKey path = .ok p) :
    (∃ field c, target = .scalar field ∧ c.WellTyped field.valueType ∧
        (p = .test field path c ∨ p = .not (.test field path c))) ∨
      ∃ relation, target = .relation relation ∧
        (p = .related relation path .true ∨ p = .not (.related relation path .true)) := by
  unfold evaluate at h
  dsimp only at h
  split at h
  · cases h
  · next op field _ =>
    obtain ⟨c, hc, hp⟩ := FieldOperator.onScalar_eq_ok h
    exact .inl ⟨field, c, rfl, hc, hp⟩
  · next op relation _ =>
    obtain ⟨_, hp⟩ := FieldOperator.onRelation_eq_ok h
    exact .inr ⟨relation, rfl, hp⟩

/-- An operator that comes to no predicate is refused, or compares with a time of day that passes
for a remainder operand. -/
theorem evaluate_eq_error {fault : Fault}
    (h : target.evaluate token operand dataKey path = .error fault) :
    fault.isRejection = true ∨ ∃ c field, FieldOperator.ofToken? token = some (.compare c) ∧
      target = .scalar field ∧ FieldOperator.Misread field operand ∧
      fault = .misused (.single c.label) := by
  unfold evaluate at h
  dsimp only at h
  split at h
  · cases h
    exact .inl rfl
  · next op field htoken =>
    obtain ⟨cause, rfl⟩ | ⟨c, rfl, rfl, hmisread⟩ := FieldOperator.onScalar_eq_error h
    · exact .inl rfl
    · exact .inr ⟨c, field, htoken, rfl, hmisread, rfl⟩
  · next op relation _ =>
    unfold FieldOperator.onRelation at h
    split at h <;> cases h
    exact .inl rfl

theorem evaluate_of_misread {c : CompareOp} {field : ScalarField}
    (htoken : FieldOperator.ofToken? token = some (.compare c))
    (h : FieldOperator.Misread field operand) :
    Field.evaluate (.scalar field) token operand dataKey path =
      .error (.misused (.single c.label)) := by
  unfold evaluate
  rw [htoken]
  exact FieldOperator.onScalar_of_misread c h

/-- Every node has the path that the operator was applied at. -/
theorem path?_of_mem_parts (h : target.evaluate token operand dataKey path = .ok p)
    {q : Predicate} (hq : q ∈ p.parts) (hpath : q.path?.isSome) : q.path? = some path := by
  rcases evaluate_eq_ok h with ⟨field, c, -, -, rfl | rfl⟩ | ⟨relation, -, rfl | rfl⟩ <;>
    simp only [Predicate.parts, Predicate.true, Predicate.partsOfAll, List.mem_cons,
      List.not_mem_nil, or_false] at hq
  · subst hq
    rfl
  · rcases hq with rfl | rfl
    · cases hpath
    · rfl
  · rcases hq with rfl | rfl
    · rfl
    · cases hpath
  · rcases hq with rfl | rfl | rfl
    · cases hpath
    · rfl
    · cases hpath

/-- An operator comes to comparisons that suit their field. -/
theorem wellTyped_of_mem_parts (h : target.evaluate token operand dataKey path = .ok p)
    {field : ScalarField} {path' : Path} {c : Comparison} (hq : .test field path' c ∈ p.parts) :
    c.WellTyped field.valueType := by
  rcases evaluate_eq_ok h with ⟨field, c', -, hc, rfl | rfl⟩ | ⟨relation, -, rfl | rfl⟩
  · cases Predicate.mem_parts_test.mp hq
    exact hc
  · obtain hq | hq := Predicate.mem_parts_not.mp hq
    · cases hq
    · cases Predicate.mem_parts_test.mp hq
      exact hc
  · simp [Predicate.parts, Predicate.true, Predicate.partsOfAll] at hq
  · simp [Predicate.parts, Predicate.true, Predicate.partsOfAll] at hq

theorem renders_of_mem_parts (h : target.evaluate token operand dataKey path = .ok p)
    {field : ScalarField} {path' : Path} {c : Comparison} (hq : .test field path' c ∈ p.parts) :
    c.Renders :=
  Comparison.renders_of_wellTyped (wellTyped_of_mem_parts h hq)

end Field
end RowFilter
