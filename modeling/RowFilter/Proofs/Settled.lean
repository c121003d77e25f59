import RowFilter.Proofs.Wording

/-!
# Settled values

What a coercion leaves as it is. A value that belongs to a type stays itself, unless it is a text
that spells null. No coercion comes to such a text: those that are given are null already, and
the texts of numbers, truth values and instants are none. So whatever a coercion comes to is
settled, and comparing with it is the same as comparing with what it came from.
-/

namespace RowFilter

namespace Coercion

/-! ## Texts that do not spell null -/

/-- The word has a letter that few texts have. -/
theorem isNull_text_of_forall {s : String} (h : ∀ c ∈ s.toList, c.toLower ≠ 'u') :
    isNull (.text s) = false := by
  refine Bool.eq_false_iff.mpr fun hnull => ?_
  have hletter : 'u' ∈ s.toList.map Char.toLower := by
    rw [(Text.spells_iff "null" s).mp hnull]
    decide
  obtain ⟨c, hc, hlower⟩ := List.mem_map.mp hletter
  exact h c hc hlower

theorem toLower_ne_of_isDigit {c : Char} (h : Text.isDigit c = true) : c.toLower ≠ 'u' := by
  rw [Text.toLower_of_isDigit h]
  rintro rfl
  cases h

theorem toLower_ne_of_isDigit_or {c : Char} {others : List Char}
    (h : (Text.isDigit c || others.contains c) = true)
    (hothers : others.all (·.toLower != 'u') = true) : c.toLower ≠ 'u' := by
  obtain h | h := Bool.or_eq_true_iff.mp h
  · exact toLower_ne_of_isDigit h
  · exact bne_iff_ne.mp (List.all_eq_true.mp hothers c (List.contains_iff_mem.mp h))

theorem isNull_numberText (n : Number) : isNull (.text n.text) = false :=
  isNull_text_of_forall fun _ hc =>
    toLower_ne_of_isDigit_or (Number.isNumberChar_of_mem_text hc) (by decide)

theorem isNull_instantText (ms : Int) : isNull (.text (Instant.text ms)) = false :=
  isNull_text_of_forall fun _ hc =>
    toLower_ne_of_isDigit_or (Value.isInstantChar_of_mem_text hc) (by decide)

theorem isNull_integerText (n : Int) : isNull (.text (toString n)) = false := by
  have hdigits (m : Nat) : ∀ c ∈ (toString m).toList, c.toLower ≠ 'u' := by
    intro c hc
    rw [Nat.toString_eq_ofList_toDigits, String.toList_ofList] at hc
    exact toLower_ne_of_isDigit (Text.isDigit_of_mem_toDigits hc)
  refine isNull_text_of_forall ?_
  cases n with
  | ofNat m => exact hdigits m
  | negSucc m =>
    show ∀ c ∈ ("-" ++ toString (m + 1)).toList, c.toLower ≠ 'u'
    rw [String.toList_append, List.forall_mem_append]
    exact ⟨List.forall_mem_singleton.mpr (by decide), hdigits (m + 1)⟩

variable {type : ValueType} {v w : Value}

/-- A text that an operand becomes spells null only if the operand does. -/
theorem isNull_of_text? (h : text? v = some w) (hv : isNull v = false) : isNull w = false := by
  unfold text? at h
  split at h <;> cases h
  · exact hv
  · exact isNull_numberText _
  · next b => cases b <;> decide
  · exact isNull_integerText _
  · exact isNull_instantText _

/-- What a coercion comes to stands for null only if it is null. -/
theorem eq_null_of_isNull (h : coerce type v = .ok w) (hw : isNull w = true) : w = .null := by
  cases hv : isNull v with
  | true =>
    rw [coerce_of_isNull type hv] at h
    exact (Except.ok.inj h).symm
  | false =>
    cases type with
    | foreign label => simp [coerce, hv] at h
    | scalar t =>
      have hconvert := (coerce_scalar_eq_ok_iff hv).mp h
      cases t with
      | text =>
        rw [isNull_of_text? hconvert hv] at hw
        cases hw
      | time =>
        cases coerced_of_convert? hconvert with
        | null => rfl
        | time => cases hw
        | sameTime => cases hv.symm.trans hw
      | _ =>
        cases coerced_of_convert? hconvert with
        | null => rfl
        | _ => cases hw

/-! ## Coercing once more -/

theorem convert?_of_hasType {t : ScalarType} (h : v.HasType t) : convert? t v = some v := by
  cases t with
  | int =>
    cases h with
    | int hfinite hinteger => simp [convert?, int?, hfinite, hinteger]
  | float =>
    cases h with
    | float hn => simp [convert?, float?, hn]
  | time =>
    have htime := Value.hasType_time_iff.mp h
    simp [convert?, time?, htime]
  | _ =>
    cases h
    rfl

/-- A value that suits the type stays as it is, unless it is a text that spells null. -/
theorem coerce_of_suits (h : v.Suits type) (hnull : isNull v = true → v = .null) :
    coerce type v = .ok v := by
  cases hv : isNull v with
  | true =>
    rw [hnull hv]
    rfl
  | false =>
    obtain rfl | ⟨t, rfl, htype⟩ := h
    · cases hv
    · exact (coerce_scalar_eq_ok_iff hv).mpr (convert?_of_hasType htype)

end Coercion

open Coercion in
/-- What a coercion comes to is settled: coercing it once more leaves it as it is, and a field of
the type may be compared with it in place of the operand that it came from. -/
theorem coerced_is_settled {type : ValueType} {v w : Value} (h : coerce type v = .ok w) :
    coerce type w = .ok w ∧
      ∀ (field : ScalarField) (op : CompareOp) (dataKey path : Path) (p : Predicate),
        field.valueType = type →
        ((Field.scalar field).evaluate (FieldOperator.compare op).token w dataKey path = .ok p ↔
          (Field.scalar field).evaluate (FieldOperator.compare op).token v dataKey path = .ok p) := by
  have hw := coerce_of_suits (coerced_of_coerce h).suits (eq_null_of_isNull h)
  refine ⟨hw, ?_⟩
  rintro field op dataKey path p rfl
  simp only [Field.evaluate, FieldOperator.ofToken?_token, FieldOperator.onScalar,
    FieldOperator.coerced, hw, h]
  rfl

namespace Sample

theorem coerced_is_settled_shift :
    Coercion.coerce (.scalar .time) (.text "01:45:14") = .ok (.ofTimeOfDay 1 45 14) ∧
      Coercion.coerce (.scalar .time) (.ofTimeOfDay 1 45 14) = .ok (.ofTimeOfDay 1 45 14) ∧
      ∀ p, Field.evaluate (.scalar ⟨"shift_start", "Employee", .scalar .time⟩)
          (FieldOperator.compare .eq).token (.ofTimeOfDay 1 45 14) ["shift_start"] ["shift_start"] =
            .ok p ↔
        Field.evaluate (.scalar ⟨"shift_start", "Employee", .scalar .time⟩)
          (FieldOperator.compare .eq).token (.text "01:45:14") ["shift_start"] ["shift_start"] =
            .ok p := by
  have hread : Coercion.coerce (.scalar .time) (.text "01:45:14") =
      .ok (.ofTimeOfDay 1 45 14) := rfl
  obtain ⟨hagain, hevaluate⟩ := coerced_is_settled hread
  exact ⟨hread, hagain, fun p => hevaluate _ .eq _ _ p rfl⟩

end Sample
end RowFilter
