import RowFilter.Predicate

/-!
# The meaning of predicates

Which rows satisfy a predicate. An interpretation says what a comparison comes to on a row, and
which rows stand behind a relation, be they many or one at most. A related node asks for a row
behind its relation that satisfies the inner predicate.

That an empty disjunction is true is a convention of putting predicates together. A node that
offers no alternatives, which a host may make by hand, holds of no row.
-/

namespace RowFilter

structure Interpretation (Row : Type) where
  test : ScalarField → Path → Comparison → Row → Prop
  /-- The second row stands behind the relation of the first. -/
  related : RelationField → Path → Row → Row → Prop

namespace Predicate
variable {Row : Type} (I : Interpretation Row)

mutual

/-- The row satisfies the predicate. -/
def Holds : Predicate → Row → Prop
  | .all children, row => AllHold children row
  | .any children, row => AnyHolds children row
  | .not child, row => ¬Holds child row
  | .related relation path inner, row =>
    ∃ other, I.related relation path row other ∧ Holds inner other
  | .test field path comparison, row => I.test field path comparison row

def AllHold : List Predicate → Row → Prop
  | [], _ => True
  | p :: rest, row => Holds p row ∧ AllHold rest row

def AnyHolds : List Predicate → Row → Prop
  | [], _ => False
  | p :: rest, row => Holds p row ∨ AnyHolds rest row

end

variable {I} {row : Row} {p : Predicate} {ps : List Predicate}

theorem holds_all_iff : (all ps).Holds I row ↔ ∀ p ∈ ps, p.Holds I row := by
  rw [Holds]
  induction ps with
  | nil => simp [AllHold]
  | cons p ps ih => simp [AllHold, ih]

theorem holds_any_iff : (any ps).Holds I row ↔ ∃ p ∈ ps, p.Holds I row := by
  rw [Holds]
  induction ps with
  | nil => simp [AnyHolds]
  | cons p ps ih => simp [AnyHolds, ih]

theorem holds_not_iff : (not p).Holds I row ↔ ¬p.Holds I row := by
  rw [Holds]

theorem holds_related_iff {relation : RelationField} {path : Path} :
    (related relation path p).Holds I row ↔
      ∃ other, I.related relation path row other ∧ p.Holds I other := by
  rw [Holds]

theorem holds_test_iff {field : ScalarField} {path : Path} {c : Comparison} :
    (test field path c).Holds I row ↔ I.test field path c row := by
  rw [Holds]

theorem holds_true : true.Holds I row := holds_all_iff.mpr fun _ hp => nomatch hp

theorem holds_conjunction_iff : (conjunction ps).Holds I row ↔ ∀ p ∈ ps, p.Holds I row := by
  unfold conjunction
  split
  · simp
  · exact holds_all_iff

/-- A disjunction asks for one of its alternatives, if it has any. -/
theorem holds_disjunction_iff :
    (disjunction ps).Holds I row ↔ ps = [] ∨ ∃ p ∈ ps, p.Holds I row := by
  unfold disjunction
  split
  · simp [holds_true]
  · simp
  · next hne _ => rw [holds_any_iff, or_iff_right hne]

end Predicate
end RowFilter
