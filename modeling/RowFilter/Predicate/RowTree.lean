import RowFilter.Predicate.Meaning

/-!
# Trees of rows

A row with its own values, and under the name of every relation the rows behind it: the elements
of a relation to many, the row of a relation to one if it is there. Paths say where in the tree a
row is, from the row of the root model on.

Rows can be hidden. A tree of which some rows are visible only is the tree without the others and
whatever is behind them.
-/

namespace RowFilter

inductive RowTree (Values : Type) where
  | row (values : Values) (behind : String → List (RowTree Values))

namespace RowTree
variable {Values : Type}

def values : RowTree Values → Values
  | .row values _ => values

def behind : RowTree Values → String → List (RowTree Values)
  | .row _ behind => behind

section
variable (admits : Path → RowTree Values → Prop)

open Classical in
mutual

/-- The tree without the rows that are not admitted where they are, at every depth. The row at
the top stays. -/
noncomputable def visible : Path → RowTree Values → RowTree Values
  | path, .row values behind =>
    .row values fun name => visibleAll (path ++ [name]) (behind name)

noncomputable def visibleAll : Path → List (RowTree Values) → List (RowTree Values)
  | _, [] => []
  | path, t :: rest =>
    if admits path t then visible path t :: visibleAll path rest else visibleAll path rest

end

variable {admits} {path : Path} {name : String} {t u : RowTree Values}

theorem values_visible : (t.visible admits path).values = t.values := by
  cases t
  rw [visible]
  rfl

theorem mem_visibleAll_iff {ts : List (RowTree Values)} :
    u ∈ visibleAll admits path ts ↔ ∃ t ∈ ts, admits path t ∧ t.visible admits path = u := by
  induction ts with
  | nil => simp [visibleAll]
  | cons t ts ih =>
    rw [visibleAll]
    by_cases hadmits : admits path t
    · rw [if_pos hadmits, List.mem_cons, ih]
      simp [hadmits, eq_comm]
    · rw [if_neg hadmits, ih]
      simp [hadmits]

/-- Behind a relation stand the rows there that are admitted, with what is visible behind them. -/
theorem mem_behind_visible_iff : u ∈ (t.visible admits path).behind name ↔
    ∃ t' ∈ t.behind name, admits (path ++ [name]) t' ∧ t'.visible admits (path ++ [name]) = u := by
  cases t
  rw [visible]
  exact mem_visibleAll_iff

end

end RowTree

/-- Comparisons look at the values of a row only, and relations are looked up by name. -/
def Interpretation.onTrees {Values : Type}
    (truth : ScalarField → Path → Comparison → Values → Prop) : Interpretation (RowTree Values) where
  test field path comparison t := truth field path comparison t.values
  related relation _ t other := other ∈ t.behind relation.name

end RowFilter
