import RowFilter.Proofs.Resolution

/-!
# Schemas that agree along a path

What the resolution of a path can tell of a schema. It looks at the fields that the path comes
through, and at no others. Two schemas in which a path, without its list indices, comes through
the same fields resolve it to the same steps, or refuse it for the same reason.
-/

namespace RowFilter.Schema

/-- The field at the end of a path of names, each of them but the last the name of a relation. -/
def follow? (s : Schema) : (model : String) → Path → Option Field
  | _, [] => none
  | model, [name] => s.field? model name
  | model, name :: next :: rest =>
    match s.field? model name with
    | some (.relation r) => s.follow? r.target (next :: rest)
    | _ => none

/-- From a model on, every beginning of the path leads to the same field in both schemas, or to
no field in both. -/
def AgreeAlong (s s' : Schema) (model : String) (p : Path) : Prop :=
  ∀ q, q <+: p → s.follow? model q = s'.follow? model q

/-- A name of digits only is no name of a field. -/
def IndexFree (s : Schema) (model : String) : Prop :=
  ∀ name, Path.isIndex name = true → s.field? model name = none

variable {s s' : Schema} {model root name : String} {p q : Path}

theorem NamesNoIndex.indexFree (h : s.NamesNoIndex) (model : String) : s.IndexFree model := by
  intro name hindex
  cases hfield : s.field? model name with
  | none => rfl
  | some f =>
    have hname := h model name (by rw [hfield]; rfl)
    rw [hindex] at hname
    cases hname

namespace AgreeAlong

theorem nil : AgreeAlong s s' model [] := by
  intro q hq
  rw [List.prefix_nil.mp hq]
  rfl

theorem of_prefix (h : AgreeAlong s s' model p) (hq : q <+: p) : AgreeAlong s s' model q :=
  fun r hr => h r (hr.trans hq)

theorem field (h : AgreeAlong s s' model (name :: p)) : s.field? model name = s'.field? model name :=
  h [name] (List.prefix_append [name] p)

/-- Behind a relation the schemas agree along the rest of the path. -/
theorem behind {r : RelationField} (h : AgreeAlong s s' model (name :: p))
    (hr : s.field? model name = some (.relation r)) : AgreeAlong s s' r.target p := by
  intro q hq
  cases q with
  | nil => rfl
  | cons next rest =>
    have hlonger := h (name :: next :: rest) (List.cons_prefix_cons.mpr ⟨rfl, hq⟩)
    simp only [follow?, ← h.field, hr] at hlonger
    exact hlonger

theorem cons (hfield : s.field? model name = s'.field? model name)
    (hbehind : ∀ r, s.field? model name = some (.relation r) → AgreeAlong s s' r.target p) :
    AgreeAlong s s' model (name :: p) := by
  intro q hq
  rcases q with _ | ⟨first, _ | ⟨next, rest⟩⟩
  · rfl
  · obtain ⟨rfl, _⟩ := List.cons_prefix_cons.mp hq
    exact hfield
  · obtain ⟨rfl, hrest⟩ := List.cons_prefix_cons.mp hq
    unfold follow?
    rw [← hfield]
    split
    · next r hr => exact hbehind r hr (next :: rest) hrest
    · rfl

end AgreeAlong

/-- The walk is the same from a name on if it is the same behind every relation. -/
theorem stepAt_congr (h : AgreeAlong s s' model (name :: p.strip))
    (ih : ∀ r, AgreeAlong s s' r.target p.strip →
      s.walk model (some (.relation r)) p = s'.walk model (some (.relation r)) p) :
    (do let step ← s.stepAt model name; return step :: (← s.walk model step.field p)) =
      (do let step ← s'.stepAt model name; return step :: (← s'.walk model step.field p)) := by
  unfold stepAt
  rw [← h.field]
  cases hfield : s.field? model name with
  | none => rfl
  | some f =>
    cases f with
    | scalar field => cases p <;> rfl
    | relation r =>
      show (do return _ :: (← s.walk model (some (.relation r)) p)) =
        (do return _ :: (← s'.walk model (some (.relation r)) p))
      rw [ih r (h.behind hfield)]

/-- Behind a relation a list index is no name. -/
theorem walk_congr_behind (p : Path) : ∀ {model : String} {r : RelationField},
    AgreeAlong s s' r.target p.strip →
      s.walk model (some (.relation r)) p = s'.walk model (some (.relation r)) p := by
  induction p with
  | nil => exact fun _ => rfl
  | cons name p ih =>
    intro model r h
    unfold walk
    by_cases hindex : Path.isIndex name = true
    · rw [Path.strip, List.filter_cons_of_neg (by simpa using hindex)] at h
      have hrest : s.walk r.target (some (.relation r)) p =
          s'.walk r.target (some (.relation r)) p := ih h
      simp only [hindex, if_true, hrest]
    · rw [Path.strip, List.filter_cons_of_pos (by simpa using hindex)] at h
      simp only [hindex]
      exact stepAt_congr h fun _ => ih

/-- Schemas that agree along a path without its list indices walk it alike. -/
theorem walk_congr (hindex : s.IndexFree root) (hindex' : s'.IndexFree root)
    (h : AgreeAlong s s' root p.strip) : s.walk root none p = s'.walk root none p := by
  cases p with
  | nil => rfl
  | cons name p =>
    unfold walk
    by_cases hname : Path.isIndex name = true
    · unfold stepAt
      rw [hindex name hname, hindex' name hname]
      rfl
    · rw [Path.strip, List.filter_cons_of_pos (by simpa using hname)] at h
      exact stepAt_congr h fun _ => walk_congr_behind p

theorem resolve_congr (hindex : s.IndexFree root) (hindex' : s'.IndexFree root)
    (h : AgreeAlong s s' root p.strip) : s.resolve root p = s'.resolve root p := by
  unfold resolve
  rw [walk_congr hindex hindex' h]

end RowFilter.Schema
