import RowFilter.Fault
import RowFilter.Schema.Resolve

/-!
# Paths of a document

The paths of a document are reported at the data key, as the document writes it, whatever they
are called inside. What is refused is the path itself, so that no fragment goes with it.
-/

namespace RowFilter

def Unresolved.cause : Unresolved → Cause
  | .malformed problem => .malformedPath problem
  | .unknown segment model => .unknownField segment model

/-- A path is refused at a data key. -/
def Unresolved.fault (dataKey : Path) (u : Unresolved) : Fault :=
  .refused ⟨u.cause, dataKey, .null, none⟩

namespace Path

/-- Accepts the paths without a problem (`validateFieldPath`). -/
def check (p dataKey : Path) : Except Fault Unit :=
  match p.problem? with
  | none => .ok ()
  | some problem => .error (Unresolved.fault dataKey (.malformed problem))

theorem check_eq_ok_iff (p dataKey : Path) : p.check dataKey = .ok () ↔ ∀ s ∈ p, IsSafe s := by
  rw [← problem?_eq_none_iff]
  simp only [check]
  cases p.problem? <;> simp

end Path

namespace Schema

/-- Resolves a path on behalf of a data key (`resolvePath`). -/
def locate (s : Schema) (root : String) (p dataKey : Path) : Except Fault (List Step) :=
  (s.resolve root p).mapError (Unresolved.fault dataKey)

end Schema
end RowFilter
