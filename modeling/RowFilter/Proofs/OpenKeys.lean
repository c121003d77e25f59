import RowFilter.Proofs.Layout

/-!
# The open keys

What a traversal does to its stack of open keys. Nothing but a field key opens anything, and only
after all its checks: it is opened as a whole, or up to a relation on its way. Every other task
leaves the stack as it is or closes its top.
-/

namespace RowFilter

namespace Policies

/-- The inner name of a path under a translator. -/
theorem translate_eq_ok_iff {policies : Policies} {f : String → Except String Value}
    (hf : policies.translator = some f) {path : Path} {answer : Option String} :
    (policies.translate path).result = .ok answer ↔
      ∃ v, f path.text = .ok v ∧ v.text? = answer := by
  unfold translate
  rw [hf]
  dsimp only
  rw [Traced.bind_result_eq_ok_iff]
  constructor
  · rintro ⟨v, hv, h⟩
    exact ⟨v, ok_of_mapError hv, Except.ok.inj h⟩
  · rintro ⟨v, hv, rfl⟩
    refine ⟨v, ?_, rfl⟩
    show (f path.text).mapError _ = _
    rw [hv]
    rfl

end Policies

namespace Traversal
open TraversalState Traced

variable {setup : Setup} {s t : TraversalState} {document : Fragment}

/-- An answer that is no text, or has too few segments, is refused. -/
theorem innerKey_eq_error {key dataKey : Path} (value : Value) {answer : Option String}
    (hanswer : (setup.policies.translate dataKey).result = .ok answer) (hkey : key ≠ [])
    (hshort : ∀ text, answer = some text → (Path.ofText text).length < key.length) :
    (innerKey setup key dataKey value).result =
      .error (.refused ⟨.untranslated answer, dataKey, value, none⟩) := by
  refine bind_result_eq_error_iff.mpr (.inr ⟨answer, hanswer, ?_⟩)
  have hlength : (lastSegments key.length answer).length ≠ key.length := by
    cases answer with
    | none => exact fun hnil => hkey (List.eq_nil_of_length_eq_zero hnil.symm)
    | some text =>
      have := hshort text rfl
      rw [lastSegments, List.length_drop]
      omega
  dsimp only
  rw [if_neg hlength]
  rfl

/-! ## One task -/

/-- What becomes of the open keys: they stay, the last of them is closed, or one more is opened
that passed its checks. -/
inductive PathsAfter (setup : Setup) (s : TraversalState) : List OpenKey → Prop
  | same : PathsAfter setup s s.paths
  | closed : PathsAfter setup s s.paths.tail
  | opened {key inner : Path} {steps : List Step} (width : Nat) : Passes setup s key inner steps →
      PathsAfter setup s (⟨key.take width, inner.take width⟩ :: s.paths)

theorem paths_gather {p : Predicate} (h : s.gather p = .ok t) : t.paths = s.paths := by
  obtain ⟨frame, outer, _, rfl⟩ := gather_eq_ok_iff.mp h
  rfl

theorem paths_closeFrame (h : s.closeFrame = .ok t) : t.paths = s.paths := by
  obtain ⟨frame, outer, _, h⟩ := closeFrame_eq_ok_iff.mp h
  exact (paths_gather h).trans rfl

theorem PathsAfter.of_eq (h : t.paths = s.paths) : PathsAfter setup s t.paths := by
  rw [h]
  exact .same

/-- A key is opened as a whole, or up to a relation on its way. -/
theorem Entered.pathsAfter {key inner : Path} {steps : List Step} {value : Value}
    {crossed : List Nat} (h : Entered s ⟨key, inner⟩ value crossed t)
    (hpasses : Passes setup s key inner steps) : PathsAfter setup s t.paths := by
  cases h with
  | whole =>
    have hwhole : PathsAfter setup s _ := .opened key.length hpasses
    rwa [List.take_length, ← hpasses.length_eq, List.take_length] at hwhole
  | relation => exact .opened _ hpasses
  | split => exact .opened _ hpasses

theorem Performed.pathsAfter {task : Task} (h : Performed setup s task t) :
    PathsAfter setup s t.paths := by
  cases h with
  | field _ hpasses hentered => exact hentered.pathsAfter hpasses
  | operator _ _ _ _ hgather => exact .of_eq (paths_gather hgather)
  | closePath => exact .closed
  | closeFrame hclose => exact .of_eq (paths_closeFrame hclose)
  | _ => exact .same

end Traversal
end RowFilter
