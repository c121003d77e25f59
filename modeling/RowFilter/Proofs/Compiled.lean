import RowFilter.Compile
import RowFilter.Proofs.Standing
import RowFilter.Schema.Definition

/-!
# Compiled documents

What stands behind the result of a compile: the traversal of the document, and through it the
outline of the document with everything its parts have passed.
-/

namespace RowFilter

open Traced

namespace Setup
variable {setup : Setup} {document : Value}

/-- A missing document has no predicate. Any other document is traversed, and its predicate is
rendered for a live log. -/
theorem compile_result (setup : Setup) (document : Value) :
    (setup.compile document).result =
      if document.isMissing then .ok none
      else (setup.compileMapping document).result.map some := by
  unfold compile
  split
  · rfl
  · rw [← Traced.reportingRejection_result (setup.compileMapping document)]
    cases h : (setup.compileMapping document).reportingRejection.result <;>
      simp [bind_eq, Traced.bind, Traced.log, h, Except.map, pure_eq, Traced.pure]

/-- A traversal that fails fails the compile. -/
theorem compile_of_run_error {f : Fragment} {fault : Fault} (hf : document.mapping? = some f)
    (h : (Traversal.run setup f).result = .error fault) :
    (setup.compile document).result = .error fault := by
  have hmapping : (setup.compileMapping document).result = .error fault := by
    unfold compileMapping
    rw [hf]
    exact bind_result_eq_error_iff.mpr (.inl h)
  rw [compile_result, Value.isMissing_of_mapping? hf, if_neg Bool.false_ne_true, hmapping]
  rfl

theorem asked_of_compileMapping {policy : Policy} {path : Path}
    (h : .asked policy path ∈ (setup.compileMapping document).events) :
    ∃ f, document.mapping? = some f ∧ .asked policy path ∈ (Traversal.run setup f).events := by
  unfold compileMapping at h
  cases hf : document.mapping? with
  | none =>
    rw [hf] at h
    cases h
  | some f =>
    rw [hf] at h
    refine ⟨f, rfl, ?_⟩
    obtain h | ⟨p, _, h⟩ := mem_events_of_mem_bind h
    · exact h
    · dsimp only at h
      split at h
      · obtain h | ⟨text, _, h⟩ := mem_events_of_mem_bind h
        · cases h
        · obtain h | ⟨_, _, h⟩ := mem_events_of_mem_bind h
          · cases List.mem_singleton.mp h
          · cases h
      · cases h

theorem asked_of_reportingRejection {α : Type} {t : Traced α} {policy : Policy} {path : Path}
    (h : .asked policy path ∈ t.reportingRejection.events) :
    .asked policy path ∈ t.events := by
  unfold reportingRejection at h
  split at h
  · exact h
  · split at h
    · obtain h | h := List.mem_append.mp h
      · exact h
      · cases List.mem_singleton.mp h
    · exact h

/-- A compile asks nothing that the traversal of a mapping does not. -/
theorem exists_run_of_asked {policy : Policy} {path : Path}
    (h : .asked policy path ∈ (setup.compile document).events) :
    ∃ f, document.mapping? = some f ∧ .asked policy path ∈ (Traversal.run setup f).events := by
  unfold compile at h
  split at h
  · obtain h | ⟨_, _, h⟩ := mem_events_of_mem_bind h
    · cases List.mem_singleton.mp h
    · cases h
  · obtain h | ⟨_, _, h⟩ := mem_events_of_mem_bind h
    · cases List.mem_singleton.mp h
    · obtain h | ⟨p, _, h⟩ := mem_events_of_mem_bind h
      · exact asked_of_compileMapping (asked_of_reportingRejection h)
      · cases h

theorem asked_of_compile {f : Fragment} {policy : Policy} {path : Path}
    (hf : document.mapping? = some f)
    (h : .asked policy path ∈ (setup.compile document).events) :
    .asked policy path ∈ (Traversal.run setup f).events := by
  obtain ⟨f', hf', hasked⟩ := exists_run_of_asked h
  cases hf.symm.trans hf'
  exact hasked

theorem run_of_compileMapping {f : Fragment} (hf : document.mapping? = some f)
    {record : List Event} {p : Predicate} (h : (setup.compileMapping document).Yields record p) :
    (Traversal.run setup f).Yields record p := by
  unfold compileMapping at h
  rw [hf] at h
  obtain ⟨p', hrun, h⟩ := yields_bind_iff.mp h
  dsimp only at h
  split at h
  · obtain ⟨text, _, h⟩ := yields_bind_iff.mp h
    obtain ⟨_, _, h⟩ := yields_bind_iff.mp h
    exact yields_pure_iff.mp h ▸ hrun
  · exact yields_pure_iff.mp h ▸ hrun

theorem mapping_of_compileMapping {record : List Event} {p : Predicate}
    (h : (setup.compileMapping document).Yields record p) :
    ∃ f, document.mapping? = some f := by
  cases hf : document.mapping? with
  | some f => exact ⟨f, rfl⟩
  | none =>
    rw [compileMapping, hf] at h
    exact absurd h not_yields_refuse

/-- A compiled document is a mapping whose traversal comes to the predicate. -/
theorem exists_run_of_compile {record : List Event} {p : Predicate}
    (h : (setup.compile document).Yields record (some p)) :
    ∃ f, document.mapping? = some f ∧ (Traversal.run setup f).Yields record p := by
  unfold compile at h
  split at h
  · obtain ⟨_, _, h⟩ := yields_bind_iff.mp h
    rw [yields_pure_iff] at h
    cases h
  · obtain ⟨_, _, h⟩ := yields_bind_iff.mp h
    obtain ⟨p', hmapping, h⟩ := yields_bind_iff.mp h
    rw [yields_pure_iff, Option.some.injEq] at h
    rw [h] at hmapping
    replace hmapping : (setup.compileMapping document).Yields record p := by
      have hresult := hmapping.result
      rw [reportingRejection_result] at hresult
      have heq : (setup.compileMapping document).reportingRejection =
          setup.compileMapping document := by
        simp only [reportingRejection, hresult]
      rwa [heq] at hmapping
    obtain ⟨f, hf⟩ := mapping_of_compileMapping hmapping
    exact ⟨f, hf, run_of_compileMapping hf hmapping⟩

/-- And its outline comes to the predicate. -/
theorem exists_outline_of_compile {record : List Event} {p : Predicate}
    (h : (setup.compile document).Yields record (some p)) :
    ∃ f o, document.mapping? = some f ∧ (Outline.ofDocument setup f).Yields record o ∧
      o.predicate = p := by
  obtain ⟨f, hf, hrun⟩ := exists_run_of_compile h
  obtain ⟨o, ho, hp, hevents⟩ := Traversal.exists_outline_of_run hrun.result
  exact ⟨f, o, hf, ⟨ho, hevents ▸ hrun.events⟩, hp⟩

end Setup

variable {schema : Schema} {root : String} {document : Value} {options : OptionsArgument}
  {policies : Policies}

theorem resolve_of_check {o : Options} (hoptions : options.check = .ok o) :
    Policies.resolve options = .ok (.ofOptions o) := by
  rw [Policies.resolve, hoptions]
  rfl

theorem compile_of_resolve (h : Policies.resolve options = .ok policies) :
    compile schema root document options =
      .ofTraced policies (Setup.compile ⟨schema, root, policies⟩ document) := by
  rw [compile, h]

theorem yields_of_compile (hpolicies : Policies.resolve options = .ok policies)
    {p : Option Predicate} (h : (compile schema root document options).result = .ok p) :
    (Setup.compile ⟨schema, root, policies⟩ document).Yields
      (compile schema root document options).events p := by
  rw [compile_of_resolve hpolicies] at h ⊢
  refine ⟨?_, List.Subset.refl _⟩
  change (Setup.compile ⟨schema, root, policies⟩ document).result.mapError _ = _ at h
  cases hr : (Setup.compile ⟨schema, root, policies⟩ document).result with
  | ok p' =>
    rw [hr] at h
    cases h
    rfl
  | error fault =>
    rw [hr] at h
    cases h

/-- The host puts no conditions into any scope. -/
def Policies.NoConditions (policies : Policies) : Prop :=
  ∀ path conditions, (policies.conditionsFor path).result = .ok conditions → conditions = []

theorem Policies.noConditions_of_none (h : policies.conditions = .none) :
    policies.NoConditions := by
  intro path conditions hread
  rw [conditionsFor, h] at hread
  exact (Except.ok.inj hread).symm

/-! ## A sample catalogue

Albums with their tracks, tracks with their playlists, and employees with their managers: models
that relate in circles, to one row and to many.
-/

namespace Sample

/-- A relation as a definition writes it. -/
def relationTo (target : String) (cardinality : Cardinality) : Value :=
  .ofEntries [("relation", .text target), ("cardinality", .text cardinality.label)]

def model (fields : Entries Value) : Value := .ofEntries [("fields", .ofEntries fields)]

def definition : Value := .ofEntries
  [("Album", model [("title", .text "text"), ("released", .text "date"),
      ("tracks", relationTo "Track" .many)]),
    ("Track", model [("name", .text "text"), ("milliseconds", .text "int"),
      ("album", relationTo "Album" .one), ("playlists", relationTo "Playlist" .many)]),
    ("Playlist", model [("name", .text "text"), ("tracks", relationTo "Track" .many)]),
    ("Employee", model [("title", .text "text"), ("shift_start", .text "time"),
      ("manager", relationTo "Employee" .one), ("reports", relationTo "Employee" .many)])]

def catalog : Catalog := .declare (Definition.declarations definition)

theorem define_definition : Definition.define definition = .ok catalog := by
  have hissues : Definition.issues definition = [] := by decide +kernel
  have hmissing : Definition.missingTargets (Definition.declarations definition) = [] := by
    decide +kernel
  simp only [Definition.define, hissues, hmissing]
  rfl

def tracks : RelationField := ⟨"tracks", "Album", "Track", .many⟩

def playlists : RelationField := ⟨"playlists", "Track", "Playlist", .many⟩

def milliseconds : ScalarField := ⟨"milliseconds", "Track", .scalar .int⟩

/-- A condition on the tracks of an album. -/
def shortTracks : Predicate :=
  .test milliseconds ["tracks", "milliseconds"] (.compare .lt (.number (.ofNat 60000)))

/-- Hides the long tracks of an album. -/
def hidingOptions : Options := .ofEntries
  [("nestedConditions", .conditionTable [("tracks", .one (.predicate shortTracks))])]

end Sample
end RowFilter
