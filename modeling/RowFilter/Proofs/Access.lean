import RowFilter.Proofs.Compiled
import RowFilter.Proofs.Operators

/-!
# Access

No predicate asks about a field that the whitelist did not grant. The whitelist is asked about
field keys, and nodes are contributed where keys are open. Operators stand where a whole key is
open, at a path that was granted. A scope may stand on a relation on the way, whose path begins
one that was granted.
-/

namespace RowFilter

/-- The whitelist accepts a path. A listed path must also lead to a field of the root model. -/
def Policies.Grants (policies : Policies) (schema : Schema) (root : String) (path : Path) : Prop :=
  match policies.whitelist with
  | .everything => path.text ≠ ""
  | .listed paths => path.text ∈ paths ∧ ∃ steps, schema.resolve root path = .ok steps
  | .asked f => f path.text = .ok (.bool true)

theorem Schema.resolves_iff {s : Schema} {root : String} {p : Path} :
    s.resolves root p = true ↔ ∃ steps, s.resolve root p = .ok steps := by
  unfold Schema.resolves
  cases s.resolve root p <;> simp

theorem Policies.grants_of_isWhitelisted {policies : Policies} {schema : Schema} {root : String}
    {path : Path} (h : (policies.isWhitelisted schema root path).result = .ok true) :
    policies.Grants schema root path := by
  unfold isWhitelisted at h
  unfold Grants
  cases hw : policies.whitelist with
  | everything =>
    rw [hw] at h
    exact of_decide_eq_true (Except.ok.inj h)
  | listed paths =>
    rw [hw] at h
    obtain ⟨hmem, hresolves⟩ := Bool.and_eq_true_iff.mp (Except.ok.inj h)
    exact ⟨List.contains_iff_mem.mp hmem, Schema.resolves_iff.mp hresolves⟩
  | asked f =>
    rw [hw] at h
    obtain ⟨answer, hanswer, h⟩ := Traced.bind_result_eq_ok_iff.mp h
    have hanswer : (f path.text).mapError Fault.policyFailed = .ok answer := hanswer
    rw [Traced.pure_result, Except.ok.injEq] at h
    split at h
    · rw [h] at hanswer
      exact ok_of_mapError hanswer
    · cases h

/-- A function of the host is asked before it grants a path. -/
theorem Policies.asked_of_isWhitelisted {policies : Policies} {schema : Schema} {root : String}
    {record : List Event} {path : Path}
    (h : (policies.isWhitelisted schema root path).Yields record true)
    {f : String → Except String Value} (hf : policies.whitelist = .asked f) :
    .asked .whitelist path ∈ record := by
  have hsub := h.events
  unfold isWhitelisted at h hsub
  simp only [hf] at h hsub
  obtain ⟨answer, hanswer, _⟩ := Traced.yields_bind_iff.mp h
  exact hanswer.events (List.mem_singleton_self _)

namespace Outline

variable {setup : Setup} {record : List Event} {place : Place} {o : Outline}

/-- Every key was granted, and a function of the host asked about it. -/
theorem Stands.granted_of_field (h : Stands setup record place o) {path : Path}
    {inside : Outline} (hpart : .field path inside ∈ o.parts) :
    (setup.policies.isWhitelisted setup.schema setup.root path).Yields record true := by
  obtain ⟨place, hpart⟩ := h.of_mem_parts hpart
  cases hpart with
  | field hchecked => exact hchecked.granted
  | split hchecked => exact hchecked.granted

/-- Without open keys there is no field. -/
theorem fieldAt?_of_root (h : place.key.internal = []) :
    (fieldAt? setup place).result = .ok none := by
  unfold fieldAt? Traversal.resolve
  rw [h]
  rfl

/-- An operator stands at the path of a key around it. Only the rest of a split key starts at a
path that was not checked, and no operator comes before the key there. -/
theorem Stands.exists_field_of_operator (h : Stands setup record .root o) {place : Place}
    {p : Predicate} (hpart : .operator place p ∈ o.parts) :
    ∃ inside, .field place.path inside ∈ o.parts := by
  obtain ⟨place', hoperator, hlies⟩ := h.exists_lies hpart
  cases hoperator with
  | operator htarget _ =>
    cases hlies with
    | here hkey _ _ =>
      rw [fieldAt?_of_root (by rw [hkey]; rfl)] at htarget
      cases htarget
    | field hmem => exact ⟨_, hmem⟩
    | beginning _ _ hother => exact absurd rfl (hother _ _)

/-- A scope stands at the path of a key around it, or at the beginning of one. -/
theorem Stands.exists_field_of_scope (h : Stands setup record .root o)
    {relation : RelationField} {path : Path} {conditions : List Predicate} {body : Outline}
    (hpart : .scope relation path conditions body ∈ o.parts) :
    ∃ checked inside, .field checked inside ∈ o.parts ∧ path <+: checked := by
  obtain ⟨place', hscope, hlies⟩ := h.exists_lies hpart
  cases hscope with
  | scope hisField _ _ _ =>
    cases hlies with
    | here _ hroot _ => cases hroot hisField
    | field hmem => exact ⟨_, _, hmem, List.prefix_refl _⟩
    | beginning hmem hprefix _ => exact ⟨_, _, hmem, hprefix⟩

end Outline

/-! ## Compiled predicates -/

/-- Whatever a predicate asks about was granted. The outline tells the nodes that operators
contributed from the scopes, and has the paths of all field keys that were checked. -/
structure NodesGranted (schema : Schema) (root : String) (policies : Policies)
    (events : List Event) (o : Outline) (p : Predicate) : Prop where
  comparisons : ∀ field path c, .test field path c ∈ p.parts → policies.Grants schema root path
  existence : ∀ place q, .operator place q ∈ o.parts → ∀ relation path inner,
    .related relation path inner ∈ q.parts → policies.Grants schema root path
  relations : ∀ relation path inner, .related relation path inner ∈ p.parts →
    ∃ checked inside, .field checked inside ∈ o.parts ∧ path <+: checked
  keys : ∀ checked inside, .field checked inside ∈ o.parts →
    policies.Grants schema root checked ∧
      ∀ f, policies.whitelist = .asked f → .asked .whitelist checked ∈ events

namespace Outline

variable {setup : Setup} {record : List Event} {o : Outline}

/-- Every node that an operator contributed has the path of a key. -/
theorem Stands.exists_field_of_mem_operator (h : Stands setup record .root o) {place : Place}
    {q n : Predicate} {path : Path} (hpart : .operator place q ∈ o.parts) (hn : n ∈ q.parts)
    (hpath : n.path? = some path) : ∃ inside, .field path inside ∈ o.parts := by
  obtain ⟨place', hoperator⟩ := h.of_mem_parts hpart
  cases hoperator with
  | operator _ hevaluate =>
    have hplace := Field.path?_of_mem_parts hevaluate hn (by rw [hpath]; rfl)
    rw [hpath, Option.some.injEq] at hplace
    rw [hplace]
    exact h.exists_field_of_operator hpart

theorem Stands.nodesGranted (hconditions : setup.policies.NoConditions)
    (h : Stands setup record .root o) :
    NodesGranted setup.schema setup.root setup.policies record o o.predicate := by
  have hgranted {path : Path} {inside : Outline} (hpart : .field path inside ∈ o.parts) :
      setup.policies.Grants setup.schema setup.root path :=
    Policies.grants_of_isWhitelisted (h.granted_of_field hpart).result
  have hnone {relation : RelationField} {path : Path} {conditions : List Predicate}
      {body : Outline} (hpart : .scope relation path conditions body ∈ o.parts) :
      conditions = [] := by
    obtain ⟨place, hscope⟩ := h.of_mem_parts hpart
    cases hscope with
    | scope _ _ hread => exact hconditions _ _ hread
  refine ⟨?_, ?_, ?_, ?_⟩
  · intro field path c hq
    cases origin_of_mem_predicate hq rfl with
    | operator hpart hmem =>
      obtain ⟨inside, hfield⟩ := h.exists_field_of_mem_operator hpart hmem rfl
      exact hgranted hfield
    | scope _ heq => cases heq
    | condition hpart hc =>
      rw [hnone hpart] at hc
      cases hc
  · intro place q hpart relation path inner hmem
    obtain ⟨inside, hfield⟩ := h.exists_field_of_mem_operator hpart hmem rfl
    exact hgranted hfield
  · intro relation path inner hq
    cases origin_of_mem_predicate hq rfl with
    | operator hpart hmem =>
      obtain ⟨inside, hfield⟩ := h.exists_field_of_mem_operator hpart hmem rfl
      exact ⟨path, inside, hfield, List.prefix_refl path⟩
    | scope hpart heq =>
      cases heq
      exact h.exists_field_of_scope hpart
    | condition hpart hc =>
      rw [hnone hpart] at hc
      cases hc
  · intro checked inside hpart
    exact ⟨hgranted hpart, fun f hf =>
      Policies.asked_of_isWhitelisted (h.granted_of_field hpart) hf⟩

end Outline

variable {schema : Schema} {root : String} {document : Value} {options : OptionsArgument}
  {policies : Policies} {p : Predicate}

/-- Without conditions from the host, every node of a compiled predicate asks about a path that
the whitelist granted, and every scope leads to such a path. -/
theorem compiled_nodes_granted (hpolicies : Policies.resolve options = .ok policies)
    (hconditions : policies.NoConditions)
    (h : (compile schema root document options).result = .ok (some p)) :
    ∃ f o, document.mapping? = some f ∧
      (Outline.ofDocument ⟨schema, root, policies⟩ f).result = .ok o ∧ o.predicate = p ∧
      NodesGranted schema root policies (compile schema root document options).events o p := by
  obtain ⟨f, o, hf, ho, rfl⟩ := Setup.exists_outline_of_compile (yields_of_compile hpolicies h)
  have hstands := Outline.stands_of_yields_ofDocument ho
  exact ⟨f, o, hf, ho.result, rfl, hstands.nodesGranted hconditions⟩

namespace Sample

/-- Grants the tracks of an album and the names of their playlists. -/
def grants (path : String) : Except String Value :=
  .ok (.bool (path == "tracks" || path == "tracks.playlists.name"))

def grantingOptions : Options := .ofEntries [("whitelist", .pathFunction grants)]

def playlistsDocument : Value := .ofEntries
  [("tracks.playlists.name", .text "x"), ("tracks", .ofEntries [("$exists", .bool true)])]

def playlistsPredicate : Predicate := .all
  [.related tracks ["tracks"] (.related playlists ["tracks", "playlists"]
      (.test ⟨"name", "Playlist", .scalar .text⟩ ["tracks", "playlists", "name"]
        (.compare .eq (.text "x")))),
    .related tracks ["tracks"] .true]

theorem compile_playlistsDocument :
    (compile catalog.schema "Album" playlistsDocument (.settings grantingOptions)).result =
      .ok (some playlistsPredicate) := by
  rfl

/-- A scope on the way to a granted path is at a path that was not granted itself. -/
theorem compiled_nodes_granted_playlists :
    Policies.resolve (.settings grantingOptions) = .ok (.ofOptions grantingOptions) ∧
      (Policies.ofOptions grantingOptions).NoConditions ∧
      (compile catalog.schema "Album" playlistsDocument (.settings grantingOptions)).result =
        .ok (some playlistsPredicate) ∧
      ∃ f o, playlistsDocument.mapping? = some f ∧
        (Outline.ofDocument ⟨catalog.schema, "Album", .ofOptions grantingOptions⟩ f).result =
          .ok o ∧ o.predicate = playlistsPredicate ∧
        NodesGranted catalog.schema "Album" (.ofOptions grantingOptions)
          (compile catalog.schema "Album" playlistsDocument (.settings grantingOptions)).events o
          playlistsPredicate :=
  have hconditions := Policies.noConditions_of_none rfl
  ⟨rfl, hconditions, compile_playlistsDocument,
    compiled_nodes_granted rfl hconditions compile_playlistsDocument⟩

end Sample
end RowFilter
