import RowFilter.Proofs.Placeholders
import RowFilter.Proofs.Siblings

/-!
# The addresses of fields

Which paths lead to a field, read off the schema alone: names of relations in a chain, each with
as many list indices behind it as one likes, and the name of a field at the end. A path resolves
if it is such an address, and to the steps that the address spells out.
-/

namespace RowFilter

/-! ## Addresses -/

namespace Schema

/-- A path that leads from a model to a field, and the step for each of its segments: the name of
a field, or the name of a relation and any number of list indices in front of an address on the
related model. -/
inductive Addresses (s : Schema) : String → Path → List Step → Prop
  | stop {model name : String} {f : Field} : s.field? model name = some f →
      Addresses s model [name] [⟨name, some f, model⟩]
  | behind {model name : String} {r : RelationField} {indices rest : Path} {steps : List Step} :
      s.field? model name = some (.relation r) → (∀ i ∈ indices, Path.isIndex i = true) →
      Addresses s r.target rest steps →
      Addresses s model (name :: (indices ++ rest))
        (⟨name, some (.relation r), model⟩ :: (indices.map (⟨·, none, r.target⟩) ++ steps))

variable {s : Schema} {model root owner : String} {current : Option Field} {p : Path}
  {steps : List Step} {f : Field}

/-- A walk to a field is along an address, with list indices in front of it if the walk sets out
behind a relation. -/
theorem exists_addresses_of_walk (h : s.walk model current p = .ok steps)
    (hleaf : leaf? steps = some f) (howner : owner? model current = some owner) :
    ∃ indices rest tail, p = indices ++ rest ∧ (∀ i ∈ indices, Path.isIndex i = true) ∧
      (current = none → indices = []) ∧ steps = indices.map (⟨·, none, owner⟩) ++ tail ∧
      s.Addresses owner rest tail := by
  induction p generalizing model current steps owner with
  | nil =>
    cases h
    cases hleaf
  | cons name p ih =>
    obtain ⟨tail, owner', howner', hstep⟩ := walk_cons_eq_ok_iff.mp h
    cases howner'.symm.trans howner
    obtain ⟨hindex, hcurrent, rfl, htail⟩ | ⟨field, _, hfield, rfl, htail⟩ := hstep
    · -- an index behind a relation, and the address is still to come
      have hne : tail ≠ [] := by
        intro htail
        subst htail
        cases hleaf
      rw [leaf?_cons _ hne] at hleaf
      obtain ⟨behind, rfl⟩ := Option.isSome_iff_exists.mp hcurrent
      obtain ⟨indices, rest, tail', rfl, hindices, _, rfl, haddress⟩ :=
        ih htail hleaf ((owner?_behind behind _).trans howner)
      have hindices' : ∀ i ∈ name :: indices, Path.isIndex i = true := by
        simpa [hindex] using hindices
      refine ⟨name :: indices, rest, tail', rfl, hindices', ?_, rfl, haddress⟩
      intro hnone
      cases hnone
    · refine ⟨[], name :: p, _, rfl, by simp, fun _ => rfl, rfl, ?_⟩
      by_cases hp : p = []
      · subst hp
        cases htail
        exact .stop hfield
      · rw [leaf?_cons _ (ne_nil_of_walk htail hp)] at hleaf
        cases field with
        | scalar field =>
          obtain ⟨next, rest, rfl⟩ := List.exists_cons_of_ne_nil hp
          obtain ⟨_, _, hscalar, _⟩ := walk_cons_eq_ok_iff.mp htail
          cases hscalar
        | relation r =>
          obtain ⟨indices, rest, tail', rfl, hindices, _, rfl, haddress⟩ := ih htail hleaf rfl
          exact .behind hfield hindices haddress

/-- List indices behind a relation keep the place. -/
theorem walk_indices {r : RelationField} {indices rest : Path}
    (hindices : ∀ i ∈ indices, Path.isIndex i = true)
    (h : s.walk r.target (some (.relation r)) rest = .ok steps) :
    s.walk r.target (some (.relation r)) (indices ++ rest) =
      .ok (indices.map (⟨·, none, r.target⟩) ++ steps) := by
  induction indices with
  | nil => exact h
  | cons i indices ih =>
    obtain ⟨hi, hindices⟩ := List.forall_mem_cons.mp hindices
    rw [List.cons_append, walk]
    simp only [hi, if_true, ih hindices, bind, Except.bind]
    rfl

namespace Addresses

theorem walk (hnames : s.NamesNoIndex) (h : s.Addresses owner p steps)
    (howner : owner? model current = some owner) : s.walk model current p = .ok steps := by
  induction h generalizing model current with
  | stop hfield =>
    have hindex := hnames _ _ (by rw [hfield]; rfl)
    exact walk_cons_of_field howner hindex hfield rfl
  | @behind _ name r _ _ _ hfield hindices _ ih =>
    have hindex := hnames _ _ (by rw [hfield]; rfl)
    refine walk_cons_of_field howner hindex hfield ?_
    rw [walk_behind r r.target]
    exact walk_indices hindices (ih rfl)

theorem exists_leaf (h : s.Addresses owner p steps) : ∃ f, leaf? steps = some f := by
  induction h with
  | stop => exact ⟨_, rfl⟩
  | behind _ _ _ ih =>
    obtain ⟨f, hleaf⟩ := ih
    refine ⟨f, ?_⟩
    rw [← List.cons_append]
    exact leaf?_append _ hleaf

/-- The names in an address are names of fields, and its list indices are runs of digits. -/
theorem isSafe (hsafe : ∀ model name, (s.field? model name).isSome → Path.IsSafe name)
    (h : s.Addresses owner p steps) : ∀ segment ∈ p, Path.IsSafe segment := by
  induction h with
  | stop hfield => simpa using hsafe _ _ (by rw [hfield]; rfl)
  | behind hfield hindices _ ih =>
    refine List.forall_mem_cons.mpr ⟨hsafe _ _ (by rw [hfield]; rfl), ?_⟩
    refine List.forall_mem_append.mpr ⟨?_, ih⟩
    intro i hi
    exact Path.isSafe_of_isIndex (hindices i hi)

theorem ne_nil (h : s.Addresses owner p steps) : p ≠ [] := by
  cases h <;> exact List.cons_ne_nil _ _

/-- An address has one step per segment, and no field just at its list indices. -/
theorem forall_field_eq_none_iff (hnames : s.NamesNoIndex) (h : s.Addresses owner p steps) :
    ∀ step ∈ steps, step.field = none ↔ Path.isIndex step.name = true := by
  induction h with
  | stop hfield =>
    have hindex := hnames _ _ (by rw [hfield]; rfl)
    simp [hindex]
  | behind hfield hindices _ ih =>
    have hindex := hnames _ _ (by rw [hfield]; rfl)
    refine List.forall_mem_cons.mpr ⟨by simp [hindex], List.forall_mem_append.mpr ⟨?_, ih⟩⟩
    intro step hstep
    obtain ⟨i, hi, rfl⟩ := List.mem_map.mp hstep
    simpa using hindices i hi

end Addresses

/-- The fields behind a chain of relations have the names in the chain for an address. -/
theorem exists_addresses_of_chain {chain : List RelationField} {name : String}
    (hchain : s.Chain model chain owner) (hfield : s.field? owner name = some f) :
    ∃ steps, s.Addresses model (RelationField.names chain ++ [name]) steps ∧
      leaf? steps = some f := by
  induction chain generalizing model with
  | nil =>
    cases hchain
    exact ⟨_, .stop hfield, rfl⟩
  | cons r chain ih =>
    obtain ⟨hr, hchain⟩ := hchain
    obtain ⟨steps, haddress, hleaf⟩ := ih hchain
    have hbehind : s.Addresses model (r.name :: ([] ++ (RelationField.names chain ++ [name])))
        (⟨r.name, some (.relation r), model⟩ :: ([] ++ steps)) :=
      .behind hr (by simp) haddress
    exact ⟨_, hbehind, leaf?_append [_] hleaf⟩

/-- A path resolves to the steps of an address, if the fields have names that paths accept. -/
theorem resolve_eq_ok_iff_addresses (hnames : s.NamesNoIndex)
    (hsafe : ∀ model name, (s.field? model name).isSome → Path.IsSafe name) (hp : p.isRoot = false) :
    s.resolve root p = .ok steps ↔ s.Addresses root p steps := by
  constructor
  · intro h
    obtain ⟨f, hleaf⟩ := exists_leaf_of_resolve h hp
    obtain ⟨indices, rest, tail, rfl, _, hnone, rfl, haddress⟩ :=
      exists_addresses_of_walk (walk_of_resolve h hp) hleaf rfl
    rw [hnone rfl]
    exact haddress
  · intro h
    obtain ⟨f, hleaf⟩ := h.exists_leaf
    exact resolve_of_walk (h.isSafe hsafe) (h.walk hnames rfl) hleaf

/-- Every step of an address that finds a field found it on its model. -/
theorem Addresses.field?_eq (h : s.Addresses owner p steps) :
    ∀ step ∈ steps, ∀ f, step.field = some f → s.field? step.model step.name = some f := by
  induction h with
  | stop hfield => simpa using hfield
  | behind hfield hindices _ ih =>
    refine List.forall_mem_cons.mpr ⟨by simpa using hfield, List.forall_mem_append.mpr ⟨?_, ih⟩⟩
    intro step hstep f hf
    obtain ⟨i, _, rfl⟩ := List.mem_map.mp hstep
    cases hf

end Schema

/-- In a defined schema a text resolves just if it is empty or an address: names of relations that
lead from model to model, each with any number of list indices behind it, and the name of a field
at the end. It takes one step for each segment, finds no field just at the list indices, and every
field on the model of the step. Every field behind every chain of relations has an address. -/
theorem Definition.resolve_iff_addresses {definition : Value} {catalog : Catalog}
    (hdefine : define definition = .ok catalog) (root p : String) (steps : List Step) :
    (catalog.schema.resolve root (.ofText p) = .ok steps ↔
      (p = "" ∧ steps = []) ∨ catalog.schema.Addresses root (.ofText p) steps) ∧
    (catalog.schema.Addresses root (.ofText p) steps →
      steps.map (·.name) = Path.ofText p ∧
        ∀ step ∈ steps, (step.field = none ↔ Path.isIndex step.name = true) ∧
          ∀ f, step.field = some f → catalog.schema.field? step.model step.name = some f) ∧
    ∀ chain owner name f, catalog.schema.Chain root chain owner →
      catalog.schema.field? owner name = some f →
      ∃ steps, catalog.schema.resolve root
          (.ofText (Path.text (RelationField.names chain ++ [name]))) = .ok steps ∧
        leaf? steps = some f := by
  have hnames := namesNoIndex_of_define hdefine
  have hsafe : ∀ model name, (catalog.schema.field? model name).isSome → Path.IsSafe name :=
    fun _ _ hfield => (isName_of_field? hdefine hfield).isSafe
  refine ⟨?_, ?_, ?_⟩
  · by_cases hp : p = ""
    · subst hp
      constructor
      · intro h
        exact .inl ⟨rfl, (Except.ok.inj h).symm⟩
      · intro h
        rcases h with ⟨_, rfl⟩ | haddress
        · rfl
        · exact absurd rfl (haddress.isSafe hsafe "" (by decide)).ne_empty
    · have hroot : (Path.ofText p).isRoot = false := by
        simpa using mt (Path.isRoot_ofText_iff p).mp hp
      rw [Schema.resolve_eq_ok_iff_addresses hnames hsafe hroot]
      simp [hp]
  · intro haddress
    have howner : Schema.owner? root none = some root := rfl
    have hwalk := haddress.walk hnames howner
    refine ⟨Schema.names_of_walk hwalk, fun step hstep => ⟨?_, ?_⟩⟩
    · exact haddress.forall_field_eq_none_iff hnames step hstep
    · exact haddress.field?_eq step hstep
  · intro chain owner name f hchain hfield
    obtain ⟨steps, haddress, hleaf⟩ := Schema.exists_addresses_of_chain hchain hfield
    have hplain : ∀ segment ∈ RelationField.names chain ++ [name], Path.IsPlain segment := by
      refine List.forall_mem_append.mpr ⟨isPlain_of_chain hdefine hchain, ?_⟩
      simpa using (isName_of_field? hdefine (by rw [hfield]; rfl)).isPlain
    have hroot := Path.isRoot_eq_false haddress.ne_nil (haddress.isSafe hsafe)
    refine ⟨steps, ?_, hleaf⟩
    rw [Schema.resolve_ofText_text hplain]
    exact (Schema.resolve_eq_ok_iff_addresses hnames hsafe hroot).mpr haddress

namespace Sample

/-- The way from an album over its first track back to it, and to the name of a track. -/
def againTrackName : List Step :=
  [⟨"tracks", some (.relation tracks), "Album"⟩, ⟨"0", none, "Track"⟩,
    ⟨"album", some (.relation ⟨"album", "Track", "Album", .one⟩), "Track"⟩,
    ⟨"tracks", some (.relation tracks), "Album"⟩,
    ⟨"name", some (.scalar ⟨"name", "Track", .scalar .text⟩), "Track"⟩]

theorem resolve_iff_addresses_again :
    Definition.define definition = .ok catalog ∧
      (catalog.schema.resolve "Album" (.ofText "tracks.0.album.tracks.name") =
          .ok againTrackName ↔
        ("tracks.0.album.tracks.name" = "" ∧ againTrackName = []) ∨
          catalog.schema.Addresses "Album" (.ofText "tracks.0.album.tracks.name")
            againTrackName) ∧
      (catalog.schema.Addresses "Album" (.ofText "tracks.0.album.tracks.name") againTrackName →
        againTrackName.map (·.name) = Path.ofText "tracks.0.album.tracks.name" ∧
          ∀ step ∈ againTrackName, (step.field = none ↔ Path.isIndex step.name = true) ∧
            ∀ f, step.field = some f → catalog.schema.field? step.model step.name = some f) ∧
      ∀ chain owner name f, catalog.schema.Chain "Album" chain owner →
        catalog.schema.field? owner name = some f →
        ∃ steps, catalog.schema.resolve "Album"
            (.ofText (Path.text (RelationField.names chain ++ [name]))) = .ok steps ∧
          leaf? steps = some f :=
  ⟨define_definition, Definition.resolve_iff_addresses define_definition "Album"
    "tracks.0.album.tracks.name" againTrackName⟩

end Sample
end RowFilter
