import RowFilter.Proofs.Compiled
import RowFilter.Proofs.Definitions

/-!
# The rows that an outline is about

A document asks about rows of the root model, and inside a scope about the rows behind the
relation of the scope. `Outline.About` follows the outline of a document along the models: every
key names a field of the model at hand, and every scope goes on by one relation. The only part
that names no field is an operator that stands in a scope by itself, with no key around it there.
-/

namespace RowFilter

namespace Outline

variable {setup : Setup} {record : List Event} {place : Place} {o : Outline}
  {model name : String} {path : Path}

/-! ## Places in the models -/

/-- What a place has around it: the model at hand and the path that leads there. A key that is
open there names a field of that model. -/
inductive Within (setup : Setup) (place : Place) : String → Path → Prop
  | inside {model : String} : place.isField = false →
      setup.schema.Reaches setup.root place.key.internal model → Within setup place model place.path
  | atField {model : String} {path : Path} : place.isField = true →
      (∀ f, (fieldAt? setup place).result = .ok (some f) →
        ∃ name, place.path = path ++ [name] ∧ setup.schema.field? model name = some f) →
      Within setup place model path

theorem exists_steps_of_fieldAt? {f : Field} (h : (fieldAt? setup place).result = .ok (some f)) :
    ∃ steps, setup.schema.resolve setup.root place.key.internal = .ok steps ∧
      leaf? steps = some f := by
  obtain ⟨steps, hsteps, h⟩ := Traced.bind_result_eq_ok_iff.mp h
  exact ⟨steps, resolve_of_traversal hsteps, Except.ok.inj h⟩

/-- Where the fields of a model come next, there is no field but the relation to that model. -/
theorem exists_relation_of_fieldAt? {f : Field}
    (hreaches : setup.schema.Reaches setup.root place.key.internal model)
    (h : (fieldAt? setup place).result = .ok (some f)) : ∃ relation, f = .relation relation := by
  obtain ⟨steps, hsteps, hleaf⟩ := exists_steps_of_fieldAt? h
  generalize place.key.internal = internal at hreaches hsteps
  cases hreaches with
  | root =>
    cases hsteps
    cases hleaf
  | relation hsteps' hrelation =>
    rw [hsteps, Except.ok.injEq] at hsteps'
    rw [hsteps', hrelation, Option.some.injEq] at hleaf
    exact ⟨_, hleaf.symm⟩

/-- A key that was opened inside a scope names a field of the model there. -/
theorem Checked.within {inner key : Path} {width : Nat} {steps : List Step}
    (hnames : setup.schema.NamesNoIndex) (hchecked : Checked setup record place inner steps)
    (hne : inner.take width ≠ [])
    (hstays : StaysWithin steps place.key.internal.length width)
    (h : Within setup place model path) :
    Within setup (place.enter ⟨key, inner.take width⟩) model path := by
  cases h with
  | atField hisField =>
    rw [hchecked.closed] at hisField
    cases hisField
  | inside _ hreaches =>
    refine .atField rfl fun f hf => ?_
    obtain ⟨steps', hpart, hleaf⟩ := exists_steps_of_fieldAt? hf
    obtain ⟨name, hstrip, hfield⟩ :=
      hreaches.exists_name hnames hchecked.resolved hpart hleaf hne hstays
    refine ⟨name, ?_, hfield⟩
    rw [← hstrip]
    exact Path.strip_append place.key.internal (inner.take width)

/-- The keys open at a place name a field of the model at hand. -/
structure Names (setup : Setup) (place : Place) (model : String) (path : Path) (name : String)
    (target : Field) : Prop where
  isField : place.isField = true
  leads : (fieldAt? setup place).result = .ok (some target)
  path : place.path = path ++ [name]
  field : setup.schema.field? model name = some target

theorem Within.exists_names {target : Field} (h : Within setup place model path)
    (hisField : place.isField = true)
    (htarget : (fieldAt? setup place).result = .ok (some target)) :
    ∃ name, Names setup place model path name target := by
  cases h with
  | inside hclosed =>
    rw [hisField] at hclosed
    cases hclosed
  | atField _ hfield =>
    obtain ⟨name, hpath, hfield⟩ := hfield _ htarget
    exact ⟨name, hisField, htarget, hpath, hfield⟩

/-- The path of a place leads to the field that the keys there name. -/
theorem Names.exists_resolve {target : Field} (hnames : setup.schema.NamesNoIndex)
    (h : Names setup place model path name target) :
    ∃ steps, setup.schema.resolve setup.root place.path = .ok steps ∧
      leaf? steps = some target := by
  obtain ⟨steps, hsteps, hleaf⟩ := exists_steps_of_fieldAt? h.leads
  exact Schema.exists_resolve_strip hnames hsteps hleaf

/-! ## Outlines along the models -/

/-- The outline is about the rows of a model, behind a path. -/
inductive About (setup : Setup) : String → Path → Outline → Prop
  | nothing {model : String} {path : Path} : About setup model path .nothing
  | all {model : String} {path : Path} {os : List Outline} :
      (∀ o ∈ os, About setup model path o) → About setup model path (.all os)
  | any {model : String} {path : Path} {os : List Outline} :
      (∀ o ∈ os, About setup model path o) → About setup model path (.any os)
  | not {model : String} {path : Path} {o : Outline} :
      About setup model path o → About setup model path (.not o)
  | scope {place : Place} {model name : String} {path : Path} {relation : RelationField}
      {conditions : List Predicate} {body : Outline} :
      Names setup place model path name (.relation relation) →
      (setup.policies.conditionsFor place.path).result = .ok conditions →
      About setup relation.target place.path body →
      About setup model path (.scope relation place.path conditions body)
  | operator {place : Place} {model name token : String} {path dataKey : Path} {target : Field}
      {value : Value} {p : Predicate} :
      Names setup place model path name target →
      target.evaluate token value dataKey place.path = .ok p →
      About setup model path (.operator place p)
  /-- No key is open in the scope. -/
  | lone {place : Place} {model token : String} {dataKey : Path} {relation : RelationField}
      {value : Value} {p : Predicate} : place.isField = false →
      (fieldAt? setup place).result = .ok (some (.relation relation)) →
      Field.evaluate (.relation relation) token value dataKey place.path = .ok p →
      About setup model place.path (.operator place p)
  | field {model : String} {path checked : Path} {inside : Outline} :
      About setup model path inside → About setup model path (.field checked inside)

theorem About.of_scope {relation : RelationField} {conditions : List Predicate} {body : Outline}
    (hwithin : Within setup place model path) (hisField : place.isField = true)
    (htarget : (fieldAt? setup place).result = .ok (some (.relation relation)))
    (hconditions : (setup.policies.conditionsFor place.path).result = .ok conditions)
    (hbody : Within setup place.inScope relation.target place.path →
      About setup relation.target place.path body) :
    About setup model path (.scope relation place.path conditions body) := by
  obtain ⟨name, hnamed⟩ := hwithin.exists_names hisField htarget
  obtain ⟨steps, hsteps, hleaf⟩ := exists_steps_of_fieldAt? htarget
  have hinside : Within setup place.inScope relation.target place.inScope.path :=
    .inside rfl (.relation hsteps hleaf)
  exact .scope hnamed hconditions (hbody hinside)

/-- An outline that stands follows the models from the place where it stands. -/
theorem Stands.about (hnames : setup.schema.NamesNoIndex) (h : Stands setup record place o) :
    ∀ model path, Within setup place model path → About setup model path o := by
  induction h with
  | nothing => exact fun _ _ _ => .nothing
  | all _ ih =>
    intro model path hwithin
    exact .all fun o ho => ih o ho model path hwithin
  | any _ ih =>
    intro model path hwithin
    exact .any fun o ho => ih o ho model path hwithin
  | not _ ih =>
    intro model path hwithin
    exact .not (ih model path hwithin)
  | scope hisField htarget hread _ ih =>
    intro model path hwithin
    exact .of_scope hwithin hisField htarget hread (ih _ _)
  | @operator place target _ _ _ htarget hp =>
    intro model path hwithin
    by_cases hisField : place.isField = true
    · obtain ⟨name, hnamed⟩ := hwithin.exists_names hisField htarget
      exact .operator hnamed hp
    · cases hwithin with
      | atField hopen => exact absurd hopen hisField
      | inside hclosed hreaches =>
        obtain ⟨relation, rfl⟩ := exists_relation_of_fieldAt? hreaches htarget
        exact .lone hclosed htarget hp
  | @field place key inner steps inside hchecked hne hstays _ ih =>
    intro model path hwithin
    rw [← List.take_length (l := inner)] at hne ih
    exact .field (ih model path (hchecked.within hnames hne hstays hwithin))
  | @split place key inner width _ relation _ path' inside hchecked hne hstays htarget hread _ ih =>
    intro model path hwithin
    have hkey : Within setup (place.enter ⟨key, inner.take width⟩) model path :=
      hchecked.within hnames hne hstays hwithin
    exact .field (.of_scope hkey rfl htarget hread (ih _ _))

end Outline

section Compiled
variable {definition : Value} {catalog : Catalog} {root : String} {document : Value}
  {options : OptionsArgument} {policies : Policies} {p : Predicate}

/-- A compiled document is about the rows of the root model. -/
theorem exists_about_of_compile (hdefine : Definition.define definition = .ok catalog)
    (hpolicies : Policies.resolve options = .ok policies)
    (h : (compile catalog.schema root document options).result = .ok (some p)) :
    ∃ f o, document.mapping? = some f ∧
      (Outline.ofDocument ⟨catalog.schema, root, policies⟩ f).result = .ok o ∧ o.predicate = p ∧
      Outline.About ⟨catalog.schema, root, policies⟩ root [] o := by
  obtain ⟨f, o, hf, ho, rfl⟩ := Setup.exists_outline_of_compile (yields_of_compile hpolicies h)
  refine ⟨f, o, hf, ho.result, rfl, ?_⟩
  have hroot : Outline.Within ⟨catalog.schema, root, policies⟩ .root root [] :=
    .inside rfl .root
  exact (Outline.stands_of_yields_ofDocument ho).about
    (Definition.namesNoIndex_of_define hdefine) root [] hroot

end Compiled
end RowFilter
