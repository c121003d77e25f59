import RowFilter.Predicate.RowTree
import RowFilter.Proofs.Operators
import RowFilter.Proofs.Rows

/-!
# Visibility

Conditions of the host hide rows: whatever a document asks about related rows, it asks about
those that meet the conditions on their relation. Every scope has the conditions of its own path,
also where the document denies what the scope asks. A compiled predicate therefore says the same
of a tree of rows as of the tree without the hidden rows, so that hidden rows show in no answer.

Two things are left out. The question whether there are related rows at all goes without
conditions, and conditions that ask about further related rows are not considered.
-/

namespace RowFilter

namespace Predicate
variable {Values : Type} {truth : ScalarField → Path → Comparison → Values → Prop}
  {t u : RowTree Values}

/-- Asks about the row at hand, and not about related rows. -/
def IsLocal (p : Predicate) : Prop :=
  ∀ relation path inner, .related relation path inner ∉ p.parts

theorem IsLocal.of_subset {p q : Predicate} (h : p.IsLocal) (hparts : q.parts ⊆ p.parts) :
    q.IsLocal :=
  fun relation path inner hpart => h relation path inner (hparts hpart)

theorem holds_congr_of_isLocal (hvalues : t.values = u.values) (p : Predicate) : p.IsLocal →
    (p.Holds (.onTrees truth) t ↔ p.Holds (.onTrees truth) u) := by
  induction p using induction with
  | all ps ih =>
    intro hlocal
    rw [holds_all_iff, holds_all_iff]
    refine forall₂_congr fun p hp => ih p hp (hlocal.of_subset fun q hq => ?_)
    exact mem_parts_all.mpr (.inr ⟨p, hp, hq⟩)
  | any ps ih =>
    intro hlocal
    rw [holds_any_iff, holds_any_iff]
    refine exists_congr fun p => and_congr_right fun hp => ?_
    refine ih p hp (hlocal.of_subset fun q hq => ?_)
    exact mem_parts_any.mpr (.inr ⟨p, hp, hq⟩)
  | not p ih =>
    intro hlocal
    rw [holds_not_iff, holds_not_iff]
    exact not_congr (ih (hlocal.of_subset fun q hq => mem_parts_not.mpr (.inr hq)))
  | related relation path inner =>
    intro hlocal
    exact absurd (self_mem_parts _) (hlocal relation path inner)
  | test field path c =>
    intro _
    rw [holds_test_iff, holds_test_iff]
    show truth field path c t.values ↔ truth field path c u.values
    rw [hvalues]

/-- Says the same of a row at a path as of the row without the hidden rows behind it. -/
def IgnoresHidden (admits : Path → RowTree Values → Prop)
    (truth : ScalarField → Path → Comparison → Values → Prop) (path : Path) (p : Predicate) : Prop :=
  ∀ t : RowTree Values,
    p.Holds (.onTrees truth) (t.visible admits path) ↔ p.Holds (.onTrees truth) t

variable {admits : Path → RowTree Values → Prop} {path : Path} {p : Predicate}
  {ps : List Predicate}

theorem IsLocal.ignoresHidden (h : p.IsLocal) : p.IgnoresHidden admits truth path :=
  fun _ => holds_congr_of_isLocal RowTree.values_visible p h

theorem ignoresHidden_true : true.IgnoresHidden admits truth path :=
  fun _ => iff_of_true holds_true holds_true

theorem ignoresHidden_not (h : p.IgnoresHidden admits truth path) :
    (not p).IgnoresHidden admits truth path := by
  intro t
  rw [holds_not_iff, holds_not_iff, h t]

theorem ignoresHidden_conjunction (h : ∀ p ∈ ps, p.IgnoresHidden admits truth path) :
    (conjunction ps).IgnoresHidden admits truth path := by
  intro t
  rw [holds_conjunction_iff, holds_conjunction_iff]
  exact forall₂_congr fun p hp => h p hp t

theorem ignoresHidden_disjunction (h : ∀ p ∈ ps, p.IgnoresHidden admits truth path) :
    (disjunction ps).IgnoresHidden admits truth path := by
  intro t
  rw [holds_disjunction_iff, holds_disjunction_iff]
  refine or_congr_right (exists_congr fun p => and_congr_right fun hp => h p hp t)

/-- Whoever asks for rows that are admitted asks for visible rows. -/
theorem ignoresHidden_related {relation : RelationField} {path' : Path}
    (hadmits : ∀ t, p.Holds (.onTrees truth) t → admits (path ++ [relation.name]) t)
    (h : p.IgnoresHidden admits truth (path ++ [relation.name])) :
    (related relation path' p).IgnoresHidden admits truth path := by
  intro t
  rw [holds_related_iff, holds_related_iff]
  constructor
  · rintro ⟨u, hu, hp⟩
    obtain ⟨t', ht', _, rfl⟩ := RowTree.mem_behind_visible_iff.mp hu
    exact ⟨t', ht', (h t').mp hp⟩
  · rintro ⟨t', ht', hp⟩
    refine ⟨t'.visible admits (path ++ [relation.name]), ?_, (h t').mpr hp⟩
    exact RowTree.mem_behind_visible_iff.mpr ⟨t', ht', hadmits t' hp, rfl⟩

end Predicate

/-- The row meets every condition that the host puts on the rows behind a path. -/
def Policies.Admits {Row : Type} (policies : Policies) (I : Interpretation Row) (path : Path)
    (row : Row) : Prop :=
  ∀ conditions, (policies.conditionsFor path).result = .ok conditions →
    ∀ c ∈ conditions, c.Holds I row

namespace Setup

/-- The conditions on the rows behind a relation ask about those rows only. -/
def ConditionsAreLocal (setup : Setup) : Prop :=
  ∀ path steps relation, setup.schema.resolve setup.root path = .ok steps →
    leaf? steps = some (.relation relation) →
    ∀ conditions, (setup.policies.conditionsFor path).result = .ok conditions →
      ∀ c ∈ conditions, c.IsLocal

end Setup

namespace Outline

/-- No operator is applied to a relation. The only one that a relation accepts asks whether there
are related rows at all. -/
def AsksNoExistence (setup : Setup) (o : Outline) : Prop :=
  ∀ place p, .operator place p ∈ o.parts →
    ∀ relation, (fieldAt? setup place).result ≠ .ok (some (.relation relation))

theorem AsksNoExistence.of_subset {setup : Setup} {o o' : Outline} (h : o.AsksNoExistence setup)
    (hparts : o'.parts ⊆ o.parts) : o'.AsksNoExistence setup :=
  fun place p hpart => h place p (hparts hpart)

variable {setup : Setup} {o : Outline} {model : String} {path : Path} {Values : Type}
  {truth : ScalarField → Path → Comparison → Values → Prop}

/-- A scope on a relation of the model at hand asks for rows that are admitted. -/
theorem Names.ignoresHidden_scope {place : Place} {name : String} {relation : RelationField}
    {conditions : List Predicate} {body : Outline} (hcalled : relation.name = name)
    (hnames : setup.schema.NamesNoIndex) (hlocal : setup.ConditionsAreLocal)
    (h : Names setup place model path name (.relation relation))
    (hread : (setup.policies.conditionsFor place.path).result = .ok conditions)
    (hbody : ∀ p, body.node? = some p →
      p.IgnoresHidden (setup.policies.Admits (.onTrees truth)) truth place.path) :
    (Predicate.related relation place.path
        (.conjunction (conditions ++ body.node?.toList))).IgnoresHidden
      (setup.policies.Admits (.onTrees truth)) truth path := by
  have hpath : place.path = path ++ [relation.name] := by rw [h.path, hcalled]
  obtain ⟨steps, hsteps, hleaf⟩ := h.exists_resolve hnames
  have hconditions : ∀ c ∈ conditions, c.IsLocal :=
    hlocal place.path steps relation hsteps hleaf conditions hread
  refine Predicate.ignoresHidden_related ?_ (Predicate.ignoresHidden_conjunction ?_)
  · intro t ht conditions' hread' c hc
    rw [← hpath, hread, Except.ok.injEq] at hread'
    exact Predicate.holds_conjunction_iff.mp ht c (List.mem_append_left _ (hread' ▸ hc))
  · rw [← hpath]
    intro p hp
    obtain hp | hp := List.mem_append.mp hp
    · exact (hconditions p hp).ignoresHidden
    · exact hbody p (Option.mem_toList.mp hp)

theorem About.ignoresHidden
    (hcalled : ∀ model name relation,
      setup.schema.field? model name = some (.relation relation) → relation.name = name)
    (hnames : setup.schema.NamesNoIndex) (hlocal : setup.ConditionsAreLocal)
    (h : About setup model path o) : o.AsksNoExistence setup →
      ∀ p, o.node? = some p →
        p.IgnoresHidden (setup.policies.Admits (.onTrees truth)) truth path := by
  induction h with
  | nothing =>
    intro _ p hp
    cases hp
  | all _ ih =>
    intro hasks p hp
    cases hp
    refine Predicate.ignoresHidden_conjunction fun p hp => ?_
    obtain ⟨o, ho, hnode⟩ := mem_nodes.mp hp
    exact ih o ho (hasks.of_subset (parts_subset_of_mem_all ho)) p hnode
  | any _ ih =>
    intro hasks p hp
    cases hp
    refine Predicate.ignoresHidden_disjunction fun p hp => ?_
    obtain ⟨o, ho, hnode⟩ := mem_nodes.mp hp
    exact ih o ho (hasks.of_subset (parts_subset_of_mem_any ho)) p hnode
  | @not _ _ o _ ih =>
    intro hasks p hp
    cases hp
    refine Predicate.ignoresHidden_not ?_
    cases hnode : o.node? with
    | none => exact Predicate.ignoresHidden_true
    | some p => exact ih (hasks.of_subset parts_subset_not) p hnode
  | scope hnamed hread _ ih =>
    intro hasks p hp
    cases hp
    refine hnamed.ignoresHidden_scope (hcalled _ _ _ hnamed.field) hnames hlocal hread ?_
    exact ih (hasks.of_subset parts_subset_scope)
  | @operator place _ _ _ _ _ _ _ _ hnamed hp =>
    intro hasks p hp'
    cases hp'
    refine Predicate.IsLocal.ignoresHidden fun relation path' inner hpart => ?_
    rcases Field.evaluate_eq_ok hp with ⟨field, c, rfl, _, rfl | rfl⟩ | ⟨relation', rfl, _⟩
    · cases Predicate.mem_parts_test.mp hpart
    · obtain hpart | hpart := Predicate.mem_parts_not.mp hpart
      · cases hpart
      · cases Predicate.mem_parts_test.mp hpart
    · exact hasks place _ List.mem_cons_self relation' hnamed.leads
  | @lone place _ _ _ relation _ _ _ hleads _ =>
    intro hasks
    exact absurd hleads (hasks place _ List.mem_cons_self relation)
  | field _ ih =>
    intro hasks
    exact ih (hasks.of_subset parts_subset_field)

end Outline

namespace Outline

variable {setup : Setup} {record : List Event} {o : Outline}

/-- The predicate tells whether there was a question of existence: it has a bare related node. -/
theorem Stands.asksNoExistence (h : Stands setup record .root o)
    (hbare : ∀ relation path, .related relation path .true ∉ o.predicate.parts) :
    o.AsksNoExistence setup := by
  intro place p hpart relation hleads
  obtain ⟨place', hoperator⟩ := h.of_mem_parts hpart
  cases hoperator with
  | operator hleads' hp =>
    rw [hleads, Except.ok.injEq, Option.some.injEq] at hleads'
    subst hleads'
    rcases Field.evaluate_eq_ok hp with ⟨_, _, hscalar, _⟩ | ⟨relation', _, rfl | rfl⟩
    · cases hscalar
    · exact hbare relation' place.path
        (mem_predicate_of_operator hpart (Predicate.self_mem_parts _))
    · exact hbare relation' place.path
        (mem_predicate_of_operator hpart (Predicate.mem_parts_not.mpr (.inr
          (Predicate.self_mem_parts _))))

end Outline

/-- Nowhere does the document ask whether there are related rows at all. -/
def Setup.AsksNoExistence (setup : Setup) (document : Value) : Prop :=
  ∀ f o, document.mapping? = some f → (Outline.ofDocument setup f).result = .ok o →
    o.AsksNoExistence setup

section Compiled
variable {definition : Value} {catalog : Catalog} {schema : Schema} {root : String}
  {document : Value} {options : OptionsArgument} {policies : Policies} {p : Predicate}

theorem asksNoExistence_of_compile (hpolicies : Policies.resolve options = .ok policies)
    (h : (compile schema root document options).result = .ok (some p))
    (hbare : ∀ relation path, .related relation path .true ∉ p.parts) :
    Setup.AsksNoExistence ⟨schema, root, policies⟩ document := by
  obtain ⟨f, o, hf, ho, rfl⟩ := Setup.exists_outline_of_compile (yields_of_compile hpolicies h)
  intro f' o' hf' ho'
  rw [hf, Option.some.injEq] at hf'
  subst hf'
  rw [ho.result, Except.ok.injEq] at ho'
  subst ho'
  exact (Outline.stands_of_yields_ofDocument ho).asksNoExistence hbare

/-- A compiled predicate says the same of a row as of the row without the hidden rows behind it,
unless the document asks whether there are related rows at all. Rows are hidden that fail the
conditions on their relation, at every depth. -/
theorem compiled_ignores_hidden_rows (hdefine : Definition.define definition = .ok catalog)
    (hpolicies : Policies.resolve options = .ok policies)
    (hlocal : Setup.ConditionsAreLocal ⟨catalog.schema, root, policies⟩)
    (hasks : Setup.AsksNoExistence ⟨catalog.schema, root, policies⟩ document)
    (h : (compile catalog.schema root document options).result = .ok (some p))
    {Values : Type} (truth : ScalarField → Path → Comparison → Values → Prop)
    (t : RowTree Values) :
    p.Holds (.onTrees truth) (t.visible (policies.Admits (.onTrees truth)) []) ↔
      p.Holds (.onTrees truth) t := by
  obtain ⟨f, o, hf, ho, rfl, habout⟩ := exists_about_of_compile hdefine hpolicies h
  have hnode : ∀ p, o.node? = some p →
      p.IgnoresHidden (policies.Admits (.onTrees truth)) truth [] :=
    habout.ignoresHidden (fun _ _ _ hfield => Definition.name_of_field?_relation hdefine hfield)
      (Definition.namesNoIndex_of_define hdefine) hlocal (hasks f o hf ho)
  unfold Outline.predicate
  cases hp : o.node? with
  | none => exact Predicate.ignoresHidden_true t
  | some p => exact hnode p hp t

end Compiled

namespace Sample

/-- None of the tracks has the name, and some track has another. -/
def deniedDocument : Value := .ofEntries
  [("$nor", .list [.ofEntries [("tracks.name", .text "x")]]),
    ("tracks", .ofEntries [("$elemMatch", .ofEntries
      [("$not", .ofEntries [("name", .text "x")])])])]

def trackName (name : String) : Predicate :=
  .test ⟨"name", "Track", .scalar .text⟩ ["tracks", "name"] (.compare .eq (.text name))

def deniedPredicate : Predicate := .all
  [.not (.related tracks ["tracks"] (.all [shortTracks, trackName "x"])),
    .related tracks ["tracks"] (.all [shortTracks, .not (trackName "x")])]

theorem compile_deniedDocument :
    (compile catalog.schema "Album" deniedDocument (.settings hidingOptions)).result =
      .ok (some deniedPredicate) := by
  rfl

theorem eq_shortTracks_of_conditionsFor {path : Path} {conditions : List Predicate}
    (h : ((Policies.ofOptions hidingOptions).conditionsFor path).result = .ok conditions) :
    ∀ c ∈ conditions, c = shortTracks := by
  intro c hc
  have htable : (Policies.ofOptions hidingOptions).conditions =
      .table [("tracks", .one (.predicate shortTracks))] := rfl
  rw [Policies.conditionsFor, htable] at h
  dsimp only at h
  split at h
  · next entry hentry =>
    have hentry := List.mem_singleton.mp (Entries.mem_of_get? hentry)
    rw [(Prod.mk.injEq ..).mp hentry |>.2] at h
    cases h
    exact List.mem_singleton.mp hc
  · cases h
    cases hc

theorem conditionsAreLocal_hiding :
    Setup.ConditionsAreLocal ⟨catalog.schema, "Album", .ofOptions hidingOptions⟩ := by
  intro path steps relation _ _ conditions hread c hc relation' path' inner hpart
  rw [eq_shortTracks_of_conditionsFor hread c hc] at hpart
  cases Predicate.mem_parts_test.mp hpart

theorem asksNoExistence_denied :
    Setup.AsksNoExistence ⟨catalog.schema, "Album", .ofOptions hidingOptions⟩ deniedDocument := by
  refine asksNoExistence_of_compile rfl compile_deniedDocument fun relation path hpart => ?_
  simp [deniedPredicate, shortTracks, trackName, Predicate.true, Predicate.parts,
    Predicate.partsOfAll] at hpart

/-- Only the length of a track matters. -/
def trackTruth (field : ScalarField) (_ : Path) (_ : Comparison) (length : Nat) : Prop :=
  field = milliseconds → length < 60000

/-- An album with a short track and a long one. -/
def album : RowTree Nat :=
  .row 0 fun _ => [.row 1000 fun _ => [], .row 90000 fun _ => []]

theorem not_admits_long :
    ¬(Policies.ofOptions hidingOptions).Admits (.onTrees trackTruth) ["tracks"]
      (.row 90000 fun _ => []) := by
  intro hadmits
  have hshort := Predicate.holds_test_iff.mp
    (hadmits [shortTracks] rfl shortTracks (List.mem_singleton_self _))
  have hlt : 90000 < 60000 := hshort rfl
  omega

theorem compiled_ignores_hidden_rows_denied :
    Definition.define definition = .ok catalog ∧
      Policies.resolve (.settings hidingOptions) = .ok (.ofOptions hidingOptions) ∧
      Setup.ConditionsAreLocal ⟨catalog.schema, "Album", .ofOptions hidingOptions⟩ ∧
      Setup.AsksNoExistence ⟨catalog.schema, "Album", .ofOptions hidingOptions⟩
        deniedDocument ∧
      (compile catalog.schema "Album" deniedDocument (.settings hidingOptions)).result =
        .ok (some deniedPredicate) ∧
      ¬(Policies.ofOptions hidingOptions).Admits (.onTrees trackTruth) ["tracks"]
        (.row 90000 fun _ => []) ∧
      (deniedPredicate.Holds (.onTrees trackTruth) (album.visible
          ((Policies.ofOptions hidingOptions).Admits (.onTrees trackTruth)) []) ↔
        deniedPredicate.Holds (.onTrees trackTruth) album) :=
  ⟨define_definition, rfl, conditionsAreLocal_hiding, asksNoExistence_denied,
    compile_deniedDocument, not_admits_long,
    compiled_ignores_hidden_rows define_definition rfl conditionsAreLocal_hiding
      asksNoExistence_denied compile_deniedDocument trackTruth album⟩

end Sample
end RowFilter
