import RowFilter.Proofs.Agreement
import RowFilter.Proofs.Definitions
import RowFilter.Proofs.OpenKeys

/-!
# Disclosure

What a compile tells of a schema. Under a list of granted paths it looks up nothing but the fields
along these paths: a key is opened only after it was granted, and whatever is looked up later
stands at an open key. Two schemas that agree along the granted paths cannot be told apart by any
document, neither by its predicate nor by its refusal.
-/

namespace RowFilter

/-- The same setup over another schema. -/
def Setup.withSchema (setup : Setup) (schema : Schema) : Setup := { setup with schema := schema }

namespace Traversal
open TraversalState Traced

variable {setup : Setup} {s t : TraversalState}

/-! ## Another schema

A task that is not a field key meets the schema only in the field that the open keys lead to. -/

section WithSchema

variable {schema : Schema}

theorem matchElement_withSchema
    (h : openField? setup s = openField? (setup.withSchema schema) s) (value : Value) :
    matchElement setup s value = matchElement (setup.withSchema schema) s value := by
  unfold matchElement
  rw [h]
  rfl

theorem operate_withSchema (h : openField? setup s = openField? (setup.withSchema schema) s)
    (token : String) (value : Value) :
    operate setup s token value = operate (setup.withSchema schema) s token value := by
  unfold operate
  rw [h]

theorem step_withSchema {task : Task} {rest : List Task}
    (h : perform setup { s with work := rest } task =
      perform (setup.withSchema schema) { s with work := rest } task) :
    step setup s task rest = step (setup.withSchema schema) s task rest := by
  unfold step
  rw [h]
  rfl

end WithSchema

/-! ## The open keys -/

theorem isPlain_of_innerKey {key dataKey inner : Path} {value : Value}
    (h : (innerKey setup key dataKey value).result = .ok inner) :
    ∀ segment ∈ inner, Path.IsPlain segment := by
  obtain ⟨answer, _, h⟩ := bind_result_eq_ok_iff.mp h
  dsimp only at h
  split at h
  · cases h
    intro segment hsegment
    unfold lastSegments at hsegment
    split at hsegment
    · exact Path.isPlain_of_mem_ofText (List.mem_of_mem_drop hsegment)
    · cases hsegment
  · exact absurd h (refuse_result_ne_ok _ _ _ _ _)

/-! ## Two schemas -/

/-- The two schemas agree along every granted path. Names of digits stay out of the root model,
where they would be taken for names. -/
structure Agreeing (setup : Setup) (schema : Schema) (paths : List String) : Prop where
  listed : setup.policies.whitelist = .listed paths
  indexFree : setup.schema.IndexFree setup.root
  indexFree' : schema.IndexFree setup.root
  along : ∀ path ∈ paths, setup.schema.AgreeAlong schema setup.root (.ofText path)

/-- A path that tells nothing of the schema but what they agree on. -/
structure Disclosed (setup : Setup) (schema : Schema) (p : Path) : Prop where
  plain : ∀ segment ∈ p, Path.IsPlain segment
  along : setup.schema.AgreeAlong schema setup.root p.strip

variable {schema : Schema} {paths : List String} {p q : Path}

theorem Disclosed.nil : Disclosed setup schema [] where
  plain := fun _ h => nomatch h
  along := .nil

theorem Disclosed.of_prefix (h : Disclosed setup schema p) (hq : q <+: p) :
    Disclosed setup schema q where
  plain := fun segment hsegment => h.plain segment (hq.subset hsegment)
  along := h.along.of_prefix (hq.filter _)

namespace Agreeing

/-- Whatever is listed is disclosed. -/
theorem disclosed_of_mem (h : Agreeing setup schema paths)
    (hplain : ∀ segment ∈ p, Path.IsPlain segment) (hmem : p.strip.text ∈ paths) :
    Disclosed setup schema p := by
  refine ⟨hplain, ?_⟩
  by_cases hroot : p.strip = []
  · rw [hroot]
    exact .nil
  · have halong := h.along _ hmem
    rwa [Path.ofText_text hroot fun segment hsegment =>
      hplain segment (List.mem_filter.mp hsegment).1] at halong

theorem disclosed_of_granted (h : Agreeing setup schema paths)
    (hplain : ∀ segment ∈ p, Path.IsPlain segment)
    (hgranted : (setup.policies.isWhitelisted setup.schema setup.root p.strip).result = .ok true) :
    Disclosed setup schema p := by
  rw [Policies.isWhitelisted, h.listed] at hgranted
  have hboth := Except.ok.inj hgranted
  rw [Bool.and_eq_true, List.contains_iff_mem] at hboth
  exact h.disclosed_of_mem hplain hboth.1

theorem resolve_congr (h : Agreeing setup schema paths) (hp : Disclosed setup schema p)
    (dataKey : Path) :
    resolve setup p dataKey = resolve (setup.withSchema schema) p dataKey := by
  have hsteps := Schema.resolve_congr h.indexFree h.indexFree' hp.along
  show ofExcept ((setup.schema.resolve setup.root p).mapError _) =
    ofExcept ((schema.resolve setup.root p).mapError _)
  rw [hsteps]

theorem isWhitelisted_congr (h : Agreeing setup schema paths)
    (hplain : ∀ segment ∈ p, Path.IsPlain segment) :
    setup.policies.isWhitelisted setup.schema setup.root p.strip =
      setup.policies.isWhitelisted schema setup.root p.strip := by
  unfold Policies.isWhitelisted
  rw [h.listed]
  dsimp only
  by_cases hmem : p.strip.text ∈ paths
  · have halong := (h.disclosed_of_mem hplain hmem).along
    rw [← Path.strip_strip] at halong
    unfold Schema.resolves
    rw [Schema.resolve_congr h.indexFree h.indexFree' halong]
  · have hcontains : paths.contains p.strip.text = false := by simpa using hmem
    rw [hcontains, Bool.false_and, Bool.false_and]

variable (h : Agreeing setup schema paths) (hs : Disclosed setup schema s.openKey.internal)
include h hs

theorem openField?_congr : openField? setup s = openField? (setup.withSchema schema) s := by
  unfold openField?
  rw [h.resolve_congr hs]

/-- Before a key is granted nothing is looked up, and then it is disclosed. -/
theorem descend_congr (text : String) (value : Value) :
    descend setup s text value = descend (setup.withSchema schema) s text value := by
  unfold descend
  refine bind_congr_of_ok fun _ _ => bind_congr_of_ok fun inner hinner => ?_
  have hplain : ∀ segment ∈ s.openKey.internal ++ inner, Path.IsPlain segment := by
    intro segment hsegment
    obtain hsegment | hsegment := List.mem_append.mp hsegment
    · exact hs.plain segment hsegment
    · exact isPlain_of_innerKey hinner segment hsegment
  dsimp only
  rw [h.isWhitelisted_congr hplain]
  refine bind_congr_of_ok fun allowed hallowed => ?_
  cases allowed with
  | false => rfl
  | true =>
    have hgranted : (setup.policies.isWhitelisted setup.schema setup.root
        (s.openKey.internal ++ inner).strip).result = .ok true := by
      rw [h.isWhitelisted_congr hplain]
      exact hallowed
    rw [h.resolve_congr (h.disclosed_of_granted hplain hgranted)]

theorem perform_congr (task : Task) :
    perform setup s task = perform (setup.withSchema schema) s task := by
  cases task with
  | closePath => rfl
  | closeScope => rfl
  | closeFrame => rfl
  | fragment f =>
    rcases f with _ | ⟨⟨key, value⟩, _ | ⟨d, rest⟩⟩
    · rfl
    · show readEntry setup s key value = readEntry (setup.withSchema schema) s key value
      unfold readEntry
      split
      · rfl
      · rfl
      · rfl
      · rfl
      · exact matchElement_withSchema (h.openField?_congr hs) value
      · exact operate_withSchema (h.openField?_congr hs) _ value
      · exact h.descend_congr hs _ value
    · rfl

/-- Whatever is open after a task is disclosed, if everything was before. -/
theorem disclosed_of_pathsAfter (ht : PathsAfter setup s t.paths) :
    Disclosed setup schema t.openKey.internal := by
  have hjoin (key : OpenKey) (keys : List OpenKey) : (OpenKey.join (key :: keys).reverse).internal =
      (OpenKey.join keys.reverse).internal ++ key.internal := by
    simp [OpenKey.join]
  show Disclosed setup schema (OpenKey.join t.paths.reverse).internal
  generalize t.paths = keys at ht
  cases ht with
  | same => exact hs
  | closed =>
    refine hs.of_prefix ?_
    show _ <+: (OpenKey.join s.paths.reverse).internal
    cases s.paths with
    | nil => exact List.prefix_refl _
    | cons key keys =>
      rw [hjoin]
      exact List.prefix_append _ _
  | @opened key inner _ width hpasses =>
    rw [hjoin]
    have hwhole : Disclosed setup schema (s.openKey.internal ++ inner) := by
      refine h.disclosed_of_granted (fun segment hsegment => ?_) hpasses.granted
      obtain hsegment | hsegment := List.mem_append.mp hsegment
      · exact hs.plain segment hsegment
      · exact hpasses.isPlain_inner segment hsegment
    exact hwhole.of_prefix ((List.prefix_append_right_inj _).mpr (List.take_prefix width inner))

/-! ## Runs -/

theorem step_congr (task : Task) (rest : List Task) :
    step setup s task rest = step (setup.withSchema schema) s task rest :=
  step_withSchema (h.perform_congr (s := { s with work := rest }) hs task)

theorem disclosed_of_step {task : Task} {rest : List Task}
    (hstep : (step setup s task rest).result = .ok t) :
    Disclosed setup schema t.openKey.internal :=
  h.disclosed_of_pathsAfter (s := { s with work := rest }) hs (step_eq_ok_iff.mp hstep).2.pathsAfter

omit hs in
theorem disclosed_of_reachable {document : Fragment} (hs : Reachable setup document s) :
    Disclosed setup schema s.openKey.internal := by
  induction hs with
  | start => exact .nil
  | step _ _ hstep ih => exact h.disclosed_of_step ih hstep

omit hs in
theorem run_congr (document : Fragment) :
    run setup document = run (setup.withSchema schema) document :=
  run_congr_of_step fun _ task rest hs _ => h.step_congr (h.disclosed_of_reachable hs) task rest

end Agreeing

end Traversal

/-- A compile meets the schema only in its traversal. -/
theorem Setup.compile_withSchema {setup : Setup} {schema : Schema} {document : Value}
    (h : ∀ f, document.mapping? = some f →
      Traversal.run setup f = Traversal.run (setup.withSchema schema) f) :
    setup.compile document = (setup.withSchema schema).compile document := by
  have hmapping : setup.compileMapping document =
      (setup.withSchema schema).compileMapping document := by
    unfold compileMapping
    cases hf : document.mapping? with
    | none => rfl
    | some f =>
      dsimp only
      rw [h f hf]
      rfl
  unfold compile
  rw [hmapping]
  rfl

theorem Setup.compile_congr {setup : Setup} {schema : Schema} {paths : List String}
    (h : Traversal.Agreeing setup schema paths) (document : Value) :
    setup.compile document = (setup.withSchema schema).compile document :=
  compile_withSchema fun f _ => h.run_congr f

/-- Under a list of granted paths, a document comes to the same over any two schemas that agree
along these paths: to the same predicate or the same failure, after the same questions and
reports. -/
theorem compile_eq_of_agree_along_granted {schema schema' : Schema} {root : String}
    {options : OptionsArgument} {paths : List String}
    (hlisted : ∀ policies, Policies.resolve options = .ok policies →
      policies.whitelist = .listed paths)
    (hindex : schema.IndexFree root) (hindex' : schema'.IndexFree root)
    (halong : ∀ path ∈ paths, schema.AgreeAlong schema' root (.ofText path)) (document : Value) :
    compile schema root document options = compile schema' root document options := by
  cases hpolicies : Policies.resolve options with
  | error fault =>
    unfold compile
    rw [hpolicies]
  | ok policies =>
    have hagreeing : Traversal.Agreeing ⟨schema, root, policies⟩ schema' paths :=
      ⟨hlisted policies hpolicies, hindex, hindex', halong⟩
    rw [compile_of_resolve hpolicies, compile_of_resolve hpolicies, Setup.compile_congr hagreeing]
    rfl

namespace Sample

/-- A catalogue in which albums have nothing but titles, and tracks with nothing but names. -/
def bareSchema : Schema where
  field? model name :=
    if name = "title" ∨ name = "tracks" ∨ name = "name" then catalog.schema.field? model name
    else none

theorem namesNoIndex_bareSchema : bareSchema.NamesNoIndex := by
  intro model name hfield
  refine Definition.namesNoIndex_of_define define_definition model name ?_
  change (if _ then _ else _ : Option Field).isSome at hfield
  split at hfield
  · exact hfield
  · cases hfield

def namesOnly : Options := .ofEntries
  [("whitelist", .value (.list [.text "title", .text "tracks.name"]))]

theorem agreeAlong_namesOnly : ∀ path ∈ ["title", "tracks.name"],
    catalog.schema.AgreeAlong bareSchema "Album" (.ofText path) := by
  have htitle : Path.ofText "title" = ["title"] := rfl
  have htracks : Path.ofText "tracks.name" = ["tracks", "name"] := rfl
  intro path hpath
  obtain rfl | hpath := List.mem_cons.mp hpath
  · rw [htitle]
    exact .cons rfl fun _ _ => .nil
  · rw [List.mem_singleton.mp hpath, htracks]
    refine .cons rfl fun r hr => ?_
    have hr : some (Field.relation tracks) = some (.relation r) := hr
    cases hr
    exact .cons rfl fun _ _ => .nil

/-- Asks for the names of tracks, and in passing whether albums have a date. -/
def probingDocument : Value := .ofEntries
  [("$or", .list [.ofEntries [("tracks.0.name", .text "x")],
    .ofEntries [("released", .ofEntries [("$exists", .bool true)])]])]

theorem compile_eq_of_agree_along_granted_probing :
    (∀ policies, Policies.resolve (.settings namesOnly) = .ok policies →
        policies.whitelist = .listed ["title", "tracks.name"]) ∧
      catalog.schema.IndexFree "Album" ∧ bareSchema.IndexFree "Album" ∧
      (∀ path ∈ ["title", "tracks.name"],
        catalog.schema.AgreeAlong bareSchema "Album" (.ofText path)) ∧
      (catalog.schema.field? "Album" "released").isSome ∧
      bareSchema.field? "Album" "released" = none ∧
      compile catalog.schema "Album" probingDocument (.settings namesOnly) =
        compile bareSchema "Album" probingDocument (.settings namesOnly) := by
  have hlisted : ∀ policies, Policies.resolve (.settings namesOnly) = .ok policies →
      policies.whitelist = .listed ["title", "tracks.name"] := by
    rintro _ ⟨⟩
    rfl
  have hindex := (Definition.namesNoIndex_of_define define_definition).indexFree "Album"
  have hindex' := namesNoIndex_bareSchema.indexFree "Album"
  exact ⟨hlisted, hindex, hindex', agreeAlong_namesOnly, rfl, rfl,
    compile_eq_of_agree_along_granted hlisted hindex hindex' agreeAlong_namesOnly
      probingDocument⟩

end Sample
end RowFilter
