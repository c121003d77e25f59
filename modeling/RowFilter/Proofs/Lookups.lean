import RowFilter.Proofs.Disclosure
import RowFilter.Proofs.Translation

/-!
# Lookups

Which names a compile looks up on models, and which paths it asks the translator about. A path is
looked up only as a whole, after a check of all its segments, wherever it comes from: from the
document, from a translator, or from a list of granted paths. And the translator is asked about a
key only after the same check of the key.

The lookups of a compile are listed in order. The list is complete: a schema that answers all of
them alike cannot be told apart.
-/

namespace RowFilter

namespace Path

/-- A segment that can reach nothing but a field. -/
structure Harmless (segment : String) : Prop where
  ne_empty : segment ≠ ""
  noOperator : segment.toList.head? ≠ some '$'
  noControl : ∀ c ∈ segment.toList, 0x1F < c.toNat
  /-- In no letter case a name that every record inherits. -/
  notReserved : ∀ word ∈ ["__proto__", "constructor", "prototype"],
    segment.toList.map Char.toLower ≠ word.toList

theorem harmless_of_isSafe {segment : String} (h : IsSafe segment) : Harmless segment := by
  have hhead := h.head
  have hne := h.ne_empty
  simp only [IsSafe, segmentProblem?, if_neg hhead.1, if_neg hhead.2] at h
  split at h
  · cases h
  · next hcontrol =>
    split at h
    · cases h
    · next hreserved =>
      refine ⟨hne, hhead.2, fun c hc => ?_, fun word hword hspelled => ?_⟩
      · simp only [List.any_eq_true, decide_eq_true_eq, not_exists, not_and, Nat.not_lt]
          at hcontrol
        exact hcontrol c hc
      · refine hreserved (List.any_eq_true.mpr ⟨word, hword, ?_⟩)
        exact (Text.spells_iff word segment).mpr hspelled

end Path

/-- A field that is looked up: a name on a model. -/
structure Lookup where
  model : String
  name : String
deriving DecidableEq

namespace Schema

variable {s t : Schema} {model root : String} {current : Option Field} {p : Path}

/-- The second schema answers these lookups like the first. -/
def AnswersAlike (s t : Schema) (lookups : List Lookup) : Prop :=
  ∀ l ∈ lookups, t.field? l.model l.name = s.field? l.model l.name

theorem answersAlike_append {ls ms : List Lookup} :
    s.AnswersAlike t (ls ++ ms) ↔ s.AnswersAlike t ls ∧ s.AnswersAlike t ms :=
  List.forall_mem_append

/-! ## Walks -/

/-- What a walk looks up from a model on, behind the field `current` if there is one. A list
index behind a relation is not looked up, and neither is anything behind a scalar field. -/
def walkLookups (s : Schema) (model : String) (current : Option Field) : Path → List Lookup
  | [] => []
  | name :: rest =>
    match current with
    | some (.scalar _) => []
    | some (.relation r) =>
      if Path.isIndex name then s.walkLookups r.target current rest
      else ⟨r.target, name⟩ :: match s.field? r.target name with
        | some field => s.walkLookups r.target (some field) rest
        | none => []
    | none => ⟨model, name⟩ :: match s.field? model name with
        | some field => s.walkLookups model (some field) rest
        | none => []

/-- What is looked up to resolve a path. A path with a problem is never walked. -/
def lookups (s : Schema) (root : String) (p : Path) : List Lookup :=
  if p.isRoot then []
  else match p.problem? with
    | some _ => []
    | none => s.walkLookups root none p

theorem name_mem_of_mem_walkLookups {l : Lookup} (h : l ∈ s.walkLookups model current p) :
    l.name ∈ p := by
  induction p generalizing model current with
  | nil => cases h
  | cons name p ih =>
    have hfound {owner : String} (h : l ∈ (⟨owner, name⟩ : Lookup) ::
        match s.field? owner name with
        | some field => s.walkLookups owner (some field) p
        | none => []) : l.name ∈ name :: p := by
      obtain rfl | h := List.mem_cons.mp h
      · exact List.mem_cons_self
      · split at h
        · exact List.mem_cons_of_mem name (ih h)
        · cases h
    unfold walkLookups at h
    rcases current with _ | ⟨field | r⟩
    · exact hfound h
    · cases h
    · dsimp only at h
      split at h
      · exact List.mem_cons_of_mem name (ih h)
      · exact hfound h

/-- Only names that may be looked up are looked up. -/
theorem isSafe_of_mem_lookups {l : Lookup} (h : l ∈ s.lookups root p) : Path.IsSafe l.name := by
  unfold lookups at h
  split at h
  · cases h
  · split at h
    · cases h
    · next hproblem =>
      exact (Path.problem?_eq_none_iff p).mp hproblem _ (name_mem_of_mem_walkLookups h)

/-- One more name of a walk, when what follows it is answered alike. -/
theorem stepAt_of_answersAlike {owner name : String}
    (ih : ∀ field, s.AnswersAlike t (s.walkLookups owner (some field) p) →
      t.walk owner (some field) p = s.walk owner (some field) p ∧
        t.walkLookups owner (some field) p = s.walkLookups owner (some field) p)
    (h : s.AnswersAlike t (⟨owner, name⟩ :: match s.field? owner name with
      | some field => s.walkLookups owner (some field) p
      | none => [])) :
    ((do let step ← t.stepAt owner name; return step :: (← t.walk owner step.field p)) =
        (do let step ← s.stepAt owner name; return step :: (← s.walk owner step.field p) :
          Except Unresolved (List Step))) ∧
      ((⟨owner, name⟩ : Lookup) :: match t.field? owner name with
        | some field => t.walkLookups owner (some field) p
        | none => []) =
      ⟨owner, name⟩ :: match s.field? owner name with
        | some field => s.walkLookups owner (some field) p
        | none => [] := by
  obtain ⟨hfield, hrest⟩ := List.forall_mem_cons.mp h
  have hfield : t.field? owner name = s.field? owner name := hfield
  unfold stepAt
  rw [hfield]
  cases hfound : s.field? owner name with
  | none => exact ⟨rfl, rfl⟩
  | some field =>
    rw [hfound] at hrest
    obtain ⟨hwalk, hlookups⟩ := ih field hrest
    refine ⟨?_, congrArg _ hlookups⟩
    show (do return _ :: (← t.walk owner (some field) p)) =
      (do return _ :: (← s.walk owner (some field) p))
    rw [hwalk]

theorem walk_of_answersAlike (h : s.AnswersAlike t (s.walkLookups model current p)) :
    t.walk model current p = s.walk model current p ∧
      t.walkLookups model current p = s.walkLookups model current p := by
  induction p generalizing model current with
  | nil => exact ⟨rfl, rfl⟩
  | cons name p ih =>
    unfold walk
    unfold walkLookups at h ⊢
    rcases current with _ | ⟨field | r⟩
    · exact stepAt_of_answersAlike (fun _ => ih) h
    · exact ⟨rfl, rfl⟩
    · by_cases hindex : Path.isIndex name = true
      · simp only [hindex, if_true] at h ⊢
        obtain ⟨hwalk, hlookups⟩ := ih h
        rw [hwalk]
        exact ⟨rfl, hlookups⟩
      · simp only [hindex] at h ⊢
        exact stepAt_of_answersAlike (fun _ => ih) h

theorem resolve_of_answersAlike (h : s.AnswersAlike t (s.lookups root p)) :
    t.resolve root p = s.resolve root p ∧ t.lookups root p = s.lookups root p := by
  unfold resolve lookups
  unfold lookups at h
  by_cases hroot : p.isRoot = true
  · simp only [hroot, if_true, and_self]
  · simp only [hroot] at h ⊢
    cases hproblem : p.problem? with
    | some problem => exact ⟨rfl, rfl⟩
    | none =>
      rw [hproblem] at h
      obtain ⟨hwalk, hlookups⟩ := walk_of_answersAlike h
      simp only [hwalk, hlookups, and_self]

end Schema

namespace Policies

/-- What is looked up to grant a path: a listed path must also lead to a field. -/
def lookups (policies : Policies) (schema : Schema) (root : String) (path : Path) : List Lookup :=
  match policies.whitelist with
  | .listed paths => if paths.contains path.text then schema.lookups root path else []
  | _ => []

variable {policies : Policies} {schema other : Schema} {root : String} {path : Path}

theorem isSafe_of_mem_lookups {l : Lookup} (h : l ∈ policies.lookups schema root path) :
    Path.IsSafe l.name := by
  unfold lookups at h
  split at h
  · split at h
    · exact Schema.isSafe_of_mem_lookups h
    · cases h
  · cases h

theorem isWhitelisted_of_answersAlike
    (h : schema.AnswersAlike other (policies.lookups schema root path)) :
    policies.isWhitelisted other root path = policies.isWhitelisted schema root path ∧
      policies.lookups other root path = policies.lookups schema root path := by
  unfold isWhitelisted lookups
  unfold lookups at h
  cases hwhitelist : policies.whitelist with
  | everything => exact ⟨rfl, rfl⟩
  | asked f => exact ⟨rfl, rfl⟩
  | listed paths =>
    rw [hwhitelist] at h
    dsimp only at h ⊢
    by_cases hlisted : paths.contains path.text = true
    · rw [if_pos hlisted] at h
      obtain ⟨hresolve, hlookups⟩ := Schema.resolve_of_answersAlike h
      simp only [Schema.resolves, hresolve, hlookups, and_self]
    · simp only [hlisted, Bool.false_and, Bool.false_eq_true, if_false, and_self]

end Policies

namespace Traversal
open TraversalState Traced

variable {setup : Setup} {s t : TraversalState} {document : Fragment} {schema : Schema}

/-! ## Tasks -/

/-- What is looked up for the field that the open keys lead to. -/
def openLookups (setup : Setup) (s : TraversalState) : List Lookup :=
  setup.schema.lookups setup.root s.openKey.internal

/-- What is looked up for a key with this inner name: to grant its path, and then to resolve it
where no field is open. -/
def innerLookups (setup : Setup) (s : TraversalState) (inner : Path) : List Lookup :=
  let path := s.openKey.internal ++ inner
  setup.policies.lookups setup.schema setup.root path.strip ++
    match (setup.policies.isWhitelisted setup.schema setup.root path.strip).result with
    | .ok true => if s.hasOpenField then [] else setup.schema.lookups setup.root path
    | _ => []

/-- What is looked up for a field key, after its check and its translation. -/
def keyLookups (setup : Setup) (s : TraversalState) (key : Path) (value : Value) : List Lookup :=
  let dataKey := s.openKey.external ++ key
  match key.check dataKey, (innerKey setup key dataKey value).result with
  | .ok _, .ok inner => innerLookups setup s inner
  | _, _ => []

def entryLookups (setup : Setup) (s : TraversalState) (key : String) (value : Value) :
    List Lookup :=
  match DocumentKey.ofText key with
  | .elemMatch => if s.hasOpenField && value.isMapping then openLookups setup s else []
  | .operator token => if (FieldOperator.ofToken? token).isSome then openLookups setup s else []
  | .field text => keyLookups setup s (.ofText text) value
  | _ => []

/-- What is looked up to carry a task out. -/
def taskLookups (setup : Setup) (s : TraversalState) : Task → List Lookup
  | .fragment [(key, value)] => entryLookups setup s key value
  | _ => []

def stepLookups (setup : Setup) (s : TraversalState) (task : Task) (rest : List Task) :
    List Lookup :=
  match withinLimit setup s with
  | .ok _ => taskLookups setup { s with work := rest } task
  | .error _ => []

/-- What is looked up from a state on, within so many steps. -/
def lookupsFrom (setup : Setup) : (fuel : Nat) → TraversalState → List Lookup
  | 0, _ => []
  | fuel + 1, s =>
    match s.work with
    | [] => []
    | task :: rest => stepLookups setup s task rest ++
      match (step setup s task rest).result with
      | .ok t => lookupsFrom setup fuel t
      | .error _ => []

def runLookups (setup : Setup) (document : Fragment) : List Lookup :=
  lookupsFrom setup document.totalLoad (.start document)

/-! ## Safety -/

theorem isSafe_of_mem_innerLookups {inner : Path} {l : Lookup}
    (h : l ∈ innerLookups setup s inner) : Path.IsSafe l.name := by
  obtain h | h := List.mem_append.mp h
  · exact Policies.isSafe_of_mem_lookups h
  · split at h
    · split at h
      · cases h
      · exact Schema.isSafe_of_mem_lookups h
    · cases h

theorem isSafe_of_mem_taskLookups {task : Task} {l : Lookup} (h : l ∈ taskLookups setup s task) :
    Path.IsSafe l.name := by
  unfold taskLookups at h
  split at h
  · unfold entryLookups at h
    split at h
    · split at h
      · exact Schema.isSafe_of_mem_lookups h
      · cases h
    · split at h
      · exact Schema.isSafe_of_mem_lookups h
      · cases h
    · unfold keyLookups at h
      dsimp only at h
      split at h
      · exact isSafe_of_mem_innerLookups h
      · cases h
    · cases h
  · cases h

theorem isSafe_of_mem_lookupsFrom {fuel : Nat} {l : Lookup} (h : l ∈ lookupsFrom setup fuel s) :
    Path.IsSafe l.name := by
  induction fuel generalizing s with
  | zero => cases h
  | succ fuel ih =>
    unfold lookupsFrom at h
    split at h
    · cases h
    · next task rest _ =>
      obtain h | h := List.mem_append.mp h
      · unfold stepLookups at h
        split at h
        · exact isSafe_of_mem_taskLookups h
        · cases h
      · split at h
        · exact ih h
        · cases h

/-! ## Completeness -/

theorem resolve_of_answersAlike {p : Path} (dataKey : Path)
    (h : setup.schema.AnswersAlike schema (setup.schema.lookups setup.root p)) :
    resolve setup p dataKey = resolve (setup.withSchema schema) p dataKey := by
  show Traced.ofExcept ((setup.schema.resolve setup.root p).mapError _) =
    Traced.ofExcept ((schema.resolve setup.root p).mapError _)
  rw [(Schema.resolve_of_answersAlike h).1]

theorem openField?_of_answersAlike (h : setup.schema.AnswersAlike schema (openLookups setup s)) :
    openField? setup s = openField? (setup.withSchema schema) s := by
  unfold openField?
  rw [resolve_of_answersAlike _ h]

theorem openLookups_of_answersAlike (h : setup.schema.AnswersAlike schema (openLookups setup s)) :
    openLookups (setup.withSchema schema) s = openLookups setup s :=
  (Schema.resolve_of_answersAlike h).2

section Keys

variable {inner : Path} (h : setup.schema.AnswersAlike schema (innerLookups setup s inner))
include h

theorem isWhitelisted_of_answersAlike :
    setup.policies.isWhitelisted setup.schema setup.root (s.openKey.internal ++ inner).strip =
      setup.policies.isWhitelisted schema setup.root (s.openKey.internal ++ inner).strip :=
  (Policies.isWhitelisted_of_answersAlike (Schema.answersAlike_append.mp h).1).1.symm

theorem lookups_of_allowed (hopen : s.hasOpenField = false)
    (hallowed : (setup.policies.isWhitelisted setup.schema setup.root
      (s.openKey.internal ++ inner).strip).result = .ok true) :
    setup.schema.AnswersAlike schema
      (setup.schema.lookups setup.root (s.openKey.internal ++ inner)) := by
  have hrest := (Schema.answersAlike_append.mp h).2
  simpa [hallowed, hopen] using hrest

theorem innerLookups_of_answersAlike :
    innerLookups (setup.withSchema schema) s inner = innerLookups setup s inner := by
  obtain ⟨hgrant, _⟩ := Schema.answersAlike_append.mp h
  obtain ⟨hwhitelisted, hlookups⟩ := Policies.isWhitelisted_of_answersAlike hgrant
  show setup.policies.lookups schema setup.root _ ++
      (match (setup.policies.isWhitelisted schema setup.root _).result with
        | .ok true => if s.hasOpenField then [] else schema.lookups setup.root _
        | _ => []) = _
  unfold innerLookups
  dsimp only
  rw [hwhitelisted, hlookups]
  congr 1
  split
  · next hallowed =>
    by_cases hopen : s.hasOpenField = true
    · rw [if_pos hopen, if_pos hopen]
    · rw [if_neg hopen, if_neg hopen]
      have hlookups := lookups_of_allowed h (by simpa using hopen) hallowed
      exact (Schema.resolve_of_answersAlike hlookups).2
  · rfl

end Keys

theorem descend_of_answersAlike (text : String) (value : Value)
    (h : setup.schema.AnswersAlike schema (keyLookups setup s (.ofText text) value)) :
    descend setup s text value = descend (setup.withSchema schema) s text value := by
  unfold descend
  refine bind_congr_of_ok fun _ hcheck => bind_congr_of_ok fun inner hinner => ?_
  have hcheck : (Path.ofText text).check (s.openKey.external ++ .ofText text) = .ok _ := hcheck
  have hinnerLookups : setup.schema.AnswersAlike schema (innerLookups setup s inner) := by
    simpa only [keyLookups, hcheck, hinner] using h
  dsimp only
  rw [isWhitelisted_of_answersAlike hinnerLookups]
  refine bind_congr_of_ok fun allowed hallowed => ?_
  cases allowed with
  | false => rfl
  | true =>
    cases hopen : s.hasOpenField with
    | true => rfl
    | false =>
      have hlookups := lookups_of_allowed hinnerLookups hopen
        (isWhitelisted_of_answersAlike hinnerLookups ▸ hallowed)
      rw [resolve_of_answersAlike _ hlookups]

theorem keyLookups_of_answersAlike {key : Path} {value : Value}
    (h : setup.schema.AnswersAlike schema (keyLookups setup s key value)) :
    keyLookups (setup.withSchema schema) s key value = keyLookups setup s key value := by
  show (match key.check _, (innerKey setup key _ value).result with
    | .ok _, .ok inner => innerLookups (setup.withSchema schema) s inner
    | _, _ => []) = _
  unfold keyLookups at h ⊢
  dsimp only at h ⊢
  split
  · next hcheck hinner =>
    rw [hcheck, hinner] at h
    exact innerLookups_of_answersAlike h
  · rfl

section Entries

variable {key : String} {value : Value}
  (h : setup.schema.AnswersAlike schema (entryLookups setup s key value))
include h

theorem readEntry_of_answersAlike :
    readEntry setup s key value = readEntry (setup.withSchema schema) s key value := by
  unfold entryLookups at h
  unfold readEntry
  cases hkey : DocumentKey.ofText key with
  | all => rfl
  | any => rfl
  | none => rfl
  | not => rfl
  | elemMatch =>
    rw [hkey] at h
    cases hopen : s.hasOpenField with
    | false => simp only [matchElement, hopen]
    | true =>
      cases hf : value.mapping? with
      | none => simp only [matchElement, hopen, hf]
      | some f =>
        refine matchElement_withSchema (openField?_of_answersAlike ?_) value
        simpa [hopen, hf, Value.isMapping] using h
  | operator token =>
    rw [hkey] at h
    cases htoken : FieldOperator.ofToken? token with
    | none => simp only [operate, htoken]
    | some op =>
      refine operate_withSchema (openField?_of_answersAlike ?_) token value
      simpa [htoken] using h
  | field text =>
    rw [hkey] at h
    exact descend_of_answersAlike text value h

theorem entryLookups_of_answersAlike :
    entryLookups (setup.withSchema schema) s key value = entryLookups setup s key value := by
  unfold entryLookups at h ⊢
  split
  · next hkey =>
    rw [hkey] at h
    dsimp only at h
    split
    · next hopen =>
      rw [if_pos hopen] at h
      exact openLookups_of_answersAlike h
    · rfl
  · next token hkey =>
    rw [hkey] at h
    dsimp only at h
    split
    · next htoken =>
      rw [if_pos htoken] at h
      exact openLookups_of_answersAlike h
    · rfl
  · next text hkey =>
    rw [hkey] at h
    exact keyLookups_of_answersAlike h
  · rfl

end Entries

theorem perform_of_answersAlike (task : Task)
    (h : setup.schema.AnswersAlike schema (taskLookups setup s task)) :
    perform setup s task = perform (setup.withSchema schema) s task ∧
      taskLookups (setup.withSchema schema) s task = taskLookups setup s task := by
  cases task with
  | closePath => exact ⟨rfl, rfl⟩
  | closeScope => exact ⟨rfl, rfl⟩
  | closeFrame => exact ⟨rfl, rfl⟩
  | fragment f =>
    rcases f with _ | ⟨⟨key, value⟩, _ | ⟨d, rest⟩⟩
    · exact ⟨rfl, rfl⟩
    · exact ⟨readEntry_of_answersAlike h, entryLookups_of_answersAlike h⟩
    · exact ⟨rfl, rfl⟩

/-- A task past the check of the limit. -/
theorem step_of_answersAlike (task : Task) (rest : List Task)
    (h : setup.schema.AnswersAlike schema (stepLookups setup s task rest)) :
    step setup s task rest = step (setup.withSchema schema) s task rest ∧
      stepLookups (setup.withSchema schema) s task rest = stepLookups setup s task rest := by
  show _ ∧ (match withinLimit setup s with
    | .ok _ => taskLookups (setup.withSchema schema) { s with work := rest } task
    | .error _ => []) = _
  unfold stepLookups at h ⊢
  unfold step
  show ofExcept (withinLimit setup s) >>= _ = ofExcept (withinLimit setup s) >>= _ ∧ _
  cases hwithin : withinLimit setup s with
  | error fault => exact ⟨rfl, rfl⟩
  | ok _ =>
    rw [hwithin] at h
    obtain ⟨hperform, hlookups⟩ := perform_of_answersAlike task h
    exact ⟨bind_congr_of_ok fun _ _ => hperform, hlookups⟩

theorem loop_of_answersAlike (fuel : Nat) (past : List Event)
    (h : setup.schema.AnswersAlike schema (lookupsFrom setup fuel s)) :
    loop setup fuel past s = loop (setup.withSchema schema) fuel past s ∧
      lookupsFrom (setup.withSchema schema) fuel s = lookupsFrom setup fuel s := by
  induction fuel generalizing past s with
  | zero => exact ⟨rfl, rfl⟩
  | succ fuel ih =>
    unfold loop
    unfold lookupsFrom at h ⊢
    cases hwork : s.work with
    | nil => exact ⟨rfl, rfl⟩
    | cons task rest =>
      rw [hwork] at h
      obtain ⟨hnow, hlater⟩ := Schema.answersAlike_append.mp h
      obtain ⟨hstep, hlookups⟩ := step_of_answersAlike task rest hnow
      dsimp only
      rw [← hstep, hlookups]
      cases hresult : step setup s task rest with
      | mk events result =>
        rw [hresult] at hlater
        cases result with
        | error fault => exact ⟨rfl, rfl⟩
        | ok t =>
          obtain ⟨hloop, hrest⟩ := ih (s := t) (events.reverse ++ past) hlater
          exact ⟨hloop, congrArg _ hrest⟩

theorem run_of_answersAlike (h : setup.schema.AnswersAlike schema (runLookups setup document)) :
    run setup document = run (setup.withSchema schema) document ∧
      runLookups (setup.withSchema schema) document = runLookups setup document :=
  loop_of_answersAlike _ [] h

/-! ## Questions to the translator -/

/-- Every open key was checked when it was opened. -/
theorem Reachable.isSafe_openKey (h : Reachable setup document s) :
    ∀ segment ∈ s.openKey.external, Path.IsSafe segment ∧ Path.IsPlain segment := by
  have hpaths : ∀ key ∈ s.paths, ∀ segment ∈ key.external,
      Path.IsSafe segment ∧ Path.IsPlain segment := by
    refine h.paths_induction (motive := fun keys => ∀ key ∈ keys, ∀ segment ∈ key.external,
      Path.IsSafe segment ∧ Path.IsPlain segment) (fun _ hkey => nomatch hkey)
      fun s keys hs hafter => ?_
    cases hafter with
    | same => exact hs
    | closed => exact fun key hkey => hs key (List.mem_of_mem_tail hkey)
    | opened width hpasses =>
      refine List.forall_mem_cons.mpr ⟨fun segment hsegment => ?_, hs⟩
      have hsegment := List.mem_of_mem_take hsegment
      exact ⟨hpasses.safe segment hsegment, hpasses.plain segment hsegment⟩
  intro segment hsegment
  obtain ⟨key, hkey, hsegment⟩ := List.mem_flatMap.mp hsegment
  exact hpaths key (List.mem_reverse.mp hkey) segment hsegment

/-- The translator is asked about texts whose segments may all be looked up. -/
theorem isSafe_of_asked {path : Path}
    (h : .asked .keyTranslator path ∈ (run setup document).events) :
    ∀ segment ∈ Path.ofText path.text, Path.IsSafe segment := by
  obtain ⟨s, key, value, hs, ⟨text, _, _, _, rfl⟩, hsafe, rfl⟩ := exists_key_of_run h
  have hsegments : ∀ segment ∈ outerPath s (.ofText text),
      Path.IsSafe segment ∧ Path.IsPlain segment := by
    intro segment hsegment
    obtain hsegment | hsegment := List.mem_append.mp hsegment
    · exact hs.isSafe_openKey segment hsegment
    · exact ⟨hsafe segment hsegment, Path.isPlain_of_mem_ofText hsegment⟩
  have hne : outerPath s (.ofText text) ≠ [] :=
    List.append_ne_nil_of_right_ne_nil _ (Path.ofText_ne_nil text)
  rw [Path.ofText_text hne fun segment hsegment => (hsegments segment hsegment).2]
  exact fun segment hsegment => (hsegments segment hsegment).1

end Traversal

/-! ## Compiled documents -/

/-- What a compile looks up. Options and documents that are refused as a whole come to no
traversal. -/
def compileLookups (schema : Schema) (root : String) (document : Value)
    (options : OptionsArgument) : List Lookup :=
  match Policies.resolve options, document.mapping? with
  | .ok policies, some f => Traversal.runLookups ⟨schema, root, policies⟩ f
  | _, _ => []

variable {schema other : Schema} {root : String} {document : Value} {options : OptionsArgument}

theorem harmless_of_mem_compileLookups {l : Lookup}
    (h : l ∈ compileLookups schema root document options) : Path.Harmless l.name := by
  unfold compileLookups at h
  split at h
  · exact Path.harmless_of_isSafe (Traversal.isSafe_of_mem_lookupsFrom h)
  · cases h

theorem harmless_of_asked {path : Path}
    (h : .asked .keyTranslator path ∈ (compile schema root document options).events) :
    ∀ segment ∈ Path.ofText path.text, Path.Harmless segment := by
  cases hpolicies : Policies.resolve options with
  | error fault =>
    rw [compile, hpolicies] at h
    cases h
  | ok policies =>
    rw [compile_of_resolve hpolicies] at h
    obtain ⟨f, _, hasked⟩ := Setup.exists_run_of_asked h
    exact fun segment hsegment =>
      Path.harmless_of_isSafe (Traversal.isSafe_of_asked hasked segment hsegment)

/-- A schema that answers the lookups of a compile alike is not told apart, and gets the same
lookups. -/
theorem compile_of_answersAlike
    (h : schema.AnswersAlike other (compileLookups schema root document options)) :
    compile other root document options = compile schema root document options ∧
      compileLookups other root document options =
        compileLookups schema root document options := by
  unfold compileLookups at h ⊢
  cases hpolicies : Policies.resolve options with
  | error fault =>
    rw [compile, compile, hpolicies]
    exact ⟨rfl, rfl⟩
  | ok policies =>
    rw [hpolicies] at h
    have hrun (f : Fragment) (hf : document.mapping? = some f) :
        Traversal.run ⟨schema, root, policies⟩ f =
            Traversal.run (Setup.withSchema ⟨schema, root, policies⟩ other) f ∧
          Traversal.runLookups (Setup.withSchema ⟨schema, root, policies⟩ other) f =
            Traversal.runLookups ⟨schema, root, policies⟩ f := by
      rw [hf] at h
      exact Traversal.run_of_answersAlike h
    constructor
    · rw [compile_of_resolve hpolicies, compile_of_resolve hpolicies,
        Setup.compile_withSchema fun f hf => (hrun f hf).1]
      rfl
    · cases hf : document.mapping? with
      | none => rfl
      | some f => exact (hrun f hf).2

/-- Whatever the schema, the options and the document, a compile asks its translator only about
texts whose segments are all harmless, and looks up only harmless names on models. What it looks
up is all that it learns of the schema: any other schema that answers these lookups alike leads
to the same result, the same questions and reports, and the same lookups. -/
theorem compile_looks_up_harmless (schema : Schema) (root : String) (document : Value)
    (options : OptionsArgument) :
    (∀ path, .asked .keyTranslator path ∈ (compile schema root document options).events →
      ∀ segment ∈ Path.ofText path.text, Path.Harmless segment) ∧
    (∀ l ∈ compileLookups schema root document options, Path.Harmless l.name) ∧
    ∀ other, schema.AnswersAlike other (compileLookups schema root document options) →
      compile other root document options = compile schema root document options ∧
        compileLookups other root document options =
          compileLookups schema root document options :=
  ⟨fun _ => harmless_of_asked, fun _ => harmless_of_mem_compileLookups,
    fun _ => compile_of_answersAlike⟩

end RowFilter
