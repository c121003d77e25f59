import RowFilter.Traversal

/-!
# What a task does

What can become of a state when a task is carried out, and what has been checked on the way
there. A field key is opened as a whole, or up to a relation on its way; a scope is opened on a
relation; documents get a frame around them, with their fragments inside; operators come to a
node; and closing tasks close what was opened last. Nothing else comes of a task, so whatever
these keep is kept by every step.
-/

namespace RowFilter.Traversal
open TraversalState Traced

variable {setup : Setup} {s t : TraversalState} {value : Value}

/-! ## Field keys -/

theorem length_lastSegments {n : Nat} {answer : String} (h : n ≤ (Path.ofText answer).length) :
    (lastSegments n (some answer)).length = n := by
  rw [lastSegments, List.length_drop]
  omega

theorem length_innerKey {key dataKey inner : Path}
    (h : (innerKey setup key dataKey value).result = .ok inner) : inner.length = key.length := by
  obtain ⟨answer, _, h⟩ := bind_result_eq_ok_iff.mp h
  dsimp only at h
  split at h
  · next hlength =>
    cases h
    exact hlength
  · exact absurd h (refuse_result_ne_ok _ _ _ _ _)

/-- A key gets an inner name if the answer is a text with enough segments. -/
theorem innerKey_eq_ok_iff {key dataKey inner : Path} {value : Value} (hkey : key ≠ []) :
    (innerKey setup key dataKey value).result = .ok inner ↔
      ∃ answer, (setup.policies.translate dataKey).result = .ok (some answer) ∧
        key.length ≤ (Path.ofText answer).length ∧
        inner = lastSegments key.length (some answer) := by
  unfold innerKey
  rw [bind_result_eq_ok_iff]
  constructor
  · rintro ⟨answer, hanswer, h⟩
    dsimp only at h
    split at h
    · next hlength =>
      cases h
      cases answer with
      | none => exact absurd (List.eq_nil_of_length_eq_zero hlength.symm) hkey
      | some answer =>
        refine ⟨answer, hanswer, ?_, rfl⟩
        rw [lastSegments, List.length_drop] at hlength
        omega
    · exact absurd h (refuse_result_ne_ok _ _ _ _ _)
  · rintro ⟨answer, hanswer, hle, rfl⟩
    refine ⟨some answer, hanswer, ?_⟩
    dsimp only
    rw [if_pos (length_lastSegments hle)]
    rfl

/-- A field key has passed its checks where it stands: those that `processField` makes before it
opens anything. -/
structure Passes (setup : Setup) (s : TraversalState) (key inner : Path) (steps : List Step) :
    Prop where
  ne_nil : key ≠ []
  plain : ∀ segment ∈ key, Path.IsPlain segment
  safe : ∀ segment ∈ key, Path.IsSafe segment
  translated : ∃ answer,
    (setup.policies.translate (s.openKey.external ++ key)).result = .ok (some answer) ∧
      key.length ≤ (Path.ofText answer).length ∧ inner = lastSegments key.length (some answer)
  granted : (setup.policies.isWhitelisted setup.schema setup.root
    (s.openKey.internal ++ inner).strip).result = .ok true
  closed : s.hasOpenField = false
  resolved : setup.schema.resolve setup.root (s.openKey.internal ++ inner) = .ok steps

theorem Passes.length_eq {key inner : Path} {steps : List Step}
    (h : Passes setup s key inner steps) : inner.length = key.length := by
  obtain ⟨answer, _, hle, rfl⟩ := h.translated
  exact length_lastSegments hle

theorem Passes.isPlain_inner {key inner : Path} {steps : List Step}
    (h : Passes setup s key inner steps) : ∀ segment ∈ inner, Path.IsPlain segment := by
  obtain ⟨answer, _, _, rfl⟩ := h.translated
  exact fun segment hsegment => Path.isPlain_of_mem_ofText (List.mem_of_mem_drop hsegment)

/-- A field key is entered if it passes its checks. -/
theorem descend_eq_ok_iff {text : String} :
    (descend setup s text value).result = .ok t ↔
      ∃ inner steps, Passes setup s (.ofText text) inner steps ∧
        (enter s ⟨.ofText text, inner⟩ value (crossings steps)).result = .ok t := by
  have hkey := Path.ofText_ne_nil text
  constructor
  · intro h
    obtain ⟨_, hcheck, h⟩ := bind_result_eq_ok_iff.mp h
    obtain ⟨inner, hinner, h⟩ := bind_result_eq_ok_iff.mp h
    obtain ⟨allowed, hallowed, h⟩ := bind_result_eq_ok_iff.mp h
    cases allowed with
    | false => exact absurd h (refuse_result_ne_ok _ _ _ _ _)
    | true =>
      rw [Bool.not_true, if_neg Bool.false_ne_true] at h
      split at h
      · exact absurd h (refuse_result_ne_ok _ _ _ _ _)
      · next hopen =>
        obtain ⟨steps, hsteps, h⟩ := bind_result_eq_ok_iff.mp h
        exact ⟨inner, steps, ⟨hkey, fun _ => Path.isPlain_of_mem_ofText,
          (Path.check_eq_ok_iff _ _).mp hcheck, (innerKey_eq_ok_iff hkey).mp hinner, hallowed,
          by simpa using hopen, ok_of_mapError hsteps⟩, h⟩
  · rintro ⟨inner, steps, hpasses, h⟩
    refine bind_result_eq_ok_iff.mpr ⟨(), (Path.check_eq_ok_iff _ _).mpr hpasses.safe, ?_⟩
    refine bind_result_eq_ok_iff.mpr
      ⟨inner, (innerKey_eq_ok_iff hkey).mpr hpasses.translated, ?_⟩
    refine bind_result_eq_ok_iff.mpr ⟨true, hpasses.granted, ?_⟩
    rw [Bool.not_true, if_neg Bool.false_ne_true, hpasses.closed, if_neg Bool.false_ne_true]
    refine bind_result_eq_ok_iff.mpr ⟨steps, ?_, h⟩
    show (setup.schema.resolve _ _).mapError _ = _
    rw [hpasses.resolved]
    rfl

/-- How a key is opened that crosses relations at these places: as a whole, up to a relation that
it stops at, or up to the next relation with the rest of it in a scope there. -/
inductive Entered (s : TraversalState) (key : OpenKey) (value : Value) (crossed : List Nat) :
    TraversalState → Prop
  | whole : crossed.find? (s.openKey.internal.length ≤ ·) = none →
      Entered s key value crossed (s.openPath key [.fragment (.ofValue value)])
  | relation {next width : Nat} {f : Fragment} :
      crossed.find? (s.openKey.internal.length ≤ ·) = some next →
      width = next - s.openKey.internal.length + 1 → Path.text (key.external.drop width) = "" →
      value.mapping? = some f → f ≠ [] →
      Entered s key value crossed
        ((s.openPath ⟨key.external.take width, key.internal.take width⟩ []).openFrame ⟨.all, []⟩
          ((f.map .onRelation).map .fragment))
  | split {next width : Nat} :
      crossed.find? (s.openKey.internal.length ≤ ·) = some next →
      width = next - s.openKey.internal.length + 1 → Path.text (key.external.drop width) ≠ "" →
      Entered s key value crossed
        (s.openPath ⟨key.external.take width, key.internal.take width⟩
          [.fragment (.scope (Path.text (key.external.drop width)) value)])

theorem enter_eq_ok_iff {key : OpenKey} {crossed : List Nat} :
    (enter s key value crossed).result = .ok t ↔ Entered s key value crossed t := by
  have hinside (f : Fragment) : (f.map fun e => Task.fragment (.onRelation e)) =
      (f.map .onRelation).map .fragment := by simp
  constructor
  · intro h
    unfold enter at h
    dsimp only at h
    split at h
    · next hfind =>
      cases h
      exact .whole hfind
    · next next hfind =>
      split at h
      · next hempty =>
        split at h
        · cases h
        · cases h
        · next f hne hf =>
          cases h
          rw [hinside]
          exact .relation hfind rfl hempty hf hne
      · next hrest =>
        cases h
        exact .split hfind rfl hrest
  · intro h
    unfold enter
    dsimp only
    cases h with
    | whole hfind =>
      rw [hfind]
      rfl
    | @relation next width f hfind hwidth hempty hf hne =>
      subst hwidth
      obtain ⟨e, rest, rfl⟩ := List.exists_cons_of_ne_nil hne
      rw [hfind]
      dsimp only
      rw [if_pos hempty, hf, ← hinside]
      rfl
    | split hfind hwidth hrest =>
      subst hwidth
      rw [hfind]
      dsimp only
      rw [if_neg hrest]
      rfl

/-- Going into the value of a key asks nothing and reports nothing. -/
theorem enter_events (s : TraversalState) (key : OpenKey) (value : Value) (crossed : List Nat) :
    (enter s key value crossed).events = [] := by
  unfold enter
  dsimp only
  split
  · rfl
  · split
    · split <;> rfl
    · rfl

/-! ## Tasks -/

/-- What a state becomes when a task is carried out. -/
inductive Performed (setup : Setup) (s : TraversalState) : Task → TraversalState → Prop
  | nothing : Performed setup s (.fragment []) s
  | entries {f : Fragment} : 2 ≤ f.length →
      Performed setup s (.fragment f) (s.openFrame ⟨.all, []⟩ ((f.map ([·])).map .fragment))
  | all {key : String} {value : Value} {fs : List Fragment} :
      DocumentKey.ofText key = .all → value.fragments? = some fs →
      Performed setup s (.fragment [(key, value)]) (s.openFrame ⟨.all, []⟩ (fs.map .fragment))
  | any {key : String} {value : Value} {fs : List Fragment} :
      DocumentKey.ofText key = .any → value.fragments? = some fs →
      Performed setup s (.fragment [(key, value)]) (s.openFrame ⟨.any, []⟩ (fs.map .fragment))
  | none {key : String} {value : Value} :
      DocumentKey.ofText key = .none → value.fragments?.isSome →
      Performed setup s (.fragment [(key, value)])
        (s.openFrame ⟨.not, []⟩ [.fragment (.anyOf value)])
  | not {key : String} {value : Value} {f : Fragment} :
      DocumentKey.ofText key = .not → value.mapping? = some f →
      Performed setup s (.fragment [(key, value)]) (s.openFrame ⟨.not, []⟩ [.fragment f])
  | elemMatch {key : String} {value : Value} {f : Fragment} {relation : RelationField}
      {conditions : List Predicate} :
      DocumentKey.ofText key = .elemMatch → s.hasOpenField = true → value.mapping? = some f →
      (openField? setup s).result = .ok (some (.relation relation)) →
      (setup.policies.conditionsFor s.openKey.internal.strip).result = .ok conditions →
      Performed setup s (.fragment [(key, value)]) (s.openScope.openFrame
        ⟨.related relation s.openKey.internal.strip, conditions.reverse⟩ [.fragment f])
  | operator {token : String} {op : FieldOperator} {value : Value} {target : Field} {p : Predicate}
      {t : TraversalState} : DocumentKey.ofText token = .operator token →
      FieldOperator.ofToken? token = some op → (openField? setup s).result = .ok (some target) →
      target.evaluate token value s.openKey.external s.openKey.internal.strip = .ok p →
      s.gather p = .ok t → Performed setup s (.fragment [(token, value)]) t
  | field {text : String} {value : Value} {inner : Path} {steps : List Step}
      {t : TraversalState} : DocumentKey.ofText text = .field text →
      Passes setup s (.ofText text) inner steps →
      Entered s ⟨.ofText text, inner⟩ value (crossings steps) t →
      Performed setup s (.fragment [(text, value)]) t
  | closePath : Performed setup s .closePath { s with paths := s.paths.tail }
  | closeScope : Performed setup s .closeScope { s with scopes := s.scopes.tail }
  | closeFrame {t : TraversalState} : s.closeFrame = .ok t → Performed setup s .closeFrame t

theorem combine_eq_ok_iff {combinator : Combinator} {op : String} :
    (combine s combinator op value).result = .ok t ↔
      ∃ fs, value.fragments? = some fs ∧ t = s.openFrame ⟨combinator, []⟩ (fs.map .fragment) := by
  unfold combine
  constructor
  · intro h
    split at h
    · next fs hfs =>
      cases h
      exact ⟨fs, hfs, rfl⟩
    · exact absurd h (refuse_result_ne_ok _ _ _ _ _)
  · rintro ⟨fs, hfs, rfl⟩
    rw [hfs]
    rfl

theorem combineNone_eq_ok_iff :
    (combineNone s value).result = .ok t ↔
      value.fragments?.isSome ∧ t = s.openFrame ⟨.not, []⟩ [.fragment (.anyOf value)] := by
  unfold combineNone
  constructor
  · intro h
    split at h
    · next fs hfs =>
      cases h
      exact ⟨by rw [hfs]; rfl, rfl⟩
    · exact absurd h (refuse_result_ne_ok _ _ _ _ _)
  · rintro ⟨hfs, rfl⟩
    obtain ⟨fs, hfs⟩ := Option.isSome_iff_exists.mp hfs
    rw [hfs]
    rfl

theorem negate_eq_ok_iff :
    (negate s value).result = .ok t ↔
      ∃ f, value.mapping? = some f ∧ t = s.openFrame ⟨.not, []⟩ [.fragment f] := by
  unfold negate
  constructor
  · intro h
    split at h
    · next f hf =>
      cases h
      exact ⟨f, hf, rfl⟩
    · exact absurd h (refuse_result_ne_ok _ _ _ _ _)
  · rintro ⟨f, hf, rfl⟩
    rw [hf]
    rfl

theorem matchElement_eq_ok_iff :
    (matchElement setup s value).result = .ok t ↔
      ∃ f relation conditions, s.hasOpenField = true ∧ value.mapping? = some f ∧
        (openField? setup s).result = .ok (some (.relation relation)) ∧
        (setup.policies.conditionsFor s.openKey.internal.strip).result = .ok conditions ∧
        t = s.openScope.openFrame
          ⟨.related relation s.openKey.internal.strip, conditions.reverse⟩ [.fragment f] := by
  unfold matchElement
  dsimp only
  constructor
  · intro h
    split at h
    · next f hopen hf =>
      obtain ⟨target, htarget, h⟩ := bind_result_eq_ok_iff.mp h
      split at h
      · obtain ⟨conditions, hconditions, h⟩ := bind_result_eq_ok_iff.mp h
        obtain ⟨_, _, h⟩ := bind_result_eq_ok_iff.mp h
        cases h
        exact ⟨f, _, conditions, hopen, hf, htarget, hconditions, rfl⟩
      · exact absurd h (refuse_result_ne_ok _ _ _ _ _)
    · exact absurd h (refuse_result_ne_ok _ _ _ _ _)
  · rintro ⟨f, relation, conditions, hopen, hf, htarget, hconditions, rfl⟩
    rw [hopen, hf]
    refine bind_result_eq_ok_iff.mpr ⟨_, htarget, ?_⟩
    exact bind_result_eq_ok_iff.mpr ⟨conditions, hconditions, rfl⟩

theorem operate_eq_ok_iff {token : String} :
    (operate setup s token value).result = .ok t ↔
      ∃ op target p, FieldOperator.ofToken? token = some op ∧
        (openField? setup s).result = .ok (some target) ∧
        target.evaluate token value s.openKey.external s.openKey.internal.strip = .ok p ∧
        s.gather p = .ok t := by
  unfold operate
  dsimp only
  constructor
  · intro h
    split at h
    · exact absurd h (refuse_result_ne_ok _ _ _ _ _)
    · next op htoken =>
      obtain ⟨target, htarget, h⟩ := bind_result_eq_ok_iff.mp h
      split at h
      · obtain ⟨p, hp, h⟩ := bind_result_eq_ok_iff.mp h
        exact ⟨op, _, p, htoken, htarget, hp, h⟩
      · exact absurd h (refuse_result_ne_ok _ _ _ _ _)
  · rintro ⟨op, target, p, htoken, htarget, hp, h⟩
    rw [htoken]
    refine bind_result_eq_ok_iff.mpr ⟨_, htarget, ?_⟩
    exact bind_result_eq_ok_iff.mpr ⟨p, hp, h⟩

theorem readEntry_eq_ok_iff {key : String} :
    (readEntry setup s key value).result = .ok t ↔
      Performed setup s (.fragment [(key, value)]) t := by
  unfold readEntry
  constructor
  · intro h
    cases hkey : DocumentKey.ofText key with
    | all =>
      rw [hkey] at h
      obtain ⟨fs, hfs, rfl⟩ := combine_eq_ok_iff.mp h
      exact .all hkey hfs
    | any =>
      rw [hkey] at h
      obtain ⟨fs, hfs, rfl⟩ := combine_eq_ok_iff.mp h
      exact .any hkey hfs
    | none =>
      rw [hkey] at h
      obtain ⟨hfs, rfl⟩ := combineNone_eq_ok_iff.mp h
      exact .none hkey hfs
    | not =>
      rw [hkey] at h
      obtain ⟨f, hf, rfl⟩ := negate_eq_ok_iff.mp h
      exact .not hkey hf
    | elemMatch =>
      rw [hkey] at h
      obtain ⟨f, relation, conditions, hopen, hf, htarget, hconditions, rfl⟩ :=
        matchElement_eq_ok_iff.mp h
      exact .elemMatch hkey hopen hf htarget hconditions
    | operator token =>
      rw [hkey] at h
      cases DocumentKey.eq_of_ofText_operator hkey
      obtain ⟨op, target, p, htoken, htarget, hp, hgather⟩ := operate_eq_ok_iff.mp h
      exact .operator hkey htoken htarget hp hgather
    | field text =>
      rw [hkey] at h
      cases DocumentKey.eq_of_ofText_field hkey
      obtain ⟨inner, steps, hpasses, henter⟩ := descend_eq_ok_iff.mp h
      exact .field hkey hpasses (enter_eq_ok_iff.mp henter)
  · intro h
    cases h with
    | entries hlength => simp at hlength
    | all hkey hfs =>
      rw [hkey]
      exact combine_eq_ok_iff.mpr ⟨_, hfs, rfl⟩
    | any hkey hfs =>
      rw [hkey]
      exact combine_eq_ok_iff.mpr ⟨_, hfs, rfl⟩
    | none hkey hfs =>
      rw [hkey]
      exact combineNone_eq_ok_iff.mpr ⟨hfs, rfl⟩
    | not hkey hf =>
      rw [hkey]
      exact negate_eq_ok_iff.mpr ⟨_, hf, rfl⟩
    | elemMatch hkey hopen hf htarget hconditions =>
      rw [hkey]
      exact matchElement_eq_ok_iff.mpr ⟨_, _, _, hopen, hf, htarget, hconditions, rfl⟩
    | operator hkey htoken htarget hp hgather =>
      rw [hkey]
      exact operate_eq_ok_iff.mpr ⟨_, _, _, htoken, htarget, hp, hgather⟩
    | field hkey hpasses hentered =>
      rw [hkey]
      exact descend_eq_ok_iff.mpr ⟨_, _, hpasses, enter_eq_ok_iff.mpr hentered⟩

/-- Carrying a task out comes to these states and no others. -/
theorem perform_eq_ok_iff {task : Task} :
    (perform setup s task).result = .ok t ↔ Performed setup s task t := by
  have hinside (f : Fragment) : (f.map fun e => Task.fragment [e]) =
      (f.map ([·])).map .fragment := by simp
  cases task with
  | closePath =>
    constructor
    · rintro ⟨⟩
      exact .closePath
    · rintro ⟨⟩
      rfl
  | closeScope =>
    constructor
    · rintro ⟨⟩
      exact .closeScope
    · rintro ⟨⟩
      rfl
  | closeFrame =>
    constructor
    · exact .closeFrame
    · rintro ⟨⟩
      assumption
  | fragment f =>
    rcases f with _ | ⟨⟨key, value⟩, _ | ⟨d, rest⟩⟩
    · constructor
      · rintro ⟨⟩
        exact .nothing
      · intro h
        cases h with
        | nothing => rfl
        | entries hlength => cases hlength
    · exact readEntry_eq_ok_iff
    · constructor
      · rintro ⟨⟩
        rw [hinside]
        exact .entries (Nat.le_add_left 2 _)
      · intro h
        cases h
        rw [← hinside]
        rfl

theorem step_eq_ok_iff {task : Task} {rest : List Task} :
    (step setup s task rest).result = .ok t ↔
      withinLimit setup s = .ok () ∧ Performed setup { s with work := rest } task t := by
  rw [← perform_eq_ok_iff]
  unfold step
  rw [bind_result_eq_ok_iff]
  exact ⟨fun ⟨_, hlimit, h⟩ => ⟨hlimit, h⟩, fun ⟨hlimit, h⟩ => ⟨(), hlimit, h⟩⟩

end RowFilter.Traversal
