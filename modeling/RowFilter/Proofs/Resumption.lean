import RowFilter.Proofs.Scopes
import RowFilter.Proofs.Translation

/-!
# Keys that are taken up again

A key through several relations is split: it is opened up to a relation, and what is left of it
comes up again as a key of its own in the scope there. Its checks are made again as well, but
nothing new can come of them. The translator is asked about the same whole path, of its answer
just the segments that are left count, and they go behind those that are open already. So it is
the same path inside that is granted and resolved, to the same steps.

A key that is refused for its path, its translation, its permission or an unknown field has
therefore never been split before, and no scope was opened for it.
-/

namespace RowFilter

/-- The reasons for which the checks of a field key refuse it. -/
def Cause.isOfKey : Cause → Bool
  | .malformedPath _ | .untranslated _ | .forbidden | .unknownField _ _ => true
  | _ => false

namespace Traversal
open TraversalState Traced

variable {setup : Setup} {s t u : TraversalState} {key rest inner : Path} {value : Value}
  {steps : List Step}

/-- The next step of a traversal. Where nothing is pending it stays where it is. -/
def next (setup : Setup) (s : TraversalState) : Traced TraversalState :=
  match s.work with
  | [] => return s
  | task :: rest => step setup s task rest

/-! ## The checks of a key -/

/-- The questions that the checks of a key ask: what its whole path is called inside, and whether
that may be used. -/
def keyQuestions (setup : Setup) (outer inner : Path) : List Event :=
  (setup.policies.translate outer).events ++
    (setup.policies.isWhitelisted setup.schema setup.root inner.strip).events

/-- Which tasks are pending does not matter for the checks of a key. -/
theorem Passes.withWork (h : Passes setup s key inner steps) (work : List Task) :
    Passes setup { s with work := work } key inner steps :=
  ⟨h.ne_nil, h.plain, h.safe, h.translated, h.granted, h.closed, h.resolved⟩

/-- A key that passes its checks asks its questions and is entered. -/
theorem Passes.descend_eq {text : String} (h : Passes setup s (.ofText text) inner steps)
    (value : Value) :
    descend setup s text value =
      ⟨keyQuestions setup (outerPath s (.ofText text)) (s.openKey.internal ++ inner),
        (enter s ⟨.ofText text, inner⟩ value (crossings steps)).result⟩ := by
  obtain ⟨answer, htranslated, hle, hinner⟩ := h.translated
  have hcheck := (Path.check_eq_ok_iff (.ofText text)
    (s.openKey.external ++ .ofText text)).mpr h.safe
  have hkey : innerKey setup (.ofText text) (s.openKey.external ++ .ofText text) value =
      ⟨(setup.policies.translate (s.openKey.external ++ .ofText text)).events, .ok inner⟩ := by
    unfold innerKey
    rw [bind_eq, bind_of_ok _ htranslated]
    dsimp only
    rw [if_pos (length_lastSegments hle), hinner]
    simp [pure_eq, Traced.pure]
  have hsteps : resolve setup (s.openKey.internal ++ inner)
      (s.openKey.external ++ .ofText text) = ⟨[], .ok steps⟩ := by
    unfold resolve Schema.locate
    rw [h.resolved]
    rfl
  unfold descend
  dsimp only
  rw [hcheck, bind_eq, bind_of_ok _ (ofExcept_result _), hkey, bind_eq, bind_of_ok _ rfl, bind_eq,
    bind_of_ok _ h.granted]
  dsimp only
  rw [Bool.not_true, if_neg Bool.false_ne_true, h.closed, if_neg Bool.false_ne_true, hsteps,
    bind_eq, bind_of_ok _ rfl, enter_events]
  simp [keyQuestions, outerPath, Traced.ofExcept]

/-- Entering a key refuses it for nothing that its checks are about. -/
theorem isOfKey_of_enter {opened : OpenKey} {crossed : List Nat} {r : Refusal}
    (h : (enter s opened value crossed).result = .error (.refused r)) :
    r.cause.isOfKey = false := by
  unfold enter at h
  dsimp only at h
  split at h
  · cases h
  · split at h
    · split at h
      · cases h
        rfl
      · cases h
        rfl
      · cases h
    · cases h

/-! ## Split keys -/

/-- The next two steps open a beginning of a key, and the scope behind it with the rest of the
key. -/
structure Splits (setup : Setup) (value : Value) (s : TraversalState) (key : Path)
    (u : TraversalState) (rest : Path) : Prop where
  turns : TurnsTo s key value
  opens : ∃ t beginning, (next setup s).result = .ok t ∧ (next setup t).result = .ok u ∧
    t.paths = beginning :: s.paths ∧ key = beginning.external ++ rest
  ne_nil : rest ≠ []

/-- A key that was opened in part was opened as far as both its names go, and the rest of it
stands in a scope. -/
theorem Entered.exists_width {beginning : OpenKey} {crossed : List Nat}
    (h : Entered s ⟨key, inner⟩ value crossed t) (hsafe : ∀ segment ∈ key, Path.IsSafe segment)
    (hpaths : t.paths = beginning :: s.paths) (hkey : key = beginning.external ++ rest)
    (hrest : rest ≠ []) :
    ∃ width, width < key.length ∧ rest = key.drop width ∧
      t = s.openPath ⟨key.take width, inner.take width⟩ [.fragment (.scope rest.text value)] := by
  have hsplit {width : Nat}
      (hopened : (⟨key.take width, inner.take width⟩ : OpenKey) :: s.paths =
        beginning :: s.paths) : width < key.length ∧ rest = key.drop width := by
    have hdrop : rest = key.drop width := by
      rw [← (List.cons.inj hopened).1] at hkey
      exact List.append_cancel_left (hkey.symm.trans (List.take_append_drop width key).symm)
    refine ⟨?_, hdrop⟩
    by_contra hlong
    rw [List.drop_eq_nil_of_le (by omega)] at hdrop
    exact hrest hdrop
  cases h with
  | whole =>
    -- the key as a whole leaves nothing
    rw [← (List.cons.inj hpaths).1] at hkey
    exact absurd (List.self_eq_append_right.mp hkey) hrest
  | relation _ _ hempty =>
    -- neither does a key that stops at a relation
    obtain ⟨_, hdrop⟩ := hsplit hpaths
    rw [← hdrop] at hempty
    refine absurd hempty (Path.text_ne_empty hrest fun segment hsegment => hsafe segment ?_)
    rw [hkey]
    exact List.mem_append_right _ hsegment
  | split =>
    obtain ⟨hwidth, hdrop⟩ := hsplit hpaths
    refine ⟨_, hwidth, hdrop, ?_⟩
    rw [hdrop]

/-- What a scope around one entry opens. -/
theorem exists_scope_of_next {text : String} {work : List Task}
    (hwork : t.work = .fragment (.scope text value) :: work)
    (h : (next setup t).result = .ok u) :
    ∃ rest, u.work = .fragment [(text, value)] :: rest ∧ u.paths = t.paths ∧
      u.scopes.length = t.scopes.length + 1 := by
  unfold next at h
  rw [hwork] at h
  obtain ⟨_, _, h⟩ := bind_result_eq_ok_iff.mp h
  change (matchElement setup { t with work := work } (.ofEntries [(text, value)])).result =
    .ok u at h
  obtain ⟨f, relation, conditions, _, hf, _, _, rfl⟩ := matchElement_eq_ok_iff.mp h
  cases hf
  exact ⟨_, rfl, rfl, rfl⟩

theorem next_eq (setup : Setup) (h : TurnsTo s key value) : ∃ text work, Path.ofText text = key ∧
    next setup s =
      (ofExcept (withinLimit setup s) >>= fun _ =>
        descend setup { s with work := work } text value) := by
  obtain ⟨text, task, work, hwork, hkey, hperform⟩ := perform_of_turnsTo setup h
  refine ⟨text, work, hkey, ?_⟩
  unfold next
  rw [hwork]
  dsimp only [step]
  rw [hperform]

/-- The last segments of an answer begin with those that are passed over when fewer count. -/
theorem drop_lastSegments {n width : Nat} {answer : String} (hwidth : width ≤ n)
    (hle : n ≤ (Path.ofText answer).length) :
    (lastSegments n (some answer)).drop width = lastSegments (n - width) (some answer) := by
  unfold lastSegments
  rw [List.drop_drop]
  congr 1
  omega

/-- What is left of a split key passes the same checks: of the same path outside and inside. -/
theorem Splits.exists_passes (h : Splits setup value s key u rest) :
    TurnsTo u rest value ∧ outerPath u rest = outerPath s key ∧
      ∃ inner inner' steps, Passes setup s key inner steps ∧ Passes setup u rest inner' steps ∧
        u.openKey.internal ++ inner' = s.openKey.internal ++ inner := by
  obtain ⟨t, beginning, hfirst, hsecond, hpaths, hkey⟩ := h.opens
  obtain ⟨text, work, rfl, hnext⟩ := next_eq setup h.turns
  rw [hnext] at hfirst
  obtain ⟨_, _, hdescend⟩ := bind_result_eq_ok_iff.mp hfirst
  obtain ⟨inner, steps, hpasses, henter⟩ := descend_eq_ok_iff.mp hdescend
  have hs : Passes setup s (.ofText text) inner steps := hpasses.withWork s.work
  obtain ⟨width, hwidth, rfl, ht⟩ :=
    (enter_eq_ok_iff.mp henter).exists_width hs.safe hpaths hkey h.ne_nil
  have hsafe : ∀ segment ∈ (Path.ofText text).drop width, Path.IsSafe segment :=
    fun segment hsegment => hs.safe segment (List.mem_of_mem_drop hsegment)
  have hplain : ∀ segment ∈ (Path.ofText text).drop width, Path.IsPlain segment :=
    fun segment hsegment => hs.plain segment (List.mem_of_mem_drop hsegment)
  obtain ⟨later, hwork, hsame, hscopes⟩ := exists_scope_of_next (by rw [ht]; rfl) hsecond
  have hopened : u.openKey =
      ⟨s.openKey.external ++ (Path.ofText text).take width,
        s.openKey.internal ++ inner.take width⟩ := by
    unfold openKey
    rw [hsame, ht]
    simp [openPath, OpenKey.join]
  have houter : outerPath u ((Path.ofText text).drop width) = outerPath s (.ofText text) := by
    unfold outerPath
    rw [hopened, List.append_assoc, List.take_append_drop]
  have hinner : u.openKey.internal ++ inner.drop width = s.openKey.internal ++ inner := by
    rw [hopened, List.append_assoc, List.take_append_drop]
  refine ⟨⟨_, later, hwork, DocumentKey.ofText_of_isSafe h.ne_nil hsafe,
    Path.ofText_text h.ne_nil hplain⟩, houter, inner, inner.drop width, steps, hs, ?_, hinner⟩
  obtain ⟨answer, htranslated, hle, hcut⟩ := hs.translated
  refine ⟨h.ne_nil, hplain, hsafe, ⟨answer, ?_, ?_, ?_⟩, ?_, ?_, ?_⟩
  · rw [← outerPath, houter]
    exact htranslated
  · rw [List.length_drop]
    omega
  · rw [hcut, List.length_drop, drop_lastSegments (Nat.le_of_lt hwidth) hle]
  · rw [hinner]
    exact hs.granted
  · have hclosed := hs.closed
    unfold hasOpenField at hclosed ⊢
    rw [hscopes, hsame, ht]
    simpa [openPath] using hclosed
  · rw [hinner]
    exact hs.resolved

/-- A key that crosses a relation before its last segment is split there. -/
theorem Passes.exists_splits (h : Passes setup s key inner steps) (hturns : TurnsTo s key value)
    (hfirst : (next setup s).result = .ok t) (hsecond : (next setup t).result = .ok u) {n : Nat}
    (hn : n ∈ crossings steps) (hopen : s.openKey.internal.length ≤ n)
    (hlast : n + 1 < s.openKey.internal.length + key.length) :
    ∃ rest, Splits setup value s key u rest := by
  have hstep := hfirst
  obtain ⟨text, work, rfl, hnext⟩ := next_eq setup hturns
  rw [hnext] at hstep
  obtain ⟨_, _, hdescend⟩ := bind_result_eq_ok_iff.mp hstep
  rw [(h.withWork work).descend_eq] at hdescend
  have henter : (enter { s with work := work } ⟨.ofText text, inner⟩ value
      (crossings steps)).result = .ok t := hdescend
  obtain ⟨found, hfound⟩ : ∃ found,
      (crossings steps).find? (s.openKey.internal.length ≤ ·) = some found := by
    rw [← Option.isSome_iff_exists, List.find?_isSome]
    exact ⟨n, hn, by simpa using hopen⟩
  have hle := le_of_find?_crossings hfound hn hopen
  have hrest : (Path.ofText text).drop (found - s.openKey.internal.length + 1) ≠ [] := by
    rw [← List.length_pos_iff, List.length_drop]
    omega
  have htext : Path.text ((Path.ofText text).drop (found - s.openKey.internal.length + 1)) ≠ "" :=
    Path.text_ne_empty hrest fun segment hs => h.safe segment (List.mem_of_mem_drop hs)
  have ht : t.paths = ⟨(Path.ofText text).take (found - s.openKey.internal.length + 1),
      inner.take (found - s.openKey.internal.length + 1)⟩ :: s.paths := by
    cases enter_eq_ok_iff.mp henter with
    | whole hfind => cases hfound.symm.trans hfind
    | relation hfind hwidth hempty =>
      cases hfound.symm.trans hfind
      rw [hwidth] at hempty
      exact absurd hempty htext
    | split hfind hwidth =>
      cases hfound.symm.trans hfind
      rw [hwidth]
      rfl
  exact ⟨_, hturns, ⟨t, _, hfirst, hsecond, ht, (List.take_append_drop _ _).symm⟩, hrest⟩

/-! ## Keys split any number of times -/

/-- A key comes up again at a later state: what is left of it after it was split, once or more. -/
inductive Resumes (setup : Setup) (value : Value) :
    TraversalState → Path → TraversalState → Path → Prop
  | once {s u : TraversalState} {key rest : Path} :
      Splits setup value s key u rest → Resumes setup value s key u rest
  | again {s t u : TraversalState} {key middle rest : Path} :
      Resumes setup value s key t middle → Splits setup value t middle u rest →
      Resumes setup value s key u rest

/-- The checks of a key and of what is left of it at a later state are the same. Both pass, with
one path outside, one path inside, the same steps, and the same questions. -/
structure ChecksAgain (setup : Setup) (value : Value) (s : TraversalState) (key : Path)
    (u : TraversalState) (rest : Path) : Prop where
  turns : TurnsTo s key value
  turns_again : TurnsTo u rest value
  outer : outerPath u rest = outerPath s key
  passes : ∃ inner inner' steps, Passes setup s key inner steps ∧ Passes setup u rest inner' steps ∧
    u.openKey.internal ++ inner' = s.openKey.internal ++ inner

/-- A key has one inner name, and its path inside takes one way. -/
theorem Passes.unique {inner' : Path} {steps' : List Step} (h : Passes setup s key inner steps)
    (h' : Passes setup s key inner' steps') : inner' = inner ∧ steps' = steps := by
  obtain ⟨answer, hanswer, _, rfl⟩ := h.translated
  obtain ⟨answer', hanswer', _, rfl⟩ := h'.translated
  rw [hanswer] at hanswer'
  cases hanswer'
  have hsteps := h'.resolved
  rw [h.resolved] at hsteps
  exact ⟨rfl, (Except.ok.inj hsteps).symm⟩

theorem Splits.checksAgain (h : Splits setup value s key u rest) :
    ChecksAgain setup value s key u rest := by
  obtain ⟨hturns, houter, hpasses⟩ := h.exists_passes
  exact ⟨h.turns, hturns, houter, hpasses⟩

theorem Resumes.checksAgain (h : Resumes setup value s key u rest) :
    ChecksAgain setup value s key u rest := by
  induction h with
  | once hsplit => exact hsplit.checksAgain
  | again _ hsplit ih =>
    have hlast := hsplit.checksAgain
    obtain ⟨inner, middle, steps, hs, ht, hinner⟩ := ih.passes
    obtain ⟨middle', inner', steps', ht', hu, hinner'⟩ := hlast.passes
    obtain ⟨rfl, rfl⟩ := ht.unique ht'
    exact ⟨ih.turns, hlast.turns_again, hlast.outer.trans ih.outer,
      inner, inner', steps', hs, hu, hinner'.trans hinner⟩

theorem Resumes.withinLimit (h : Resumes setup value s key u rest) :
    Traversal.withinLimit setup s = .ok () := by
  induction h with
  | once hsplit =>
    obtain ⟨_, _, hfirst, _⟩ := hsplit.opens
    obtain ⟨_, _, _, hnext⟩ := next_eq setup hsplit.turns
    rw [hnext] at hfirst
    obtain ⟨_, hlimit, _⟩ := bind_result_eq_ok_iff.mp hfirst
    exact hlimit
  | again _ _ ih => exact ih

/-- Within the limit, the step at a key that passes its checks asks just the questions of the
checks. -/
theorem Passes.events_next (h : Passes setup s key inner steps) (hturns : TurnsTo s key value)
    (hlimit : withinLimit setup s = .ok ()) :
    (next setup s).events =
      keyQuestions setup (outerPath s key) (s.openKey.internal ++ inner) := by
  obtain ⟨text, work, rfl, hnext⟩ := next_eq setup hturns
  have hlimit : (Traced.ofExcept (withinLimit setup s)).result = .ok () := hlimit
  rw [hnext, bind_eq, bind_of_ok _ hlimit, (h.withWork work).descend_eq]
  rfl

/-- A key that passes its checks is refused for nothing that they are about. -/
theorem Passes.isOfKey_eq_false {r : Refusal} (h : Passes setup s key inner steps)
    (hturns : TurnsTo s key value) (hrefused : (next setup s).result = .error (.refused r)) :
    r.cause.isOfKey = false := by
  obtain ⟨text, work, rfl, hnext⟩ := next_eq setup hturns
  rw [hnext] at hrefused
  rcases bind_result_eq_error_iff.mp hrefused with hlimit | ⟨_, _, hdescend⟩
  · have hlimit : withinLimit setup s = .error (.refused r) := hlimit
    unfold withinLimit at hlimit
    split at hlimit
    · split at hlimit <;> cases hlimit
    · cases hlimit
  · rw [(h.withWork work).descend_eq] at hdescend
    exact isOfKey_of_enter hdescend

/-- Nothing in the step at a key has to do with scopes. -/
theorem quiet_next (setup : Setup) (hturns : TurnsTo s key value) : (next setup s).Quiet := by
  have henter (s : TraversalState) (opened : OpenKey) (crossed : List Nat) :
      (enter s opened value crossed).Quiet := by
    rw [Quiet, scopeEvents, enter_events]
    rfl
  obtain ⟨text, work, rfl, hnext⟩ := next_eq setup hturns
  rw [hnext]
  refine quiet_bind quiet_ofExcept fun _ => quiet_bind quiet_ofExcept fun _ => ?_
  refine quiet_bind (Outline.quiet_innerKey setup _ _ value) fun inner => ?_
  refine quiet_bind (setup.policies.quiet_isWhitelisted _ _ _) fun allowed => ?_
  split
  · rfl
  · split
    · rfl
    · exact quiet_bind quiet_ofExcept fun steps => henter _ _ _

/-- A step that fails is the end of the run. -/
theorem Reachable.run_of_next {document : Fragment} {fault : Fault}
    (h : Reachable setup document s) (hfails : (next setup s).result = .error fault) :
    (run setup document).result = .error fault := by
  unfold next at hfails
  split at hfails
  · cases hfails
  · next hwork => exact h.run_of_error hwork hfails

end Traversal

section Compiled
open Traversal

variable {schema : Schema} {root : String} {document : Value} {options : OptionsArgument}
  {policies : Policies} {fragment : Fragment}

/-- A key that crosses a relation before its last segment is split. Its step asks what the whole
path is called inside and whether that may be used, and nothing else. Each time that the rest of
the key comes up again, the translator is asked about the same path, the path inside is the same,
the whitelist is asked about it once more, it resolves to the same steps, and the checks pass. A
key that is refused for its path, its translation, its permission or an unknown field is not what
was left of any other, and its own step neither opens a scope nor asks for conditions. -/
theorem resumed_keys_pass_again (hpolicies : Policies.resolve options = .ok policies)
    (hfragment : document.mapping? = some fragment) :
    (∀ value s t u key inner steps, TurnsTo s key value →
      Passes ⟨schema, root, policies⟩ s key inner steps →
      (next ⟨schema, root, policies⟩ s).result = .ok t →
      (next ⟨schema, root, policies⟩ t).result = .ok u →
      (∃ n ∈ crossings steps, s.openKey.internal.length ≤ n ∧
        n + 1 < s.openKey.internal.length + key.length) →
      ∃ rest, Splits ⟨schema, root, policies⟩ value s key u rest) ∧
    (∀ value s key u rest, Resumes ⟨schema, root, policies⟩ value s key u rest →
      ChecksAgain ⟨schema, root, policies⟩ value s key u rest ∧
        (∃ inner steps, Passes ⟨schema, root, policies⟩ s key inner steps ∧
          (next ⟨schema, root, policies⟩ s).events =
            keyQuestions ⟨schema, root, policies⟩ (outerPath s key)
              (s.openKey.internal ++ inner)) ∧
        (withinLimit ⟨schema, root, policies⟩ u = .ok () →
          (next ⟨schema, root, policies⟩ u).events =
            (next ⟨schema, root, policies⟩ s).events)) ∧
    ∀ s key value r, Reachable ⟨schema, root, policies⟩ fragment s → TurnsTo s key value →
      (next ⟨schema, root, policies⟩ s).result = .error (.refused r) → r.cause.isOfKey = true →
      (compile schema root document options).result =
          .error (.of policies.formatter (.refused r)) ∧
        (∀ t whole, ¬ Resumes ⟨schema, root, policies⟩ value t whole s key) ∧
        (next ⟨schema, root, policies⟩ s).events.filter Event.isOfScope = [] := by
  refine ⟨?_, ?_, ?_⟩
  · intro value s t u key inner steps hturns hpasses hfirst hsecond hcrosses
    obtain ⟨n, hn, hopen, hlast⟩ := hcrosses
    exact hpasses.exists_splits hturns hfirst hsecond hn hopen hlast
  · intro value s key u rest hresumes
    have hchecks := hresumes.checksAgain
    obtain ⟨inner, inner', steps, hs, hu, hinner⟩ := hchecks.passes
    have hquestions := hs.events_next hchecks.turns hresumes.withinLimit
    refine ⟨hchecks, ⟨inner, steps, hs, hquestions⟩, ?_⟩
    intro hlimit
    rw [hu.events_next hchecks.turns_again hlimit, hchecks.outer, hinner, hquestions]
  · intro s key value r hs hturns hrefused hcause
    refine ⟨?_, ?_, quiet_next _ hturns⟩
    · rw [compile_of_resolve hpolicies]
      have hcompile := Setup.compile_of_run_error hfragment (hs.run_of_next hrefused)
      show (Setup.compile _ document).result.mapError _ = _
      rw [hcompile]
      rfl
    · intro t whole hresumes
      obtain ⟨_, _, _, _, hpasses, _⟩ := hresumes.checksAgain.passes
      rw [hpasses.isOfKey_eq_false hturns hrefused] at hcause
      cases hcause

end Compiled

namespace Sample

/-- A translator that knows one path, and none of its beginnings. -/
def nickname (path : String) : Except String Value :=
  .ok (.text (if path = "songs.0.lists.label" then "tracks.0.playlists.name" else path))

/-- A whitelist that grants what the path stands for, and nothing on the way there. -/
def grantsName (path : String) : Except String Value :=
  .ok (.bool (path = "tracks.playlists.name"))

def nicknameOptions : Options := .ofEntries
  [("keyTranslator", .pathFunction nickname), ("whitelist", .pathFunction grantsName)]

def nicknameSetup : Setup := ⟨catalog.schema, "Album", .ofOptions nicknameOptions⟩

def nicknameFragment : Fragment := [("songs.0.lists.label", .text "x")]

open Traversal in
/-- The key is split at both relations, and its last segment comes up alone. -/
theorem exists_resumes_nickname : ∃ u, Resumes nicknameSetup (.text "x") (.start nicknameFragment)
    ["songs", "0", "lists", "label"] u ["label"] := by
  have hfirst : ∃ u, Splits nicknameSetup (.text "x") (.start nicknameFragment)
      ["songs", "0", "lists", "label"] u ["0", "lists", "label"] ∧
      ∃ u', Splits nicknameSetup (.text "x") u ["0", "lists", "label"] u' ["label"] := by
    refine ⟨_, ⟨⟨_, _, rfl, rfl, rfl⟩, ⟨_, ⟨["songs"], ["tracks"]⟩, rfl, rfl, rfl, rfl⟩, ?_⟩, _,
      ⟨⟨_, _, rfl, rfl, rfl⟩, ⟨_, ⟨["0", "lists"], ["0", "playlists"]⟩, rfl, rfl, rfl, rfl⟩, ?_⟩⟩
    · simp
    · simp
  obtain ⟨_, hfirst, u, hsecond⟩ := hfirst
  exact ⟨u, .again (.once hfirst) hsecond⟩

/-- What the translator and the whitelist are asked about the key, each time that it comes up. -/
def nicknameQuestions : List Event :=
  [.asked .keyTranslator ["songs", "0", "lists", "label"],
    .asked .whitelist ["tracks", "playlists", "name"]]

open Traversal in
theorem resumed_keys_pass_again_nickname :
    Policies.resolve (.settings nicknameOptions) = .ok (.ofOptions nicknameOptions) ∧
      (Value.ofEntries nicknameFragment).mapping? = some nicknameFragment ∧
      ∃ u, Resumes nicknameSetup (.text "x") (.start nicknameFragment)
          ["songs", "0", "lists", "label"] u ["label"] ∧
        ChecksAgain nicknameSetup (.text "x") (.start nicknameFragment)
          ["songs", "0", "lists", "label"] u ["label"] ∧
        (next nicknameSetup (.start nicknameFragment)).events = nicknameQuestions ∧
        (next nicknameSetup u).events = nicknameQuestions := by
  have hpolicies : Policies.resolve (.settings nicknameOptions) =
      .ok (.ofOptions nicknameOptions) := rfl
  have hfragment : (Value.ofEntries nicknameFragment).mapping? = some nicknameFragment := rfl
  have hquestions : (next nicknameSetup (.start nicknameFragment)).events = nicknameQuestions := rfl
  obtain ⟨u, hresumes⟩ := exists_resumes_nickname
  obtain ⟨hchecks, _, hagain⟩ :=
    (resumed_keys_pass_again hpolicies hfragment).2.1 _ _ _ _ _ hresumes
  have hlater : (next nicknameSetup u).events =
      (next nicknameSetup (.start nicknameFragment)).events := hagain rfl
  exact ⟨hpolicies, hfragment, u, hresumes, hchecks, hquestions, hlater.trans hquestions⟩

end Sample
end RowFilter
