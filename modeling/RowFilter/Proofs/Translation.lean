import RowFilter.Proofs.Access
import RowFilter.Proofs.OpenKeys

/-!
# Translated keys

Which field a key stands for under a translator. The translator is asked about the whole path of
a key, as the document writes it. Of its answer only as many segments count as the key itself
has, from the end; they go behind what the open keys are called already. So an answer with too
few segments is refused, but one with more than the path is cut, and its beginning is never
compared with what the open keys are called.

A key stands for the very path that was answered if and only if the answer has as many segments
as the path and begins with what the open keys are called. A translator that keeps the number of
segments, and calls the beginning that two paths share by one name, is always taken at its word.
-/

namespace RowFilter

namespace Traversal
open TraversalState Traced

variable {setup : Setup} {s t : TraversalState} {document : Fragment}
  {f : String → Except String Value}

/-- The next task is to read a field key with its value. -/
def TurnsTo (s : TraversalState) (key : Path) (value : Value) : Prop :=
  ∃ text rest, s.work = .fragment [(text, value)] :: rest ∧
    DocumentKey.ofText text = .field text ∧ Path.ofText text = key

/-- The whole path of a key, as the document writes it. -/
def outerPath (s : TraversalState) (key : Path) : Path := s.openKey.external ++ key

/-- What the whole path of a key is called inside, after an answer. -/
def innerPath (s : TraversalState) (key : Path) (answer : String) : Path :=
  s.openKey.internal ++ lastSegments key.length (some answer)

/-! ## Open keys keep their length -/

theorem length_join {keys : List OpenKey}
    (h : ∀ key ∈ keys, key.internal.length = key.external.length) :
    (OpenKey.join keys).internal.length = (OpenKey.join keys).external.length := by
  induction keys with
  | nil => rfl
  | cons key keys ih =>
    obtain ⟨hkey, hkeys⟩ := List.forall_mem_cons.mp h
    simp only [OpenKey.join, List.flatMap_cons, List.length_append] at ih ⊢
    rw [hkey, ih hkeys]

theorem PathsAfter.length_eq {keys : List OpenKey} (h : PathsAfter setup s keys)
    (hs : ∀ key ∈ s.paths, key.internal.length = key.external.length) :
    ∀ key ∈ keys, key.internal.length = key.external.length := by
  cases h with
  | same => exact hs
  | closed => exact fun key hkey => hs key (List.mem_of_mem_tail hkey)
  | opened width hpasses =>
    refine List.forall_mem_cons.mpr ⟨?_, hs⟩
    rw [List.length_take, List.length_take, hpasses.length_eq]

/-- What follows of the open keys after every task holds of the open keys of every state. -/
theorem Reachable.paths_induction {motive : List OpenKey → Prop} (nil : motive [])
    (after : ∀ s keys, motive s.paths → PathsAfter setup s keys → motive keys)
    (h : Reachable setup document s) : motive s.paths := by
  induction h with
  | start => exact nil
  | @step s t task rest _ _ hstep ih =>
    exact after { s with work := rest } _ ih (step_eq_ok_iff.mp hstep).2.pathsAfter

theorem Reachable.length_openKey (h : Reachable setup document s) :
    s.openKey.internal.length = s.openKey.external.length := by
  have hpaths : ∀ key ∈ s.paths, key.internal.length = key.external.length :=
    h.paths_induction (fun _ hkey => nomatch hkey) fun _ _ hs hafter => hafter.length_eq hs
  exact length_join fun key hkey => hpaths key (List.mem_reverse.mp hkey)

/-! ## The path of a key -/

/-- A key stands for the path that was answered, if the answer has as many segments as the path
and begins with what the open keys are called. -/
theorem innerPath_eq_iff {key : Path} {answer : String}
    (hlength : s.openKey.internal.length = s.openKey.external.length)
    (hle : key.length ≤ (Path.ofText answer).length) :
    innerPath s key answer = Path.ofText answer ↔
      (Path.ofText answer).length = (outerPath s key).length ∧
        s.openKey.internal <+: Path.ofText answer := by
  rw [outerPath, List.length_append, ← hlength]
  constructor
  · intro heq
    have hlengths := congrArg List.length heq
    rw [innerPath, List.length_append, length_lastSegments hle] at hlengths
    refine ⟨hlengths.symm, ?_⟩
    rw [← heq]
    exact List.prefix_append _ _
  · rintro ⟨hsame, rest, hrest⟩
    have hdepth : (Path.ofText answer).length - key.length = s.openKey.internal.length := by omega
    rw [innerPath, lastSegments, hdepth, ← hrest, List.drop_left]

/-- The path that a key stands for after an answer: it was granted, it resolves, and it has as
many segments as the path in the document. -/
structure StandsFor (setup : Setup) (s : TraversalState) (key : Path) (answer : String) :
    Prop where
  enough : key.length ≤ (Path.ofText answer).length
  length : (innerPath s key answer).length = (outerPath s key).length
  granted : setup.policies.Grants setup.schema setup.root (innerPath s key answer).strip
  resolved : ∃ steps, setup.schema.resolve setup.root (innerPath s key answer) = .ok steps

theorem perform_of_turnsTo (setup : Setup) {key : Path} {value : Value} (h : TurnsTo s key value) :
    ∃ text task rest, s.work = task :: rest ∧ Path.ofText text = key ∧
      perform setup { s with work := rest } task =
        descend setup { s with work := rest } text value := by
  obtain ⟨text, rest, hwork, hkey, rfl⟩ := h
  refine ⟨text, _, rest, hwork, rfl, ?_⟩
  show readEntry setup _ text value = _
  rw [readEntry, hkey]

theorem Reachable.exists_passes {p : Predicate} {key : Path} {value : Value}
    (h : Reachable setup document s) (hrun : (run setup document).result = .ok p)
    (hkey : TurnsTo s key value) :
    ∃ rest inner steps, Passes setup { s with work := rest } key inner steps := by
  obtain ⟨text, task, rest, hwork, rfl, hperform⟩ := perform_of_turnsTo setup hkey
  obtain ⟨t, hstep⟩ := h.exists_step hrun hwork
  obtain ⟨_, _, hdescend⟩ := bind_result_eq_ok_iff.mp hstep
  rw [hperform] at hdescend
  obtain ⟨inner, steps, hpasses, _⟩ := descend_eq_ok_iff.mp hdescend
  exact ⟨rest, inner, steps, hpasses⟩

theorem Reachable.exists_standsFor {p : Predicate} {key : Path} {value : Value}
    (h : Reachable setup document s) (hrun : (run setup document).result = .ok p)
    (htranslator : setup.policies.translator = some f) (hkey : TurnsTo s key value) :
    ∃ answer, f (outerPath s key).text = .ok (.text answer) ∧ StandsFor setup s key answer := by
  obtain ⟨rest, inner, steps, hpasses⟩ := h.exists_passes hrun hkey
  obtain ⟨answer, htranslated, hle, rfl⟩ := hpasses.translated
  obtain ⟨v, hv, htext⟩ := (Policies.translate_eq_ok_iff htranslator).mp htranslated
  have hlength : (innerPath s key answer).length = (outerPath s key).length := by
    rw [innerPath, outerPath, List.length_append, List.length_append, h.length_openKey,
      length_lastSegments hle]
  rw [Value.eq_text_of_text? htext] at hv
  exact ⟨answer, hv, hle, hlength, Policies.grants_of_isWhitelisted hpasses.granted, steps,
    hpasses.resolved⟩

/-- An answer that is no text with enough segments ends the traversal. -/
theorem Reachable.fault_of_short {key : Path} {value answer : Value}
    (h : Reachable setup document s) (htranslator : setup.policies.translator = some f)
    (hkey : TurnsTo s key value) (hwithin : withinLimit setup s = .ok ())
    (hsafe : ∀ segment ∈ key, Path.IsSafe segment)
    (hanswer : f (outerPath s key).text = .ok answer)
    (hshort : ∀ text, answer.text? = some text → (Path.ofText text).length < key.length) :
    (run setup document).result =
      .error (.refused ⟨.untranslated answer.text?, outerPath s key, value, none⟩) := by
  obtain ⟨text, task, rest, hwork, rfl, hperform⟩ := perform_of_turnsTo setup hkey
  have htranslated : (setup.policies.translate (outerPath s (.ofText text))).result =
      .ok answer.text? := (Policies.translate_eq_ok_iff htranslator).mpr ⟨answer, hanswer, rfl⟩
  have hrefused := innerKey_eq_error value htranslated (Path.ofText_ne_nil text) hshort
  refine h.run_of_error hwork (bind_result_eq_error_iff.mpr (.inr ⟨(), hwithin, ?_⟩))
  rw [hperform]
  refine bind_result_eq_error_iff.mpr (.inr ⟨(), (Path.check_eq_ok_iff _ _).mpr hsafe, ?_⟩)
  exact bind_result_eq_error_iff.mpr (.inl hrefused)

/-! ## Questions to the translator -/

/-- Asks the translator about no paths but these. -/
def Asks {α : Type} (paths : Path → Prop) (x : Traced α) : Prop :=
  ∀ path, .asked .keyTranslator path ∈ x.events → paths path

section Questions

variable {α β : Type} {paths : Path → Prop}

theorem asks_pure (a : α) : Asks paths (pure a) := fun _ h => nomatch h

theorem asks_refuse {cause : Cause} {dataKey : Path} {filter : Value} {op : Option String} :
    Asks paths (refuse cause dataKey filter op : Traced α) := fun _ h => nomatch h

theorem asks_ofExcept (r : Except Fault α) : Asks paths (ofExcept r) := fun _ h => nomatch h

theorem asks_bind {x : Traced α} {k : α → Traced β} (hx : Asks paths x)
    (h : ∀ a, x.result = .ok a → Asks paths (k a)) : Asks paths (x >>= k) := by
  intro path hpath
  obtain hpath | ⟨a, ha, hpath⟩ := mem_events_of_mem_bind hpath
  · exact hx path hpath
  · exact h a ha path hpath

theorem asks_isWhitelisted (path : Path) :
    Asks paths (setup.policies.isWhitelisted setup.schema setup.root path) := by
  unfold Policies.isWhitelisted
  split
  · exact asks_pure _
  · exact asks_pure _
  · refine asks_bind ?_ fun _ _ => asks_pure _
    exact fun _ h => nomatch List.mem_singleton.mp h

theorem asks_conditionsFor (path : Path) : Asks paths (setup.policies.conditionsFor path) := by
  unfold Policies.conditionsFor
  split
  · exact asks_pure _
  · split
    · exact asks_ofExcept _
    · exact asks_pure _
  · refine asks_bind ?_ fun _ _ => asks_ofExcept _
    exact fun _ h => nomatch List.mem_singleton.mp h

theorem asks_translate {path : Path} (hpath : paths path) :
    Asks paths (setup.policies.translate path) := by
  unfold Policies.translate
  split
  · exact asks_pure _
  · refine asks_bind ?_ fun _ _ => asks_pure _
    rintro _ h
    cases List.mem_singleton.mp h
    exact hpath

theorem asks_openField? : Asks paths (openField? setup s) :=
  asks_bind (asks_ofExcept _) fun _ _ => asks_pure _

theorem asks_combine (combinator : Combinator) (op : String) (value : Value) :
    Asks paths (combine s combinator op value) := by
  unfold combine
  split
  · exact asks_pure _
  · exact asks_refuse

theorem asks_combineNone (value : Value) : Asks paths (combineNone s value) := by
  unfold combineNone
  split
  · exact asks_pure _
  · exact asks_refuse

theorem asks_negate (value : Value) : Asks paths (negate s value) := by
  unfold negate
  split
  · exact asks_pure _
  · exact asks_refuse

theorem asks_matchElement (value : Value) : Asks paths (matchElement setup s value) := by
  unfold matchElement
  dsimp only
  split
  · refine asks_bind asks_openField? fun target _ => ?_
    split
    · refine asks_bind (asks_conditionsFor _) fun conditions _ => ?_
      refine asks_bind ?_ fun _ _ => asks_pure _
      exact fun _ h => nomatch List.mem_singleton.mp h
    · exact asks_refuse
  · exact asks_refuse

theorem asks_operate (token : String) (value : Value) :
    Asks paths (operate setup s token value) := by
  unfold operate
  dsimp only
  split
  · exact asks_refuse
  · refine asks_bind asks_openField? fun target _ => ?_
    split
    · exact asks_bind (asks_ofExcept _) fun _ _ => asks_ofExcept _
    · exact asks_refuse

theorem asks_enter (key : OpenKey) (value : Value) (crossed : List Nat) :
    Asks paths (enter s key value crossed) := by
  intro path h
  rw [enter_events] at h
  cases h

/-- A key is asked about after the check that all its segments may be looked up. -/
theorem asks_descend {text : String} (value : Value)
    (hpath : (∀ segment ∈ Path.ofText text, Path.IsSafe segment) →
      paths (outerPath s (.ofText text))) :
    Asks paths (descend setup s text value) := by
  unfold descend
  refine asks_bind (asks_ofExcept _) fun _ hcheck => asks_bind ?_ fun inner _ => ?_
  · have hsafe := (Path.check_eq_ok_iff _ _).mp hcheck
    refine asks_bind (asks_translate (hpath hsafe)) fun answer _ => ?_
    dsimp only
    split
    · exact asks_pure _
    · exact asks_refuse
  · refine asks_bind (asks_isWhitelisted _) fun allowed _ => ?_
    split
    · exact asks_refuse
    · split
      · exact asks_refuse
      · exact asks_bind (asks_ofExcept _) fun steps _ => asks_enter _ value _

/-- A task asks the translator only if it is a field key that may be looked up, about the whole
path of the key. -/
theorem exists_key_of_asked {task : Task} {rest : List Task} (hwork : s.work = task :: rest)
    {path : Path} (h : .asked .keyTranslator path ∈ (step setup s task rest).events) :
    ∃ key value, TurnsTo s key value ∧ (∀ segment ∈ key, Path.IsSafe segment) ∧
      outerPath s key = path := by
  have hasks : Asks (fun path => ∃ key value, TurnsTo s key value ∧
      (∀ segment ∈ key, Path.IsSafe segment) ∧ outerPath s key = path)
      (step setup s task rest) := by
    refine asks_bind (asks_ofExcept _) fun _ _ => ?_
    cases task with
    | closePath => exact asks_pure _
    | closeScope => exact asks_pure _
    | closeFrame => exact asks_ofExcept _
    | fragment f =>
      rcases f with _ | ⟨⟨key, value⟩, _ | ⟨d, rest'⟩⟩
      · exact asks_pure _
      · show Asks _ (readEntry setup { s with work := rest } key value)
        unfold readEntry
        split
        · exact asks_combine _ _ value
        · exact asks_combine _ _ value
        · exact asks_combineNone value
        · exact asks_negate value
        · exact asks_matchElement value
        · exact asks_operate _ value
        · next text htext =>
          obtain rfl := DocumentKey.eq_of_ofText_field htext
          exact asks_descend value fun hsafe =>
            ⟨_, value, ⟨text, rest, hwork, htext, rfl⟩, hsafe, rfl⟩
      · exact asks_pure _
  exact hasks path h

theorem Reachable.exists_step_of_mem_events {e : Event} (h : Reachable setup document s)
    (he : e ∈ (runFrom setup s).events) :
    ∃ t task rest, Reachable setup document t ∧ t.work = task :: rest ∧
      e ∈ (Traversal.step setup t task rest).events := by
  induction hload : s.load using Nat.strongRecOn generalizing s with
  | ind n ih =>
    cases hwork : s.work with
    | nil =>
      rw [runFrom_of_done hwork] at he
      cases he
    | cons task rest =>
      rw [runFrom_of_work hwork] at he
      obtain he | ⟨t, hstep, he⟩ := mem_events_of_mem_bind he
      · exact ⟨s, task, rest, h, hwork, he⟩
      · exact ih t.load (hload ▸ load_step hwork hstep) (h.step hwork hstep) he rfl

theorem exists_key_of_run {path : Path}
    (h : .asked .keyTranslator path ∈ (run setup document).events) :
    ∃ s key value, Reachable setup document s ∧ TurnsTo s key value ∧
      (∀ segment ∈ key, Path.IsSafe segment) ∧ outerPath s key = path := by
  rw [run_eq_runFrom] at h
  obtain ⟨s, task, rest, hs, hwork, hasked⟩ := Reachable.start.exists_step_of_mem_events h
  obtain ⟨key, value, hkey⟩ := exists_key_of_asked hwork hasked
  exact ⟨s, key, value, hs, hkey⟩

theorem exists_turnsTo_of_run {path : Path}
    (h : .asked .keyTranslator path ∈ (run setup document).events) :
    ∃ s key value, Reachable setup document s ∧ TurnsTo s key value ∧ outerPath s key = path := by
  obtain ⟨s, key, value, hs, hkey, _, hpath⟩ := exists_key_of_run h
  exact ⟨s, key, value, hs, hkey, hpath⟩

end Questions

/-! ## Faithful translators -/

/-- A translator that keeps the number of segments, and calls a beginning that two paths share
by one name. -/
structure Faithful (f : String → Except String Value) : Prop where
  length : ∀ path answer, f path = .ok (.text answer) →
    (Path.ofText answer).length = (Path.ofText path).length
  shared : ∀ path answer path' answer' n, f path = .ok (.text answer) →
    f path' = .ok (.text answer') → (Path.ofText path).take n = (Path.ofText path').take n →
      (Path.ofText answer).take n = (Path.ofText answer').take n

/-- Whatever path begins with the key, its answer begins with what the key is called. -/
structure Called (f : String → Except String Value) (key : OpenKey) : Prop where
  plain : ∀ segment ∈ key.external, Path.IsPlain segment
  length : key.internal.length = key.external.length
  begins : ∀ path answer, f path = .ok (.text answer) → key.external <+: Path.ofText path →
    key.internal <+: Path.ofText answer

namespace Called

variable {opened : OpenKey} {key : Path} {answer : String}

theorem ofText_outer (h : Called f opened) (hne : key ≠ [])
    (hplain : ∀ segment ∈ key, Path.IsPlain segment) :
    Path.ofText (opened.external ++ key).text = opened.external ++ key := by
  refine Path.ofText_text (List.append_ne_nil_of_right_ne_nil _ hne) fun segment hsegment => ?_
  obtain hsegment | hsegment := List.mem_append.mp hsegment
  · exact h.plain segment hsegment
  · exact hplain segment hsegment

theorem begins_answer (h : Called f opened) (hne : key ≠ [])
    (hplain : ∀ segment ∈ key, Path.IsPlain segment)
    (hanswer : f (opened.external ++ key).text = .ok (.text answer)) :
    opened.internal <+: Path.ofText answer := by
  refine h.begins _ answer hanswer ?_
  rw [h.ofText_outer hne hplain]
  exact List.prefix_append _ _

/-- A faithful answer is what the open keys are called, and its end. -/
theorem append_lastSegments (h : Called f opened) (hf : Faithful f) (hne : key ≠ [])
    (hplain : ∀ segment ∈ key, Path.IsPlain segment)
    (hanswer : f (opened.external ++ key).text = .ok (.text answer)) :
    opened.internal ++ lastSegments key.length (some answer) = Path.ofText answer := by
  obtain ⟨rest, hrest⟩ := h.begins_answer hne hplain hanswer
  have hlength := hf.length _ answer hanswer
  rw [h.ofText_outer hne hplain, List.length_append, ← h.length] at hlength
  have hdepth : (Path.ofText answer).length - key.length = opened.internal.length := by omega
  rw [lastSegments, hdepth, ← hrest, List.drop_left]

/-- The beginning of a key is called the same in every path that begins so. -/
theorem enter (h : Called f opened) (hf : Faithful f) (hne : key ≠ [])
    (hplain : ∀ segment ∈ key, Path.IsPlain segment)
    (hanswer : f (opened.external ++ key).text = .ok (.text answer))
    (hle : key.length ≤ (Path.ofText answer).length) (width : Nat) :
    Called f ⟨opened.external ++ key.take width,
      opened.internal ++ (lastSegments key.length (some answer)).take width⟩ := by
  have hlength : (opened.internal ++ (lastSegments key.length (some answer)).take width).length =
      (opened.external ++ key.take width).length := by
    simp only [List.length_append, List.length_take, length_lastSegments hle, h.length]
  refine ⟨fun segment hsegment => ?_, hlength, fun path' answer' hanswer' hprefix' => ?_⟩
  · obtain hsegment | hsegment := List.mem_append.mp hsegment
    · exact h.plain segment hsegment
    · exact hplain segment (List.mem_of_mem_take hsegment)
  · have hprefix : opened.external ++ key.take width <+:
        Path.ofText (opened.external ++ key).text := by
      rw [h.ofText_outer hne hplain]
      exact (List.prefix_append_right_inj _).mpr (List.take_prefix width key)
    have hinner : opened.internal ++ (lastSegments key.length (some answer)).take width <+:
        Path.ofText answer := by
      rw [← h.append_lastSegments hf hne hplain hanswer]
      exact (List.prefix_append_right_inj _).mpr (List.take_prefix width _)
    have hsame := (List.prefix_iff_eq_take.mp hprefix).symm.trans
      (List.prefix_iff_eq_take.mp hprefix')
    have hshared := hf.shared _ answer _ answer' _ hanswer hanswer' hsame
    rw [← hlength, ← List.prefix_iff_eq_take.mp hinner] at hshared
    show opened.internal ++ _ <+: _
    rw [hshared]
    exact List.take_prefix _ _

end Called

/-- The open keys are called so at every depth. -/
def PathsCalled (f : String → Except String Value) (keys : List OpenKey) : Prop :=
  ∀ outer, outer <:+ keys → Called f (.join outer.reverse)

theorem PathsAfter.called {keys : List OpenKey} (h : PathsAfter setup s keys) (hf : Faithful f)
    (htranslator : setup.policies.translator = some f) (hs : PathsCalled f s.paths) :
    PathsCalled f keys := by
  cases h with
  | same => exact hs
  | closed => exact fun outer houter => hs outer (houter.trans (List.tail_suffix _))
  | @opened key inner steps width hpasses =>
    intro outer houter
    obtain rfl | houter := List.suffix_cons_iff.mp houter
    · obtain ⟨answer, htranslated, hle, rfl⟩ := hpasses.translated
      obtain ⟨v, hv, htext⟩ := (Policies.translate_eq_ok_iff htranslator).mp htranslated
      rw [Value.eq_text_of_text? htext] at hv
      have hcalled := (hs s.paths (List.suffix_refl _)).enter hf hpasses.ne_nil hpasses.plain hv
        hle width
      simpa [OpenKey.join] using hcalled
    · exact hs outer houter

theorem Reachable.called (h : Reachable setup document s) (hf : Faithful f)
    (htranslator : setup.policies.translator = some f) : Called f s.openKey := by
  have hpaths : PathsCalled f s.paths := by
    refine h.paths_induction (fun outer houter => ?_) fun _ _ hs hafter =>
      hafter.called hf htranslator hs
    obtain rfl := List.suffix_nil.mp houter
    exact ⟨fun _ hsegment => (List.not_mem_nil hsegment).elim, rfl, fun _ _ _ _ => List.nil_prefix⟩
  exact hpaths s.paths (List.suffix_refl _)

/-- Under a faithful translator a key stands for the very path that was answered. -/
theorem Reachable.innerPath_eq (h : Reachable setup document s) (hf : Faithful f)
    (htranslator : setup.policies.translator = some f) {key : Path} {value : Value}
    (hkey : TurnsTo s key value) {answer : String}
    (hanswer : f (outerPath s key).text = .ok (.text answer)) :
    innerPath s key answer = Path.ofText answer := by
  obtain ⟨text, _, _, _, rfl⟩ := hkey
  exact (h.called hf htranslator).append_lastSegments hf (Path.ofText_ne_nil text)
    (fun _ => Path.isPlain_of_mem_ofText) hanswer

end Traversal

/-! ## Compiled documents -/

section Compiled
open Traversal

variable {schema : Schema} {root : String} {document : Value} {options : OptionsArgument}
  {policies : Policies} {f : String → Except String Value} {fragment : Fragment}

/-- Every question to the translator is about the whole path of a field key. In a document that is
accepted, the answer to each is a text, and the key stands for a path of as many segments as the
document writes, which was granted and resolves. It is the very path that was answered if and only
if the answer has as many segments as well and begins with what the open keys are called; under a
faithful translator it always is. An answer that is no text, or has fewer segments than the key, is
refused. -/
theorem compiled_key_exact_iff (hpolicies : Policies.resolve options = .ok policies)
    (htranslator : policies.translator = some f) (hfragment : document.mapping? = some fragment) :
    (∀ path, .asked .keyTranslator path ∈ (compile schema root document options).events →
      ∃ s key value, Reachable ⟨schema, root, policies⟩ fragment s ∧ TurnsTo s key value ∧
        outerPath s key = path) ∧
    (∀ p, (compile schema root document options).result = .ok (some p) →
      ∀ s key value, Reachable ⟨schema, root, policies⟩ fragment s → TurnsTo s key value →
        ∃ answer, f (outerPath s key).text = .ok (.text answer) ∧
          StandsFor ⟨schema, root, policies⟩ s key answer ∧
          (innerPath s key answer = Path.ofText answer ↔
            (Path.ofText answer).length = (outerPath s key).length ∧
              s.openKey.internal <+: Path.ofText answer) ∧
          (Faithful f → innerPath s key answer = Path.ofText answer)) ∧
    ∀ s key value answer, Reachable ⟨schema, root, policies⟩ fragment s → TurnsTo s key value →
      withinLimit ⟨schema, root, policies⟩ s = .ok () → (∀ segment ∈ key, Path.IsSafe segment) →
      f (outerPath s key).text = .ok answer →
      (∀ text, answer.text? = some text → (Path.ofText text).length < key.length) →
      (compile schema root document options).result = .error (.of policies.formatter
        (.refused ⟨.untranslated answer.text?, outerPath s key, value, none⟩)) := by
  refine ⟨?_, ?_, ?_⟩
  · intro path hasked
    rw [compile_of_resolve hpolicies] at hasked
    exact exists_turnsTo_of_run (Setup.asked_of_compile hfragment hasked)
  · intro p hp s key value hs hkey
    obtain ⟨fragment', hfragment', hrun⟩ :=
      Setup.exists_run_of_compile (yields_of_compile hpolicies hp)
    obtain rfl := Option.some.inj (hfragment.symm.trans hfragment')
    obtain ⟨answer, hanswer, hstands⟩ := hs.exists_standsFor hrun.result htranslator hkey
    exact ⟨answer, hanswer, hstands, innerPath_eq_iff hs.length_openKey hstands.enough,
      fun hf => hs.innerPath_eq hf htranslator hkey hanswer⟩
  · intro s key value answer hs hkey hwithin hsafe hanswer hshort
    have hfault := hs.fault_of_short htranslator hkey hwithin hsafe hanswer hshort
    rw [compile_of_resolve hpolicies]
    show (Setup.compile _ document).result.mapError _ = _
    rw [Setup.compile_of_run_error hfragment hfault]
    rfl

end Compiled

namespace Sample
open Traversal

/-- Calls the names of the tracks the labels of the songs. -/
def relabel (path : String) : Except String Value :=
  .ok (if path = "songs.label" then .text "tracks.name" else .null)

def relabelOptions : Options := .ofEntries [("keyTranslator", .pathFunction relabel)]

def labelsFragment : Fragment := [("songs.label", .text "x")]

def labelsPredicate : Predicate :=
  .related tracks ["tracks"]
    (.test ⟨"name", "Track", .scalar .text⟩ ["tracks", "name"] (.compare .eq (.text "x")))

theorem eq_of_relabel {path answer : String} (h : relabel path = .ok (.text answer)) :
    path = "songs.label" ∧ answer = "tracks.name" := by
  unfold relabel at h
  split at h
  · next hpath =>
    cases h
    exact ⟨hpath, rfl⟩
  · cases h

theorem faithful_relabel : Faithful relabel where
  length := by
    intro path answer h
    obtain ⟨rfl, rfl⟩ := eq_of_relabel h
    decide +kernel
  shared := by
    intro path answer path' answer' n h h' _
    obtain ⟨rfl, rfl⟩ := eq_of_relabel h
    obtain ⟨rfl, rfl⟩ := eq_of_relabel h'
    rfl

/-- The key is split at the relation, and the translator is asked for both halves. -/
theorem compiled_key_exact_iff_relabel :
    Policies.resolve (.settings relabelOptions) = .ok (.ofOptions relabelOptions) ∧
      (Policies.ofOptions relabelOptions).translator = some relabel ∧
      (Value.ofEntries labelsFragment).mapping? = some labelsFragment ∧
      (compile catalog.schema "Album" (.ofEntries labelsFragment)
        (.settings relabelOptions)).result = .ok (some labelsPredicate) ∧
      ∀ s key value,
        Reachable ⟨catalog.schema, "Album", .ofOptions relabelOptions⟩ labelsFragment s →
        TurnsTo s key value → ∃ answer, relabel (outerPath s key).text = .ok (.text answer) ∧
          innerPath s key answer = Path.ofText answer := by
  have hcompile : (compile catalog.schema "Album" (.ofEntries labelsFragment)
      (.settings relabelOptions)).result = .ok (some labelsPredicate) := rfl
  have hpolicies : Policies.resolve (.settings relabelOptions) = .ok (.ofOptions relabelOptions) :=
    rfl
  have hfragment : (Value.ofEntries labelsFragment).mapping? = some labelsFragment := rfl
  obtain ⟨_, haccepted, _⟩ := compiled_key_exact_iff hpolicies rfl hfragment
  refine ⟨hpolicies, rfl, hfragment, hcompile, fun s key value hs hkey => ?_⟩
  obtain ⟨answer, hanswer, _, _, hexact⟩ := haccepted _ hcompile s key value hs hkey
  exact ⟨answer, hanswer, hexact faithful_relabel⟩

/-- Puts a segment in front of every path. -/
def prefixing (path : String) : Except String Value := .ok (.text ("x." ++ path))

def prefixingOptions : Options := .ofEntries [("keyTranslator", .pathFunction prefixing)]

/-- An answer with a segment too many is cut and not refused. -/
theorem compiled_key_cut :
    (compile catalog.schema "Album" (.ofEntries [("title", .text "A")])
        (.settings prefixingOptions)).result =
      .ok (some (.test ⟨"title", "Album", .scalar .text⟩ ["title"] (.compare .eq (.text "A")))) ∧
    ¬∀ path answer, .asked .keyTranslator path ∈
        (compile catalog.schema "Album" (.ofEntries [("title", .text "A")])
          (.settings prefixingOptions)).events →
      prefixing path.text = .ok (.text answer) →
      (Path.ofText answer).length = path.length := by
  refine ⟨rfl, fun h => ?_⟩
  have hsame := h ["title"] "x.title" (.tail _ (.head _)) rfl
  revert hsame
  decide +kernel

end Sample
end RowFilter
