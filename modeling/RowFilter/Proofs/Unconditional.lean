import RowFilter.Proofs.Matching

/-!
# Documents without conditions

Conditions are no more than nodes in the scopes of a predicate. The same document under the same
options but for the conditions has the same outline with none in its scopes.

Nothing else depends on them, the limit on pending work included: a traversal with conditions and
one without go through the same tasks, whose frames have gathered different nodes.
-/

namespace RowFilter

/-! ## Options without conditions -/

/-- The same options without conditions. -/
def Options.unconditional (o : Options) : Options := o.replace .nestedConditions (.value .null)

/-- Conditions may be left out of options that are in order. -/
theorem Policies.resolve_unconditional {a : OptionsArgument} {o : Options} (h : a.check = .ok o) :
    resolve (.settings o.unconditional) = .ok { ofOptions o with conditions := .none } := by
  have hissues : OptionName.nestedConditions.issues (.value .null) = [] := by decide +kernel
  have hsame : ofOptions o.unconditional = { ofOptions o with conditions := .none } := by
    rw [Options.unconditional, ofOptions, given?_replace_self, given?_replace_of_ne (by decide),
      given?_replace_of_ne (by decide), given?_replace_of_ne (by decide),
      given?_replace_of_ne (by decide), Options.setting?_replace_of_ne (by decide)]
    rfl
  rw [resolve, Options.unconditional, OptionsArgument.check_replace h hissues, ← hsame]
  rfl

namespace Outline
open Traced

/-! ## Outlines without conditions -/

mutual

/-- An outline without the conditions of its scopes. -/
def bare : Outline → Outline
  | .nothing => .nothing
  | .all children => .all (bareAll children)
  | .any children => .any (bareAll children)
  | .not child => .not (bare child)
  | .scope relation path _ body => .scope relation path [] (bare body)
  | .operator place p => .operator place p
  | .field path inside => .field path (bare inside)

def bareAll : List Outline → List Outline
  | [] => []
  | o :: rest => bare o :: bareAll rest

end

theorem bareAll_eq_map (os : List Outline) : bareAll os = os.map bare := by
  induction os with
  | nil => rfl
  | cons o os ih => rw [bareAll, ih, List.map_cons]

theorem bare_joined (os : List Outline) : (joined os).bare = joined (os.map bare) := by
  match os with
  | [] => rfl
  | [o] => rfl
  | _ :: _ :: _ => exact congrArg Outline.all (bareAll_eq_map _)

variable {setup : Setup} {place : Place}

theorem spans_bare (setup : Setup) : Spans setup .none (fun o o' => o.bare = o') where
  field path _ _ h := congrArg (Outline.field path) h
  scope relation path _ _ :=
    ⟨[], rfl, fun _ _ h => congrArg (Outline.scope relation path []) h⟩

/-- Whatever the reading comes to, without conditions it comes to the same but for these. -/
def Bares (x y : Place → Traced Outline) : Prop :=
  ∀ place, Matches (fun o o' => o.bare = o') (x place) (y place)

theorem bares_refuse {cause : Cause} {dataKey : Place → Path} {filter : Value}
    {op : Option String} {y : Place → Traced Outline} :
    Bares (fun place => refuse cause (dataKey place) filter op) y :=
  fun _ => matches_refuse

theorem bares_ofOperator (token : String) (v : Value) :
    Bares (ofOperator setup token v) (ofOperator (setup.withConditions .none) token v) := by
  intro place
  unfold ofOperator
  dsimp only
  split
  · exact matches_refuse
  · refine matches_bind (matches_self (fun _ => rfl) (fieldAt? setup place)) ?_
    rintro (_ | target) _ _ rfl
    · exact matches_refuse
    · refine matches_bind (matches_self (fun _ => rfl) _) ?_
      rintro p _ _ rfl
      exact matches_pure rfl

theorem bares_ofScope {v v' : Value} {body body' : Place → Traced Outline}
    (h : Bares body body') :
    Bares (ofScope setup v body) (ofScope (setup.withConditions .none) v' body') :=
  fun place => matches_ofScope (spans_bare setup) h place

theorem bares_ofFragment {f : Fragment}
    (h : ∀ e ∈ f, Bares (ofEntry setup e) (ofEntry (setup.withConditions .none) e)) :
    Bares (ofFragment setup f) (ofFragment (setup.withConditions .none) f) := by
  intro place
  unfold ofFragment
  rw [ofEntries_eq_mapM, ofEntries_eq_mapM]
  have hentries := carries_mapM fun e he => carries_iff_matches.mpr (h e he place)
  refine matches_bind (carries_iff_matches.mp hentries) ?_
  rintro os _ _ rfl
  exact matches_pure (bare_joined os)

theorem bares_ofValue {v : Value} {otherwise otherwise' : Place → Traced Outline}
    (h : ∀ f, v.mapping? = some f → ∀ e ∈ f,
      Bares (ofEntry setup e) (ofEntry (setup.withConditions .none) e))
    (hotherwise : Bares otherwise otherwise') :
    Bares (ofValue setup otherwise v) (ofValue (setup.withConditions .none) otherwise' v) := by
  cases hf : v.mapping? with
  | none =>
    rw [ofValue_of_mapping?_eq_none hf, ofValue_of_mapping?_eq_none hf]
    exact hotherwise
  | some f =>
    rw [ofValue_of_mapping? hf, ofValue_of_mapping? hf]
    exact bares_ofFragment (h f hf)

theorem matches_ofList_bare (op : String) {v : Value}
    (h : ∀ fs, v.fragments? = some fs → ∀ f ∈ fs, ∀ e ∈ f,
      Bares (ofEntry setup e) (ofEntry (setup.withConditions .none) e)) (place : Place) :
    Matches (fun os os' => bareAll os = os') (ofList setup op v place)
      (ofList (setup.withConditions .none) op v place) := by
  cases hfs : v.fragments? with
  | none =>
    rw [ofList_of_fragments?_eq_none hfs]
    exact matches_refuse
  | some fs =>
    rw [ofList_of_fragments? hfs, ofList_of_fragments? hfs, funext bareAll_eq_map]
    exact carries_iff_matches.mp (carries_mapM fun f hf =>
      carries_iff_matches.mpr (bares_ofFragment (h fs hfs f hf) place))

theorem bares_ofRelationValue {v : Value}
    (h : ∀ f, v.mapping? = some f → ∀ e ∈ f,
      Bares (ofEntry setup e) (ofEntry (setup.withConditions .none) e)) :
    Bares (ofRelationValue setup v) (ofRelationValue (setup.withConditions .none) v) := by
  intro place
  cases hf : v.mapping? with
  | none =>
    rw [ofRelationValue_of_mapping?_eq_none hf]
    exact matches_refuse
  | some f =>
    by_cases hne : f = []
    · rw [ofRelationValue_of_empty (hne ▸ hf)]
      exact matches_refuse
    · rw [ofRelationValue_of_mapping? hf hne, ofRelationValue_of_mapping? hf hne]
      have hentries : Carries (List.map bare) (f.mapM (ofRelationEntry setup · place))
          (f.mapM (ofRelationEntry (setup.withConditions .none) · place)) := by
        refine carries_mapM fun e he => carries_iff_matches.mpr ?_
        unfold ofRelationEntry
        split
        · exact h f hf e he place
        · exact bares_ofScope (h f hf e he) place
      refine matches_bind (carries_iff_matches.mp hentries) ?_
      rintro os _ _ rfl
      exact matches_pure (congrArg Outline.all (bareAll_eq_map os))

/-- Every entry comes to the same without conditions, but for these. -/
theorem bares_ofEntry (e : String × Value) :
    Bares (ofEntry setup e) (ofEntry (setup.withConditions .none) e) := by
  induction e using Value.entry_induction with
  | entry key v hmapping hfragments =>
    intro place
    have hlist (op : String) := matches_ofList_bare op hfragments place
    unfold ofEntry
    cases DocumentKey.ofText key with
    | all => exact matches_bind (hlist key) fun os _ _ h => matches_pure (congrArg Outline.all h)
    | any => exact matches_bind (hlist key) fun os _ _ h => matches_pure (congrArg Outline.any h)
    | none => exact matches_bind (hlist "$nor") fun os _ _ h =>
        matches_pure (congrArg (Outline.not ∘ Outline.any) h)
    | not => exact matches_bind (bares_ofValue hmapping bares_refuse place) fun o _ _ h =>
        matches_pure (congrArg Outline.not h)
    | elemMatch =>
      dsimp only
      split
      · exact bares_ofScope (bares_ofValue hmapping fun _ => matches_pure rfl) place
      · exact matches_refuse
    | operator token => exact bares_ofOperator token v place
    | field text =>
      exact matches_ofKey (spans_bare setup) (bares_ofValue hmapping (bares_ofOperator "$eq" v))
        (bares_ofRelationValue hmapping) _ place

/-- A document comes to the same outline without conditions, but for these. -/
theorem ofDocument_withoutConditions {f : Fragment} {o : Outline}
    (h : (ofDocument setup f).result = .ok o) :
    (ofDocument (setup.withConditions .none) f).result = .ok o.bare := by
  obtain ⟨_, ho, rfl⟩ := bares_ofFragment (fun e _ => bares_ofEntry e) .root o h
  exact ho

end Outline

/-! ## Traversals without conditions -/

/-- The second state has the work of the first still to do. Its frames may have gathered other
nodes. -/
def TraversalState.SameWork (s t : TraversalState) : Prop :=
  ∃ frames, t = { s with frames } ∧ frames.map (·.combinator) = s.frames.map (·.combinator)

namespace TraversalState
variable {s s' t : TraversalState}

theorem SameWork.refl (s : TraversalState) : SameWork s s := ⟨s.frames, rfl, rfl⟩

theorem SameWork.work_eq (h : SameWork s t) : t.work = s.work := by
  obtain ⟨frames, rfl, _⟩ := h
  rfl

theorem SameWork.openKey_eq (h : SameWork s t) : t.openKey = s.openKey := by
  obtain ⟨frames, rfl, _⟩ := h
  rfl

theorem SameWork.hasOpenField_eq (h : SameWork s t) : t.hasOpenField = s.hasOpenField := by
  obtain ⟨frames, rfl, _⟩ := h
  rfl

theorem SameWork.withWork (h : SameWork s t) (work : List Task) :
    SameWork { s with work } { t with work } := by
  obtain ⟨frames, rfl, hframes⟩ := h
  exact ⟨frames, rfl, hframes⟩

theorem SameWork.openFrame (h : SameWork s t) (combinator : Combinator)
    (gathered gathered' : List Predicate) (inside : List Task) :
    SameWork (s.openFrame ⟨combinator, gathered⟩ inside)
      (t.openFrame ⟨combinator, gathered'⟩ inside) := by
  obtain ⟨frames, rfl, hframes⟩ := h
  exact ⟨_, rfl, congrArg (combinator :: ·) hframes⟩

theorem SameWork.openPath (h : SameWork s t) (key : OpenKey) (inside : List Task) :
    SameWork (s.openPath key inside) (t.openPath key inside) := by
  obtain ⟨frames, rfl, hframes⟩ := h
  exact ⟨frames, rfl, hframes⟩

theorem SameWork.openScope (h : SameWork s t) : SameWork s.openScope t.openScope := by
  obtain ⟨frames, rfl, hframes⟩ := h
  exact ⟨frames, rfl, hframes⟩

/-- A node may be gathered where another one is. -/
theorem SameWork.exists_gather (h : SameWork s t) {p : Predicate} (hs : s.gather p = .ok s')
    (q : Predicate) : ∃ t', t.gather q = .ok t' ∧ SameWork s' t' := by
  obtain ⟨frames, rfl, hframes⟩ := h
  obtain ⟨frame, outer, hframe, rfl⟩ := gather_eq_ok_iff.mp hs
  rw [hframe, List.map_cons, List.map_eq_cons_iff] at hframes
  obtain ⟨frame', outer', rfl, hcombinator, houter⟩ := hframes
  refine ⟨_, rfl, _, rfl, ?_⟩
  simp only [List.map_cons, hcombinator, houter]

theorem SameWork.exists_closeFrame (h : SameWork s t) (hs : s.closeFrame = .ok s') :
    ∃ t', t.closeFrame = .ok t' ∧ SameWork s' t' := by
  obtain ⟨frames, rfl, hframes⟩ := h
  obtain ⟨frame, outer, hframe, hs⟩ := closeFrame_eq_ok_iff.mp hs
  rw [hframe, List.map_cons, List.map_eq_cons_iff] at hframes
  obtain ⟨frame', outer', rfl, _, houter⟩ := hframes
  have hrest : SameWork { s with frames := outer } { s with frames := outer' } :=
    ⟨outer', rfl, houter⟩
  exact hrest.exists_gather hs _

theorem SameWork.exists_result (h : SameWork s t) {p : Predicate} (hs : s.result = .ok p) :
    ∃ q, t.result = .ok q := by
  obtain ⟨frames, rfl, hframes⟩ := h
  unfold result at hs
  split at hs
  · cases hs
  · next frame outer hframe =>
    rw [hframe, List.map_cons, List.map_eq_cons_iff] at hframes
    obtain ⟨frame', outer', rfl, _⟩ := hframes
    exact ⟨_, rfl⟩

end TraversalState

namespace Traversal
open TraversalState Traced

variable {setup : Setup} {s s' t : TraversalState} {value : Value}

/-! A task goes the same way without conditions, from a state with the same work. -/

theorem openField?_withoutConditions (h : SameWork s t) :
    openField? (setup.withConditions .none) t = openField? setup s := by
  unfold openField?
  rw [h.openKey_eq]
  rfl

theorem Passes.withoutConditions {key inner : Path} {steps : List Step}
    (hpasses : Passes setup s key inner steps) (h : SameWork s t) :
    Passes (setup.withConditions .none) t key inner steps := by
  obtain ⟨frames, rfl, _⟩ := h
  exact ⟨hpasses.ne_nil, hpasses.plain, hpasses.safe, hpasses.translated, hpasses.granted,
    hpasses.closed, hpasses.resolved⟩

theorem Entered.exists_sameWork {key : OpenKey} {crossed : List Nat}
    (hs : Entered s key value crossed s') (h : SameWork s t) :
    ∃ t', Entered t key value crossed t' ∧ SameWork s' t' := by
  cases hs with
  | whole hfind => exact ⟨_, .whole (h.openKey_eq ▸ hfind), h.openPath key _⟩
  | relation hfind hwidth hempty hf hne =>
    exact ⟨_, .relation (h.openKey_eq ▸ hfind) (h.openKey_eq ▸ hwidth) hempty hf hne,
      (h.openPath _ []).openFrame .all [] [] _⟩
  | split hfind hwidth hrest =>
    exact ⟨_, .split (h.openKey_eq ▸ hfind) (h.openKey_eq ▸ hwidth) hrest, h.openPath _ _⟩

theorem Performed.exists_withoutConditions {task : Task} (hs : Performed setup s task s')
    (h : SameWork s t) :
    ∃ t', Performed (setup.withConditions .none) t task t' ∧ SameWork s' t' := by
  cases hs with
  | nothing => exact ⟨t, .nothing, h⟩
  | entries hlength => exact ⟨_, .entries hlength, h.openFrame .all [] [] _⟩
  | all hkey hfs => exact ⟨_, .all hkey hfs, h.openFrame .all [] [] _⟩
  | any hkey hfs => exact ⟨_, .any hkey hfs, h.openFrame .any [] [] _⟩
  | none hkey hfs => exact ⟨_, .none hkey hfs, h.openFrame .not [] [] _⟩
  | not hkey hf => exact ⟨_, .not hkey hf, h.openFrame .not [] [] _⟩
  | elemMatch hkey hopen hf htarget _ =>
    have hopen' := h.hasOpenField_eq.trans hopen
    have htarget' := (congrArg Traced.result (openField?_withoutConditions h)).trans htarget
    refine ⟨_, .elemMatch hkey hopen' hf htarget' rfl, ?_⟩
    rw [h.openKey_eq]
    exact h.openScope.openFrame _ _ _ _
  | operator hkey htoken htarget hp hgather =>
    obtain ⟨t', hgather', hsame⟩ := h.exists_gather hgather _
    have htarget' := (congrArg Traced.result (openField?_withoutConditions h)).trans htarget
    rw [← h.openKey_eq] at hp
    exact ⟨t', .operator hkey htoken htarget' hp hgather', hsame⟩
  | field hkey hpasses hentered =>
    obtain ⟨t', hentered', hsame⟩ := hentered.exists_sameWork h
    exact ⟨t', .field hkey (hpasses.withoutConditions h) hentered', hsame⟩
  | closePath =>
    obtain ⟨frames, rfl, hframes⟩ := h
    exact ⟨_, .closePath, frames, rfl, hframes⟩
  | closeScope =>
    obtain ⟨frames, rfl, hframes⟩ := h
    exact ⟨_, .closeScope, frames, rfl, hframes⟩
  | closeFrame hclose =>
    obtain ⟨t', hclose', hsame⟩ := h.exists_closeFrame hclose
    exact ⟨t', .closeFrame hclose', hsame⟩

theorem step_withoutConditions (h : SameWork s t) (task : Task) (rest : List Task) :
    Matches SameWork (step setup s task rest) (step (setup.withConditions .none) t task rest) := by
  intro s' hs'
  obtain ⟨hlimit, hperformed⟩ := step_eq_ok_iff.mp hs'
  have hlimit' : withinLimit (setup.withConditions .none) t = withinLimit setup s := by
    unfold withinLimit
    rw [h.work_eq]
    rfl
  obtain ⟨t', hperformed', hsame⟩ := hperformed.exists_withoutConditions (h.withWork rest)
  exact ⟨t', step_eq_ok_iff.mpr ⟨hlimit'.trans hlimit, hperformed'⟩, hsame⟩

theorem result_withoutConditions (h : SameWork s t) (past past' : List Event) :
    Matches (fun _ _ => True) (⟨past.reverse, s.result⟩ : Traced Predicate)
      ⟨past'.reverse, t.result⟩ := by
  intro p hp
  obtain ⟨q, hq⟩ := h.exists_result hp
  exact ⟨q, hq, trivial⟩

/-- A traversal goes through without conditions, if it does with them. -/
theorem loop_withoutConditions (h : SameWork s t) (fuel : Nat) (past past' : List Event) :
    Matches (fun _ _ => True) (loop setup fuel past s)
      (loop (setup.withConditions .none) fuel past' t) := by
  induction fuel generalizing s t past past' with
  | zero => exact result_withoutConditions h past past'
  | succ fuel ih =>
    unfold loop
    rw [h.work_eq]
    split
    · exact result_withoutConditions h past past'
    · next task rest _ =>
      intro p hp
      have hstep := @step_withoutConditions setup s t h task rest
      generalize step setup s task rest = x at hp hstep
      generalize step (setup.withConditions .none) t task rest = y at hstep ⊢
      obtain ⟨events, fault | s'⟩ := x
      · cases hp
      · obtain ⟨t', ht', hsame⟩ := hstep s' rfl
        obtain ⟨events', result⟩ := y
        cases ht'
        exact ih hsame _ _ p hp

theorem run_withoutConditions (f : Fragment) :
    Matches (fun _ _ => True) (run setup f) (run (setup.withConditions .none) f) :=
  loop_withoutConditions (.refl _) f.totalLoad [] []

end Traversal

/-! ## Predicates without conditions -/

namespace Outline

theorem conditionsRender_of_noConditions {setup : Setup} {record : List Event} {place : Place}
    {o : Outline} (hnone : setup.policies.NoConditions) (h : Stands setup record place o) :
    o.ConditionsRender := by
  intro relation path conditions body hpart condition hcondition
  obtain ⟨place', hscope⟩ := h.of_mem_parts hpart
  cases hscope with
  | scope _ _ hconditions _ =>
    rw [hnone _ _ hconditions] at hcondition
    cases hcondition

end Outline

/-- Without conditions of the host whatever a traversal comes to can be rendered. -/
theorem Traversal.renders_of_run {setup : Setup} {f : Fragment} {p : Predicate}
    (hnone : setup.policies.NoConditions) (h : (run setup f).result = .ok p) : p.Renders := by
  obtain ⟨o, ho, rfl, _⟩ := exists_outline_of_run h
  have hstands := Outline.stands_of_yields_ofDocument (Traced.yields_self ho)
  exact hstands.renders_iff.mpr (Outline.conditionsRender_of_noConditions hnone hstands)

section Compiled
variable {schema : Schema} {root : String} {document : Value} {options : OptionsArgument}
  {o : Options} {p : Predicate}

/-- A document that compiles does so without conditions, to the same predicate but for these. -/
theorem compile_bare (hoptions : options.check = .ok o)
    (h : (compile schema root document options).result = .ok (some p)) {f : Fragment}
    {outline : Outline} (hf : document.mapping? = some f)
    (houtline : (Outline.ofDocument ⟨schema, root, .ofOptions o⟩ f).result = .ok outline) :
    (compile schema root document (.settings o.unconditional)).result =
      .ok (some outline.bare.predicate) := by
  let bare := Setup.withConditions ⟨schema, root, .ofOptions o⟩ .none
  obtain ⟨hrun, _⟩ := (compile_eq_ok_iff (resolve_of_check hoptions) hf).mp h
  obtain ⟨q, hbare, -⟩ := Traversal.run_withoutConditions f p hrun
  obtain ⟨outline', houtline', rfl, -⟩ := Traversal.exists_outline_of_run hbare
  have hsame : outline' = outline.bare :=
    Except.ok.inj (houtline'.symm.trans (Outline.ofDocument_withoutConditions houtline))
  have hnone : bare.policies.NoConditions := Policies.noConditions_of_none rfl
  rw [compile_eq_ok_iff (Policies.resolve_unconditional hoptions) hf, ← hsame]
  exact ⟨hbare, fun _ => Traversal.renders_of_run hnone hbare⟩

end Compiled
end RowFilter
