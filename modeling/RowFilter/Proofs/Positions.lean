import RowFilter.Proofs.Blame
import RowFilter.Proofs.Rebase
import RowFilter.Proofs.Resumption

/-!
# Positions in a document

Every value in a document stands behind a chain of field keys, as the document writes them. A
refusal is reported at a data key, and that is the chain of the value that it is about: every key
on it as a whole, however often a traversal splits the key, and none of them translated.

While a dotted key is open in part, nothing is refused. It was opened up to a relation because the
whole key resolves, so that the scope on that relation is granted.
-/

namespace RowFilter

/-- Cutting whole keys, and joining all their segments, joins the keys. -/
theorem Path.text_flatMap_ofText (keys : List String) :
    Path.text (keys.flatMap Path.ofText) = ".".intercalate keys := by
  cases keys with
  | nil => rfl
  | cons key keys =>
    suffices (key :: keys).flatMap ofText = ofText (".".intercalate (key :: keys)) by
      rw [this, text_ofText]
    induction keys generalizing key with
    | nil => simp
    | cons next keys ih =>
      rw [List.flatMap_cons, ih, ← ofText_append_point, String.intercalate_cons_cons]

namespace Value

/-- A value stands in a document behind these field keys, outermost first. Other keys and the
places in a list do not count. -/
inductive Holds (document : Value) : List String → Value → Prop
  | root : Holds document [] document
  | field {keys : List String} {v w : Value} {f : Fragment} {key : String} :
      Holds document keys v → v.mapping? = some f → (key, w) ∈ f →
      DocumentKey.ofText key = .field key → Holds document (keys ++ [key]) w
  | operator {keys : List String} {v w : Value} {f : Fragment} {key : String} :
      Holds document keys v → v.mapping? = some f → (key, w) ∈ f →
      DocumentKey.ofText key ≠ .field key → Holds document keys w
  | item {keys : List String} {items : List Value} {w : Value} :
      Holds document keys (.list items) → w ∈ items → Holds document keys w

end Value

namespace Refusal

/-- What a refusal shows of the value at its position. -/
inductive Shows (r : Refusal) (v : Value) : Prop
  | whole : r.filter = v → Shows r v
  /-- One entry of it, which has no place under a field. -/
  | entry {f : Fragment} {e : String × Value} : r.cause = .attributeObject →
      v.mapping? = some f → e ∈ f → r.filter = .ofEntries [e] → Shows r v
  /-- Nothing, if it is the path that is refused. -/
  | nothing {u : Unresolved} : r.cause = u.cause → r.filter = .null → Shows r v

/-- The refusal is about a value of the document, at the keys that the value stands behind. -/
def PointsInto (r : Refusal) (document : Value) : Prop :=
  ∃ keys v, document.Holds keys v ∧ r.dataKey = keys.flatMap Path.ofText ∧ r.Shows v

end Refusal

namespace Traced
variable {α β : Type} {document : Value}

/-- Refuses nothing but what stands in the document. -/
def Points (document : Value) (x : Traced α) : Prop :=
  ∀ r, x.result = .error (.refused r) → r.PointsInto document

theorem points_pure (a : α) : Points document (pure a : Traced α) :=
  fun _ h => nomatch h

theorem points_bind {x : Traced α} {f : α → Traced β} (hx : Points document x)
    (hf : ∀ a, x.result = .ok a → Points document (f a)) : Points document (x >>= f) := by
  intro r h
  obtain h | ⟨a, ha, h⟩ := bind_result_eq_error_iff.mp h
  · exact hx r h
  · exact hf a ha r h

theorem points_return {x : Traced α} (hx : Points document x) (g : α → β) :
    Points document (do return g (← x)) :=
  points_bind hx fun _ _ => points_pure _

theorem points_mapM {f : α → Traced β} {xs : List α} (h : ∀ x ∈ xs, Points document (f x)) :
    Points document (xs.mapM f) := by
  induction xs with
  | nil => exact points_pure []
  | cons x xs ih =>
    rw [List.mapM_cons]
    refine points_bind (h x List.mem_cons_self) fun b _ => ?_
    exact points_return (ih fun x hx => h x (List.mem_cons_of_mem _ hx)) _

end Traced

/-! ## Policies -/

namespace Policies
open Traced
variable {document : Value} (policies : Policies)

/-- A function of the host that fails refuses nothing. -/
theorem points_ask {α : Type} (policy : Policy) (path : Path) (answer : Except String α) :
    Points document (ask policy path answer) := by
  intro r h
  obtain ⟨_, _, hfault⟩ := error_of_mapError h
  cases hfault

theorem points_isWhitelisted (schema : Schema) (root : String) (path : Path) :
    Points document (policies.isWhitelisted schema root path) := by
  unfold isWhitelisted
  split
  · exact points_pure _
  · exact points_pure _
  · exact points_bind (points_ask _ _ _) fun _ _ => points_pure _

theorem points_translate (key : Path) : Points document (policies.translate key) := by
  unfold translate
  split
  · exact points_pure _
  · exact points_bind (points_ask _ _ _) fun _ _ => points_pure _

/-- Conditions that are no predicates are the fault of the host. -/
theorem points_conditionList (path : Path) (entry : ConditionEntry) :
    Points document (ofExcept (conditionList path entry)) := by
  have hread {cs : List Condition} : Points document (ofExcept
      (if cs.all Condition.looksRight then cs.mapM Condition.read
        else .error (.invalidConditions path.text))) := by
    intro r h
    rw [ofExcept_result] at h
    split at h
    · obtain ⟨c, _, hc⟩ := exists_mem_of_mapM_error h
      unfold Condition.read at hc
      split at hc <;> cases hc
    · cases h
  unfold conditionList
  dsimp only
  split
  · split
    · exact points_pure _
    · exact hread
  · exact hread
  · exact hread

theorem points_conditionsFor (path : Path) : Points document (policies.conditionsFor path) := by
  unfold conditionsFor
  split
  · exact points_pure _
  · split
    · exact points_conditionList _ _
    · exact points_pure _
  · exact points_bind (points_ask _ _ _) fun _ _ => points_conditionList _ _

end Policies

/-- What an operator refuses is its operand, at the data key. -/
theorem Field.eq_of_evaluate_refused {field : Field} {token : String} {operand : Value}
    {dataKey path : Path} {r : Refusal}
    (h : field.evaluate token operand dataKey path = .error (.refused r)) :
    r.dataKey = dataKey ∧ r.filter = operand := by
  unfold evaluate at h
  dsimp only at h
  split at h
  · cases h
    exact ⟨rfl, rfl⟩
  · obtain ⟨cause, hcause⟩ | ⟨_, _, hmisused, _⟩ := FieldOperator.onScalar_eq_error h
    · cases hcause
      exact ⟨rfl, rfl⟩
    · cases hmisused
  · unfold FieldOperator.onRelation at h
    split at h <;> cases h
    exact ⟨rfl, rfl⟩

namespace Outline
open Traced

variable {setup : Setup} {document : Value} {place : Place} {keys : List String} {v : Value}

/-- A value of the document stands at a place: behind the field keys that are open there. -/
structure StandsAt (document : Value) (place : Place) (keys : List String) (v : Value) : Prop where
  holds : document.Holds keys v
  external : place.key.external = keys.flatMap Path.ofText

theorem StandsAt.inScope (h : StandsAt document place keys v) :
    StandsAt document place.inScope keys v :=
  ⟨h.holds, h.external⟩

theorem StandsAt.operator {f : Fragment} {key : String} {w : Value}
    (h : StandsAt document place keys v) (hf : v.mapping? = some f) (he : (key, w) ∈ f)
    (hkey : DocumentKey.ofText key ≠ .field key) : StandsAt document place keys w :=
  ⟨.operator h.holds hf he hkey, h.external⟩

/-! ## Places -/

section Places
variable (h : StandsAt document place keys v)
include h

/-- The value is refused as it stands. -/
theorem points_refuse {α : Type} (cause : Cause) (op : Option String) :
    Points document (refuse cause place.key.external v op : Traced α) := by
  rintro r ⟨⟩
  exact ⟨keys, v, h.holds, h.external, .whole rfl⟩

omit h in
/-- A path that does not resolve is refused at the keys of the value. -/
theorem points_resolve {path dataKey : Path} (hholds : document.Holds keys v)
    (hkey : dataKey = keys.flatMap Path.ofText) :
    Points document (Traversal.resolve setup path dataKey) := by
  intro r hr
  obtain ⟨u, _, hfault⟩ := error_of_mapError hr
  cases hfault
  exact ⟨keys, v, hholds, hkey, .nothing rfl rfl⟩

theorem points_fieldAt? : Points document (fieldAt? setup place) :=
  points_return (points_resolve h.holds h.external) _

theorem points_ofOperator (token : String) :
    Points document (ofOperator setup token v place) := by
  unfold ofOperator
  dsimp only
  split
  · exact points_refuse h _ _
  · refine points_bind (points_fieldAt? h) fun target _ => ?_
    split
    · refine points_return (fun r hr => ?_) _
      obtain ⟨hkey, hfilter⟩ := Field.eq_of_evaluate_refused hr
      exact ⟨keys, v, h.holds, hkey.trans h.external, .whole hfilter⟩
    · exact points_refuse h _ _

theorem points_ofScope {body : Place → Traced Outline}
    (hbody : Points document (body place.inScope)) :
    Points document (ofScope setup v body place) := by
  unfold ofScope
  refine points_bind (points_fieldAt? h) fun target _ => ?_
  split
  · refine points_bind (setup.policies.points_conditionsFor _) fun conditions _ => ?_
    exact points_bind (fun _ hlog => nomatch hlog) fun _ _ => points_return hbody _
  · exact points_refuse h _ _

end Places

/-- On a relation nothing is refused but inside the scope, whatever is put there. -/
theorem points_ofScope_of_relation {relation : RelationField} {body : Place → Traced Outline}
    (value : Value) (htarget : (fieldAt? setup place).result = .ok (some (.relation relation)))
    (hbody : Points document (body place.inScope)) :
    Points document (ofScope setup value body place) := by
  unfold ofScope
  refine points_bind (fun r hr => by rw [htarget] at hr; cases hr) fun target ht => ?_
  rw [htarget] at ht
  cases ht
  refine points_bind (setup.policies.points_conditionsFor _) fun conditions _ => ?_
  exact points_bind (fun _ hlog => nomatch hlog) fun _ _ => points_return hbody _

/-! ## Field keys -/

/-- A key that is opened up to the next relation on its way is open at that relation. -/
theorem exists_relation_of_find?_crossings {inner : Path} {steps : List Step} {next : Nat}
    (key : Path)
    (hresolved : setup.schema.resolve setup.root (place.key.internal ++ inner) = .ok steps)
    (hnext : (crossings steps).find? (place.key.internal.length ≤ ·) = some next) :
    ∃ relation, (fieldAt? setup (place.enter
        ⟨key, inner.take (next - place.key.internal.length + 1)⟩)).result =
      .ok (some (.relation relation)) := by
  have hle : place.key.internal.length ≤ next := by simpa using List.find?_some hnext
  obtain ⟨relation, hresolve, hleaf⟩ :=
    Schema.exists_relation_of_mem_crossings hresolved (List.mem_of_find?_eq_some hnext)
  have hwidth : next + 1 =
      place.key.internal.length + (next - place.key.internal.length + 1) := by omega
  rw [hwidth, List.take_length_add_append] at hresolve
  refine ⟨relation, bind_result_eq_ok_iff.mpr ⟨steps.take (next + 1), ?_, ?_⟩⟩
  · show (setup.schema.resolve _ (place.key.internal ++ inner.take _)).mapError _ = _
    rw [hresolve, ← hwidth]
    rfl
  · rw [hleaf]
    rfl

/-- The value under a field key, at any place where the key is open as a whole. -/
structure AtKey (setup : Setup) (document : Value) (keys : List String) (value : Value)
    (inside onRelation : Place → Traced Outline) : Prop where
  inside : ∀ place, StandsAt document place keys value → Points document (inside place)
  onRelation : ∀ place relation, StandsAt document place keys value →
    (fieldAt? setup place).result = .ok (some (.relation relation)) →
    Points document (onRelation place)

section Keys
variable {f : Fragment} {text : String} {value : Value} {inside onRelation : Place → Traced Outline}

/-- A key that is opened is refused as the whole key, where as much of it is open as the rest
leaves, if that goes for what is left when it is open up to a relation. -/
theorem points_ofOpened {keys : List String} {key : OpenKey} {steps : List Step}
    (hholds : document.Holds keys value)
    (hinside : AtKey setup document keys value inside onRelation)
    (hkey : place.key.external ++ key.external = keys.flatMap Path.ofText)
    (hsteps : setup.schema.resolve setup.root (place.key.internal ++ key.internal) = .ok steps)
    (hrest : ∀ rest place', rest.length < key.external.length → place'.isField = false →
      place'.key.external ++ rest = keys.flatMap Path.ofText →
      Points document (ofKey setup value inside onRelation rest place')) :
    Points document (ofOpened setup value inside onRelation key steps place) := by
  unfold ofOpened
  split
  · exact hinside.inside _ ⟨hholds, hkey⟩
  · next next hnext =>
    obtain ⟨relation, htarget⟩ := exists_relation_of_find?_crossings
      (key.external.take (next - place.key.internal.length + 1)) hsteps hnext
    dsimp only
    split
    · next hdrop =>
      refine hinside.onRelation _ relation ⟨hholds, ?_⟩ htarget
      have hall : key.external.take (next - place.key.internal.length + 1) = key.external :=
        List.take_of_length_le (List.drop_eq_nil_iff.mp hdrop)
      rw [← hkey, hall]
      rfl
    · next first rest hdrop =>
      have hlt := length_lt_of_drop_eq hdrop (Nat.succ_pos _)
      refine points_ofScope_of_relation _ htarget (hrest _ _ hlt rfl ?_)
      rw [← hdrop, ← hkey]
      simp [Place.enter, Place.inScope, List.append_assoc]

/-- What is left of a field key is refused as the whole key, where as much of it is open as the
rest leaves. If nothing is, the key stands at the field around it or in a scope. -/
theorem points_ofKey (hv : document.Holds keys v) (hf : v.mapping? = some f)
    (he : (text, value) ∈ f) (htext : DocumentKey.ofText text = .field text)
    (hinside : AtKey setup document (keys ++ [text]) value inside onRelation) {key : Path}
    (hkey : place.key.external ++ key = (keys ++ [text]).flatMap Path.ofText)
    (hwhole : place.isField = true → key = .ofText text) :
    Points document (ofKey setup value inside onRelation key place) := by
  have hholds : document.Holds (keys ++ [text]) value := .field hv hf he htext
  induction hlength : key.length using Nat.strongRecOn generalizing key place with
  | ind n ih =>
    have hrefuse (cause : Cause) {α : Type} : Points document
        (refuse cause (place.key.external ++ key) value none : Traced α) := by
      rintro r ⟨⟩
      exact ⟨_, value, hholds, hkey, .whole rfl⟩
    rw [ofKey_eq_ofOpened]
    refine points_bind (fun r hr => ?_) fun _ _ => ?_
    · rw [ofExcept_result, Path.check] at hr
      split at hr <;> cases hr
      exact ⟨_, value, hholds, hkey, .nothing (u := .malformed _) rfl rfl⟩
    refine points_bind ?_ fun inner hinner => ?_
    · refine points_bind (setup.policies.points_translate _) fun answer _ => ?_
      dsimp only
      split
      · exact points_pure _
      · exact hrefuse _
    refine points_bind (setup.policies.points_isWhitelisted _ _ _) fun allowed _ => ?_
    split
    · exact hrefuse _
    · split
      · next hfield =>
        -- the refusal shows the entry, and stands at the field around it
        rintro r ⟨⟩
        obtain rfl := hwhole hfield
        rw [List.flatMap_append, List.flatMap_singleton] at hkey
        refine ⟨keys, v, hv, List.append_cancel_right hkey, .entry rfl hf he ?_⟩
        rw [Path.text_ofText]
      · refine points_bind (points_resolve hholds hkey) fun steps hsteps => points_return ?_ _
        refine points_ofOpened hholds hinside hkey (resolve_of_traversal hsteps) ?_
        intro rest place' hshorter hplace hrest
        refine ih _ (hlength ▸ hshorter) hrest (fun hfield => ?_) rfl
        rw [hplace] at hfield
        cases hfield

end Keys

/-! ## Documents -/

/-- Wherever an entry of the document stands, what is refused in it stands in the document. -/
def EntryPoints (setup : Setup) (document : Value) (e : String × Value) : Prop :=
  ∀ place keys v f, StandsAt document place keys v → v.mapping? = some f → e ∈ f →
    Points document (ofEntry setup e place)

theorem points_ofFragment {f : Fragment} (h : StandsAt document place keys v)
    (hf : v.mapping? = some f) (hentries : ∀ e ∈ f, EntryPoints setup document e) :
    Points document (ofFragment setup f place) := by
  unfold ofFragment
  rw [ofEntries_eq_mapM]
  exact points_return (points_mapM fun e he => hentries e he place keys v f h hf he) _

theorem points_ofValue {otherwise : Place → Traced Outline} (h : StandsAt document place keys v)
    (hotherwise : Points document (otherwise place))
    (hentries : ∀ f, v.mapping? = some f → ∀ e ∈ f, EntryPoints setup document e) :
    Points document (ofValue setup otherwise v place) := by
  cases hf : v.mapping? with
  | some f =>
    rw [ofValue_of_mapping? hf]
    exact points_ofFragment h hf (hentries f hf)
  | none =>
    rw [ofValue_of_mapping?_eq_none hf]
    exact hotherwise

theorem points_ofList (op : String) (h : StandsAt document place keys v)
    (hentries : ∀ fs, v.fragments? = some fs → ∀ f ∈ fs, ∀ e ∈ f,
      EntryPoints setup document e) : Points document (ofList setup op v place) := by
  cases hfs : v.fragments? with
  | none =>
    rw [ofList_of_fragments?_eq_none hfs]
    exact points_refuse h _ _
  | some fs =>
    rw [ofList_of_fragments? hfs]
    refine points_mapM fun f hf => ?_
    obtain ⟨items, rfl, w, hw, hwf⟩ := Value.exists_mapping_of_mem_fragments? hfs hf
    exact points_ofFragment ⟨.item h.holds hw, h.external⟩ hwf (hentries fs hfs f hf)

theorem points_ofRelationValue {relation : RelationField} (h : StandsAt document place keys v)
    (htarget : (fieldAt? setup place).result = .ok (some (.relation relation)))
    (hentries : ∀ f, v.mapping? = some f → ∀ e ∈ f, EntryPoints setup document e) :
    Points document (ofRelationValue setup v place) := by
  rcases hf : v.mapping? with _ | f
  · rw [ofRelationValue_of_mapping?_eq_none hf]
    exact points_refuse h _ _
  · by_cases hne : f = []
    · rw [hne] at hf
      rw [ofRelationValue_of_empty hf]
      exact points_refuse h _ _
    · rw [ofRelationValue_of_mapping? hf hne]
      refine points_return (points_mapM fun e he => ?_) _
      unfold ofRelationEntry
      split
      · exact hentries f hf e he place keys v f h hf he
      · exact points_ofScope_of_relation _ htarget
          (hentries f hf e he _ keys v f h.inScope hf he)

theorem points_ofEntry (document : Value) (e : String × Value) : EntryPoints setup document e := by
  induction e using Value.entry_induction with
  | entry key w hmapping hfragments =>
    intro place keys v f h hf he
    have hw (hkey : DocumentKey.ofText key ≠ .field key) : StandsAt document place keys w :=
      h.operator hf he hkey
    unfold ofEntry
    cases hkey : DocumentKey.ofText key with
    | all => exact points_return (points_ofList key (hw (by simp [hkey])) hfragments) _
    | any => exact points_return (points_ofList key (hw (by simp [hkey])) hfragments) _
    | none => exact points_return (points_ofList "$nor" (hw (by simp [hkey])) hfragments) _
    | not =>
      have hw := hw (by simp [hkey])
      exact points_return (points_ofValue hw (points_refuse hw _ _) hmapping) _
    | elemMatch =>
      have hw := hw (by simp [hkey])
      dsimp only
      split
      · exact points_ofScope hw (points_ofValue hw.inScope (points_pure _) hmapping)
      · exact points_refuse hw _ _
    | operator token => exact points_ofOperator (hw (by simp [hkey])) token
    | field text =>
      obtain rfl := DocumentKey.eq_of_ofText_field hkey
      refine points_ofKey h.holds hf he hkey ⟨?_, ?_⟩ ?_ fun _ => rfl
      · exact fun place hw => points_ofValue hw (points_ofOperator hw "$eq") hmapping
      · exact fun place relation hw htarget => points_ofRelationValue hw htarget hmapping
      · rw [h.external, List.flatMap_append, List.flatMap_singleton]

end Outline

namespace Setup
open Traced
variable {setup : Setup} {document : Value}

/-- Whatever a traversal refuses stands in the document. -/
theorem points_run {f : Fragment} (hf : document.mapping? = some f) :
    Points document (Traversal.run setup f) := by
  intro r hr
  obtain heq | ⟨limit, _, hlimit⟩ := Traversal.run_eq_unlimited_or setup f
  · rw [heq, Traversal.run_eq_outline rfl, Outline.ofDocument_unlimited] at hr
    have hdocument : Outline.StandsAt document .root [] document := ⟨.root, rfl⟩
    have hpoints : Points document (Outline.ofDocument setup f) :=
      Outline.points_ofFragment hdocument hf fun e _ => Outline.points_ofEntry document e
    exact points_return hpoints _ r hr
  · rw [hlimit] at hr
    cases hr

theorem points_compileMapping : Points document (setup.compileMapping document) := by
  intro r hr
  cases hf : document.mapping? with
  | none =>
    rw [compileMapping, hf] at hr
    cases hr
    exact ⟨[], document, .root, rfl, .whole rfl⟩
  | some f =>
    obtain hrun | ⟨p, _, _, hrender⟩ := (compileMapping_eq_error_iff hf).mp hr
    · exact points_run hf r hrun
    · have hrejection := Predicate.not_isRejection_of_render hrender
      cases hrejection

end Setup

/-- Policies fail to be made only from ill-formed options, which no document is to blame for. -/
theorem Policies.eq_invalidOptions_of_resolve {a : OptionsArgument} {fault : Fault}
    (h : resolve a = .error fault) : ∃ issues, fault = .invalidOptions issues := by
  unfold resolve OptionsArgument.check at h
  split at h
  · cases h
  · split at h <;> cases h
    exact ⟨_, rfl⟩

section Compiled
variable {schema : Schema} {root : String} {document : Value} {options : OptionsArgument}

/-- Whatever a compile refuses is refused at the field keys, as the document writes them, behind
which the value that the refusal is about stands in the document, joined with points. -/
theorem compile_refusal_names_keys {failure : Failure} {r : Refusal}
    (h : (compile schema root document options).result = .error failure)
    (hr : failure.fault = .refused r) :
    ∃ keys v, document.Holds keys v ∧ r.dataKey.text = ".".intercalate keys ∧ r.Shows v := by
  cases hpolicies : Policies.resolve options with
  | error fault =>
    obtain ⟨issues, rfl⟩ := Policies.eq_invalidOptions_of_resolve hpolicies
    unfold compile at h
    rw [hpolicies] at h
    cases h
    cases hr
  | ok policies =>
    rw [compile_of_resolve hpolicies] at h
    obtain ⟨fault, hfault, rfl⟩ := error_of_mapError h
    obtain rfl : fault = .refused r := hr
    obtain ⟨_, hmapping⟩ := Setup.compile_eq_error_iff.mp hfault
    obtain ⟨keys, v, hholds, hkey, hshows⟩ := Setup.points_compileMapping r hmapping
    exact ⟨keys, v, hholds, by rw [hkey, Path.text_flatMap_ofText], hshows⟩

end Compiled

namespace Sample

def sizedDocument : Value := .ofEntries
  [("$or", .list [.ofEntries [("songs.0.lists.label", .ofEntries [("$size", .text "x")])]])]

def sizedRefusal : Refusal :=
  ⟨.invalidOperator, ["songs", "0", "lists", "label"], .text "x", some "$size"⟩

/-- The key is split twice on its way to the operator, and reported as a whole, by its outer
name. -/
theorem compile_refusal_names_keys_sized :
    (compile catalog.schema "Album" sizedDocument (.settings nicknameOptions)).result =
        .error (.of .plain (.refused sizedRefusal)) ∧
      sizedRefusal.dataKey.text = "songs.0.lists.label" ∧
      ∃ keys v, sizedDocument.Holds keys v ∧
        sizedRefusal.dataKey.text = ".".intercalate keys ∧ sizedRefusal.Shows v := by
  have h : (compile catalog.schema "Album" sizedDocument (.settings nicknameOptions)).result =
      .error (.of .plain (.refused sizedRefusal)) := rfl
  exact ⟨h, by decide +kernel, compile_refusal_names_keys h rfl⟩

end Sample
end RowFilter
