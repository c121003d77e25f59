import RowFilter.Proofs.Definitions
import RowFilter.Proofs.OpenKeys
import RowFilter.Proofs.Prefixed
import RowFilter.Proofs.Rendering

/-!
# Documents behind a relation

A document in a scope on a relation asks of the related rows what it asks by itself of the rows of
the related model. Nothing of the predicate changes but its paths, which begin with the name of
the relation.

The document is read twice, from the related model and from the model around the relation, and
the two readings go side by side: every place of the first is a place of the second under the
name of the relation. A path resolves from there to the same steps behind one more, so that all
keys are split at the same segments.
-/

namespace RowFilter

/-! ## Two readings -/

namespace Traced
variable {α β : Type}

/-- Whatever the first comes to, the second comes to what is made of it. -/
def Carries (g : α → β) (x : Traced α) (y : Traced β) : Prop :=
  ∀ a, x.result = .ok a → y.result = .ok (g a)

theorem carries_pure {g : α → β} {a : α} {b : β} (h : g a = b) :
    Carries g (pure a) (pure b : Traced β) := by
  rintro _ ⟨⟩
  exact congrArg Except.ok h.symm

theorem carries_refuse {g : α → β} {cause : Cause} {dataKey : Path} {filter : Value}
    {op : Option String} {y : Traced β} : Carries g (refuse cause dataKey filter op) y :=
  fun a h => absurd h (refuse_result_ne_ok cause dataKey filter op a)

theorem carries_bind {α' β' : Type} {g : α → β} {g' : α' → β'} {x : Traced α} {y : Traced β}
    {k : α → Traced α'} {l : β → Traced β'} (hx : Carries g x y)
    (h : ∀ a, x.result = .ok a → Carries g' (k a) (l (g a))) :
    Carries g' (x >>= k) (y >>= l) := by
  intro b hb
  obtain ⟨a, ha, hb⟩ := bind_result_eq_ok_iff.mp hb
  exact bind_result_eq_ok_iff.mpr ⟨g a, hx a ha, h a ha b hb⟩

theorem carries_mapM {γ : Type} {g : α → β} {k : γ → Traced α} {l : γ → Traced β} {xs : List γ}
    (h : ∀ x ∈ xs, Carries g (k x) (l x)) : Carries (List.map g) (xs.mapM k) (xs.mapM l) := by
  induction xs with
  | nil => exact carries_pure rfl
  | cons x xs ih =>
    obtain ⟨hx, hxs⟩ := List.forall_mem_cons.mp h
    rw [List.mapM_cons, List.mapM_cons]
    exact carries_bind hx fun a _ => carries_bind (ih hxs) fun as _ => carries_pure rfl

theorem mapM_singleton {γ : Type} (k : γ → Traced α) (x : γ) :
    [x].mapM k = do return [← k x] := by
  simp [List.mapM_cons]

theorem mapM_singleton_result {γ : Type} {k : γ → Traced α} {x : γ} {a : α}
    (h : (k x).result = .ok a) : ([x].mapM k).result = .ok [a] := by
  rw [mapM_singleton, return_result, h]
  rfl

end Traced

/-! ## The setting

Nothing stands in the way of the second reading: no policy is in force, and the name of the
relation is one that paths accept.
-/

/-- Every field may be asked about under its own name, without conditions and limits. -/
structure Policies.Unrestricted (policies : Policies) : Prop where
  whitelist : policies.whitelist = .everything
  conditions : policies.conditions = .none
  translator : policies.translator = none
  limit : policies.limit = none

theorem Policies.Unrestricted.isWhitelisted_cons {policies : Policies} (h : policies.Unrestricted)
    {schema : Schema} {root segment : String} (hne : segment ≠ "") (p : Path) :
    (policies.isWhitelisted schema root (segment :: p)).result = .ok true := by
  rw [isWhitelisted, h.whitelist]
  exact congrArg Except.ok (decide_eq_true (Path.text_cons_ne_empty hne p))

theorem Policies.unrestricted_default : (Policies.ofOptions .empty).Unrestricted :=
  ⟨rfl, rfl, rfl, rfl⟩

/-- A relation of the model of this name, under a name that paths accept. -/
structure Schema.Relates (schema : Schema) (root r : String) (relation : RelationField) :
    Prop where
  found : schema.field? root r = some (.relation relation)
  names : schema.NamesNoIndex
  plain : Path.IsPlain r
  safe : Path.IsSafe r

theorem Definition.relates_of_define {definition : Value} {catalog : Catalog}
    (h : define definition = .ok catalog) {root r : String} {relation : RelationField}
    (hfound : catalog.schema.field? root r = some (.relation relation)) :
    catalog.schema.Relates root r relation := by
  have hname : IsName r := isName_of_field? h (by rw [hfound]; rfl)
  exact ⟨hfound, namesNoIndex_of_define h, hname.isPlain, hname.isSafe⟩

namespace Outline
open Traced

variable {schema : Schema} {root r : String} {relation : RelationField} {policies : Policies}
  (hr : schema.Relates root r relation) (hp : policies.Unrestricted) {place : Place}

/-- The keys that are open were cut from texts. -/
def IsPlainPlace (place : Place) : Prop := ∀ segment ∈ place.key.external, Path.IsPlain segment

theorem IsPlainPlace.enter {key inner : Path} (h : IsPlainPlace place)
    (hkey : ∀ segment ∈ key, Path.IsPlain segment) : IsPlainPlace (place.enter ⟨key, inner⟩) := by
  intro segment hsegment
  obtain hsegment | hsegment := List.mem_append.mp hsegment
  · exact h segment hsegment
  · exact hkey segment hsegment

/-! ## Fields -/

/-- Of two readings, the second comes under the name to whatever the first comes to. -/
def Lifts (r : String) (x y : Place → Traced Outline) : Prop :=
  ∀ place, IsPlainPlace place → Carries (under [r]) (x place) (y (place.under [r]))

theorem lifts_refuse {cause : Cause} {key : Place → Path} {filter : Value} {op : Option String}
    {y : Place → Traced Outline} : Lifts r (fun place => refuse cause (key place) filter op) y :=
  fun _ _ => carries_refuse

section Fields
include hr

theorem isIndex_of_relates : Path.isIndex r = false :=
  hr.names root r (by rw [hr.found]; rfl)

theorem strip_cons (p : Path) : Path.strip (r :: p) = r :: p.strip := by
  rw [Path.strip, List.filter_cons_of_pos (by simp [isIndex_of_relates hr])]
  rfl

theorem path_under : (place.under [r]).path = [r] ++ place.path :=
  strip_cons hr place.key.internal

/-- A path takes one more step under the relation. -/
theorem resolve_under {p dataKey : Path} {steps : List Step}
    (h : (Traversal.resolve ⟨schema, relation.target, policies⟩ p dataKey).result = .ok steps)
    (hroot : p.isRoot = false) (dataKey' : Path) :
    (Traversal.resolve ⟨schema, root, policies⟩ (r :: p) dataKey').result =
      .ok (⟨r, some (.relation relation), root⟩ :: steps) := by
  show (schema.resolve root (r :: p)).mapError _ = _
  rw [Schema.resolve_behind hr.names hr.safe hr.found (resolve_of_traversal h) hroot]
  rfl

theorem fieldAt?_under {f : Field}
    (h : (fieldAt? ⟨schema, relation.target, policies⟩ place).result = .ok (some f)) :
    (fieldAt? ⟨schema, root, policies⟩ (place.under [r])).result = .ok (some f) := by
  obtain ⟨steps, hsteps, hleaf⟩ := bind_result_eq_ok_iff.mp h
  replace hleaf : leaf? steps = some f := Except.ok.inj hleaf
  have hroot := Schema.isRoot_of_leaf? (resolve_of_traversal hsteps) hleaf
  refine bind_result_eq_ok_iff.mpr ⟨_, resolve_under hr hsteps hroot _, ?_⟩
  have hne : steps ≠ [] := by
    rintro rfl
    cases hleaf
  rw [Schema.leaf?_cons _ hne, hleaf]
  rfl

/-- An operator comes to the same at a place under the relation. -/
theorem lifts_ofOperator (token : String) (value : Value) :
    Lifts r (ofOperator ⟨schema, relation.target, policies⟩ token value)
      (ofOperator ⟨schema, root, policies⟩ token value) := by
  intro place _ o h
  unfold ofOperator at h ⊢
  dsimp only at h ⊢
  split at h
  · exact absurd h (refuse_result_ne_ok _ _ _ _ _)
  · obtain ⟨target, htarget, h⟩ := bind_result_eq_ok_iff.mp h
    cases target with
    | none => exact absurd h (refuse_result_ne_ok _ _ _ _ _)
    | some target =>
      obtain ⟨p, hevaluate, h⟩ := bind_result_eq_ok_iff.mp h
      cases h
      refine bind_result_eq_ok_iff.mpr ⟨_, fieldAt?_under hr htarget, ?_⟩
      refine bind_result_eq_ok_iff.mpr ⟨p.under [r], ?_, rfl⟩
      rw [path_under hr]
      exact Field.evaluate_under hevaluate _

end Fields

/-! ## Keys -/

section Opening

variable {value : Value} {inside onRelation : Place → Traced Outline}

/-- The checks of a key at a place, passed. -/
structure Opens (setup : Setup) (value : Value) (place : Place) (key inner : Path)
    (steps : List Step) : Prop where
  safe : ∀ segment ∈ key, Path.IsSafe segment
  named : (Traversal.innerKey setup key (place.key.external ++ key) value).result = .ok inner
  granted : (setup.policies.isWhitelisted setup.schema setup.root
    (place.key.internal ++ inner).strip).result = .ok true
  closed : place.isField = false
  resolved : (Traversal.resolve setup (place.key.internal ++ inner)
    (place.key.external ++ key)).result = .ok steps

/-- A key comes to what it is opened to, if it passes its checks. -/
theorem ofKey_eq_ok_iff {setup : Setup} {key : Path} {o : Outline} :
    (ofKey setup value inside onRelation key place).result = .ok o ↔
      ∃ inner steps content, Opens setup value place key inner steps ∧
        (ofOpened setup value inside onRelation ⟨key, inner⟩ steps place).result = .ok content ∧
        o = .field (place.key.internal ++ inner).strip content := by
  rw [ofKey_eq_ofOpened]
  constructor
  · intro h
    obtain ⟨_, hcheck, h⟩ := bind_result_eq_ok_iff.mp h
    obtain ⟨inner, hnamed, h⟩ := bind_result_eq_ok_iff.mp h
    obtain ⟨allowed, hgranted, h⟩ := bind_result_eq_ok_iff.mp h
    cases allowed with
    | false => exact absurd h (refuse_result_ne_ok _ _ _ _ _)
    | true =>
      rw [Bool.not_true, if_neg Bool.false_ne_true] at h
      split at h
      · exact absurd h (refuse_result_ne_ok _ _ _ _ _)
      · next hclosed =>
        obtain ⟨steps, hresolved, h⟩ := bind_result_eq_ok_iff.mp h
        obtain ⟨content, hcontent, h⟩ := bind_result_eq_ok_iff.mp h
        cases h
        exact ⟨inner, steps, content, ⟨(Path.check_eq_ok_iff _ _).mp hcheck, hnamed, hgranted,
          by simpa using hclosed, hresolved⟩, hcontent, rfl⟩
  · rintro ⟨inner, steps, content, h, hcontent, rfl⟩
    refine bind_result_eq_ok_iff.mpr ⟨(), (Path.check_eq_ok_iff _ _).mpr h.safe, ?_⟩
    refine bind_result_eq_ok_iff.mpr ⟨inner, h.named, ?_⟩
    refine bind_result_eq_ok_iff.mpr ⟨true, h.granted, ?_⟩
    rw [Bool.not_true, if_neg Bool.false_ne_true, h.closed, if_neg Bool.false_ne_true]
    refine bind_result_eq_ok_iff.mpr ⟨steps, h.resolved, ?_⟩
    exact bind_result_eq_ok_iff.mpr ⟨content, hcontent, rfl⟩

end Opening

section Keys

variable {value : Value} {inside inside' onRelation onRelation' : Place → Traced Outline}
  {key : Path}

/-- Without a translator a key is called what it is. -/
theorem innerKey_of_untranslated {setup : Setup} (htranslator : setup.policies.translator = none)
    {outer : Path} (hne : key ≠ []) (hplain : ∀ segment ∈ outer ++ key, Path.IsPlain segment) :
    (Traversal.innerKey setup key (outer ++ key) value).result = .ok key := by
  have hwhole : Path.ofText (outer ++ key).text = outer ++ key :=
    Path.ofText_text (List.append_ne_nil_of_right_ne_nil _ hne) hplain
  refine (Traversal.innerKey_eq_ok_iff hne).mpr ⟨(outer ++ key).text, ?_, ?_, ?_⟩
  · rw [Policies.translate, htranslator]
    rfl
  · rw [hwhole, List.length_append]
    exact Nat.le_add_left _ _
  · rw [Traversal.lastSegments, hwhole, List.length_append, Nat.add_sub_cancel, List.drop_left]

include hp

theorem ofScope_of_body {body : Place → Traced Outline} {inside : Outline}
    (htarget : (fieldAt? ⟨schema, root, policies⟩ place).result = .ok (some (.relation relation)))
    (hinside : (body place.inScope).result = .ok inside) :
    (ofScope ⟨schema, root, policies⟩ value body place).result =
      .ok (.scope relation place.path [] inside) := by
  have hread : (policies.conditionsFor place.path).result = .ok [] := by
    rw [Policies.conditionsFor, hp.conditions]
    rfl
  refine bind_result_eq_ok_iff.mpr ⟨_, htarget, ?_⟩
  refine bind_result_eq_ok_iff.mpr ⟨_, hread, ?_⟩
  refine bind_result_eq_ok_iff.mpr ⟨(), rfl, ?_⟩
  exact bind_result_eq_ok_iff.mpr ⟨_, hinside, rfl⟩

include hr

theorem lifts_ofScope {body body' : Place → Traced Outline} (value' : Value)
    (hbody : Lifts r body body') :
    Lifts r (ofScope ⟨schema, relation.target, policies⟩ value body)
      (ofScope ⟨schema, root, policies⟩ value' body') := by
  intro place hplace o h
  obtain ⟨relation', conditions, inside, rfl, htarget, hconditions, hinside⟩ :=
    exists_of_yields_ofScope (yields_self h)
  have hnone : conditions = [] := Policies.noConditions_of_none hp.conditions _ _ hconditions
  have hinside' := hbody place.inScope hplace inside hinside.result
  rw [ofScope_of_body hp (fieldAt?_under hr htarget) hinside', hnone, path_under hr]
  rfl

/-- The next relation on the way of a key is the same under the relation. -/
theorem carries_ofOpened (hinside : Lifts r inside inside')
    (honRelation : Lifts r onRelation onRelation')
    (hplain : ∀ segment ∈ key, Path.IsPlain segment) (hplace : IsPlainPlace place)
    (hrest : ∀ rest : Path, rest ≠ [] → (∀ segment ∈ rest, Path.IsPlain segment) →
      rest.length < key.length →
        Lifts r (ofKey ⟨schema, relation.target, policies⟩ value inside onRelation rest)
          (ofKey ⟨schema, root, policies⟩ value inside' onRelation' rest))
    (steps : List Step) :
    Carries (under [r])
      (ofOpened ⟨schema, relation.target, policies⟩ value inside onRelation ⟨key, key⟩ steps place)
      (ofOpened ⟨schema, root, policies⟩ value inside' onRelation' ⟨key, key⟩
        (⟨r, some (.relation relation), root⟩ :: steps) (place.under [r])) := by
  have hdepth : (place.under [r]).key.internal.length = place.key.internal.length + 1 := by
    simp [Place.under]
  unfold ofOpened
  rw [hdepth, find?_crossings_cons]
  cases (crossings steps).find? (place.key.internal.length ≤ ·) with
  | none =>
    rw [Option.map_none, ← Place.under_enter]
    exact hinside _ (hplace.enter hplain)
  | some next =>
    -- the relation and the open keys are both one step further on: as much of the key is opened
    have hwidth : next + 1 - (place.key.internal.length + 1) + 1 =
        next - place.key.internal.length + 1 := by omega
    have hpos : 0 < next - place.key.internal.length + 1 := Nat.succ_pos _
    simp only [Option.map_some, hwidth, ← Place.under_enter]
    generalize next - place.key.internal.length + 1 = width at hpos
    have hhere : IsPlainPlace (place.enter ⟨key.take width, key.take width⟩) :=
      hplace.enter fun segment hsegment => hplain segment (List.mem_of_mem_take hsegment)
    cases hdrop : key.drop width with
    | nil => exact honRelation _ hhere
    | cons first rest =>
      have hrestPlain : ∀ segment ∈ first :: rest, Path.IsPlain segment :=
        fun segment hsegment => hplain segment (List.mem_of_mem_drop (hdrop ▸ hsegment))
      exact lifts_ofScope hr hp _
        (hrest _ (List.cons_ne_nil _ _) hrestPlain (length_lt_of_drop_eq hdrop hpos)) _ hhere

/-- A key that is opened at a place is opened under the relation, by one more step. -/
theorem Opens.under {inner : Path} {steps : List Step} (hne : key ≠ [])
    (hdataKey : ∀ segment ∈ place.key.external ++ key, Path.IsPlain segment)
    (h : Opens ⟨schema, relation.target, policies⟩ value place key inner steps) :
    inner = key ∧ Opens ⟨schema, root, policies⟩ value (place.under [r]) key key
      (⟨r, some (.relation relation), root⟩ :: steps) := by
  have hinner := h.named
  rw [innerKey_of_untranslated hp.translator hne hdataKey] at hinner
  cases hinner
  refine ⟨rfl, h.safe, ?_, ?_, h.closed, ?_⟩
  · refine innerKey_of_untranslated hp.translator hne ?_
    exact List.forall_mem_cons.mpr ⟨hr.plain, hdataKey⟩
  · show (policies.isWhitelisted schema root
      (Path.strip (r :: (place.key.internal ++ key)))).result = _
    rw [strip_cons hr]
    exact hp.isWhitelisted_cons hr.safe.ne_empty _
  · exact resolve_under hr h.resolved (Path.isRoot_append hne h.safe) _

/-- A key is split at the same segments under the relation. -/
theorem lifts_ofKey (hinside : Lifts r inside inside')
    (honRelation : Lifts r onRelation onRelation')
    (hne : key ≠ []) (hplain : ∀ segment ∈ key, Path.IsPlain segment) :
    Lifts r (ofKey ⟨schema, relation.target, policies⟩ value inside onRelation key)
      (ofKey ⟨schema, root, policies⟩ value inside' onRelation' key) := by
  induction hn : key.length using Nat.strongRecOn generalizing key with
  | ind n ih =>
    intro place hplace o h
    obtain ⟨inner, steps, content, hopens, hcontent, rfl⟩ := ofKey_eq_ok_iff.mp h
    have hdataKey : ∀ segment ∈ place.key.external ++ key, Path.IsPlain segment :=
      fun segment hsegment =>
        (List.mem_append.mp hsegment).elim (hplace segment) (hplain segment)
    obtain ⟨rfl, hopens'⟩ := hopens.under hr hp hne hdataKey
    have hbelow := carries_ofOpened hr hp hinside honRelation hplain hplace
      (fun rest hne hplain hlt => ih _ (hn ▸ hlt) hne hplain rfl) steps content hcontent
    refine ofKey_eq_ok_iff.mpr ⟨_, _, _, hopens', hbelow, ?_⟩
    exact congrArg (Outline.field · (content.under [r])) (strip_cons hr _).symm

end Keys

/-! ## Documents -/

section Documents

variable {setup setup' : Setup}

theorem lifts_ofFragment {f : Fragment}
    (h : ∀ e ∈ f, Lifts r (ofEntry setup e) (ofEntry setup' e)) :
    Lifts r (ofFragment setup f) (ofFragment setup' f) := by
  intro place hplace
  unfold ofFragment
  rw [ofEntries_eq_mapM, ofEntries_eq_mapM]
  refine carries_bind (carries_mapM fun e he => h e he place hplace) fun os _ => ?_
  exact carries_pure (joined_under os)

theorem lifts_ofValue {v : Value} {otherwise otherwise' : Place → Traced Outline}
    (h : ∀ f, v.mapping? = some f → ∀ e ∈ f, Lifts r (ofEntry setup e) (ofEntry setup' e))
    (hotherwise : Lifts r otherwise otherwise') :
    Lifts r (ofValue setup otherwise v) (ofValue setup' otherwise' v) := by
  cases hf : v.mapping? with
  | none =>
    rw [ofValue_of_mapping?_eq_none hf, ofValue_of_mapping?_eq_none hf]
    exact hotherwise
  | some f =>
    rw [ofValue_of_mapping? hf, ofValue_of_mapping? hf]
    exact lifts_ofFragment (h f hf)

theorem carries_ofList (op : String) {v : Value}
    (h : ∀ fs, v.fragments? = some fs → ∀ f ∈ fs, ∀ e ∈ f,
      Lifts r (ofEntry setup e) (ofEntry setup' e)) (hplace : IsPlainPlace place) :
    Carries (List.map (under [r])) (ofList setup op v place)
      (ofList setup' op v (place.under [r])) := by
  cases hfs : v.fragments? with
  | none =>
    rw [ofList_of_fragments?_eq_none hfs]
    exact carries_refuse
  | some fs =>
    rw [ofList_of_fragments? hfs, ofList_of_fragments? hfs]
    exact carries_mapM fun f hf => lifts_ofFragment (h fs hfs f hf) place hplace

theorem ofEntry_elemMatch {d : Value} {f : Fragment} (hfield : place.isField = true)
    (hf : d.mapping? = some f) :
    ofEntry setup ("$elemMatch", d) place = ofScope setup d (ofFragment setup f) place := by
  have hkey : DocumentKey.ofText "$elemMatch" = .elemMatch := by decide +kernel
  have hopen : (place.isField && d.isMapping) = true := by
    rw [hfield, Value.isMapping, hf]
    rfl
  unfold ofEntry
  rw [hkey]
  dsimp only
  rw [if_pos hopen, ofValue_of_mapping? hf]

include hr hp

theorem lifts_ofRelationValue {v : Value}
    (h : ∀ f, v.mapping? = some f → ∀ e ∈ f,
      Lifts r (ofEntry ⟨schema, relation.target, policies⟩ e)
        (ofEntry ⟨schema, root, policies⟩ e)) :
    Lifts r (ofRelationValue ⟨schema, relation.target, policies⟩ v)
      (ofRelationValue ⟨schema, root, policies⟩ v) := by
  intro place hplace
  cases hf : v.mapping? with
  | none =>
    rw [ofRelationValue_of_mapping?_eq_none hf]
    exact carries_refuse
  | some f =>
    rcases f with _ | ⟨e, f⟩
    · rw [ofRelationValue_of_empty hf]
      exact carries_refuse
    · have hne : e :: f ≠ [] := List.cons_ne_nil _ _
      rw [ofRelationValue_of_mapping? hf hne, ofRelationValue_of_mapping? hf hne]
      refine carries_bind (carries_mapM fun e he => ?_) fun os _ =>
        carries_pure (congrArg Outline.all (underAll_eq_map os))
      unfold ofRelationEntry
      split
      · exact h _ hf e he place hplace
      · exact lifts_ofScope hr hp _ (h _ hf e he) place hplace

/-- Every entry comes to the same at a place under the relation. -/
theorem lifts_ofEntry (e : String × Value) :
    Lifts r (ofEntry ⟨schema, relation.target, policies⟩ e)
      (ofEntry ⟨schema, root, policies⟩ e) := by
  induction e using Value.entry_induction with
  | entry key v hmapping hfragments =>
    intro place hplace
    have hlist (op : String) := carries_ofList op hfragments hplace
    unfold ofEntry
    cases DocumentKey.ofText key with
    | all => exact carries_bind (hlist key) fun os _ =>
        carries_pure (congrArg Outline.all (underAll_eq_map os))
    | any => exact carries_bind (hlist key) fun os _ =>
        carries_pure (congrArg Outline.any (underAll_eq_map os))
    | none => exact carries_bind (hlist "$nor") fun os _ =>
        carries_pure (congrArg (Outline.not ∘ Outline.any) (underAll_eq_map os))
    | not => exact carries_bind (lifts_ofValue hmapping lifts_refuse place hplace) fun o _ =>
        carries_pure rfl
    | elemMatch =>
      dsimp only
      split
      · next hopen =>
        have hopen' : ((place.under [r]).isField && v.isMapping) = true := hopen
        rw [if_pos hopen']
        refine lifts_ofScope hr hp v (lifts_ofValue hmapping ?_) place hplace
        exact fun _ _ => carries_pure rfl
      · exact carries_refuse
    | operator token => exact lifts_ofOperator hr token v place hplace
    | field text =>
      exact lifts_ofKey hr hp (lifts_ofValue hmapping (lifts_ofOperator hr "$eq" v))
        (lifts_ofRelationValue hr hp hmapping) (Path.ofText_ne_nil text)
        (fun _ => Path.isPlain_of_mem_ofText) place hplace

/-! ## A document in a scope -/

/-- The name of the relation by itself is a key that opens the relation. -/
theorem opens_relation (value : Value) :
    Opens ⟨schema, root, policies⟩ value .root [r] [r]
      [⟨r, some (.relation relation), root⟩] := by
  have hsafe : ∀ segment ∈ [r], Path.IsSafe segment := by simpa using hr.safe
  have hplain : ∀ segment ∈ [r], Path.IsPlain segment := by simpa using hr.plain
  have hwalk : schema.walk root none [r] = .ok [⟨r, some (.relation relation), root⟩] :=
    Schema.walk_cons_of_field rfl (isIndex_of_relates hr) hr.found rfl
  have hresolve : schema.resolve root [r] = .ok [⟨r, some (.relation relation), root⟩] :=
    Schema.resolve_of_walk hsafe hwalk rfl
  refine ⟨hsafe, ?_, ?_, rfl, ?_⟩
  · exact innerKey_of_untranslated hp.translator (List.cons_ne_nil _ _) hplain
  · show (policies.isWhitelisted schema root (Path.strip (r :: []))).result = _
    rw [strip_cons hr]
    exact hp.isWhitelisted_cons hr.safe.ne_empty _
  · show (schema.resolve root [r]).mapError _ = _
    rw [hresolve]
    rfl

/-- A key that is the name of the relation comes to what its value comes to there. -/
theorem ofKey_relation {value : Value} {inside onRelation : Place → Traced Outline}
    {content : Outline}
    (h : (onRelation (Place.root.enter ⟨[r], [r]⟩)).result = .ok content) :
    (ofKey ⟨schema, root, policies⟩ value inside onRelation [r] .root).result =
      .ok (.field [r] content) := by
  refine ofKey_eq_ok_iff.mpr ⟨_, _, content, opens_relation hr hp value, h, ?_⟩
  exact congrArg (Outline.field · content) (strip_cons hr []).symm

/-- A document in a scope on the relation is read as it is read from the related model. -/
theorem ofDocument_scope {d : Value} {f : Fragment} {o : Outline} (hf : d.mapping? = some f)
    (h : (ofDocument ⟨schema, relation.target, policies⟩ f).result = .ok o) :
    (ofDocument ⟨schema, root, policies⟩ [(r, .ofEntries [("$elemMatch", d)])]).result =
      .ok (.field [r] (.all [.scope relation [r] [] (o.under [r])])) := by
  have hbody : (ofFragment ⟨schema, root, policies⟩ f (Place.root.under [r])).result =
      .ok (o.under [r]) :=
    lifts_ofFragment (fun e _ => lifts_ofEntry hr hp e) .root (fun _ h => nomatch h) o h
  have htarget : (fieldAt? ⟨schema, root, policies⟩ (Place.root.enter ⟨[r], [r]⟩)).result =
      .ok (some (.relation relation)) :=
    bind_result_eq_ok_iff.mpr ⟨_, (opens_relation hr hp d).resolved, rfl⟩
  have hpath : (Place.root.enter ⟨[r], [r]⟩).path = [r] := strip_cons hr []
  have hscope : (ofRelationEntry ⟨schema, root, policies⟩ ("$elemMatch", d)
      (Place.root.enter ⟨[r], [r]⟩)).result = .ok (.scope relation [r] [] (o.under [r])) := by
    rw [ofRelationEntry, if_pos (.inl rfl), ofEntry_elemMatch rfl hf,
      ofScope_of_body hp htarget hbody, hpath]
  have hname : DocumentKey.ofText r = .field r := DocumentKey.ofText_of_head hr.safe.head.2
  rw [ofDocument, ofFragment_singleton, ofEntry, hname]
  dsimp only
  rw [Path.ofText_of_isPlain hr.plain]
  refine ofKey_relation hr hp ?_
  rw [ofRelationValue_of_mapping? (f := [("$elemMatch", d)]) rfl (List.cons_ne_nil _ _)]
  exact bind_result_eq_ok_iff.mpr ⟨_, mapM_singleton_result hscope, rfl⟩

end Documents

end Outline

/-! ## Compiled documents -/

namespace Predicate

/-- The path plays no part in whether a predicate can be rendered. -/
theorem renders_under_iff (outer : Path) (p : Predicate) :
    (p.under outer).Renders ↔ p.Renders := by
  induction p using induction with
  | all ps ih =>
    rw [under, underAll_eq_map, renders_all_iff, renders_all_iff, List.forall_mem_map]
    exact forall₂_congr ih
  | any ps ih =>
    rw [under, underAll_eq_map, renders_any_iff, renders_any_iff, List.forall_mem_map]
    exact forall₂_congr ih
  | not p ih => rw [under, renders_not_iff, renders_not_iff, ih]
  | related relation path inner ih => rw [under, renders_related_iff, renders_related_iff, ih]
  | test field path c => rw [under, renders_test_iff, renders_test_iff]

theorem conjunction_toList (p : Option Predicate) : conjunction p.toList = p.getD true := by
  cases p <;> rfl

end Predicate

theorem Outline.predicate_scope (relation : RelationField) (r : String) (o : Outline) :
    (field [r] (.all [.scope relation [r] [] (o.under [r])])).predicate =
      .related relation [r] (o.predicate.under [r]) := by
  show Predicate.related relation [r] (.conjunction (o.under [r]).node?.toList) = _
  rw [Predicate.conjunction_toList, ← predicate_under, predicate]

section Compiled
variable {definition : Value} {catalog : Catalog} {root r : String} {relation : RelationField}
  {d : Value} {options : OptionsArgument} {policies : Policies} {q : Predicate}

/-- Without policies that restrict it, such as those of the default options, a document that
compiles for the model that a relation leads to compiles in a scope on the relation, for the model
around it. The predicate asks whether a related row exists of which the predicate of the document
holds, with the name of the relation before each of its paths. -/
theorem compile_scope (hdefine : Definition.define definition = .ok catalog)
    (hr : catalog.schema.field? root r = some (.relation relation))
    (hpolicies : Policies.resolve options = .ok policies) (hp : policies.Unrestricted)
    (h : (compile catalog.schema relation.target d options).result = .ok (some q)) :
    (compile catalog.schema root (.ofEntries [(r, .ofEntries [("$elemMatch", d)])])
      options).result = .ok (some (.related relation [r] (q.under [r]))) := by
  have hrelates := Definition.relates_of_define hdefine hr
  obtain ⟨f, o, hf, ho, rfl⟩ := Setup.exists_outline_of_compile (yields_of_compile hpolicies h)
  rw [← Outline.predicate_scope]
  refine compile_of_outline hpolicies hp.limit rfl
    (Outline.ofDocument_scope hrelates hp hf ho.result) fun hlive => ?_
  rw [Outline.predicate_scope, Predicate.renders_related_iff, Predicate.renders_under_iff]
  exact renders_of_compile hpolicies h hlive

end Compiled

namespace Sample

/-- Asks of a track for alternatives on both sides of its relations. -/
def trackDocument : Value := .ofEntries
  [("$or", .list [.ofEntries [("name", .text "x")],
      .ofEntries [("playlists.0.tracks.milliseconds",
        .ofEntries [("$lt", .number (.ofNat 60000))])]]),
    ("album", .ofEntries [("$exists", .bool false)])]

def trackPredicate : Predicate := .all
  [.any [.test ⟨"name", "Track", .scalar .text⟩ ["name"] (.compare .eq (.text "x")),
      .related playlists ["playlists"] (.related ⟨"tracks", "Playlist", "Track", .many⟩
        ["playlists", "tracks"] (.test milliseconds ["playlists", "tracks", "milliseconds"]
          (.compare .lt (.number (.ofNat 60000)))))],
    .not (.related ⟨"album", "Track", "Album", .one⟩ ["album"] .true)]

theorem compile_trackDocument :
    (compile catalog.schema "Track" trackDocument .absent).result =
      .ok (some trackPredicate) := by
  rfl

theorem compile_scope_tracks :
    Definition.define definition = .ok catalog ∧
      catalog.schema.field? "Album" "tracks" = some (.relation tracks) ∧
      Policies.resolve .absent = .ok (.ofOptions .empty) ∧
      (Policies.ofOptions .empty).Unrestricted ∧
      (compile catalog.schema "Track" trackDocument .absent).result =
        .ok (some trackPredicate) ∧
      (compile catalog.schema "Album"
          (.ofEntries [("tracks", .ofEntries [("$elemMatch", trackDocument)])])
          .absent).result =
        .ok (some (.related tracks ["tracks"] (trackPredicate.under ["tracks"]))) :=
  ⟨define_definition, rfl, rfl, Policies.unrestricted_default, compile_trackDocument,
    compile_scope define_definition rfl rfl Policies.unrestricted_default compile_trackDocument⟩

end Sample
end RowFilter
