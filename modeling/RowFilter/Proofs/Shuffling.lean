import RowFilter.Proofs.Alternatives
import RowFilter.Proofs.Matching

/-!
# The order of a document

The entries of a mapping that is read as a document, and the documents in a list, may stand in
any order. A document and another one that differs in the order of such entries, at any depth,
compile both or not at all, and to predicates that hold of the same rows.

The two readings go side by side. What the entries come to stands in another order in the second
reading, and what is made of them is a conjunction or a disjunction, which asks for the same in
every order.
-/

namespace RowFilter

/-! ## Documents in another order -/

/-- What a value is read as: a document, a list of documents, or an operand. -/
inductive Reading where
  | document
  | documents
  | operand

/-- What the value under a key is read as. -/
def DocumentKey.reading : DocumentKey → Reading
  | .all | .any | .none => .documents
  | .not | .elemMatch | .field _ => .document
  | .operator _ => .operand

namespace Value

/-- The second value is the first up to the order of entries and documents. The changes go
through the entries of both mappings, or the items of both lists, in an order of their own. -/
inductive Shuffled : Reading → Value → Value → Prop
  | same (reading : Reading) (v : Value) : Shuffled reading v v
  | entries {v w : Value} {f g : Fragment} (changes : List (String × Value × Value)) :
      v.mapping? = some f → w.mapping? = some g →
      f.Perm (changes.map fun c => (c.1, c.2.1)) → g.Perm (changes.map fun c => (c.1, c.2.2)) →
      (∀ c ∈ changes, Shuffled (DocumentKey.ofText c.1).reading c.2.1 c.2.2) →
      Shuffled .document v w
  | items {vs ws : List Value} (changes : List (Value × Value)) :
      vs.Perm (changes.map Prod.fst) → ws.Perm (changes.map Prod.snd) →
      (∀ c ∈ changes, Shuffled .document c.1 c.2) → Shuffled .documents (.list vs) (.list ws)

namespace Shuffled
variable {v w : Value} {reading : Reading}

theorem symm (h : Shuffled reading v w) : Shuffled reading w v := by
  induction h with
  | same reading v => exact .same reading v
  | entries changes hv hw hf hg _ ih =>
    refine .entries (changes.map fun c => (c.1, c.2.2, c.2.1)) hw hv ?_ ?_ ?_
    · simpa [Function.comp_def] using hg
    · simpa [Function.comp_def] using hf
    · exact List.forall_mem_map.mpr ih
  | items changes hvs hws _ ih =>
    refine .items (changes.map Prod.swap) ?_ ?_ ?_
    · simpa [Function.comp_def] using hws
    · simpa [Function.comp_def] using hvs
    · exact List.forall_mem_map.mpr ih

/-- The entries of a mapping, in another order and shuffled each. -/
theorem exists_entries (h : Shuffled .document v w) {f : Fragment} (hv : v.mapping? = some f) :
    ∃ g, w.mapping? = some g ∧ ∃ changes : List (String × Value × Value),
      f.Perm (changes.map fun c => (c.1, c.2.1)) ∧ g.Perm (changes.map fun c => (c.1, c.2.2)) ∧
      ∀ c ∈ changes, Shuffled (DocumentKey.ofText c.1).reading c.2.1 c.2.2 := by
  cases h with
  | same =>
    refine ⟨f, hv, f.map fun e => (e.1, e.2, e.2), ?_, ?_, ?_⟩
    · simp [Function.comp_def]
    · simp [Function.comp_def]
    · exact List.forall_mem_map.mpr fun e _ => .same _ e.2
  | entries changes hv' hw hf hg hchanges =>
    cases hv.symm.trans hv'
    exact ⟨_, hw, changes, hf, hg, hchanges⟩

theorem eq_of_mapping?_eq_none (h : Shuffled .document v w) (hv : v.mapping? = none) : w = v := by
  cases h with
  | same => rfl
  | entries _ hv' => exact absurd hv' (by simp [hv])

/-- The items of a list, in another order and shuffled each. -/
theorem exists_items {vs : List Value} (h : Shuffled .documents (.list vs) w) :
    ∃ ws, w = .list ws ∧ ∃ changes : List (Value × Value),
      vs.Perm (changes.map Prod.fst) ∧ ws.Perm (changes.map Prod.snd) ∧
      ∀ c ∈ changes, Shuffled .document c.1 c.2 := by
  cases h with
  | same =>
    refine ⟨vs, rfl, vs.map fun v => (v, v), ?_, ?_, ?_⟩
    · simp [Function.comp_def]
    · simp [Function.comp_def]
    · exact List.forall_mem_map.mpr fun v _ => .same _ v
  | items changes hvs hws hchanges => exact ⟨_, rfl, changes, hvs, hws, hchanges⟩

theorem isMapping_eq (h : Shuffled .document v w) : w.isMapping = v.isMapping := by
  cases hv : v.mapping? with
  | none => rw [h.eq_of_mapping?_eq_none hv]
  | some f =>
    obtain ⟨g, hw, _⟩ := h.exists_entries hv
    rw [isMapping, isMapping, hv, hw]
    rfl

end Shuffled
end Value

/-! ## The same in another order -/

/-- Each member of one list has a counterpart in the other. -/
structure Corresponds {α β : Type} (R : α → β → Prop) (xs : List α) (ys : List β) : Prop where
  left : ∀ x ∈ xs, ∃ y ∈ ys, R x y
  right : ∀ y ∈ ys, ∃ x ∈ xs, R x y

theorem Corresponds.eq_nil_iff {α β : Type} {R : α → β → Prop} {xs : List α} {ys : List β}
    (h : Corresponds R xs ys) : xs = [] ↔ ys = [] := by
  simp only [List.eq_nil_iff_forall_not_mem]
  constructor
  · intro hxs y hy
    obtain ⟨x, hx, _⟩ := h.right y hy
    exact hxs x hx
  · intro hys x hx
    obtain ⟨y, hy, _⟩ := h.left x hx
    exact hys y hy

/-- What holds of the members alike holds of all members alike, and of some. -/
theorem Corresponds.forall_iff {α β : Type} {R : α → β → Prop} {xs : List α} {ys : List β}
    {P : α → Prop} {Q : β → Prop} (h : Corresponds R xs ys) (hPQ : ∀ x y, R x y → (P x ↔ Q y)) :
    (∀ x ∈ xs, P x) ↔ ∀ y ∈ ys, Q y := by
  constructor
  · intro hxs y hy
    obtain ⟨x, hx, hxy⟩ := h.right y hy
    exact (hPQ x y hxy).mp (hxs x hx)
  · intro hys x hx
    obtain ⟨y, hy, hxy⟩ := h.left x hx
    exact (hPQ x y hxy).mpr (hys y hy)

theorem Corresponds.exists_iff {α β : Type} {R : α → β → Prop} {xs : List α} {ys : List β}
    {P : α → Prop} {Q : β → Prop} (h : Corresponds R xs ys) (hPQ : ∀ x y, R x y → (P x ↔ Q y)) :
    (∃ x ∈ xs, P x) ↔ ∃ y ∈ ys, Q y := by
  have hnot := h.forall_iff (P := fun x => ¬P x) (Q := fun y => ¬Q y)
    fun x y hxy => not_congr (hPQ x y hxy)
  simpa using not_congr hnot

namespace Predicate

/-- Two predicates that hold of the same rows, whatever comparisons and relations mean, and can
both be rendered or not. -/
structure Alike (p q : Predicate) : Prop where
  renders : p.Renders ↔ q.Renders
  holds : ∀ (Row : Type) (I : Interpretation Row) (row : Row), p.Holds I row ↔ q.Holds I row

namespace Alike
variable {p q : Predicate} {ps qs : List Predicate}

theorem refl (p : Predicate) : Alike p p := ⟨Iff.rfl, fun _ _ _ => Iff.rfl⟩

theorem not (h : Alike p q) : Alike p.not q.not where
  renders := by rw [renders_not_iff, renders_not_iff, h.renders]
  holds Row I row := by rw [holds_not_iff, holds_not_iff, h.holds]

theorem related (h : Alike p q) (relation : RelationField) (path : Path) :
    Alike (.related relation path p) (.related relation path q) where
  renders := by rw [renders_related_iff, renders_related_iff, h.renders]
  holds Row I row := by simp only [holds_related_iff, h.holds]

theorem conjunction (h : Corresponds Alike ps qs) :
    Alike (.conjunction ps) (.conjunction qs) where
  renders := by
    rw [renders_conjunction_iff, renders_conjunction_iff]
    exact h.forall_iff fun _ _ => Alike.renders
  holds Row I row := by
    rw [holds_conjunction_iff, holds_conjunction_iff]
    exact h.forall_iff fun _ _ halike => halike.holds Row I row

theorem disjunction (h : Corresponds Alike ps qs) :
    Alike (.disjunction ps) (.disjunction qs) where
  renders := by
    rw [renders_disjunction_iff, renders_disjunction_iff]
    exact h.forall_iff fun _ _ => Alike.renders
  holds Row I row := by
    rw [holds_disjunction_iff, holds_disjunction_iff, h.eq_nil_iff]
    exact or_congr_right (h.exists_iff fun _ _ halike => halike.holds Row I row)

end Alike
end Predicate

namespace Outline
open Traced

/-- Two outlines that contribute nothing, or predicates that are alike. -/
def Alike (o o' : Outline) : Prop := Option.Rel Predicate.Alike o.node? o'.node?

namespace Alike
variable {o o' : Outline} {os os' : List Outline}

theorem of_some {p q : Predicate} (ho : o.node? = some p) (ho' : o'.node? = some q)
    (h : p.Alike q) : Alike o o' := by
  rw [Alike, ho, ho']
  exact .some h

theorem refl (o : Outline) : Alike o o := by
  rw [Alike]
  cases o.node? with
  | none => exact .none
  | some p => exact .some (.refl p)

theorem predicate (h : Alike o o') : o.predicate.Alike o'.predicate := by
  rw [Outline.predicate, Outline.predicate]
  rw [Alike] at h
  generalize o.node? = n, o'.node? = n' at h
  cases h with
  | some h => exact h
  | none => exact .refl _

theorem toList (h : Alike o o') : Corresponds Predicate.Alike o.node?.toList o'.node?.toList := by
  rw [Alike] at h
  generalize o.node? = n, o'.node? = n' at h
  cases h with
  | some h => exact ⟨by simpa using h, by simpa using h⟩
  | none => exact ⟨by simp, by simp⟩

theorem nodes (h : Corresponds Alike os os') :
    Corresponds Predicate.Alike (nodes os) (nodes os') := by
  constructor
  · intro p hp
    obtain ⟨o, ho, hp⟩ := mem_nodes.mp hp
    obtain ⟨o', ho', halike⟩ := h.left o ho
    obtain ⟨q, hq, hpq⟩ := halike.toList.left p (by simpa using hp)
    exact ⟨q, mem_nodes.mpr ⟨o', ho', by simpa using hq⟩, hpq⟩
  · intro q hq
    obtain ⟨o', ho', hq⟩ := mem_nodes.mp hq
    obtain ⟨o, ho, halike⟩ := h.right o' ho'
    obtain ⟨p, hp, hpq⟩ := halike.toList.right q (by simpa using hq)
    exact ⟨p, mem_nodes.mpr ⟨o, ho, by simpa using hp⟩, hpq⟩

theorem all (h : Corresponds Alike os os') : Alike (.all os) (.all os') :=
  of_some rfl rfl (.conjunction (nodes h))

theorem any (h : Corresponds Alike os os') : Alike (.any os) (.any os') :=
  of_some rfl rfl (.disjunction (nodes h))

theorem not (h : Alike o o') : Alike (.not o) (.not o') :=
  of_some rfl rfl h.predicate.not

theorem scope (h : Alike o o') (relation : RelationField) (path : Path)
    (conditions : List Predicate) :
    Alike (.scope relation path conditions o) (.scope relation path conditions o') := by
  refine of_some rfl rfl (.related (.conjunction ⟨fun p hp => ?_, fun q hq => ?_⟩) relation path)
  · obtain hp | hp := List.mem_append.mp hp
    · exact ⟨p, List.mem_append_left _ hp, .refl p⟩
    · obtain ⟨q, hq, hpq⟩ := h.toList.left p hp
      exact ⟨q, List.mem_append_right _ hq, hpq⟩
  · obtain hq | hq := List.mem_append.mp hq
    · exact ⟨q, List.mem_append_left _ hq, .refl q⟩
    · obtain ⟨p, hp, hpq⟩ := h.toList.right q hq
      exact ⟨p, List.mem_append_right _ hp, hpq⟩

/-- As many outlines, each with a counterpart, come to the same joined. -/
theorem joined (hlength : os.length = os'.length) (h : Corresponds Alike os os') :
    Alike (joined os) (joined os') := by
  match os, os', hlength with
  | [], [], _ => exact .none
  | [o], [o'], _ =>
    obtain ⟨_, ho', halike⟩ := h.left o List.mem_cons_self
    cases List.mem_singleton.mp ho'
    exact halike
  | _ :: _ :: _, _ :: _ :: _, _ => exact all h

end Alike

/-! ## Readings of documents in another order -/

/-- Lists of as many members, each with a counterpart. -/
def Regrouped (os os' : List Outline) : Prop :=
  os.length = os'.length ∧ Corresponds Alike os os'

/-- What is read in another order is regrouped. -/
theorem matches_mapM_of_perm {α β γ : Type} {k : α → Traced Outline} {l : β → Traced Outline}
    {xs : List α} {ys : List β} {a : γ → α} {b : γ → β} {changes : List γ}
    (hxs : xs.Perm (changes.map a)) (hys : ys.Perm (changes.map b))
    (h : ∀ c ∈ changes, Matches Alike (k (a c)) (l (b c))) :
    Matches Regrouped (xs.mapM k) (ys.mapM l) := by
  intro os hos
  have hread : ∀ y ∈ ys, ∃ o ∈ os, ∃ o', (l y).result = .ok o' ∧ Alike o o' := by
    intro y hy
    obtain ⟨c, hc, rfl⟩ := List.mem_map.mp (hys.mem_iff.mp hy)
    obtain ⟨o, ho, hread⟩ := exists_mem_of_mapM_eq_ok hos
      (hxs.mem_iff.mpr (List.mem_map_of_mem hc))
    obtain ⟨o', hread', halike⟩ := h c hc o hread
    exact ⟨o, ho, o', hread', halike⟩
  obtain ⟨os', hos'⟩ : ∃ os', (ys.mapM l).result = .ok os' := by
    refine exists_mapM_eq_ok_iff.mpr fun y hy => ?_
    obtain ⟨_, _, o', hread', _⟩ := hread y hy
    exact ⟨o', hread'⟩
  refine ⟨os', hos', ?_, fun o ho => ?_, fun o' ho' => ?_⟩
  · rw [length_of_mapM_eq_ok hos, length_of_mapM_eq_ok hos', hxs.length_eq, hys.length_eq,
      List.length_map, List.length_map]
  · obtain ⟨x, hx, hreadx⟩ := (mem_iff_of_mapM_eq_ok hos o).mp ho
    obtain ⟨c, hc, rfl⟩ := List.mem_map.mp (hxs.mem_iff.mp hx)
    obtain ⟨o', hread', halike⟩ := h c hc o hreadx
    exact ⟨o', (mem_iff_of_mapM_eq_ok hos' o').mpr
      ⟨b c, hys.mem_iff.mpr (List.mem_map_of_mem hc), hread'⟩, halike⟩
  · obtain ⟨y, hy, hready⟩ := (mem_iff_of_mapM_eq_ok hos' o').mp ho'
    obtain ⟨o, ho, o'', hread', halike⟩ := hread y hy
    cases hready.symm.trans hread'
    exact ⟨o, ho, halike⟩

variable {setup : Setup} {v w : Value}

theorem spans_alike (setup : Setup) : Spans setup setup.policies.conditions Alike where
  field _ _ _ h := h
  scope relation path conditions h :=
    ⟨conditions, h, fun _ _ halike => halike.scope relation path conditions⟩

/-- An entry comes to what is alike when its value is shuffled. -/
def Withstands (setup : Setup) (e : String × Value) : Prop :=
  ∀ w, Value.Shuffled (DocumentKey.ofText e.1).reading e.2 w → ∀ place,
    Matches Alike (ofEntry setup e place) (ofEntry setup (e.1, w) place)

/-- The entries of a mapping come to what is alike when they are shuffled. -/
theorem matches_ofFragment {f g : Fragment} (h : ∀ e ∈ f, Withstands setup e)
    (hvw : Value.Shuffled .document v w) (hv : v.mapping? = some f) (hw : w.mapping? = some g)
    (place : Place) :
    Matches Alike (ofFragment setup f place) (ofFragment setup g place) := by
  obtain ⟨g', hw', changes, hf, hg, hchanges⟩ := hvw.exists_entries hv
  cases hw.symm.trans hw'
  rw [ofFragment, ofFragment, ofEntries_eq_mapM, ofEntries_eq_mapM]
  refine matches_bind (matches_mapM_of_perm hf hg fun c hc => ?_) fun _ _ _ hos =>
    matches_pure (Alike.joined hos.1 hos.2)
  exact h _ (hf.mem_iff.mpr (List.mem_map_of_mem hc)) _ (hchanges c hc) place

/-- A mapping comes to what is alike when it is shuffled, and so does whatever else there is. -/
theorem matches_ofValue (h : ∀ f, v.mapping? = some f → ∀ e ∈ f, Withstands setup e)
    (hvw : Value.Shuffled .document v w) {otherwise otherwise' : Place → Traced Outline}
    (hotherwise : w = v → ∀ place, Matches Alike (otherwise place) (otherwise' place))
    (place : Place) :
    Matches Alike (ofValue setup otherwise v place) (ofValue setup otherwise' w place) := by
  cases hv : v.mapping? with
  | none =>
    have heq := hvw.eq_of_mapping?_eq_none hv
    rw [ofValue_of_mapping?_eq_none hv, ofValue_of_mapping?_eq_none (heq ▸ hv)]
    exact hotherwise heq place
  | some f =>
    obtain ⟨g, hw, _⟩ := hvw.exists_entries hv
    rw [ofValue_of_mapping? hv, ofValue_of_mapping? hw]
    exact matches_ofFragment (h f hv) hvw hv hw place

theorem matches_ofRelationValue (h : ∀ f, v.mapping? = some f → ∀ e ∈ f, Withstands setup e)
    (hvw : Value.Shuffled .document v w) (place : Place) :
    Matches Alike (ofRelationValue setup v place) (ofRelationValue setup w place) := by
  cases hv : v.mapping? with
  | none =>
    rw [ofRelationValue_of_mapping?_eq_none hv]
    exact matches_refuse
  | some f =>
    by_cases hne : f = []
    · rw [ofRelationValue_of_empty (hne ▸ hv)]
      exact matches_refuse
    · obtain ⟨g, hw, changes, hf, hg, hchanges⟩ := hvw.exists_entries hv
      have hlength : f.length = g.length := by
        rw [hf.length_eq, hg.length_eq, List.length_map, List.length_map]
      have hne' : g ≠ [] := by
        rintro rfl
        exact hne (List.eq_nil_of_length_eq_zero hlength)
      rw [ofRelationValue_of_mapping? hv hne, ofRelationValue_of_mapping? hw hne']
      refine matches_bind (matches_mapM_of_perm hf hg fun c hc => ?_) fun _ _ _ hos =>
        matches_pure (.all hos.2)
      have hentry := h f hv _ (hf.mem_iff.mpr (List.mem_map_of_mem hc)) _ (hchanges c hc)
      unfold ofRelationEntry
      dsimp only
      split
      · exact hentry place
      · exact matches_ofScope (spans_alike setup) hentry place

theorem ofItems_eq_mapM_ofValue (vs : List Value) (place : Place) :
    ofItems setup vs place = vs.mapM (ofValue setup (fun _ => return .nothing) · place) := by
  induction vs with
  | nil => rfl
  | cons v vs ih => simp [ofItems, ih]

/-- The documents of a list come to outlines regrouped, when they are shuffled. -/
theorem matches_ofList (op : String)
    (h : ∀ fs, v.fragments? = some fs → ∀ f ∈ fs, ∀ e ∈ f, Withstands setup e)
    (hvw : Value.Shuffled .documents v w) (place : Place) :
    Matches Regrouped (ofList setup op v place) (ofList setup op w place) := by
  cases v with
  | list vs =>
    obtain ⟨ws, rfl, changes, hvs, hws, hchanges⟩ := hvw.exists_items
    by_cases hall : vs.all Value.isMapping = true
    · have hmappings : ∀ v ∈ vs, ∃ f, v.mapping? = some f := fun v hv =>
        Option.isSome_iff_exists.mp (List.all_eq_true.mp hall v hv)
      have hall' : ws.all Value.isMapping = true := by
        refine List.all_eq_true.mpr fun w hw => ?_
        obtain ⟨c, hc, rfl⟩ := List.mem_map.mp (hws.mem_iff.mp hw)
        rw [(hchanges c hc).isMapping_eq]
        exact List.all_eq_true.mp hall _ (hvs.mem_iff.mpr (List.mem_map_of_mem hc))
      obtain ⟨fs, hfs, hmem⟩ := Value.exists_fragments?_list hmappings
      rw [ofList, ofList, if_pos hall, if_pos hall', ofItems_eq_mapM_ofValue,
        ofItems_eq_mapM_ofValue]
      refine matches_mapM_of_perm hvs hws fun c hc => ?_
      refine matches_ofValue (fun f hf e he => ?_) (hchanges c hc)
        (fun _ _ => matches_pure (.refl _)) place
      exact h fs hfs f ((hmem f).mpr ⟨_, hvs.mem_iff.mpr (List.mem_map_of_mem hc), hf⟩) e he
    · rw [ofList, if_neg hall]
      exact matches_refuse
  | _ => exact matches_refuse

/-- Every entry comes to what is alike when its value is shuffled. -/
theorem withstands (e : String × Value) : Withstands setup e := by
  induction e using Value.entry_induction with
  | entry key v hmapping hfragments =>
    intro w hvw place
    dsimp only at hvw ⊢
    unfold ofEntry
    cases hkey : DocumentKey.ofText key with
    | all =>
      rw [hkey] at hvw
      exact matches_bind (matches_ofList _ hfragments hvw place) fun _ _ _ hos =>
        matches_pure (.all hos.2)
    | any =>
      rw [hkey] at hvw
      exact matches_bind (matches_ofList _ hfragments hvw place) fun _ _ _ hos =>
        matches_pure (.any hos.2)
    | none =>
      rw [hkey] at hvw
      exact matches_bind (matches_ofList _ hfragments hvw place) fun _ _ _ hos =>
        matches_pure (.not (.any hos.2))
    | not =>
      rw [hkey] at hvw
      exact matches_bind (matches_ofValue hmapping hvw (fun _ _ => matches_refuse) place)
        fun _ _ _ ho => matches_pure (.not ho)
    | elemMatch =>
      rw [hkey] at hvw
      dsimp only
      rw [hvw.isMapping_eq]
      split
      · exact matches_ofScope (spans_alike setup) (matches_ofValue hmapping hvw fun _ _ =>
          matches_pure (.refl _)) place
      · exact matches_refuse
    | operator token =>
      rw [hkey] at hvw
      cases hvw
      exact matches_self Alike.refl _
    | field text =>
      rw [hkey] at hvw
      refine matches_ofKey (spans_alike setup) (matches_ofValue hmapping hvw ?_)
        (matches_ofRelationValue hmapping hvw) _ place
      rintro rfl place
      exact matches_self Alike.refl _

end Outline

/-! ## Compiled documents in another order -/

section Compiled
variable {schema : Schema} {root : String} {d d' : Value} {options : OptionsArgument}

/-- Only a missing document compiles to no predicate. -/
theorem exists_predicate_of_compile {f : Fragment} (hd : d.mapping? = some f)
    {r : Option Predicate} (hr : (compile schema root d options).result = .ok r) :
    ∃ p, r = some p := by
  unfold compile at hr
  split at hr
  · cases hr
  · next policies _ =>
    change (Setup.compile ⟨schema, root, policies⟩ d).result.mapError _ = _ at hr
    rw [Setup.compile_result, Value.isMissing_of_mapping? hd, if_neg Bool.false_ne_true] at hr
    cases hresult : (Setup.compileMapping ⟨schema, root, policies⟩ d).result with
    | error fault =>
      rw [hresult] at hr
      cases hr
    | ok p =>
      rw [hresult] at hr
      cases hr
      exact ⟨p, rfl⟩

/-- A shuffled document compiles if the document does, to a predicate that is alike. -/
theorem exists_compile_of_shuffled {policies : Policies}
    (hpolicies : Policies.resolve options = .ok policies) (hlimit : policies.limit = none)
    (h : Value.Shuffled .document d d') {r : Option Predicate}
    (hr : (compile schema root d options).result = .ok r) :
    ∃ r', (compile schema root d' options).result = .ok r' ∧
      Option.Rel Predicate.Alike r r' := by
  cases hd : d.mapping? with
  | none =>
    rw [h.eq_of_mapping?_eq_none hd]
    exact ⟨r, hr, by cases r with
      | none => exact .none
      | some p => exact .some (.refl p)⟩
  | some f =>
    obtain ⟨p, rfl⟩ := exists_predicate_of_compile hd hr
    obtain ⟨g, hd', _⟩ := h.exists_entries hd
    obtain ⟨o, ho, rfl⟩ := outline_of_compile hpolicies hd hr
    obtain ⟨o', ho', halike⟩ := Outline.matches_ofFragment
      (fun e _ => Outline.withstands e) h hd hd' .root o ho
    refine ⟨_, compile_of_outline hpolicies hlimit hd' ho' fun hlive => ?_,
      .some halike.predicate⟩
    exact halike.predicate.renders.mp (renders_of_compile hpolicies hr hlive)

/-- Unless a limit is in force, a document and another one that differs in the order of entries
of mappings and of documents in lists, at any depth, compile both or not at all. The predicates
hold of the same rows, whatever comparisons and relations mean. -/
theorem compile_of_shuffled
    (hlimit : ∀ policies, Policies.resolve options = .ok policies → policies.limit = none)
    (h : Value.Shuffled .document d d') :
    ((∃ r, (compile schema root d options).result = .ok r) ↔
        ∃ r', (compile schema root d' options).result = .ok r') ∧
      ∀ r r', (compile schema root d options).result = .ok r →
        (compile schema root d' options).result = .ok r' →
        Option.Rel (fun p p' => ∀ (Row : Type) (I : Interpretation Row) (row : Row),
          p.Holds I row ↔ p'.Holds I row) r r' := by
  cases hpolicies : Policies.resolve options with
  | error fault =>
    have hfails (d : Value) (r : Option Predicate) :
        (compile schema root d options).result ≠ .ok r := by
      rw [compile, hpolicies]
      rintro ⟨⟩
    refine ⟨iff_of_false ?_ ?_, fun r _ hr => absurd hr (hfails d r)⟩
    · exact not_exists.mpr (hfails d)
    · exact not_exists.mpr (hfails d')
  | ok policies =>
    have hnone := hlimit policies hpolicies
    refine ⟨⟨?_, ?_⟩, fun r r' hr hr' => ?_⟩
    · rintro ⟨r, hr⟩
      obtain ⟨r', hr', _⟩ := exists_compile_of_shuffled hpolicies hnone h hr
      exact ⟨r', hr'⟩
    · rintro ⟨r, hr⟩
      obtain ⟨r', hr', _⟩ := exists_compile_of_shuffled hpolicies hnone h.symm hr
      exact ⟨r', hr'⟩
    · obtain ⟨r'', hr'', halike⟩ := exists_compile_of_shuffled hpolicies hnone h hr
      cases hr'.symm.trans hr''
      cases halike with
      | none => exact .none
      | some halike => exact .some halike.holds

end Compiled

namespace Sample

/-- Tracks of a name or a length, on a playlist of a name. -/
def wantedTracks : Value := .ofEntries
  [("$or", .list [.ofEntries [("name", .text "x")],
      .ofEntries [("milliseconds", .ofEntries [("$gt", .number (.ofNat 1)),
        ("$lt", .number (.ofNat 9))])]]),
    ("playlists.name", .text "y")]

def wantedTracksShuffled : Value := .ofEntries
  [("playlists.name", .text "y"),
    ("$or", .list [
      .ofEntries [("milliseconds", .ofEntries [("$lt", .number (.ofNat 9)),
        ("$gt", .number (.ofNat 1))])],
      .ofEntries [("name", .text "x")]])]

theorem shuffled_wantedTracks :
    Value.Shuffled .document wantedTracks wantedTracksShuffled := by
  have hlength : Value.Shuffled .document
      (.ofEntries [("$gt", .number (.ofNat 1)), ("$lt", .number (.ofNat 9))])
      (.ofEntries [("$lt", .number (.ofNat 9)), ("$gt", .number (.ofNat 1))]) :=
    .entries [("$gt", .number (.ofNat 1), .number (.ofNat 1)),
        ("$lt", .number (.ofNat 9), .number (.ofNat 9))]
      rfl rfl (.refl _) (.swap _ _ _) (by simp [Value.Shuffled.same])
  have hlong : Value.Shuffled .document
      (.ofEntries [("milliseconds", .ofEntries [("$gt", .number (.ofNat 1)),
        ("$lt", .number (.ofNat 9))])])
      (.ofEntries [("milliseconds", .ofEntries [("$lt", .number (.ofNat 9)),
        ("$gt", .number (.ofNat 1))])]) :=
    .entries [("milliseconds", _, _)] rfl rfl (.refl _) (.refl _)
      (List.forall_mem_singleton.mpr hlength)
  have hchoice := Value.Shuffled.items [(_, _), (.ofEntries [("name", .text "x")], _)]
    (.swap _ _ _) (.refl _)
    (List.forall_mem_cons.mpr ⟨hlong, List.forall_mem_singleton.mpr (.same _ _)⟩)
  exact .entries [("playlists.name", .text "y", .text "y"), ("$or", _, _)] rfl rfl
    (.swap _ _ _) (.refl _)
    (List.forall_mem_cons.mpr ⟨.same _ _, List.forall_mem_singleton.mpr hchoice⟩)

/-- A comparison of the length of a track. -/
def lasting (op : CompareOp) (n : Nat) : Predicate :=
  .test milliseconds ["milliseconds"] (.compare op (.number (.ofNat n)))

def trackNamed : Predicate :=
  .test ⟨"name", "Track", .scalar .text⟩ ["name"] (.compare .eq (.text "x"))

def playlisted : Predicate :=
  .related playlists ["playlists"]
    (.test ⟨"name", "Playlist", .scalar .text⟩ ["playlists", "name"] (.compare .eq (.text "y")))

theorem compile_of_shuffled_wantedTracks :
    (∀ policies, Policies.resolve .absent = .ok policies → policies.limit = none) ∧
      Value.Shuffled .document wantedTracks wantedTracksShuffled ∧
      ∃ p p', p ≠ p' ∧
        (compile catalog.schema "Track" wantedTracks .absent).result = .ok (some p) ∧
        (compile catalog.schema "Track" wantedTracksShuffled .absent).result = .ok (some p') ∧
        ∀ (Row : Type) (I : Interpretation Row) (row : Row), p.Holds I row ↔ p'.Holds I row := by
  have hlimit (policies : Policies) (h : Policies.resolve .absent = .ok policies) :
      policies.limit = none := by
    cases h
    rfl
  have hp : (compile catalog.schema "Track" wantedTracks .absent).result =
      .ok (some (.all [.any [trackNamed, .all [lasting .gt 1, lasting .lt 9]], playlisted])) := rfl
  have hp' : (compile catalog.schema "Track" wantedTracksShuffled .absent).result =
      .ok (some (.all [playlisted, .any [.all [lasting .lt 9, lasting .gt 1], trackNamed]])) := rfl
  refine ⟨hlimit, shuffled_wantedTracks, _, _, ?_, hp, hp', ?_⟩
  · exact fun h => nomatch h
  · cases (compile_of_shuffled hlimit shuffled_wantedTracks).2 _ _ hp hp' with
    | some h => exact h

end Sample
end RowFilter
