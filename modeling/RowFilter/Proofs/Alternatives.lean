import RowFilter.Predicate.Meaning
import RowFilter.Proofs.Rendering

/-!
# Alternatives

What a list of alternatives comes to, against what each of the documents in it comes to by
itself. A compiled disjunction of documents holds of a row if one of the documents does. But a
document that says nothing, which holds of every row by itself, is no alternative: it is passed
over, among alternatives as among the entries of a document. Only if all of the documents say
nothing does the disjunction hold of every row.
-/

namespace RowFilter

open Traced

namespace Traced
variable {α β : Type} {f : α → Traced β} {xs : List α} {ys : List β}

/-- What a list of readings comes to is what each of them comes to. -/
theorem mem_iff_of_mapM_eq_ok (h : (xs.mapM f).result = .ok ys) (y : β) :
    y ∈ ys ↔ ∃ x ∈ xs, (f x).result = .ok y :=
  mem_iff_of_mapM_ok ((mapM_result f xs).symm.trans h) y

theorem length_of_mapM_eq_ok (h : (xs.mapM f).result = .ok ys) : ys.length = xs.length :=
  length_of_mapM_ok ((mapM_result f xs).symm.trans h)

theorem exists_mem_of_mapM_eq_ok (h : (xs.mapM f).result = .ok ys) {x : α} (hx : x ∈ xs) :
    ∃ y ∈ ys, (f x).result = .ok y :=
  exists_mem_of_mapM_ok ((mapM_result f xs).symm.trans h) hx

theorem exists_mapM_eq_ok_iff :
    (∃ ys, (xs.mapM f).result = .ok ys) ↔ ∀ x ∈ xs, ∃ y, (f x).result = .ok y := by
  rw [mapM_result]
  exact exists_mapM_ok_iff

end Traced

/-- Has no entries, or a single one with an empty mapping under a field key. -/
def Fragment.SaysNothing (f : Fragment) : Prop :=
  f = [] ∨ ∃ key v, f = [(key, v)] ∧ DocumentKey.ofText key = .field key ∧ v.mapping? = some []

namespace Value

def SaysNothing (d : Value) : Prop := ∃ f, d.mapping? = some f ∧ Fragment.SaysNothing f

/-- The fragments of a list of mappings are those of its items. -/
theorem exists_fragments?_list {ds : List Value} (h : ∀ d ∈ ds, ∃ f, d.mapping? = some f) :
    ∃ fs, (Value.list ds).fragments? = some fs ∧
      ∀ f, f ∈ fs ↔ ∃ d ∈ ds, d.mapping? = some f := by
  induction ds with
  | nil => exact ⟨[], rfl, by simp⟩
  | cons d ds ih =>
    obtain ⟨f, hf⟩ := h d List.mem_cons_self
    obtain ⟨fs, hfs, hmem⟩ := ih fun d hd => h d (List.mem_cons_of_mem _ hd)
    refine ⟨f :: fs, fragments?_cons_eq_some_iff.mpr ⟨f, fs, hf, hfs, rfl⟩, fun g => ?_⟩
    simp only [List.mem_cons, hmem, exists_eq_or_imp, hf, Option.some.injEq, @eq_comm _ f g]

end Value

namespace Outline

variable {setup : Setup} {record : List Event} {place : Place} {o : Outline} {v : Value}
  {f : Fragment} {key : String}

/-! ## Documents without a node -/

theorem node?_of_yields_return {α : Type} {x : Traced α} {g : α → Outline}
    (h : (do return g (← x) : Traced Outline).Yields record o) (hg : ∀ a, (g a).node? ≠ none) :
    o.node? ≠ none := by
  obtain ⟨a, _, h⟩ := yields_bind_iff.mp h
  rw [yields_pure_iff] at h
  rw [← h]
  exact hg a

theorem node?_of_yields_ofOperator {token : String}
    (h : (ofOperator setup token v place).Yields record o) : o.node? ≠ none := by
  unfold ofOperator at h
  dsimp only at h
  split at h
  · exact absurd h not_yields_refuse
  · obtain ⟨target, _, h⟩ := yields_bind_iff.mp h
    cases target with
    | none => exact absurd h not_yields_refuse
    | some target => exact node?_of_yields_return h fun _ => Option.some_ne_none _

theorem node?_of_yields_ofScope {value : Value} {body : Place → Traced Outline}
    (h : (ofScope setup value body place).Yields record o) : o.node? ≠ none := by
  obtain ⟨relation, conditions, inside, rfl, _⟩ := exists_of_yields_ofScope h
  exact Option.some_ne_none _

theorem node?_of_yields_ofRelationValue
    (h : (ofRelationValue setup v place).Yields record o) : o.node? ≠ none := by
  rcases hf : v.mapping? with _ | f
  · rw [ofRelationValue_of_mapping?_eq_none hf] at h
    exact absurd h not_yields_refuse
  · by_cases hne : f = []
    · rw [hne] at hf
      rw [ofRelationValue_of_empty hf] at h
      exact absurd h not_yields_refuse
    · rw [ofRelationValue_of_mapping? hf hne] at h
      exact node?_of_yields_return h fun _ => Option.some_ne_none _

/-- An entry without a node has a field key. -/
theorem yields_ofKey_of_node?_eq_none (h : (ofEntry setup (key, v) place).Yields record o)
    (hnone : o.node? = none) : DocumentKey.ofText key = .field key ∧
      (ofKey setup v (ofValue setup (ofOperator setup "$eq" v) v) (ofRelationValue setup v)
        (.ofText key) place).Yields record o := by
  unfold ofEntry at h
  cases hkey : DocumentKey.ofText key with
  | all =>
    rw [hkey] at h
    exact absurd hnone (node?_of_yields_return h fun _ => Option.some_ne_none _)
  | any =>
    rw [hkey] at h
    exact absurd hnone (node?_of_yields_return h fun _ => Option.some_ne_none _)
  | none =>
    rw [hkey] at h
    exact absurd hnone (node?_of_yields_return h fun _ => Option.some_ne_none _)
  | not =>
    rw [hkey] at h
    exact absurd hnone (node?_of_yields_return h fun _ => Option.some_ne_none _)
  | elemMatch =>
    rw [hkey] at h
    dsimp only at h
    split at h
    · exact absurd hnone (node?_of_yields_ofScope h)
    · exact absurd h not_yields_refuse
  | operator token =>
    rw [hkey] at h
    exact absurd hnone (node?_of_yields_ofOperator h)
  | field text =>
    rw [hkey] at h
    cases DocumentKey.eq_of_ofText_field hkey
    exact ⟨rfl, h⟩

/-- A fragment without a node has one entry at most. -/
theorem length_le_of_node?_eq_none (h : (ofFragment setup f place).Yields record o)
    (hnone : o.node? = none) : f.length ≤ 1 := by
  unfold ofFragment at h
  obtain ⟨os, hos, h⟩ := yields_bind_iff.mp h
  rw [yields_pure_iff] at h
  rw [ofEntries_eq_mapM] at hos
  rw [← length_of_mapM_eq_ok hos.result]
  rcases os with _ | ⟨o, _ | ⟨o', os⟩⟩
  · exact Nat.zero_le 1
  · exact Nat.le_refl 1
  · rw [← h] at hnone
    cases hnone

/-- Under a field key only an empty mapping has no node: no other field key may stand there. -/
theorem mapping?_of_node?_eq_none (hfield : place.isField = true)
    (h : (ofValue setup (ofOperator setup "$eq" v) v place).Yields record o)
    (hnone : o.node? = none) : v.mapping? = some [] := by
  cases hf : v.mapping? with
  | none =>
    rw [ofValue_of_mapping?_eq_none hf] at h
    exact absurd hnone (node?_of_yields_ofOperator h)
  | some f =>
    rw [ofValue_of_mapping? hf] at h
    rcases f with _ | ⟨⟨key, w⟩, _ | ⟨e, rest⟩⟩
    · rfl
    · rw [ofFragment_singleton] at h
      obtain ⟨_, hkey⟩ := yields_ofKey_of_node?_eq_none h hnone
      obtain ⟨_, _, _, hchecked, _⟩ := exists_of_yields_ofKey hkey
      rw [hchecked.closed] at hfield
      cases hfield
    · have := length_le_of_node?_eq_none h hnone
      simp at this

theorem saysNothing_of_node?_eq_none (h : (ofDocument setup f).Yields record o)
    (hnone : o.node? = none) : f.SaysNothing := by
  rcases f with _ | ⟨⟨key, v⟩, _ | ⟨e, rest⟩⟩
  · exact .inl rfl
  · rw [ofDocument, ofFragment_singleton] at h
    obtain ⟨hkey, hread⟩ := yields_ofKey_of_node?_eq_none h hnone
    obtain ⟨_, _, content, _, _, rfl, hopened⟩ := exists_of_yields_ofKey hread
    change content.node? = none at hnone
    refine .inr ⟨key, v, rfl, hkey, ?_⟩
    rcases hopened with ⟨_, hcontent | hcontent⟩ | ⟨_, _, _, _, _, _, hscope⟩
    · exact mapping?_of_node?_eq_none rfl hcontent hnone
    · exact absurd hnone (node?_of_yields_ofRelationValue hcontent)
    · exact absurd hnone (node?_of_yields_ofScope hscope)
  · have := length_le_of_node?_eq_none h hnone
    simp at this

/-- A document has no node if and only if it says nothing, and opens no scope on the way of its
key. -/
theorem node?_eq_none_iff (h : (ofDocument setup f).Yields record o) :
    o.node? = none ↔ o.predicate = .true ∧ f.SaysNothing := by
  constructor
  · intro hnone
    refine ⟨?_, saysNothing_of_node?_eq_none h hnone⟩
    rw [predicate, hnone]
    rfl
  · rintro ⟨htrue, rfl | ⟨key, v, rfl, hkey, hv⟩⟩
    · cases h.result
      rfl
    · rw [ofDocument, ofFragment_singleton, ofEntry, hkey] at h
      obtain ⟨_, _, content, _, _, rfl, hopened⟩ := exists_of_yields_ofKey h
      rcases hopened with ⟨_, hcontent | hcontent⟩ | ⟨_, _, _, _, _, _, hscope⟩
      · rw [ofValue_of_mapping? hv] at hcontent
        cases hcontent.result
        rfl
      · rw [ofRelationValue_of_empty hv] at hcontent
        exact absurd hcontent not_yields_refuse
      · obtain ⟨_, _, _, rfl, _⟩ := exists_of_yields_ofScope hscope
        cases htrue

/-! ## Lists of documents -/

section Lists
variable {ds : List Value} {fs : List Fragment} {os : List Outline}
  (hfs : (Value.list ds).fragments? = some fs)
  (hos : (fs.mapM (ofFragment setup · .root)).result = .ok os)
include hfs hos

theorem ofDocument_anyOf :
    (ofDocument setup [("$or", .list ds)]).result = .ok (.any os) := by
  have hkey : DocumentKey.ofText "$or" = .any := rfl
  rw [ofDocument, ofFragment_singleton, ofEntry, hkey]
  dsimp only
  rw [ofList_of_fragments? hfs]
  exact bind_result_eq_ok_iff.mpr ⟨os, hos, rfl⟩

theorem ofDocument_noneOf :
    (ofDocument setup [("$nor", .list ds)]).result = .ok (.not (.any os)) := by
  have hkey : DocumentKey.ofText "$nor" = .none := rfl
  rw [ofDocument, ofFragment_singleton, ofEntry, hkey]
  dsimp only
  rw [ofList_of_fragments? hfs]
  exact bind_result_eq_ok_iff.mpr ⟨os, hos, rfl⟩

end Lists

end Outline

/-- A document that counts as an alternative, with what it compiles to by itself. -/
structure Alternative (schema : Schema) (root : String) (options : OptionsArgument) (d : Value)
    (q : Predicate) : Prop where
  compiles : (compile schema root d options).result = .ok (some q)
  speaks : ¬(q = .true ∧ d.SaysNothing)

/-- One of the alternatives among the documents holds of a row, or there are none. -/
def AlternativeHolds (schema : Schema) (root : String) (options : OptionsArgument)
    (ds : List Value) {Row : Type} (I : Interpretation Row) (row : Row) : Prop :=
  (∀ d ∈ ds, ∀ q, ¬Alternative schema root options d q) ∨
    ∃ d ∈ ds, ∃ q, Alternative schema root options d q ∧ q.Holds I row

section Compiled
variable {schema : Schema} {root : String} {options : OptionsArgument} {policies : Policies}
  {ds : List Value} {p : Predicate}

/-- A document that compiles counts as an alternative if its outline has a node. -/
theorem alternative_iff {d : Value} {f : Fragment} {o : Outline} (hf : d.mapping? = some f)
    (ho : (Outline.ofDocument ⟨schema, root, policies⟩ f).result = .ok o)
    (h : (compile schema root d options).result = .ok (some o.predicate)) (q : Predicate) :
    Alternative schema root options d q ↔ o.node? = some q := by
  have hiff := Outline.node?_eq_none_iff (yields_self ho)
  have hsilent : d.SaysNothing ↔ f.SaysNothing := by
    simp [Value.SaysNothing, hf]
  constructor
  · rintro ⟨hcompiles, hspeaks⟩
    rw [h, Except.ok.injEq, Option.some.injEq] at hcompiles
    subst hcompiles
    rw [hsilent, ← hiff] at hspeaks
    obtain ⟨n, hn⟩ := Option.ne_none_iff_exists'.mp hspeaks
    rw [Outline.predicate, hn]
    rfl
  · intro hnode
    have hq : o.predicate = q := by
      rw [Outline.predicate, hnode]
      rfl
    refine ⟨hq ▸ h, ?_⟩
    rw [hsilent, ← hq, ← hiff, hnode]
    exact Option.some_ne_none q

/-- The outlines of the documents in a list: their nodes are what the alternatives compile to. -/
theorem exists_outlines (hpolicies : Policies.resolve options = .ok policies)
    (hds : ∀ d ∈ ds, ∃ q, (compile schema root d options).result = .ok (some q)) :
    ∃ fs os, (Value.list ds).fragments? = some fs ∧
      (fs.mapM (Outline.ofFragment ⟨schema, root, policies⟩ · .root)).result = .ok os ∧
      ∀ q, q ∈ Outline.nodes os ↔ ∃ d ∈ ds, Alternative schema root options d q := by
  have hmappings : ∀ d ∈ ds, ∃ f, d.mapping? = some f := by
    intro d hd
    obtain ⟨q, hq⟩ := hds d hd
    obtain ⟨f, _, hf, _⟩ := Setup.exists_outline_of_compile (yields_of_compile hpolicies hq)
    exact ⟨f, hf⟩
  obtain ⟨fs, hfs, hmem⟩ := Value.exists_fragments?_list hmappings
  have hread {d : Value} {f : Fragment} (hd : d ∈ ds) (hf : d.mapping? = some f) :
      ∃ o, (Outline.ofDocument ⟨schema, root, policies⟩ f).result = .ok o ∧
        (compile schema root d options).result = .ok (some o.predicate) := by
    obtain ⟨q, hq⟩ := hds d hd
    obtain ⟨o, ho, rfl⟩ := outline_of_compile hpolicies hf hq
    exact ⟨o, ho, hq⟩
  have hall : ∀ f ∈ fs, ∃ o, (Outline.ofFragment ⟨schema, root, policies⟩ f .root).result =
      .ok o := by
    intro f hf
    obtain ⟨d, hd, hf⟩ := (hmem f).mp hf
    obtain ⟨o, ho, _⟩ := hread hd hf
    exact ⟨o, ho⟩
  obtain ⟨os, hos⟩ := exists_mapM_eq_ok_iff.mpr hall
  refine ⟨fs, os, hfs, hos, fun q => ?_⟩
  simp only [Outline.mem_nodes, mem_iff_of_mapM_eq_ok hos, hmem]
  constructor
  · rintro ⟨o, ⟨f, ⟨d, hd, hf⟩, ho⟩, hnode⟩
    obtain ⟨o', ho', hcompiles⟩ := hread hd hf
    cases ho.symm.trans ho'
    exact ⟨d, hd, (alternative_iff hf ho hcompiles q).mpr hnode⟩
  · rintro ⟨d, hd, halternative⟩
    obtain ⟨f, hf⟩ := hmappings d hd
    obtain ⟨o, ho, hcompiles⟩ := hread hd hf
    exact ⟨o, ⟨f, ⟨d, hd, hf⟩, ho⟩, (alternative_iff hf ho hcompiles q).mp halternative⟩

/-- The predicates of a disjunction of documents and of its denial, by their outlines. -/
theorem exists_nodes (hpolicies : Policies.resolve options = .ok policies)
    (hds : ∀ d ∈ ds, ∃ q, (compile schema root d options).result = .ok (some q)) :
    ∃ ns, (∀ q, q ∈ ns ↔ ∃ d ∈ ds, Alternative schema root options d q) ∧
      (∃ o, (Outline.ofDocument ⟨schema, root, policies⟩ [("$or", .list ds)]).result = .ok o ∧
        o.predicate = .disjunction ns) ∧
      ∃ o, (Outline.ofDocument ⟨schema, root, policies⟩ [("$nor", .list ds)]).result = .ok o ∧
        o.predicate = .not (.disjunction ns) := by
  obtain ⟨fs, os, hfs, hos, hnodes⟩ := exists_outlines hpolicies hds
  exact ⟨Outline.nodes os, hnodes, ⟨_, Outline.ofDocument_anyOf hfs hos, rfl⟩,
    _, Outline.ofDocument_noneOf hfs hos, rfl⟩

theorem alternativeHolds_iff {ns : List Predicate}
    (hns : ∀ q, q ∈ ns ↔ ∃ d ∈ ds, Alternative schema root options d q) {Row : Type}
    (I : Interpretation Row) (row : Row) :
    AlternativeHolds schema root options ds I row ↔ (Predicate.disjunction ns).Holds I row := by
  rw [Predicate.holds_disjunction_iff, AlternativeHolds]
  refine or_congr ?_ ?_
  · rw [List.eq_nil_iff_forall_not_mem]
    simp only [hns]
    constructor
    · rintro h q ⟨d, hd, halternative⟩
      exact h d hd q halternative
    · intro h d hd q halternative
      exact h q ⟨d, hd, halternative⟩
  · simp only [hns]
    constructor
    · rintro ⟨d, hd, q, halternative, hq⟩
      exact ⟨q, ⟨d, hd, halternative⟩, hq⟩
    · rintro ⟨q, ⟨d, hd, halternative⟩, hq⟩
      exact ⟨d, hd, q, halternative, hq⟩

/-- Where all documents of a list are alternatives, or none is, the list holds of a row if and
only if one of the documents does. -/
theorem alternativeHolds_iff_of_not_mixed (hne : ds ≠ [])
    (hds : ∀ d ∈ ds, ∃ q, (compile schema root d options).result = .ok (some q))
    (h : (∀ d ∈ ds, ∃ q, Alternative schema root options d q) ∨
      ∀ d ∈ ds, ∀ q, ¬Alternative schema root options d q)
    {Row : Type} (I : Interpretation Row) (row : Row) :
    AlternativeHolds schema root options ds I row ↔
      ∃ d ∈ ds, ∃ q, (compile schema root d options).result = .ok (some q) ∧ q.Holds I row := by
  obtain ⟨d₀, hd₀⟩ := List.exists_mem_of_ne_nil ds hne
  obtain hall | hnone := h
  · constructor
    · rintro (hnone | ⟨d, hd, q, halternative, hq⟩)
      · obtain ⟨q, halternative⟩ := hall d₀ hd₀
        exact absurd halternative (hnone d₀ hd₀ q)
      · exact ⟨d, hd, q, halternative.compiles, hq⟩
    · rintro ⟨d, hd, q, hcompiles, hq⟩
      obtain ⟨q', halternative⟩ := hall d hd
      cases hcompiles.symm.trans halternative.compiles
      exact .inr ⟨d, hd, q, halternative, hq⟩
  · refine iff_of_true (.inl hnone) ?_
    obtain ⟨q, hq⟩ := hds d₀ hd₀
    have htrue : q = .true :=
      Classical.byContradiction fun hne => hnone d₀ hd₀ q ⟨hq, fun h => hne h.1⟩
    exact ⟨d₀, hd₀, q, hq, htrue ▸ Predicate.holds_true⟩

/-- A list of documents that each compile by themselves compiles as a disjunction and as its
denial, unless a limit is in force. The disjunction holds of a row if and only if one of the
documents does that count as alternatives, or none counts; the denial if and only if it does not.
Documents that say nothing do not count, so that a list of such and others may hold of fewer rows
than its documents. -/
theorem compiled_alternatives_hold_iff (hpolicies : Policies.resolve options = .ok policies)
    (hds : ∀ d ∈ ds, ∃ q, (compile schema root d options).result = .ok (some q)) :
    (policies.limit = none → ∀ key ∈ ["$or", "$nor"], ∃ p,
        (compile schema root (.ofEntries [(key, .list ds)]) options).result = .ok (some p)) ∧
      (∀ p, (compile schema root (.ofEntries [("$or", .list ds)]) options).result = .ok (some p) →
        ∀ (Row : Type) (I : Interpretation Row) (row : Row),
          p.Holds I row ↔ AlternativeHolds schema root options ds I row) ∧
      (∀ p, (compile schema root (.ofEntries [("$nor", .list ds)]) options).result = .ok (some p) →
        ∀ (Row : Type) (I : Interpretation Row) (row : Row),
          p.Holds I row ↔ ¬AlternativeHolds schema root options ds I row) ∧
      (ds ≠ [] → ((∀ d ∈ ds, ∃ q, Alternative schema root options d q) ∨
          ∀ d ∈ ds, ∀ q, ¬Alternative schema root options d q) →
        ∀ (Row : Type) (I : Interpretation Row) (row : Row),
          AlternativeHolds schema root options ds I row ↔ ∃ d ∈ ds, ∃ q,
            (compile schema root d options).result = .ok (some q) ∧ q.Holds I row) := by
  obtain ⟨ns, hns, ⟨o, ho, hp⟩, o', ho', hp'⟩ := exists_nodes hpolicies hds
  refine ⟨fun hlimit key hkey => ?_, fun p h Row I row => ?_, fun p h Row I row => ?_,
    fun hne hmixed Row I row => alternativeHolds_iff_of_not_mixed hne hds hmixed I row⟩
  · have hrenders : policies.sink.isLive = true → (Predicate.disjunction ns).Renders := by
      intro hlive
      refine Predicate.renders_disjunction fun q hq => ?_
      obtain ⟨d, _, halternative⟩ := (hns q).mp hq
      exact renders_of_compile hpolicies halternative.compiles hlive
    obtain rfl | hkey := List.mem_cons.mp hkey
    · exact ⟨_, compile_of_outline hpolicies hlimit rfl ho (by rwa [hp])⟩
    · cases List.mem_singleton.mp hkey
      refine ⟨_, compile_of_outline hpolicies hlimit rfl ho' ?_⟩
      rw [hp']
      exact fun hlive => Predicate.renders_not_iff.mpr (hrenders hlive)
  · obtain ⟨_, hsame, rfl⟩ := outline_of_compile hpolicies rfl h
    cases ho.symm.trans hsame
    rw [hp, alternativeHolds_iff hns]
  · obtain ⟨_, hsame, rfl⟩ := outline_of_compile hpolicies rfl h
    cases ho'.symm.trans hsame
    rw [hp', Predicate.holds_not_iff, alternativeHolds_iff hns]

end Compiled

namespace Sample

def titled : Value := .ofEntries [("title", .text "x")]

def titledPredicate : Predicate :=
  .test ⟨"title", "Album", .scalar .text⟩ ["title"] (.compare .eq (.text "x"))

/-- Every album, or those with the title: only those with the title are left. And neither every
album nor those with the title: those without the title are left. -/
theorem compiled_alternatives_pass_over_empty :
    (compile catalog.schema "Album" (.ofEntries []) (.settings .empty)).result =
        .ok (some .true) ∧
      (compile catalog.schema "Album" titled (.settings .empty)).result =
        .ok (some titledPredicate) ∧
      (compile catalog.schema "Album" (.ofEntries [("$or", .list [.ofEntries [], titled])])
        (.settings .empty)).result = .ok (some titledPredicate) ∧
      (compile catalog.schema "Album" (.ofEntries [("$nor", .list [.ofEntries [], titled])])
        (.settings .empty)).result = .ok (some (.not titledPredicate)) ∧
      ∃ I : Interpretation Unit, Predicate.true.Holds I () ∧ ¬titledPredicate.Holds I () ∧
        (Predicate.not titledPredicate).Holds I () := by
  have hfails : ¬titledPredicate.Holds ⟨fun _ _ _ _ => False, fun _ _ _ _ => False⟩ () :=
    fun h => Predicate.holds_test_iff.mp h
  exact ⟨rfl, rfl, rfl, rfl, _, Predicate.holds_true, hfails,
    Predicate.holds_not_iff.mpr hfails⟩

/-- Two documents that say nothing, and one that is an alternative. -/
def mixedDocuments : List Value :=
  [.ofEntries [], .ofEntries [("title", .ofEntries [])], titled]

theorem compile_mixedDocuments : ∀ d ∈ mixedDocuments, ∃ q,
    (compile catalog.schema "Album" d (.settings .empty)).result = .ok (some q) := by
  intro d hd
  simp only [mixedDocuments, List.mem_cons, List.not_mem_nil, or_false] at hd
  obtain rfl | rfl | rfl := hd
  · exact ⟨_, rfl⟩
  · exact ⟨_, rfl⟩
  · exact ⟨_, rfl⟩

theorem compiled_alternatives_hold_iff_mixed :
    Policies.resolve (.settings .empty) = .ok (.ofOptions .empty) ∧
      (∀ d ∈ mixedDocuments, ∃ q,
        (compile catalog.schema "Album" d (.settings .empty)).result = .ok (some q)) ∧
      (compile catalog.schema "Album" (.ofEntries [("$or", .list mixedDocuments)])
        (.settings .empty)).result = .ok (some titledPredicate) ∧
      ∀ (Row : Type) (I : Interpretation Row) (row : Row), titledPredicate.Holds I row ↔
        AlternativeHolds catalog.schema "Album" (.settings .empty) mixedDocuments I row :=
  ⟨rfl, compile_mixedDocuments, rfl,
    (compiled_alternatives_hold_iff rfl compile_mixedDocuments).2.1 _ rfl⟩

end Sample
end RowFilter
