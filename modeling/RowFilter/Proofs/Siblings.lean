import Mathlib.Data.List.Forall2
import RowFilter.Predicate.Meaning
import RowFilter.Proofs.Crossing

/-!
# Sibling keys under a relation

Keys in a document under the bare name of a relation have a scope each. Where the name is a path
through several relations, this holds of the last of them only: the scopes on the relations
before it are opened once, by the path, and all keys share them. So the document asks for one row
of those relations behind which every key finds its own, while the same keys written out with the
whole path may find them behind different rows.
-/

namespace RowFilter

namespace Traced
variable {α β : Type} {f : α → Traced β} {xs : List α} {ys : List β}

/-- A list of readings comes to what each of them comes to. -/
theorem mapM_eq_ok_iff :
    (xs.mapM f).result = .ok ys ↔ List.Forall₂ (fun x y => (f x).result = .ok y) xs ys := by
  rw [mapM_result]
  induction xs generalizing ys with
  | nil =>
    rw [List.forall₂_nil_left_iff]
    exact ⟨fun h => (Except.ok.inj h).symm, fun h => congrArg Except.ok h.symm⟩
  | cons x xs ih => simp only [mapM_cons_eq_ok_iff, List.forall₂_cons_left_iff, ih]

end Traced

/-! ## Chains of relations -/

/-- Relations that lead one after the other from a model to another. -/
def Schema.Chain (s : Schema) : String → List RelationField → String → Prop
  | model, [], target => target = model
  | model, relation :: rest, target =>
    s.field? model relation.name = some (.relation relation) ∧ s.Chain relation.target rest target

theorem Schema.chain_append_singleton {s : Schema} {model target : String}
    {outer : List RelationField} {relation : RelationField} :
    s.Chain model (outer ++ [relation]) target ↔
      ∃ owner, s.Chain model outer owner ∧
        s.field? owner relation.name = some (.relation relation) ∧ target = relation.target := by
  induction outer generalizing model with
  | nil => simp [Chain]
  | cons first outer ih =>
    rw [List.cons_append, Chain, ih]
    simp only [Chain, and_assoc, exists_and_left]

/-- The names of relations as a path. -/
def RelationField.names (chain : List RelationField) : Path := chain.map (·.name)

/-- At most one row stands behind a relation, for every row. -/
def Interpretation.AtMostOne {Row : Type} (I : Interpretation Row) (relation : RelationField) :
    Prop :=
  ∀ path row a b, I.related relation path row a → I.related relation path row b → a = b

namespace Predicate

/-- A predicate behind a chain of relations, one related node in the other. -/
def behind (outer : Path) : List RelationField → Predicate → Predicate
  | [], p => p
  | relation :: rest, p =>
    .related relation (outer ++ [relation.name]) (behind (outer ++ [relation.name]) rest p)

variable {outer : Path} {chain : List RelationField} {p q : Predicate} {ps : List Predicate}
  {Row : Type} {I : Interpretation Row} {row : Row}

theorem renders_behind_iff : (p.behind outer chain).Renders ↔ p.Renders := by
  induction chain generalizing outer with
  | nil => rfl
  | cons relation rest ih => rw [behind, renders_related_iff, ih]

theorem holds_behind_of_imp (himp : ∀ row, p.Holds I row → q.Holds I row)
    (h : (p.behind outer chain).Holds I row) : (q.behind outer chain).Holds I row := by
  induction chain generalizing outer row with
  | nil => exact himp row h
  | cons relation rest ih =>
    rw [behind, holds_related_iff] at h ⊢
    obtain ⟨other, hother, h⟩ := h
    exact ⟨other, hother, ih h⟩

/-- One row for all asks for a row for each. -/
theorem forall_holds_behind_of_conjunction
    (h : ((conjunction ps).behind outer chain).Holds I row) :
    ∀ p ∈ ps, (p.behind outer chain).Holds I row :=
  fun p hp => holds_behind_of_imp (fun _ hall => holds_conjunction_iff.mp hall p hp) h

/-- A row for each is one row for all, where there is one at most. -/
theorem holds_behind_conjunction_iff (hne : ps ≠ []) (hone : ∀ r ∈ chain, I.AtMostOne r) :
    ((conjunction ps).behind outer chain).Holds I row ↔
      ∀ p ∈ ps, (p.behind outer chain).Holds I row := by
  refine ⟨forall_holds_behind_of_conjunction, fun h => ?_⟩
  induction chain generalizing outer row with
  | nil => exact holds_conjunction_iff.mpr h
  | cons relation rest ih =>
    obtain ⟨hrelation, hrest⟩ := List.forall_mem_cons.mp hone
    obtain ⟨p, hp⟩ := List.exists_mem_of_ne_nil ps hne
    obtain ⟨other, hother, _⟩ := holds_related_iff.mp (h p hp)
    refine holds_related_iff.mpr ⟨other, hother, ih hrest fun q hq => ?_⟩
    obtain ⟨other', hother', hq'⟩ := holds_related_iff.mp (h q hq)
    exact hrelation _ _ _ _ hother' hother ▸ hq'

end Predicate

/-! ## Keys through a chain -/

namespace Definition
variable {definition : Value} {catalog : Catalog} {root owner : String}
  {chain : List RelationField} (hdefine : define definition = .ok catalog)
include hdefine

theorem forall_relates_of_chain (h : catalog.schema.Chain root chain owner) :
    ∀ relation ∈ chain, ∃ model, catalog.schema.Relates model relation.name relation := by
  induction chain generalizing root with
  | nil => exact fun _ h => nomatch h
  | cons relation rest ih =>
    obtain ⟨hfound, hrest⟩ := h
    exact List.forall_mem_cons.mpr ⟨⟨root, relates_of_define hdefine hfound⟩, ih hrest⟩

theorem isPlain_of_chain (h : catalog.schema.Chain root chain owner) :
    ∀ name ∈ RelationField.names chain, Path.IsPlain name := by
  refine List.forall_mem_map.mpr fun relation hrelation => ?_
  obtain ⟨_, hrelates⟩ := forall_relates_of_chain hdefine h relation hrelation
  exact hrelates.plain

/-- The names of relations, joined, begin like the first of them. -/
theorem head_names (h : catalog.schema.Chain root chain owner) (hne : chain ≠ []) :
    (Path.text (RelationField.names chain)).toList ≠ [] ∧
      (Path.text (RelationField.names chain)).toList.head? ≠ some '$' := by
  obtain ⟨relation, rest, rfl⟩ := List.exists_cons_of_ne_nil hne
  have hsafe := (relates_of_define hdefine h.1).safe
  rw [Ne, ← List.head?_eq_none_iff, RelationField.names, List.map_cons,
    Path.head?_text_cons hsafe.head.1, List.head?_eq_none_iff]
  exact hsafe.head

/-- The joined names are cut into the names again. -/
theorem ofText_names (h : catalog.schema.Chain root chain owner) (hne : chain ≠ []) :
    Path.ofText (Path.text (RelationField.names chain)) = RelationField.names chain :=
  Path.ofText_text (by simpa [RelationField.names] using hne) (isPlain_of_chain hdefine h)

end Definition

/-- The place behind a chain of relations. -/
def Place.along (place : Place) : List RelationField → Place
  | [] => place
  | relation :: rest => (place.behind relation.name).along rest

namespace Outline
open Traced

/-- An outline behind a chain of relations, which the whole path of a key leads through. -/
def around (whole outer : Path) : List RelationField → Outline → Outline
  | [], o => o
  | relation :: rest, o =>
    .field whole (.scope relation (outer ++ [relation.name]) []
      (around whole (outer ++ [relation.name]) rest o))

theorem node?_around {o : Outline} {n : Predicate} (h : o.node? = some n) (whole outer : Path)
    (chain : List RelationField) :
    (around whole outer chain o).node? = some (n.behind outer chain) := by
  induction chain generalizing outer with
  | nil => exact h
  | cons relation rest ih =>
    have hrest := ih (outer ++ [relation.name])
    simp only [around, node?, hrest]
    rfl

theorem predicate_joined (os : List Outline) : (joined os).predicate = .conjunction (nodes os) := by
  match os with
  | [] => rfl
  | [o] =>
    rw [joined, predicate, nodes, nodes, List.append_nil]
    cases o.node? <;> rfl
  | _ :: _ :: _ => rfl

variable {definition : Value} {catalog : Catalog} {root owner target : String}
  {chain : List RelationField} {relation : RelationField} {policies : Policies} {place : Place}
  {value : Value} {inside onRelation : Place → Traced Outline}
  (hdefine : Definition.define definition = .ok catalog)
include hdefine

theorem isOn_along (hplace : place.IsOn catalog.schema root owner)
    (hchain : catalog.schema.Chain owner chain target) :
    (place.along chain).IsOn catalog.schema root target := by
  induction chain generalizing place owner with
  | nil =>
    cases hchain
    exact hplace
  | cons relation rest ih =>
    obtain ⟨hfound, hrest⟩ := hchain
    exact ih (isOn_behind hplace (Definition.relates_of_define hdefine hfound)) hrest

/-- A key through a chain of relations is what is left of it behind the chain. -/
theorem ofKey_along (hplace : place.IsOn catalog.schema root owner)
    (hchain : catalog.schema.Chain owner chain target) (hp : policies.Unrestricted) {key : Path}
    (hne : key ≠ []) (hplain : ∀ segment ∈ key, Path.IsPlain segment) :
    (ofKey ⟨catalog.schema, root, policies⟩ value inside onRelation
        (RelationField.names chain ++ key) place).result =
      (ofKey ⟨catalog.schema, root, policies⟩ value inside onRelation key
          (place.along chain)).result.map
        (around (place.key.external ++ (RelationField.names chain ++ key)).strip place.path
          chain) := by
  induction chain generalizing place owner with
  | nil => exact (congrFun Except.map_id _).symm
  | cons relation rest ih =>
    obtain ⟨hfound, hrest⟩ := hchain
    have hrelates := Definition.relates_of_define hdefine hfound
    have hpath := path_behind hrelates place
    have hwhole : (place.behind relation.name).key.external ++ (RelationField.names rest ++ key) =
        place.key.external ++ (RelationField.names (relation :: rest) ++ key) := by
      rw [Place.behind_external, List.append_assoc]
      rfl
    have hbehind := ih (isOn_behind hplace hrelates) hrest
    rw [hwhole, hpath] at hbehind
    show (ofKey _ value inside onRelation
      (relation.name :: (RelationField.names rest ++ key)) place).result = _
    rw [ofKey_crossing hplace hrelates hp (List.append_ne_nil_of_right_ne_nil _ hne)
      (List.forall_mem_append.mpr ⟨Definition.isPlain_of_chain hdefine hrest, hplain⟩), hbehind,
      map_map_except, hpath]
    rfl

section Entries
variable {outer : List RelationField}
  (hchain : catalog.schema.Chain root (outer ++ [relation]) target) (hp : policies.Unrestricted)
include hchain hp

/-- A field key behind the names of all relations is the field key by itself behind them. -/
theorem ofEntry_dotted_along {k : String} (hk : k.toList.head? ≠ some '$') (v : Value) :
    (ofEntry ⟨catalog.schema, root, policies⟩
        (Path.text (RelationField.names (outer ++ [relation])) ++ "." ++ k, v) .root).result =
      (ofEntry ⟨catalog.schema, root, policies⟩ (k, v)
          ((Place.root.along outer).behind relation.name)).result.map fun o =>
        around (RelationField.names outer ++ relation.name :: Path.ofText k).strip [] outer
          (.field ((Place.root.along outer).key.external ++ relation.name :: Path.ofText k).strip
            (.scope relation ((Place.root.along outer).behind relation.name).path [] o)) := by
  obtain ⟨owner, houter, hfound, rfl⟩ := Schema.chain_append_singleton.mp hchain
  have hroot := Place.IsOn.root catalog.schema root
  have hrelates := Definition.relates_of_define hdefine hfound
  have hne : outer ++ [relation] ≠ [] := by simp
  have hpath : Path.ofText (Path.text (RelationField.names (outer ++ [relation])) ++ "." ++ k) =
      RelationField.names outer ++ relation.name :: Path.ofText k := by
    rw [Path.ofText_append_point, Definition.ofText_names hdefine hchain hne]
    simp [RelationField.names]
  have hplain : ∀ segment ∈ relation.name :: Path.ofText k, Path.IsPlain segment :=
    List.forall_mem_cons.mpr ⟨hrelates.plain, fun _ => Path.isPlain_of_mem_ofText⟩
  have hkey := DocumentKey.head_dotted (k := k) (Definition.head_names hdefine hchain hne)
  rw [ofEntry_of_field (DocumentKey.ofText_of_head hkey), hpath,
    ofKey_along hdefine hroot houter hp (List.cons_ne_nil _ _) hplain,
    ofKey_crossing (isOn_along hdefine hroot houter) hrelates hp (Path.ofText_ne_nil k)
      (fun _ => Path.isPlain_of_mem_ofText), map_map_except,
    ← ofEntry_of_field (DocumentKey.ofText_of_head hk)]
  rfl

/-- A document under the names of all relations comes to its entries behind the last of them. -/
theorem ofEntry_document_along {m : Value} {f : Fragment} (hm : m.mapping? = some f)
    (hf : f ≠ []) :
    (ofEntry ⟨catalog.schema, root, policies⟩
        (Path.text (RelationField.names (outer ++ [relation])), m) .root).result =
      (f.mapM (ofRelationEntry ⟨catalog.schema, root, policies⟩ ·
          ((Place.root.along outer).enter ⟨[relation.name], [relation.name]⟩))).result.map fun os =>
        around (RelationField.names (outer ++ [relation])).strip [] outer
          (.field ((Place.root.along outer).key.external ++ [relation.name]).strip (.all os)) := by
  obtain ⟨owner, houter, hfound, rfl⟩ := Schema.chain_append_singleton.mp hchain
  have hroot := Place.IsOn.root catalog.schema root
  have hrelates := Definition.relates_of_define hdefine hfound
  have hne : outer ++ [relation] ≠ [] := by simp
  have hnames : RelationField.names (outer ++ [relation]) =
      RelationField.names outer ++ [relation.name] := by
    simp [RelationField.names]
  rw [ofEntry_of_field (DocumentKey.ofText_of_head (Definition.head_names hdefine hchain hne).2),
    Definition.ofText_names hdefine hchain hne, hnames,
    ofKey_along hdefine hroot houter hp (List.cons_ne_nil _ _)
      (List.forall_mem_singleton.mpr hrelates.plain),
    ofKey_document (isOn_along hdefine hroot houter) hrelates hp hm hf, map_map_except]
  rfl

end Entries

theorem path_along (hchain : catalog.schema.Chain owner chain target) (place : Place) :
    (place.along chain).path = place.path ++ RelationField.names chain := by
  induction chain generalizing place owner with
  | nil => exact (List.append_nil _).symm
  | cons relation rest ih =>
    obtain ⟨hfound, hrest⟩ := hchain
    rw [Place.along, ih hrest, path_behind (Definition.relates_of_define hdefine hfound),
      List.append_assoc]
    rfl

end Outline

/-! ## Documents under a path of relations -/

/-- The entries of a document, each under its whole key. -/
def Fragment.spelledOut (outer : String) (f : Fragment) : Fragment :=
  f.map fun e => (outer ++ "." ++ e.1, e.2)

namespace Outline
open Traced

variable {definition : Value} {catalog : Catalog} {root target : String}
  {outer : List RelationField} {relation : RelationField} {policies : Policies}

/-- An entry, written out with the whole path, comes to this node behind the relations before
the last, which asks for a row behind the last. -/
structure ComesTo (catalog : Catalog) (root : String) (policies : Policies)
    (outer : List RelationField) (relation : RelationField) (e : String × Value) (n : Predicate) :
    Prop where
  related : ∃ q, n = .related relation (RelationField.names (outer ++ [relation])) q
  spelledOut : ∃ o, (ofEntry ⟨catalog.schema, root, policies⟩
      (Path.text (RelationField.names (outer ++ [relation])) ++ "." ++ e.1, e.2) .root).result =
        .ok o ∧ o.node? = some (n.behind [] outer)

variable (hdefine : Definition.define definition = .ok catalog)
  (hchain : catalog.schema.Chain root (outer ++ [relation]) target) (hp : policies.Unrestricted)
include hdefine hchain hp

/-- An entry that comes to something in a document under the path comes to a node that it also
comes to written out. -/
theorem exists_comesTo {e : String × Value} (hkey : e.1.toList.head? ≠ some '$') {o : Outline}
    (h : (ofRelationEntry ⟨catalog.schema, root, policies⟩ e
      ((Place.root.along outer).enter ⟨[relation.name], [relation.name]⟩)).result = .ok o) :
    ∃ n, o.node? = some n ∧ ComesTo catalog root policies outer relation e n := by
  obtain ⟨owner, houter, hfound, rfl⟩ := Schema.chain_append_singleton.mp hchain
  have hrelates := Definition.relates_of_define hdefine hfound
  have hpath : ((Place.root.along outer).behind relation.name).path =
      RelationField.names (outer ++ [relation]) := by
    rw [path_behind hrelates, path_along hdefine houter]
    simp [RelationField.names, Place.path, Place.root, Path.strip]
  rw [ofRelationEntry_result (isOn_along hdefine (.root _ _) houter) hrelates hp hkey] at h
  have hdotted := ofEntry_dotted_along hdefine hchain hp hkey e.2
  cases hinner : (ofEntry ⟨catalog.schema, root, policies⟩ e
      ((Place.root.along outer).behind relation.name)).result with
  | error fault =>
    rw [hinner] at h
    cases h
  | ok inner =>
    rw [hinner, hpath] at h hdotted
    cases h
    exact ⟨_, rfl, ⟨_, rfl⟩, _, hdotted, node?_around rfl _ _ _⟩

variable {f : Fragment} (hkeys : ∀ e ∈ f, e.1.toList.head? ≠ some '$')
include hkeys

/-- The entries of a document under the path come to nodes that they also come to written out. -/
theorem forall₂_comesTo {os : List Outline}
    (h : (f.mapM (ofRelationEntry ⟨catalog.schema, root, policies⟩ ·
      ((Place.root.along outer).enter ⟨[relation.name], [relation.name]⟩))).result = .ok os) :
    List.Forall₂ (ComesTo catalog root policies outer relation) f (nodes os) := by
  rw [mapM_eq_ok_iff] at h
  induction h with
  | nil => exact .nil
  | cons hentry _ ih =>
    obtain ⟨hkey, hkeys⟩ := List.forall_mem_cons.mp hkeys
    obtain ⟨n, hnode, hn⟩ := exists_comesTo hdefine hchain hp hkey hentry
    rw [nodes, hnode]
    exact .cons hn (ih hkeys)

omit hdefine hchain hp hkeys in
/-- A document with every key written out comes to those nodes, behind the relations each. -/
theorem exists_spelledOut {ns : List Predicate}
    (h : List.Forall₂ (ComesTo catalog root policies outer relation) f ns) :
    ∃ os, ((f.spelledOut (Path.text (RelationField.names (outer ++ [relation])))).mapM
        (ofEntry ⟨catalog.schema, root, policies⟩ · .root)).result = .ok os ∧
      nodes os = ns.map (·.behind [] outer) := by
  induction h with
  | nil => exact ⟨[], rfl, rfl⟩
  | cons hn _ ih =>
    obtain ⟨o, ho, hnode⟩ := hn.spelledOut
    obtain ⟨os, hos, hnodes⟩ := ih
    refine ⟨o :: os, mapM_eq_ok_iff.mpr (.cons ho (mapM_eq_ok_iff.mp hos)), ?_⟩
    rw [nodes, hnode, hnodes]
    rfl

end Outline

/-! ## Compiled documents -/

section Compiled
variable {definition : Value} {catalog : Catalog} {root target : String}
  {outer : List RelationField} {relation : RelationField} {options : OptionsArgument}
  {policies : Policies} {m : Value} {f : Fragment} {p : Predicate}
  (hdefine : Definition.define definition = .ok catalog)
  (hchain : catalog.schema.Chain root (outer ++ [relation]) target)
  (hpolicies : Policies.resolve options = .ok policies) (hp : policies.Unrestricted)
include hdefine hchain hpolicies hp

/-- What a document under the name of relations compiles to, with the nodes of its entries. -/
theorem exists_siblings (hm : m.mapping? = some f) (hne : f ≠ [])
    (hkeys : ∀ e ∈ f, e.1.toList.head? ≠ some '$')
    (h : (compile catalog.schema root
      (.ofEntries [(Path.text (RelationField.names (outer ++ [relation])), m)]) options).result =
        .ok (some p)) :
    ∃ ns, p = (Predicate.conjunction ns).behind [] outer ∧
      List.Forall₂ (Outline.ComesTo catalog root policies outer relation) f ns := by
  obtain ⟨o, ho, rfl⟩ := outline_of_compile hpolicies rfl h
  rw [Outline.ofDocument, Outline.ofFragment_singleton,
    Outline.ofEntry_document_along hdefine hchain hp hm hne] at ho
  cases hos : (f.mapM (Outline.ofRelationEntry ⟨catalog.schema, root, policies⟩ ·
      ((Place.root.along outer).enter ⟨[relation.name], [relation.name]⟩))).result with
  | error fault =>
    rw [hos] at ho
    cases ho
  | ok os =>
    rw [hos] at ho
    cases ho
    refine ⟨Outline.nodes os, ?_, Outline.forall₂_comesTo hdefine hchain hp hkeys hos⟩
    rw [Outline.predicate, Outline.node?_around rfl]
    rfl

omit hdefine hchain in
/-- An entry that comes to a node compiles to it by itself, behind the relations. -/
theorem compile_of_comesTo {e : String × Value} {n : Predicate}
    (h : Outline.ComesTo catalog root policies outer relation e n)
    (hrenders : policies.sink.isLive = true → n.Renders) :
    (compile catalog.schema root (.ofEntries
      [(Path.text (RelationField.names (outer ++ [relation])) ++ "." ++ e.1, e.2)]) options).result =
        .ok (some (n.behind [] outer)) := by
  obtain ⟨o, ho, hnode⟩ := h.spelledOut
  have hpredicate : o.predicate = n.behind [] outer := by
    rw [Outline.predicate, hnode]
    rfl
  rw [← hpredicate]
  refine compile_of_outline hpolicies hp.limit rfl ?_ fun hlive => ?_
  · rw [Outline.ofDocument, Outline.ofFragment_singleton]
    exact ho
  · rw [hpredicate, Predicate.renders_behind_iff]
    exact hrenders hlive

/-- Without policies that restrict it, such as those of the default options, a document of field
keys under a path of relations asks for one row behind the relations before the last, and there
for a row of its own behind the last relation for each key. The document with every key written
out compiles too, and asks for rows of its own behind all relations for each key. So the first
holds of no more rows than the second, and of the same rows where it has one key, or where each
relation before the last has at most one row behind it: above all where there is none before
the last. -/
theorem compile_siblings_share_outer_scopes (hm : m.mapping? = some f) (hne : f ≠ [])
    (hkeys : ∀ e ∈ f, e.1.toList.head? ≠ some '$')
    (h : (compile catalog.schema root
      (.ofEntries [(Path.text (RelationField.names (outer ++ [relation])), m)]) options).result =
        .ok (some p)) :
    ∃ ns, p = (Predicate.conjunction ns).behind [] outer ∧
      List.Forall₂ (fun e n =>
        (∃ q, n = .related relation (RelationField.names (outer ++ [relation])) q) ∧
          (compile catalog.schema root (.ofEntries
              [(Path.text (RelationField.names (outer ++ [relation])) ++ "." ++ e.1, e.2)])
            options).result = .ok (some (n.behind [] outer))) f ns ∧
      (compile catalog.schema root
          (.ofEntries (f.spelledOut (Path.text (RelationField.names (outer ++ [relation])))))
          options).result = .ok (some (.conjunction (ns.map (·.behind [] outer)))) ∧
      ∀ (Row : Type) (I : Interpretation Row) (row : Row),
        (p.Holds I row → (Predicate.conjunction (ns.map (·.behind [] outer))).Holds I row) ∧
          (f.length = 1 ∨ (∀ r ∈ outer, I.AtMostOne r) →
            (p.Holds I row ↔ (Predicate.conjunction (ns.map (·.behind [] outer))).Holds I row)) := by
  obtain ⟨ns, rfl, hns⟩ := exists_siblings hdefine hchain hpolicies hp hm hne hkeys h
  have hrenders (hlive : policies.sink.isLive = true) : ∀ n ∈ ns, n.Renders := by
    rw [← Predicate.renders_conjunction_iff, ← Predicate.renders_behind_iff]
    exact renders_of_compile hpolicies h hlive
  have hlength : f.length = ns.length := hns.length_eq
  refine ⟨ns, rfl, ?_, ?_, fun Row I row => ?_⟩
  · have hboth := (List.forall₂_and_left ns f).mpr
      ⟨fun n hn (hlive : policies.sink.isLive = true) => hrenders hlive n hn, hns.flip⟩
    exact hboth.flip.imp fun e n h => ⟨h.2.related, compile_of_comesTo hpolicies hp h.2 h.1⟩
  · obtain ⟨os, hos, hnodes⟩ := Outline.exists_spelledOut hns
    have hpredicate : (Outline.joined os).predicate =
        .conjunction (ns.map (·.behind [] outer)) := by
      rw [Outline.predicate_joined, hnodes]
    rw [← hpredicate]
    refine compile_of_outline hpolicies hp.limit rfl ?_ fun hlive => ?_
    · rw [Outline.ofDocument, Outline.ofFragment, Outline.ofEntries_eq_mapM, Traced.return_result,
        hos]
      rfl
    · rw [hpredicate, Predicate.renders_conjunction_iff, List.forall_mem_map]
      exact fun n hn => Predicate.renders_behind_iff.mpr (hrenders hlive n hn)
  · have hspelled : (Predicate.conjunction (ns.map (·.behind [] outer))).Holds I row ↔
        ∀ n ∈ ns, (n.behind [] outer).Holds I row := by
      rw [Predicate.holds_conjunction_iff, List.forall_mem_map]
    rw [hspelled]
    refine ⟨Predicate.forall_holds_behind_of_conjunction, ?_⟩
    rintro (hone | hone)
    · obtain ⟨n, rfl⟩ := List.length_eq_one_iff.mp (hlength ▸ hone)
      simp [Predicate.conjunction]
    · refine Predicate.holds_behind_conjunction_iff ?_ hone
      rintro rfl
      exact hne (List.eq_nil_of_length_eq_zero hlength)

end Compiled

namespace Sample

def playlistTracks : RelationField := ⟨"tracks", "Playlist", "Track", .many⟩

def trackAlbum : RelationField := ⟨"album", "Track", "Album", .one⟩

/-- Asks of an album for a title and a date. -/
def albumFragment : Fragment :=
  [("title", .text "x"), ("released", .ofEntries [("$exists", .bool true)])]

def titledAlbum : Predicate :=
  .related trackAlbum ["tracks", "album"]
    (.test ⟨"title", "Album", .scalar .text⟩ ["tracks", "album", "title"]
      (.compare .eq (.text "x")))

def datedAlbum : Predicate :=
  .related trackAlbum ["tracks", "album"]
    (.test ⟨"released", "Album", .scalar .date⟩ ["tracks", "album", "released"] .notNull)

def sharedScope : Predicate := .related playlistTracks ["tracks"] (.all [titledAlbum, datedAlbum])

/-- A playlist with two tracks, one on an album with the title, and one on an album with a date. -/
def twoAlbums : Interpretation Nat where
  test field _ _ row := field.name = "title" ∧ row = 3 ∨ field.name = "released" ∧ row = 4
  related _ _ row other := (row, other) ∈ [(0, 1), (0, 2), (1, 3), (2, 4)]

/-- The two keys share the scope on the tracks. A playlist on which the title and the date are
those of two albums satisfies the document with the keys written out, and not this one. -/
theorem compile_siblings_not_equivalent :
    Definition.define definition = .ok catalog ∧
      (compile catalog.schema "Playlist" (.ofEntries [("tracks.album", .ofEntries albumFragment)])
          .absent).result = .ok (some sharedScope) ∧
      (compile catalog.schema "Playlist" (.ofEntries (albumFragment.spelledOut "tracks.album"))
          .absent).result =
        .ok (some (.all [.related playlistTracks ["tracks"] titledAlbum,
          .related playlistTracks ["tracks"] datedAlbum])) ∧
      ¬∀ (Row : Type) (I : Interpretation Row) (row : Row),
        sharedScope.Holds I row ↔
          (Predicate.all [.related playlistTracks ["tracks"] titledAlbum,
            .related playlistTracks ["tracks"] datedAlbum]).Holds I row := by
  refine ⟨define_definition, rfl, rfl, fun h => ?_⟩
  have hiff := h Nat twoAlbums 0
  simp [Predicate.holds_related_iff, Predicate.holds_all_iff, titledAlbum, datedAlbum,
    sharedScope, Predicate.holds_test_iff, twoAlbums] at hiff

/-- On playlists with one track at most the two documents hold of the same rows. -/
theorem compile_siblings_share_outer_scopes_album :
    Definition.define definition = .ok catalog ∧
      catalog.schema.Chain "Playlist" ([playlistTracks] ++ [trackAlbum]) "Album" ∧
      Policies.resolve .absent = .ok (.ofOptions .empty) ∧
      (Policies.ofOptions .empty).Unrestricted ∧ albumFragment ≠ [] ∧
      (∀ e ∈ albumFragment, e.1.toList.head? ≠ some '$') ∧
      (compile catalog.schema "Playlist" (.ofEntries
          [(Path.text (RelationField.names ([playlistTracks] ++ [trackAlbum])),
            .ofEntries albumFragment)]) .absent).result = .ok (some sharedScope) ∧
      ∃ p, (compile catalog.schema "Playlist" (.ofEntries (albumFragment.spelledOut
          (Path.text (RelationField.names ([playlistTracks] ++ [trackAlbum]))))) .absent).result =
            .ok (some p) ∧
        ∀ (Row : Type) (I : Interpretation Row) (row : Row),
          (sharedScope.Holds I row → p.Holds I row) ∧
            (I.AtMostOne playlistTracks → (sharedScope.Holds I row ↔ p.Holds I row)) := by
  have hchain : catalog.schema.Chain "Playlist" ([playlistTracks] ++ [trackAlbum]) "Album" :=
    ⟨rfl, rfl, rfl⟩
  have hoptions : Policies.resolve .absent = .ok (.ofOptions .empty) := rfl
  have hkeys : ∀ e ∈ albumFragment, e.1.toList.head? ≠ some '$' := by decide +kernel
  have hcompile : (compile catalog.schema "Playlist" (.ofEntries
      [(Path.text (RelationField.names ([playlistTracks] ++ [trackAlbum])),
        .ofEntries albumFragment)]) .absent).result = .ok (some sharedScope) := rfl
  obtain ⟨ns, _, _, hspelled, hholds⟩ := compile_siblings_share_outer_scopes define_definition
    hchain hoptions Policies.unrestricted_default (m := .ofEntries albumFragment) rfl
    (List.cons_ne_nil _ _) hkeys hcompile
  refine ⟨define_definition, hchain, hoptions, Policies.unrestricted_default,
    List.cons_ne_nil _ _, hkeys, hcompile, _, hspelled, fun Row I row => ?_⟩
  refine ⟨(hholds Row I row).1, fun hone => (hholds Row I row).2 (.inr ?_)⟩
  exact List.forall_mem_singleton.mpr hone

end Sample
end RowFilter
