import Mathlib.Data.List.Basic
import RowFilter.Proofs.Rows
import RowFilter.Proofs.Unconditional

/-!
# Scopes and related nodes

A predicate has a related node for every scope that the compile opened, for every question of
existence, and wherever a condition has one itself. The compile asks for conditions and reports
once for every scope, in the order in which the nodes of the scopes stand in the predicate.

The two orders agree because a scope is reported before anything in it is read, and its node
stands before the nodes inside.
-/

namespace RowFilter

/-! ## Related nodes -/

namespace Predicate

def isRelated : Predicate → Bool
  | .related _ _ _ => Bool.true
  | _ => Bool.false

/-- The related nodes of a predicate, each before those inside it. -/
def relatedNodes (p : Predicate) : List Predicate := p.parts.filter isRelated

theorem filter_partsOfAll (ps : List Predicate) :
    (partsOfAll ps).filter isRelated = ps.flatMap relatedNodes := by
  rw [partsOfAll_eq, List.filter_flatMap]
  rfl

theorem relatedNodes_not (p : Predicate) : (not p).relatedNodes = p.relatedNodes := rfl

theorem relatedNodes_related (relation : RelationField) (path : Path) (p : Predicate) :
    (related relation path p).relatedNodes = related relation path p :: p.relatedNodes := rfl

theorem relatedNodes_conjunction (ps : List Predicate) :
    (conjunction ps).relatedNodes = ps.flatMap relatedNodes := by
  unfold conjunction
  split
  · exact (List.flatMap_singleton _ _).symm
  · exact filter_partsOfAll ps

theorem relatedNodes_disjunction (ps : List Predicate) :
    (disjunction ps).relatedNodes = ps.flatMap relatedNodes := by
  unfold disjunction
  split
  · rfl
  · exact (List.flatMap_singleton _ _).symm
  · exact filter_partsOfAll ps

theorem relatedNodes_getD (p : Option Predicate) :
    (p.getD true).relatedNodes = p.toList.flatMap relatedNodes := by
  cases p with
  | none => rfl
  | some p => exact (List.flatMap_singleton _ _).symm

end Predicate

/-- A scope as a compile opened it: the relation, its path, the conditions of its rows, and what
the document asks of them, if anything. -/
structure OpenedScope where
  relation : RelationField
  path : Path
  conditions : List Predicate
  body : Option Predicate

/-- The node of a scope: one of the related rows satisfies the conditions and the body. -/
def OpenedScope.node (s : OpenedScope) : Predicate :=
  .related s.relation s.path (.conjunction (s.conditions ++ s.body.toList))

/-- A related node by where it comes from. -/
inductive RelatedNode where
  | scope (s : OpenedScope)
  | existence (q : Predicate)
  | condition (q : Predicate)

namespace RelatedNode

def node : RelatedNode → Predicate
  | .scope s => s.node
  | .existence q => q
  | .condition q => q

def scope? : RelatedNode → Option OpenedScope
  | .scope s => some s
  | _ => none

/-- The related nodes in some conditions. -/
def ofConditions (conditions : List Predicate) : List RelatedNode :=
  conditions.flatMap fun c => c.relatedNodes.map .condition

theorem map_node_ofConditions (conditions : List Predicate) :
    (ofConditions conditions).map node = conditions.flatMap Predicate.relatedNodes := by
  rw [ofConditions, List.map_flatMap]
  refine List.flatMap_congr fun c _ => ?_
  rw [List.map_map]
  exact List.map_id _

theorem exists_of_mem_ofConditions {conditions : List Predicate} {n : RelatedNode}
    (h : n ∈ ofConditions conditions) : ∃ c ∈ conditions, ∃ q ∈ c.relatedNodes, n = .condition q := by
  obtain ⟨c, hc, hn⟩ := List.mem_flatMap.mp h
  obtain ⟨q, hq, rfl⟩ := List.mem_map.mp hn
  exact ⟨c, hc, q, hq, rfl⟩

end RelatedNode

namespace Outline

/-- The related nodes that a part of an outline contributes itself. -/
def ownRelated : Outline → List RelatedNode
  | .scope relation path conditions body =>
    .scope ⟨relation, path, conditions, body.node?⟩ :: RelatedNode.ofConditions conditions
  | .operator _ p => p.relatedNodes.map .existence
  | _ => []

/-- The related nodes of the predicate of an outline, in order. -/
def related (o : Outline) : List RelatedNode := o.parts.flatMap ownRelated

/-- The scopes of an outline, each before those inside it. -/
def scopes (o : Outline) : List OpenedScope := o.related.filterMap RelatedNode.scope?

theorem related_all (os : List Outline) : (all os).related = os.flatMap related := by
  rw [related, parts, partsOfAll_eq, List.flatMap_cons, List.flatMap_assoc]
  rfl

theorem related_any (os : List Outline) : (any os).related = os.flatMap related := by
  rw [related, parts, partsOfAll_eq, List.flatMap_cons, List.flatMap_assoc]
  rfl

theorem related_joined (os : List Outline) : (joined os).related = os.flatMap related := by
  match os with
  | [] => rfl
  | [o] => exact (List.flatMap_singleton _ _).symm
  | _ :: _ :: _ => exact related_all _

theorem related_scope (relation : RelationField) (path : Path) (conditions : List Predicate)
    (body : Outline) : (scope relation path conditions body).related =
      .scope ⟨relation, path, conditions, body.node?⟩ ::
        (RelatedNode.ofConditions conditions ++ body.related) := rfl

theorem related_operator (place : Place) (p : Predicate) :
    (operator place p).related = p.relatedNodes.map .existence := List.flatMap_singleton _ _

/-- An outline shows where every related node of its predicate comes from. -/
theorem flatMap_relatedNodes_node? (o : Outline) :
    o.node?.toList.flatMap Predicate.relatedNodes = o.related.map RelatedNode.node := by
  have hnodes {os : List Outline}
      (ih : ∀ o ∈ os, o.node?.toList.flatMap Predicate.relatedNodes =
        o.related.map RelatedNode.node) :
      (nodes os).flatMap Predicate.relatedNodes = (os.flatMap related).map RelatedNode.node := by
    rw [nodes_eq_flatMap, List.flatMap_assoc, List.map_flatMap]
    exact List.flatMap_congr ih
  induction o using induction with
  | nothing => rfl
  | all os ih =>
    simp only [node?, Option.toList_some, List.flatMap_singleton]
    rw [related_all, ← hnodes ih, Predicate.relatedNodes_conjunction]
  | any os ih =>
    simp only [node?, Option.toList_some, List.flatMap_singleton]
    rw [related_any, ← hnodes ih, Predicate.relatedNodes_disjunction]
  | not o ih =>
    simp only [node?, Option.toList_some, List.flatMap_singleton]
    rw [Predicate.relatedNodes_not, Predicate.relatedNodes_getD]
    exact ih
  | scope relation path conditions body ih =>
    simp only [node?, Option.toList_some, List.flatMap_singleton]
    rw [Predicate.relatedNodes_related, Predicate.relatedNodes_conjunction, List.flatMap_append, ih,
      related_scope, List.map_cons, List.map_append, RelatedNode.map_node_ofConditions]
    rfl
  | operator place p =>
    rw [related_operator, List.map_map]
    exact (List.flatMap_singleton _ _).trans (List.map_id _).symm
  | field path inside ih => exact ih

theorem relatedNodes_predicate (o : Outline) :
    o.predicate.relatedNodes = o.related.map RelatedNode.node := by
  rw [predicate, Predicate.relatedNodes_getD, flatMap_relatedNodes_node?]

theorem scopes_operator (place : Place) (p : Predicate) : (operator place p).scopes = [] := by
  rw [scopes, related_operator, List.filterMap_map]
  exact List.filterMap_eq_nil_iff.mpr fun _ _ => rfl

theorem scopes_scope (relation : RelationField) (path : Path) (conditions : List Predicate)
    (body : Outline) : (scope relation path conditions body).scopes =
      ⟨relation, path, conditions, body.node?⟩ :: body.scopes := by
  have hconditions : (RelatedNode.ofConditions conditions).filterMap RelatedNode.scope? = [] := by
    rw [List.filterMap_eq_nil_iff]
    intro n hn
    obtain ⟨_, _, _, _, rfl⟩ := RelatedNode.exists_of_mem_ofConditions hn
    rfl
  rw [scopes, related_scope, List.filterMap_cons, List.filterMap_append, hconditions]
  rfl

end Outline

/-! ## Events of scopes -/

/-- Does an event belong to the opening of a scope? -/
def Event.isOfScope : Event → Bool
  | .asked policy _ => policy = .nestedConditions
  | .logged message _ => message = "Opened relation scope"

/-- What is on record of a question for conditions. A table is not asked. -/
def Policies.conditionQuestion (policies : Policies) (path : Path) : List Event :=
  match policies.conditions with
  | .none | .table _ => []
  | .asked _ => [.asked .nestedConditions path]

/-- What the opening of a scope leaves on record: the question for its conditions, and a report. -/
def OpenedScope.events (policies : Policies) (s : OpenedScope) : List Event :=
  policies.conditionQuestion s.path ++
    [.logged "Opened relation scope"
      [("path", .text s.path.text), ("cardinality", .text s.relation.cardinality.label),
        ("nestedConditions", .number (.ofNat s.conditions.length))]]

namespace Traced
variable {α β : Type} {x : Traced α} {events : α → List Event}

def scopeEvents (x : Traced α) : List Event := x.events.filter Event.isOfScope

theorem scopeEvents_bind_of_ok {f : α → Traced β} {a : α} (h : x.result = .ok a) :
    (x >>= f).scopeEvents = x.scopeEvents ++ (f a).scopeEvents := by
  rw [bind_eq, bind_of_ok f h]
  exact List.filter_append _ _

/-- Has nothing to do with scopes. -/
def Quiet (x : Traced α) : Prop := x.scopeEvents = []

theorem quiet_bind {f : α → Traced β} (hx : x.Quiet) (hf : ∀ a, (f a).Quiet) :
    (x >>= f).Quiet := by
  obtain ⟨xs, fault | a⟩ := x
  · exact hx
  · rw [Quiet, scopeEvents_bind_of_ok rfl, hx, hf a]
    rfl

theorem quiet_ofExcept {r : Except Fault α} : (ofExcept r).Quiet := rfl

theorem quiet_ask {policy : Policy} {path : Path} {answer : Except String α}
    (h : policy ≠ .nestedConditions) : (ask policy path answer).Quiet :=
  List.filter_eq_nil_iff.mpr fun e he => by
    rw [List.mem_singleton.mp he]
    simpa [Event.isOfScope] using h

/-- Wherever it comes to something, that tells its events of scopes. -/
def Records (events : α → List Event) (x : Traced α) : Prop :=
  ∀ a, x.result = .ok a → x.scopeEvents = events a

theorem records_pure {a : α} (h : events a = []) : Records events (pure a) := by
  rintro _ ⟨⟩
  exact h.symm

theorem records_refuse {cause : Cause} {dataKey : Path} {filter : Value} {op : Option String} :
    Records events (refuse cause dataKey filter op) :=
  fun a h => absurd h (refuse_result_ne_ok cause dataKey filter op a)

theorem records_bind {f : α → Traced β} {events' : β → List Event} (hx : x.Quiet)
    (hf : ∀ a, x.result = .ok a → Records events' (f a)) : Records events' (x >>= f) := by
  intro b hb
  obtain ⟨a, ha, hb⟩ := bind_result_eq_ok_iff.mp hb
  rw [scopeEvents_bind_of_ok ha, hx]
  exact hf a ha b hb

theorem records_return {g : α → β} {events' : β → List Event} (hx : Records events x)
    (hg : ∀ a, events' (g a) = events a) : Records events' (do return g (← x)) := by
  intro b hb
  obtain ⟨a, ha, hb⟩ := bind_result_eq_ok_iff.mp hb
  cases hb
  rw [scopeEvents_bind_of_ok ha, hg, hx a ha]
  exact List.append_nil _

theorem records_mapM {events : β → List Event} {f : α → Traced β} {xs : List α}
    (h : ∀ x ∈ xs, Records events (f x)) : Records (·.flatMap events) (xs.mapM f) := by
  induction xs with
  | nil => exact records_pure rfl
  | cons x xs ih =>
    intro ys hys
    rw [List.mapM_cons] at hys ⊢
    obtain ⟨y, hy, hys⟩ := bind_result_eq_ok_iff.mp hys
    obtain ⟨rest, hrest, hys⟩ := bind_result_eq_ok_iff.mp hys
    cases hys
    have hevents := ih (fun x hx => h x (List.mem_cons_of_mem _ hx)) rest hrest
    rw [scopeEvents_bind_of_ok hy, scopeEvents_bind_of_ok hrest, h x List.mem_cons_self y hy,
      hevents]
    exact congrArg (events y ++ ·) (List.append_nil _)

end Traced

namespace Policies
open Traced

theorem scopeEvents_conditionsFor (policies : Policies) (path : Path) :
    (policies.conditionsFor path).scopeEvents = policies.conditionQuestion path := by
  unfold conditionsFor conditionQuestion
  cases policies.conditions with
  | none => rfl
  | table entries =>
    dsimp only
    split <;> rfl
  | asked f =>
    show ((ask .nestedConditions path (f path.text)) >>= _).scopeEvents = _
    cases f path.text <;> rfl

theorem quiet_isWhitelisted (policies : Policies) (schema : Schema) (root : String) (path : Path) :
    (policies.isWhitelisted schema root path).Quiet := by
  unfold isWhitelisted
  split
  · rfl
  · rfl
  · exact quiet_bind (quiet_ask (by decide)) fun _ => rfl

theorem quiet_translate (policies : Policies) (key : Path) : (policies.translate key).Quiet := by
  unfold translate
  split
  · rfl
  · exact quiet_bind (quiet_ask (by decide)) fun _ => rfl

end Policies

namespace Outline
open Traced

/-- What the opening of its scopes leaves on record. -/
def scopeEvents (policies : Policies) (o : Outline) : List Event :=
  o.scopes.flatMap (OpenedScope.events policies)

variable {policies : Policies} {setup : Setup} {place : Place}

/-- Outlines that have their related nodes one after the other have their scopes so. -/
theorem scopeEvents_of_related {o : Outline} {os : List Outline}
    (h : o.related = os.flatMap related) :
    o.scopeEvents policies = os.flatMap (scopeEvents policies) := by
  rw [scopeEvents, scopes, h, List.filterMap_flatMap, List.flatMap_assoc]
  rfl

theorem scopeEvents_all (os : List Outline) :
    (all os).scopeEvents policies = os.flatMap (scopeEvents policies) :=
  scopeEvents_of_related (related_all os)

theorem scopeEvents_any (os : List Outline) :
    (any os).scopeEvents policies = os.flatMap (scopeEvents policies) :=
  scopeEvents_of_related (related_any os)

theorem scopeEvents_joined (os : List Outline) :
    (joined os).scopeEvents policies = os.flatMap (scopeEvents policies) :=
  scopeEvents_of_related (related_joined os)

theorem scopeEvents_scope (relation : RelationField) (path : Path) (conditions : List Predicate)
    (body : Outline) : (scope relation path conditions body).scopeEvents policies =
      OpenedScope.events policies ⟨relation, path, conditions, body.node?⟩ ++
        body.scopeEvents policies := by
  rw [scopeEvents, scopes_scope, List.flatMap_cons]
  rfl

theorem quiet_fieldAt? (setup : Setup) (place : Place) : (fieldAt? setup place).Quiet :=
  quiet_bind quiet_ofExcept fun _ => rfl

theorem quiet_innerKey (setup : Setup) (key dataKey : Path) (value : Value) :
    (Traversal.innerKey setup key dataKey value).Quiet :=
  quiet_bind (setup.policies.quiet_translate dataKey) fun _ => by
    dsimp only
    split <;> rfl

/-- Whatever the reading comes to at a place shows the scopes that were opened. -/
def ShowsScopes (setup : Setup) (x : Place → Traced Outline) : Prop :=
  ∀ place, Records (scopeEvents setup.policies) (x place)

theorem showsScopes_ofOperator (token : String) (v : Value) :
    ShowsScopes setup (ofOperator setup token v) := by
  intro place
  unfold ofOperator
  dsimp only
  split
  · exact records_refuse
  · refine records_bind (quiet_fieldAt? setup place) fun target _ => ?_
    split
    · refine records_bind quiet_ofExcept fun p _ => records_pure ?_
      rw [scopeEvents, scopes_operator]
      rfl
    · exact records_refuse

/-- A scope is reported before what is read in it. -/
theorem showsScopes_ofScope {v : Value} {body : Place → Traced Outline}
    (h : ShowsScopes setup body) : ShowsScopes setup (ofScope setup v body) := by
  intro place o ho
  obtain ⟨relation, conditions, inside, htarget, hconditions, hinside, rfl⟩ :=
    ofScope_eq_ok_iff.mp ho
  unfold ofScope
  rw [scopeEvents_bind_of_ok htarget, quiet_fieldAt?, scopeEvents_bind_of_ok hconditions,
    Policies.scopeEvents_conditionsFor, scopeEvents_bind_of_ok (a := ()) rfl,
    scopeEvents_bind_of_ok hinside, h _ inside hinside, scopeEvents_scope, OpenedScope.events,
    List.append_assoc]
  exact congrArg (_ ++ _ :: ·) (List.append_nil _)

theorem showsScopes_ofFragment {f : Fragment} (h : ∀ e ∈ f, ShowsScopes setup (ofEntry setup e)) :
    ShowsScopes setup (ofFragment setup f) := by
  intro place
  unfold ofFragment
  rw [ofEntries_eq_mapM]
  exact records_return (records_mapM fun e he => h e he place) scopeEvents_joined

theorem showsScopes_ofValue {v : Value} {otherwise : Place → Traced Outline}
    (h : ∀ f, v.mapping? = some f → ∀ e ∈ f, ShowsScopes setup (ofEntry setup e))
    (hotherwise : ShowsScopes setup otherwise) :
    ShowsScopes setup (ofValue setup otherwise v) := by
  cases hf : v.mapping? with
  | none =>
    rw [ofValue_of_mapping?_eq_none hf]
    exact hotherwise
  | some f =>
    rw [ofValue_of_mapping? hf]
    exact showsScopes_ofFragment (h f hf)

theorem records_ofList (op : String) {v : Value}
    (h : ∀ fs, v.fragments? = some fs → ∀ f ∈ fs, ∀ e ∈ f, ShowsScopes setup (ofEntry setup e))
    (place : Place) :
    Records (·.flatMap (scopeEvents setup.policies)) (ofList setup op v place) := by
  cases hfs : v.fragments? with
  | none =>
    rw [ofList_of_fragments?_eq_none hfs]
    exact records_refuse
  | some fs =>
    rw [ofList_of_fragments? hfs]
    exact records_mapM fun f hf => showsScopes_ofFragment (h fs hfs f hf) place

theorem showsScopes_ofRelationValue {v : Value}
    (h : ∀ f, v.mapping? = some f → ∀ e ∈ f, ShowsScopes setup (ofEntry setup e)) :
    ShowsScopes setup (ofRelationValue setup v) := by
  intro place
  cases hf : v.mapping? with
  | none =>
    rw [ofRelationValue_of_mapping?_eq_none hf]
    exact records_refuse
  | some f =>
    by_cases hne : f = []
    · rw [ofRelationValue_of_empty (hne ▸ hf)]
      exact records_refuse
    · rw [ofRelationValue_of_mapping? hf hne]
      refine records_return (records_mapM fun e he => ?_) scopeEvents_all
      unfold ofRelationEntry
      split
      · exact h f hf e he place
      · exact showsScopes_ofScope (h f hf e he) place

/-- A key shows the scopes on the relations it crosses, and those of its value. -/
theorem showsScopes_ofKey {v : Value} {inside onRelation : Place → Traced Outline}
    (hinside : ShowsScopes setup inside) (honRelation : ShowsScopes setup onRelation)
    (key : Path) : ShowsScopes setup (ofKey setup v inside onRelation key) := by
  induction hn : key.length using Nat.strongRecOn generalizing key with
  | ind n ih =>
    intro place
    have hbelow (inner : Path) (steps : List Step) : Records (scopeEvents setup.policies)
        (ofOpened setup v inside onRelation ⟨key, inner⟩ steps place) := by
      unfold ofOpened
      split
      · exact hinside _
      · next next _ =>
        dsimp only
        split
        · exact honRelation _
        · next first rest hdrop =>
          have hlt := hn ▸ length_lt_of_drop_eq hdrop (Nat.succ_pos _)
          exact showsScopes_ofScope (ih _ hlt _ rfl) _
    rw [ofKey_eq_ofOpened]
    refine records_bind quiet_ofExcept fun _ _ => ?_
    refine records_bind (quiet_innerKey setup key _ v) fun inner _ => ?_
    refine records_bind (setup.policies.quiet_isWhitelisted _ _ _) fun allowed _ => ?_
    split
    · exact records_refuse
    · split
      · exact records_refuse
      · exact records_bind quiet_ofExcept fun steps _ =>
          records_return (hbelow inner steps) fun _ => rfl

/-- Every entry shows the scopes that it opens. -/
theorem showsScopes_ofEntry (e : String × Value) : ShowsScopes setup (ofEntry setup e) := by
  induction e using Value.entry_induction with
  | entry key v hmapping hfragments =>
    intro place
    have hlist (op : String) := records_ofList op hfragments place
    unfold ofEntry
    cases DocumentKey.ofText key with
    | all => exact records_return (hlist key) scopeEvents_all
    | any => exact records_return (hlist key) scopeEvents_any
    | none => exact records_return (hlist "$nor") scopeEvents_any
    | not =>
      exact records_return (showsScopes_ofValue hmapping (fun _ => records_refuse) place)
        fun _ => rfl
    | elemMatch =>
      dsimp only
      split
      · exact showsScopes_ofScope
          (showsScopes_ofValue hmapping fun _ => records_pure rfl) place
      · exact records_refuse
    | operator token => exact showsScopes_ofOperator token v place
    | field text =>
      exact showsScopes_ofKey (showsScopes_ofValue hmapping (showsScopes_ofOperator "$eq" v))
        (showsScopes_ofRelationValue hmapping) _ place

theorem scopeEvents_ofDocument {f : Fragment} {o : Outline}
    (h : (ofDocument setup f).result = .ok o) :
    (ofDocument setup f).scopeEvents = o.scopeEvents setup.policies :=
  showsScopes_ofFragment (fun e _ => showsScopes_ofEntry e) .root o h

/-! ## Where related nodes come from -/

end Outline

/-- What is known of a related node. A scope is on the relation that its path leads to, without
list indices, and has the conditions that the host puts on the rows there. -/
def RelatedNode.Accounted (setup : Setup) : RelatedNode → Prop
  | .scope s => s.path.strip = s.path ∧
      (setup.policies.conditionsFor s.path).result = .ok s.conditions ∧
      ∃ steps, setup.schema.resolve setup.root s.path = .ok steps ∧
        leaf? steps = some (.relation s.relation)
  | .existence q => ∃ relation operand dataKey path p,
      Field.evaluate (.relation relation) "$exists" operand dataKey path = .ok p ∧
        p.relatedNodes = [q]
  | .condition q => ∃ path conditions,
      (setup.policies.conditionsFor path).result = .ok conditions ∧
        ∃ condition ∈ conditions, q ∈ condition.relatedNodes

/-- An operator comes to a related node only if it asks for the existence of related rows. -/
theorem Field.exists_of_mem_relatedNodes {target : Field} {token : String} {operand : Value}
    {dataKey path : Path} {p q : Predicate} (h : target.evaluate token operand dataKey path = .ok p)
    (hq : q ∈ p.relatedNodes) :
    ∃ relation, target = .relation relation ∧ token = "$exists" ∧ p.relatedNodes = [q] := by
  obtain ⟨field, c, rfl, -, rfl | rfl⟩ | ⟨relation, rfl, hp⟩ := evaluate_eq_ok h
  · cases hq
  · cases hq
  · unfold evaluate at h
    dsimp only at h
    cases htoken : FieldOperator.ofToken? token with
    | none =>
      rw [htoken] at h
      cases h
    | some op =>
      rw [htoken] at h
      obtain ⟨rfl, -⟩ := FieldOperator.onRelation_eq_ok h
      refine ⟨relation, rfl, (FieldOperator.token_of_ofToken? htoken).symm, ?_⟩
      have hnode : p.relatedNodes = [.related relation path .true] := by
        obtain rfl | rfl := hp <;> rfl
      rw [hnode] at hq ⊢
      rw [List.mem_singleton.mp hq]

namespace Outline
open Traced

theorem Stands.accounted {record : List Event} {o : Outline} (hnames : setup.schema.NamesNoIndex)
    (h : Stands setup record place o) {n : RelatedNode} (hn : n ∈ o.related) :
    n.Accounted setup := by
  obtain ⟨part, hpart, hn⟩ := List.mem_flatMap.mp hn
  obtain ⟨place', hpart⟩ := h.of_mem_parts hpart
  cases hpart with
  | nothing => cases hn
  | all _ => cases hn
  | any _ => cases hn
  | not _ => cases hn
  | scope hfield htarget hconditions _ =>
    obtain rfl | hn := List.mem_cons.mp hn
    · obtain ⟨steps, hsteps, hleaf⟩ := exists_steps_of_fieldAt? htarget
      exact ⟨Path.strip_strip _, hconditions, Schema.exists_resolve_strip hnames hsteps hleaf⟩
    · obtain ⟨condition, hcondition, q, hq, rfl⟩ := RelatedNode.exists_of_mem_ofConditions hn
      exact ⟨_, _, hconditions, condition, hcondition, hq⟩
  | operator htarget hevaluate =>
    obtain ⟨q, hq, rfl⟩ := List.mem_map.mp hn
    obtain ⟨relation, rfl, rfl, hnode⟩ := Field.exists_of_mem_relatedNodes hevaluate hq
    exact ⟨relation, _, _, _, _, hevaluate, hnode⟩
  | field _ _ _ _ => cases hn
  | split _ _ _ _ _ _ => cases hn

end Outline

/-! ## Compiled predicates -/

namespace Traced

theorem reportingRejection_of_ok {α : Type} {t : Traced α} {a : α} (h : t.result = .ok a) :
    t.reportingRejection = t := by
  rw [reportingRejection, h]

end Traced

namespace Setup
open Traced

variable {setup : Setup} {document : Value} {f : Fragment} {p : Predicate}

/-- Apart from its traversal a compile has nothing to do with scopes. -/
theorem scopeEvents_compileMapping (hf : document.mapping? = some f)
    (hrun : (Traversal.run setup f).result = .ok p) :
    (setup.compileMapping document).scopeEvents = (Traversal.run setup f).scopeEvents := by
  have hlog {data : Entries Value} : (log "Compiled filter" data).Quiet := by
    simp [Quiet, scopeEvents, log, Event.isOfScope]
  unfold compileMapping
  rw [hf]
  dsimp only
  rw [scopeEvents_bind_of_ok hrun]
  refine List.append_right_eq_self.mpr ?_
  split
  · exact quiet_bind quiet_ofExcept fun text => quiet_bind hlog fun _ => rfl
  · rfl

theorem scopeEvents_compile (hf : document.mapping? = some f)
    (hmapping : (setup.compileMapping document).result = .ok p) :
    (setup.compile document).scopeEvents = (Traversal.run setup f).scopeEvents := by
  have hlog {data : Entries Value} : (log "Compiling filter" data).Quiet := by
    simp [Quiet, scopeEvents, log, Event.isOfScope]
  have hrun := ((compileMapping_eq_ok_iff hf).mp hmapping).1
  unfold compile
  rw [Value.isMissing_of_mapping? hf, if_neg Bool.false_ne_true,
    scopeEvents_bind_of_ok (a := ()) rfl, hlog, reportingRejection_of_ok hmapping,
    scopeEvents_bind_of_ok hmapping, scopeEvents_compileMapping hf hrun]
  exact List.append_nil _

end Setup

section Compiled
variable {definition : Value} {catalog : Catalog} {root : String} {document : Value}
  {options : OptionsArgument} {o : Options} {p : Predicate}

/-- The scopes that a compile opens are the related nodes of its predicate that come neither from
`$exists` nor from a condition, in the same order. For each of them it asks for conditions once
and reports once, and the node asks for just those conditions, and for what the document asks of
the rows if anything. Without the conditions in these nodes the predicate is what the document
compiles to when there are none. -/
theorem compile_opens_related_nodes (hdefine : Definition.define definition = .ok catalog)
    (hoptions : options.check = .ok o)
    (h : (compile catalog.schema root document options).result = .ok (some p)) :
    ∃ f outline, document.mapping? = some f ∧
      (Outline.ofDocument ⟨catalog.schema, root, .ofOptions o⟩ f).result = .ok outline ∧
      outline.predicate = p ∧
      p.relatedNodes = outline.related.map RelatedNode.node ∧
      (compile catalog.schema root document options).events.filter Event.isOfScope =
        (outline.related.filterMap RelatedNode.scope?).flatMap
          (OpenedScope.events (.ofOptions o)) ∧
      (∀ n ∈ outline.related, n.Accounted ⟨catalog.schema, root, .ofOptions o⟩) ∧
      (compile catalog.schema root document (.settings o.unconditional)).result =
        .ok (some outline.bare.predicate) := by
  have hpolicies := resolve_of_check hoptions
  obtain ⟨f, outline, hf, houtline, rfl⟩ :=
    Setup.exists_outline_of_compile (yields_of_compile hpolicies h)
  have hnames := Definition.namesNoIndex_of_define hdefine
  have hstands := Outline.stands_of_yields_ofDocument houtline
  refine ⟨f, outline, hf, houtline.result, rfl, outline.relatedNodes_predicate, ?_,
    fun n hn => hstands.accounted hnames hn, compile_bare hoptions h hf houtline.result⟩
  obtain ⟨hrun, hrenders⟩ := (compile_eq_ok_iff hpolicies hf).mp h
  obtain ⟨_, _, _, hevents⟩ := Traversal.exists_outline_of_run hrun
  rw [compile_of_resolve hpolicies]
  calc (Setup.compile ⟨catalog.schema, root, .ofOptions o⟩ document).scopeEvents
      = (Traversal.run ⟨catalog.schema, root, .ofOptions o⟩ f).scopeEvents :=
        Setup.scopeEvents_compile hf
          ((Setup.compileMapping_eq_ok_iff hf).mpr ⟨hrun, hrenders⟩)
    _ = (Outline.ofDocument ⟨catalog.schema, root, .ofOptions o⟩ f).scopeEvents :=
        congrArg (List.filter Event.isOfScope) hevents
    _ = _ := Outline.scopeEvents_ofDocument houtline.result

end Compiled

namespace Sample

/-- A function of the host that hides the long tracks of an album. -/
def hideLongTracks (path : String) : Except String ConditionEntry :=
  .ok (if path = "tracks" then .one (.predicate shortTracks) else .many [])

def askingOptions : Options := .ofEntries
  [("nestedConditions", .conditionFunction hideLongTracks)]

/-- A track with the name, and one on some playlist. -/
def listedDocument : Value := .ofEntries
  [("tracks", .ofEntries [("name", .text "x"), ("playlists", .ofEntries [("$exists", .bool true)])])]

def listedPredicate : Predicate :=
  .all [.related tracks ["tracks"] (.all [shortTracks,
      .test ⟨"name", "Track", .scalar .text⟩ ["tracks", "name"] (.compare .eq (.text "x"))]),
    .related tracks ["tracks"] (.all [shortTracks,
      .related playlists ["tracks", "playlists"] .true])]

theorem compile_opens_related_nodes_listed :
    Definition.define definition = .ok catalog ∧
      (OptionsArgument.settings askingOptions).check = .ok askingOptions ∧
      (compile catalog.schema "Album" listedDocument (.settings askingOptions)).result =
        .ok (some listedPredicate) ∧
      ∃ f outline, listedDocument.mapping? = some f ∧
        (Outline.ofDocument ⟨catalog.schema, "Album", .ofOptions askingOptions⟩ f).result =
          .ok outline ∧
        outline.predicate = listedPredicate ∧
        listedPredicate.relatedNodes = outline.related.map RelatedNode.node ∧
        (compile catalog.schema "Album" listedDocument (.settings askingOptions)).events.filter
            Event.isOfScope =
          (outline.related.filterMap RelatedNode.scope?).flatMap
            (OpenedScope.events (.ofOptions askingOptions)) ∧
        (∀ n ∈ outline.related,
          n.Accounted ⟨catalog.schema, "Album", .ofOptions askingOptions⟩) ∧
        (compile catalog.schema "Album" listedDocument
            (.settings askingOptions.unconditional)).result =
          .ok (some outline.bare.predicate) := by
  have hcheck : (OptionsArgument.settings askingOptions).check = .ok askingOptions := rfl
  have hcompile : (compile catalog.schema "Album" listedDocument
      (.settings askingOptions)).result = .ok (some listedPredicate) := rfl
  exact ⟨define_definition, hcheck, hcompile,
    compile_opens_related_nodes define_definition hcheck hcompile⟩

end Sample
end RowFilter
