import RowFilter.Proofs.Limit
import RowFilter.Proofs.Parts
import RowFilter.Proofs.Resolution

/-!
# Outlines that stand

What the checks leave behind in an outline. A document is refused at the first check that fails,
so that every part of an outline that was read has passed its own: a key was granted and leads
through no relation before its last segment, a scope is on the relation where it stands, an
operator was applied to the field where it stands. `Outline.Stands` says so part by part, and
knows nothing of the document any more. The record holds the questions and reports of the whole
reading.
-/

namespace RowFilter

namespace Traced
variable {α β : Type} {record : List Event}

/-- Comes to a result, with events that are all on record. -/
structure Yields (record : List Event) (x : Traced α) (a : α) : Prop where
  result : x.result = .ok a
  events : x.events ⊆ record

theorem yields_self {x : Traced α} {a : α} (h : x.result = .ok a) : x.Yields x.events a :=
  ⟨h, List.Subset.refl _⟩

theorem yields_bind_iff {x : Traced α} {f : α → Traced β} {b : β} :
    (x >>= f).Yields record b ↔ ∃ a, x.Yields record a ∧ (f a).Yields record b := by
  constructor
  · intro h
    obtain ⟨a, ha, hf⟩ := bind_result_eq_ok_iff.mp h.result
    have hevents := h.events
    rw [bind_eq, bind_of_ok f ha] at hevents
    obtain ⟨hx, hrest⟩ := List.append_subset.mp hevents
    exact ⟨a, ⟨ha, hx⟩, ⟨hf, hrest⟩⟩
  · rintro ⟨a, ⟨ha, hx⟩, ⟨hf, hrest⟩⟩
    refine ⟨bind_result_eq_ok_iff.mpr ⟨a, ha, hf⟩, ?_⟩
    rw [bind_eq, bind_of_ok f ha]
    exact List.append_subset.mpr ⟨hx, hrest⟩

theorem yields_pure_iff {a b : α} : (pure a : Traced α).Yields record b ↔ a = b := by
  constructor
  · intro h
    exact Except.ok.inj h.result
  · rintro rfl
    exact ⟨rfl, List.nil_subset _⟩

theorem yields_ofExcept_iff {r : Except Fault α} {a : α} :
    (ofExcept r).Yields record a ↔ r = .ok a :=
  ⟨fun h => h.result, fun h => ⟨h, List.nil_subset _⟩⟩

theorem not_yields_refuse {cause : Cause} {dataKey : Path} {filter : Value} {op : Option String}
    {a : α} : ¬(refuse cause dataKey filter op : Traced α).Yields record a :=
  fun h => refuse_result_ne_ok cause dataKey filter op a h.result

theorem exists_yields_of_mem_mapM {f : α → Traced β} {xs : List α} {ys : List β} {y : β}
    (h : (xs.mapM f).Yields record ys) (hy : y ∈ ys) : ∃ x ∈ xs, (f x).Yields record y := by
  induction xs generalizing ys with
  | nil =>
    rw [List.mapM_nil, yields_pure_iff] at h
    rw [← h] at hy
    cases hy
  | cons x xs ih =>
    rw [List.mapM_cons, yields_bind_iff] at h
    obtain ⟨b, hb, h⟩ := h
    rw [yields_bind_iff] at h
    obtain ⟨bs, hbs, h⟩ := h
    rw [yields_pure_iff] at h
    rw [← h] at hy
    rcases List.mem_cons.mp hy with rfl | hy
    · exact ⟨x, List.mem_cons_self, hb⟩
    · obtain ⟨x', hx', hf⟩ := ih hbs hy
      exact ⟨x', List.mem_cons_of_mem x hx', hf⟩

end Traced

namespace Outline
open Traced

/-- The first `width` segments from a depth on cross into no related model before the last. -/
def StaysWithin (steps : List Step) (depth width : Nat) : Prop :=
  ∀ n ∈ crossings steps, depth ≤ n → depth + width ≤ n + 1

theorem StaysWithin.mono {steps : List Step} {depth width width' : Nat}
    (h : StaysWithin steps depth width) (hle : width' ≤ width) :
    StaysWithin steps depth width' := by
  intro n hn hdepth
  have := h n hn hdepth
  omega

theorem staysWithin_of_find?_eq_none {steps : List Step} {depth width : Nat}
    (h : (crossings steps).find? (depth ≤ ·) = none) : StaysWithin steps depth width := by
  intro n hn hdepth
  have := List.find?_eq_none.mp h n hn
  simp [hdepth] at this

theorem staysWithin_of_find? {steps : List Step} {depth next : Nat}
    (h : (crossings steps).find? (depth ≤ ·) = some next) :
    StaysWithin steps depth (next - depth + 1) := by
  intro n hn hdepth
  have := le_of_find?_crossings h hn hdepth
  omega

variable (setup : Setup) (record : List Event)

/-- A field key with this inner name has passed its checks at a place. -/
structure Checked (place : Place) (inner : Path) (steps : List Step) : Prop where
  closed : place.isField = false
  granted : (setup.policies.isWhitelisted setup.schema setup.root
    (place.key.internal ++ inner).strip).Yields record true
  resolved : setup.schema.resolve setup.root (place.key.internal ++ inner) = .ok steps

inductive Stands : Place → Outline → Prop
  | nothing {place : Place} : Stands place .nothing
  | all {place : Place} {os : List Outline} : (∀ o ∈ os, Stands place o) → Stands place (.all os)
  | any {place : Place} {os : List Outline} : (∀ o ∈ os, Stands place o) → Stands place (.any os)
  | not {place : Place} {o : Outline} : Stands place o → Stands place (.not o)
  | scope {place : Place} {relation : RelationField} {conditions : List Predicate}
      {body : Outline} : place.isField = true →
      (fieldAt? setup place).result = .ok (some (.relation relation)) →
      (setup.policies.conditionsFor place.path).result = .ok conditions →
      Stands place.inScope body → Stands place (.scope relation place.path conditions body)
  | operator {place : Place} {target : Field} {token : String} {value : Value} {p : Predicate} :
      (fieldAt? setup place).result = .ok (some target) →
      target.evaluate token value place.key.external place.path = .ok p →
      Stands place (.operator place p)
  /-- The whole key is open. -/
  | field {place : Place} {key inner : Path} {steps : List Step} {inside : Outline} :
      Checked setup record place inner steps → inner ≠ [] →
      StaysWithin steps place.key.internal.length inner.length →
      Stands (place.enter ⟨key, inner⟩) inside →
      Stands place (.field (place.key.internal ++ inner).strip inside)
  /-- The key is open up to a relation, and the rest of it is a key of its own. -/
  | split {place : Place} {key inner : Path} {width : Nat} {steps : List Step}
      {relation : RelationField} {conditions : List Predicate} {path : Path} {inside : Outline} :
      Checked setup record place inner steps → inner.take width ≠ [] →
      StaysWithin steps place.key.internal.length width →
      (fieldAt? setup (place.enter ⟨key, inner.take width⟩)).result =
        .ok (some (.relation relation)) →
      (setup.policies.conditionsFor (place.enter ⟨key, inner.take width⟩).path).result =
        .ok conditions →
      Stands (place.enter ⟨key, inner.take width⟩).inScope (.field path inside) →
      Stands place (.field (place.key.internal ++ inner).strip (.scope relation
        (place.enter ⟨key, inner.take width⟩).path conditions (.field path inside)))

variable {setup record} {place : Place} {o : Outline}

theorem Stands.joined {os : List Outline} (h : ∀ o ∈ os, Stands setup record place o) :
    Stands setup record place (joined os) := by
  rcases os with _ | ⟨o, _ | ⟨o', os⟩⟩
  · exact .nothing
  · exact h o List.mem_cons_self
  · exact .all h

/-- Where a part of an outline lies: where the outline itself does, or at the path of a key that
was checked on the way, or at the beginning of one. Only scopes and the rests of split keys stand
at such a beginning, and no operator comes before the key there. -/
inductive Lies (place : Place) (o : Outline) (place' : Place) (part : Outline) : Prop
  | here : place'.key = place.key → (place'.isField = true → place.isField = true) →
      (∀ path inside, o = .field path inside → part = o) → Lies place o place' part
  | field {inside : Outline} : .field place'.path inside ∈ o.parts → Lies place o place' part
  | beginning {checked : Path} {inside : Outline} : .field checked inside ∈ o.parts →
      place'.path <+: checked → (∀ place p, part ≠ .operator place p) → Lies place o place' part

theorem Lies.self : Lies place o place o := .here rfl id fun _ _ _ => rfl

/-- An outline around another one, at the same key, that is no field key itself. -/
theorem Lies.around {outer part : Outline} {place' inner : Place}
    (h : Lies inner o place' part) (hkey : inner.key = place.key)
    (hisField : inner.isField = true → place.isField = true) (hsubset : o.parts ⊆ outer.parts)
    (houter : ∀ path inside, outer ≠ .field path inside) : Lies place outer place' part := by
  cases h with
  | here hsame hfield _ =>
    exact .here (hsame.trans hkey) (fun h => hisField (hfield h))
      fun path inside heq => absurd heq (houter path inside)
  | field hmem => exact .field (hsubset hmem)
  | beginning hmem hprefix hpart => exact .beginning (hsubset hmem) hprefix hpart

/-- Every part of an outline that stands does so at a place of its own. -/
theorem Stands.exists_lies (h : Stands setup record place o) {part : Outline}
    (hpart : part ∈ o.parts) :
    ∃ place', Stands setup record place' part ∧ Lies place o place' part := by
  induction h with
  | @nothing place =>
    rw [List.mem_singleton.mp hpart]
    exact ⟨place, .nothing, .self⟩
  | @all place os hos ih =>
    obtain rfl | ⟨o, ho, hpart⟩ := mem_parts_all.mp hpart
    · exact ⟨place, .all hos, .self⟩
    · obtain ⟨place', hstands, hlies⟩ := ih o ho hpart
      exact ⟨place', hstands,
        hlies.around rfl id (parts_subset_of_mem_all ho) fun _ _ => Outline.noConfusion⟩
  | @any place os hos ih =>
    obtain rfl | ⟨o, ho, hpart⟩ := mem_parts_any.mp hpart
    · exact ⟨place, .any hos, .self⟩
    · obtain ⟨place', hstands, hlies⟩ := ih o ho hpart
      exact ⟨place', hstands,
        hlies.around rfl id (parts_subset_of_mem_any ho) fun _ _ => Outline.noConfusion⟩
  | not ho ih =>
    obtain rfl | hpart := List.mem_cons.mp hpart
    · exact ⟨_, .not ho, .self⟩
    · obtain ⟨place', hstands, hlies⟩ := ih hpart
      exact ⟨place', hstands,
        hlies.around rfl id parts_subset_not fun _ _ => Outline.noConfusion⟩
  | scope hfield htarget hconditions hbody ih =>
    obtain rfl | hpart := List.mem_cons.mp hpart
    · exact ⟨_, .scope hfield htarget hconditions hbody, .self⟩
    · obtain ⟨place', hstands, hlies⟩ := ih hpart
      exact ⟨place', hstands,
        hlies.around rfl (fun _ => hfield) parts_subset_scope fun _ _ => Outline.noConfusion⟩
  | operator htarget hp =>
    rw [List.mem_singleton.mp hpart]
    exact ⟨_, .operator htarget hp, .self⟩
  | @field place key inner _ inside hchecked hne hstays hinside ih =>
    obtain rfl | hpart := List.mem_cons.mp hpart
    · exact ⟨_, .field hchecked hne hstays hinside, .self⟩
    · obtain ⟨place', hstands, hlies⟩ := ih hpart
      refine ⟨place', hstands, ?_⟩
      cases hlies with
      | here hkey _ _ =>
        have hmem : .field place'.path inside ∈
            (Outline.field (place.key.internal ++ inner).strip inside).parts := by
          rw [Place.path, hkey]
          exact List.mem_cons_self
        exact .field hmem
      | field hmem => exact .field (parts_subset_field hmem)
      | beginning hmem hprefix hother => exact .beginning (parts_subset_field hmem) hprefix hother
  | @split place key inner width _ _ _ _ _ hchecked hne hstays htarget hconditions hrest ih =>
    have hprefix : (place.enter ⟨key, inner.take width⟩).path <+:
        (place.key.internal ++ inner).strip :=
      List.IsPrefix.filter _ ((List.prefix_append_right_inj _).mpr (List.take_prefix width inner))
    obtain rfl | hpart := List.mem_cons.mp hpart
    · exact ⟨_, .split hchecked hne hstays htarget hconditions hrest, .self⟩
    · obtain rfl | hpart := List.mem_cons.mp hpart
      · exact ⟨_, .scope rfl htarget hconditions hrest,
          .beginning List.mem_cons_self hprefix fun _ _ => Outline.noConfusion⟩
      · obtain ⟨place', hstands, hlies⟩ := ih hpart
        refine ⟨place', hstands, ?_⟩
        cases hlies with
        | here hkey _ hsame =>
          -- of the rest, only the key itself still stands where the scope does
          obtain rfl := hsame _ _ rfl
          refine .beginning List.mem_cons_self ?_ fun _ _ => Outline.noConfusion
          rw [Place.path, hkey]
          exact hprefix
        | field hmem => exact .field (parts_subset_field (parts_subset_scope hmem))
        | beginning hmem hprefix hother =>
          exact .beginning (parts_subset_field (parts_subset_scope hmem)) hprefix hother

theorem Stands.of_mem_parts (h : Stands setup record place o) {part : Outline}
    (hpart : part ∈ o.parts) : ∃ place, Stands setup record place part := by
  obtain ⟨place', hstands, _⟩ := h.exists_lies hpart
  exact ⟨place', hstands⟩

/-- Comes to outlines only that stand. -/
def Upright (setup : Setup) (record : List Event) (place : Place) (x : Traced Outline) : Prop :=
  ∀ o, x.Yields record o → Stands setup record place o

theorem upright_refuse {cause : Cause} {dataKey : Path} {filter : Value} {op : Option String} :
    Upright setup record place (refuse cause dataKey filter op) :=
  fun _ h => absurd h not_yields_refuse

theorem upright_return {α : Type} {x : Traced α} {g : α → Outline}
    (h : ∀ a, x.Yields record a → Stands setup record place (g a)) :
    Upright setup record place (do return g (← x)) := by
  intro o ho
  obtain ⟨a, ha, ho⟩ := yields_bind_iff.mp ho
  rw [← yields_pure_iff.mp ho]
  exact h a ha

theorem upright_operator (token : String) (value : Value) :
    Upright setup record place (ofOperator setup token value place) := by
  unfold ofOperator
  dsimp only
  split
  · exact upright_refuse
  · intro o h
    obtain ⟨target, htarget, h⟩ := yields_bind_iff.mp h
    cases target with
    | none => exact absurd h not_yields_refuse
    | some target =>
      obtain ⟨p, hp, h⟩ := yields_bind_iff.mp h
      rw [yields_pure_iff] at h
      rw [← h]
      exact .operator htarget.result (yields_ofExcept_iff.mp hp)

/-- What a scope has passed when it was read. -/
theorem exists_of_yields_ofScope {value : Value} {body : Place → Traced Outline}
    (h : (ofScope setup value body place).Yields record o) :
    ∃ relation conditions inside, o = .scope relation place.path conditions inside ∧
      (fieldAt? setup place).result = .ok (some (.relation relation)) ∧
      (setup.policies.conditionsFor place.path).result = .ok conditions ∧
      (body place.inScope).Yields record inside := by
  unfold ofScope at h
  obtain ⟨target, htarget, h⟩ := yields_bind_iff.mp h
  rcases target with _ | ⟨field | relation⟩
  · exact absurd h not_yields_refuse
  · exact absurd h not_yields_refuse
  · obtain ⟨conditions, hconditions, h⟩ := yields_bind_iff.mp h
    obtain ⟨_, _, h⟩ := yields_bind_iff.mp h
    obtain ⟨inside, hinside, h⟩ := yields_bind_iff.mp h
    rw [yields_pure_iff] at h
    exact ⟨relation, conditions, inside, h.symm, htarget.result, hconditions.result, hinside⟩

theorem upright_scope {value : Value} {body : Place → Traced Outline}
    (hfield : place.isField = true)
    (hbody : Upright setup record place.inScope (body place.inScope)) :
    Upright setup record place (ofScope setup value body place) := by
  intro o h
  obtain ⟨relation, conditions, inside, rfl, htarget, hconditions, hinside⟩ :=
    exists_of_yields_ofScope h
  exact .scope hfield htarget hconditions (hbody inside hinside)

theorem resolve_of_traversal {path dataKey : Path} {steps : List Step}
    (h : (Traversal.resolve setup path dataKey).result = .ok steps) :
    setup.schema.resolve setup.root path = .ok steps :=
  ok_of_mapError h

/-- How a key was opened: as a whole, or up to a relation with the rest in a scope there. -/
theorem exists_of_yields_ofOpened {value : Value} {inside onRelation : Place → Traced Outline}
    {key : OpenKey} {steps : List Step} {content : Outline}
    (hlength : key.internal.length = key.external.length)
    (h : (ofOpened setup value inside onRelation key steps place).Yields record content) :
    StaysWithin steps place.key.internal.length key.internal.length ∧
        ((inside (place.enter key)).Yields record content ∨
          (onRelation (place.enter key)).Yields record content) ∨
      ∃ width first rest, 0 < width ∧ key.external.drop width = first :: rest ∧
        StaysWithin steps place.key.internal.length width ∧
        (ofScope setup (.ofEntries [(Path.text (first :: rest), value)])
          (ofKey setup value inside onRelation (first :: rest))
          (place.enter ⟨key.external.take width, key.internal.take width⟩)).Yields record
            content := by
  unfold ofOpened at h
  cases hfind : (crossings steps).find? (place.key.internal.length ≤ ·) with
  | none =>
    rw [hfind] at h
    exact .inl ⟨staysWithin_of_find?_eq_none hfind, .inl h⟩
  | some next =>
    simp only [hfind] at h
    have hstays := staysWithin_of_find? hfind
    generalize hwidth : next - place.key.internal.length + 1 = width at h hstays
    split at h
    · next hdrop =>
      have hle : key.external.length ≤ width := List.drop_eq_nil_iff.mp hdrop
      have hle' : key.internal.length ≤ width := hlength ▸ hle
      rw [List.take_of_length_le hle, List.take_of_length_le hle'] at h
      exact .inl ⟨hstays.mono hle', .inr h⟩
    · next first rest hdrop =>
      exact .inr ⟨width, first, rest, by omega, hdrop, hstays, h⟩

/-- What a field key has passed when it was read, and how it was opened: as a whole, or up to a
relation with the rest in a scope there. -/
theorem exists_of_yields_ofKey {value : Value} {inside onRelation : Place → Traced Outline}
    {key : Path} (h : (ofKey setup value inside onRelation key place).Yields record o) :
    ∃ inner steps content, Checked setup record place inner steps ∧ inner.length = key.length ∧
      o = .field (place.key.internal ++ inner).strip content ∧
      (StaysWithin steps place.key.internal.length inner.length ∧
          ((inside (place.enter ⟨key, inner⟩)).Yields record content ∨
            (onRelation (place.enter ⟨key, inner⟩)).Yields record content) ∨
        ∃ width first rest, 0 < width ∧ key.drop width = first :: rest ∧
          StaysWithin steps place.key.internal.length width ∧
          (ofScope setup (.ofEntries [(Path.text (first :: rest), value)])
            (ofKey setup value inside onRelation (first :: rest))
            (place.enter ⟨key.take width, inner.take width⟩)).Yields record content) := by
  rw [ofKey_eq_ofOpened] at h
  obtain ⟨_, _, h⟩ := yields_bind_iff.mp h
  obtain ⟨inner, hinner, h⟩ := yields_bind_iff.mp h
  obtain ⟨allowed, hallowed, h⟩ := yields_bind_iff.mp h
  have hlength := Traversal.length_innerKey hinner.result
  cases allowed with
  | false => exact absurd h not_yields_refuse
  | true =>
    rw [Bool.not_true, if_neg Bool.false_ne_true] at h
    split at h
    · exact absurd h not_yields_refuse
    · next hclosed =>
      obtain ⟨steps, hsteps, h⟩ := yields_bind_iff.mp h
      obtain ⟨content, hcontent, h⟩ := yields_bind_iff.mp h
      rw [yields_pure_iff] at h
      exact ⟨inner, steps, content,
        ⟨by simpa using hclosed, hallowed, resolve_of_traversal hsteps.result⟩, hlength, h.symm,
        exists_of_yields_ofOpened hlength hcontent⟩

/-- A field key stands if its value does, wherever the key is open as a whole. -/
theorem stands_of_yields_ofKey {value : Value} {inside onRelation : Place → Traced Outline}
    (hinside : ∀ place, place.isField = true → Upright setup record place (inside place))
    (hrelation : ∀ place, place.isField = true → Upright setup record place (onRelation place))
    {key : Path} (hkey : key ≠ [])
    (h : (ofKey setup value inside onRelation key place).Yields record o) :
    ∃ path content, o = .field path content ∧ Stands setup record place o := by
  induction hn : key.length using Nat.strongRecOn generalizing key place o with
  | ind n ih =>
    obtain ⟨inner, steps, content, hchecked, hlength, rfl, hopened⟩ := exists_of_yields_ofKey h
    have hpos : 0 < inner.length := hlength ▸ List.length_pos_iff.mpr hkey
    refine ⟨_, content, rfl, ?_⟩
    rcases hopened with ⟨hstays, hcontent⟩ | ⟨width, first, rest, hwidth, hdrop, hstays, hscope⟩
    · have hstands : Stands setup record (place.enter ⟨key, inner⟩) content := by
        rcases hcontent with hcontent | hcontent
        · exact hinside _ rfl content hcontent
        · exact hrelation _ rfl content hcontent
      exact .field hchecked (List.length_pos_iff.mp hpos) hstays hstands
    · obtain ⟨relation, conditions, body, rfl, htarget, hconditions, hbody⟩ :=
        exists_of_yields_ofScope hscope
      have hlt := hn ▸ length_lt_of_drop_eq hdrop hwidth
      obtain ⟨path, inside, rfl, hstands⟩ := ih _ hlt (List.cons_ne_nil _ _) hbody rfl
      refine .split hchecked ?_ hstays htarget hconditions hstands
      rw [← List.length_pos_iff, List.length_take]
      omega

/-! ## Documents -/

theorem upright_fragment {f : Fragment}
    (h : ∀ e ∈ f, Upright setup record place (ofEntry setup e place)) :
    Upright setup record place (ofFragment setup f place) := by
  rw [ofFragment, ofEntries_eq_mapM]
  refine upright_return fun os hos => .joined fun o ho => ?_
  obtain ⟨e, he, hread⟩ := exists_yields_of_mem_mapM hos ho
  exact h e he o hread

theorem upright_value {v : Value} {otherwise : Place → Traced Outline}
    (hotherwise : v.mapping? = none → Upright setup record place (otherwise place))
    (h : ∀ f, v.mapping? = some f → ∀ e ∈ f, ∀ place,
      Upright setup record place (ofEntry setup e place)) :
    Upright setup record place (ofValue setup otherwise v place) := by
  cases hf : v.mapping? with
  | some f =>
    rw [ofValue_of_mapping? hf]
    exact upright_fragment fun e he => h f hf e he place
  | none =>
    rw [ofValue_of_mapping?_eq_none hf]
    exact hotherwise hf

theorem stands_of_mem_ofList {op : String} {v : Value} {os : List Outline}
    (h : ∀ fs, v.fragments? = some fs → ∀ f ∈ fs, ∀ e ∈ f,
      Upright setup record place (ofEntry setup e place))
    (hos : (ofList setup op v place).Yields record os) : ∀ o ∈ os, Stands setup record place o := by
  intro o ho
  cases hfs : v.fragments? with
  | none =>
    rw [ofList_of_fragments?_eq_none hfs] at hos
    exact absurd hos not_yields_refuse
  | some fs =>
    rw [ofList_of_fragments? hfs] at hos
    obtain ⟨f, hf, hread⟩ := exists_yields_of_mem_mapM hos ho
    exact upright_fragment (h fs hfs f hf) o hread

theorem upright_relationValue {v : Value} (hfield : place.isField = true)
    (h : ∀ f, v.mapping? = some f → ∀ e ∈ f, ∀ place,
      Upright setup record place (ofEntry setup e place)) :
    Upright setup record place (ofRelationValue setup v place) := by
  rcases hf : v.mapping? with _ | f
  · rw [ofRelationValue_of_mapping?_eq_none hf]
    exact upright_refuse
  · by_cases hne : f = []
    · rw [hne] at hf
      rw [ofRelationValue_of_empty hf]
      exact upright_refuse
    · rw [ofRelationValue_of_mapping? hf hne]
      refine upright_return fun os hos => .all fun o ho => ?_
      obtain ⟨e, he, hread⟩ := exists_yields_of_mem_mapM hos ho
      unfold ofRelationEntry at hread
      split at hread
      · exact h f hf e he place o hread
      · exact upright_scope hfield (h f hf e he _) o hread

theorem upright_entry (e : String × Value) :
    ∀ place, Upright setup record place (ofEntry setup e place) := by
  induction e using Value.entry_induction with
  | entry key v hmapping hfragments =>
    intro place
    have hlist (fs : List Fragment) (hfs : v.fragments? = some fs) (f : Fragment) (hf : f ∈ fs)
        (e : String × Value) (he : e ∈ f) := hfragments fs hfs f hf e he place
    unfold ofEntry
    cases DocumentKey.ofText key with
    | all => exact upright_return fun os hos => .all (stands_of_mem_ofList hlist hos)
    | any => exact upright_return fun os hos => .any (stands_of_mem_ofList hlist hos)
    | none => exact upright_return fun os hos => .not (.any (stands_of_mem_ofList hlist hos))
    | not =>
      exact upright_return fun o ho =>
        .not (upright_value (fun _ => upright_refuse) hmapping o ho)
    | elemMatch =>
      dsimp only
      split
      · next hopen =>
        obtain ⟨hfield, hisMapping⟩ := Bool.and_eq_true_iff.mp hopen
        refine upright_scope hfield (upright_value (fun hnone => ?_) hmapping)
        rw [Value.isMapping, hnone] at hisMapping
        cases hisMapping
      · exact upright_refuse
    | operator token => exact upright_operator token v
    | field text =>
      intro o h
      obtain ⟨_, _, _, hstands⟩ := stands_of_yields_ofKey
        (fun place _ => upright_value (fun _ => upright_operator "$eq" v) hmapping)
        (fun place hfield => upright_relationValue hfield hmapping) (Path.ofText_ne_nil text) h
      exact hstands

/-- The outline of a document stands at the root. -/
theorem stands_of_yields_ofDocument {document : Fragment}
    (h : (ofDocument setup document).Yields record o) : Stands setup record .root o :=
  upright_fragment (fun e _ => upright_entry e .root) o h

end Outline
end RowFilter
