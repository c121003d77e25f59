import RowFilter.Proofs.Crossing
import RowFilter.Proofs.Positions

/-!
# Bare values

A value that is no mapping asks under a field key whether the field equals it, and could as well
ask so with the operator. The two spellings part company in one case only: a key that ends at a
relation refuses the bare value at once, and the operator in the scope that it opens there. Both
refusals have the same code at the same path, and differ in what else they show.

What programs may go by of a result is its mark. The mark of a chain depends on the marks of its
parts, so that the two spellings are compared step by step along the key.
-/

namespace RowFilter

/-! ## Marks -/

/-- What programs may go by: of a refusal its code and path, and all other faults as they are. -/
def Fault.mark : Fault → (Code × Path) ⊕ Fault
  | .refused r => .inl (r.code, r.dataKey)
  | fault => .inr fault

theorem Fault.mark_eq_inl {fault : Fault} {code : Code} {dataKey : Path}
    (h : fault.mark = .inl (code, dataKey)) :
    ∃ r, fault = .refused r ∧ r.code = code ∧ r.dataKey = dataKey := by
  cases fault with
  | refused r =>
    cases h
    exact ⟨r, rfl, rfl, rfl⟩
  | _ => cases h

namespace Traced
variable {α β : Type} {x y : Traced α} {f g : α → Traced β}

/-- A result with the mark of its fault. -/
def mark (x : Traced α) : Except ((Code × Path) ⊕ Fault) α := x.result.mapError Fault.mark

theorem mark_bind (hx : x.mark = y.mark)
    (h : ∀ a, x.result = .ok a → (f a).mark = (g a).mark) :
    (x >>= f).mark = (y >>= g).mark :=
  mapError_bind_congr hx h

end Traced

namespace Outline
open Traced

variable {setup : Setup} {place : Place} {value value' : Value}
  {inside onRelation onRelation' : Place → Traced Outline}

/-! ## Keys with two values -/

/-- The value of a key has no part in what the key is called inside, nor in the mark if there is
no inner name. -/
theorem mark_innerKey (key dataKey : Path) :
    (Traversal.innerKey setup key dataKey value).mark =
      (Traversal.innerKey setup key dataKey value').mark := by
  refine mark_bind rfl fun answer _ => ?_
  dsimp only
  split
  · rfl
  · rfl

/-- At a relation two scopes have the same mark if what is read in them has. -/
theorem mark_ofScope {relation : RelationField} {body body' : Place → Traced Outline}
    (htarget : (fieldAt? setup place).result = .ok (some (.relation relation)))
    (hbody : (body place.inScope).mark = (body' place.inScope).mark) :
    (ofScope setup value body place).mark = (ofScope setup value' body' place).mark := by
  refine mark_bind rfl fun target ht => ?_
  cases htarget.symm.trans ht
  refine mark_bind rfl fun conditions _ => mark_bind rfl fun _ _ => ?_
  exact mark_bind hbody fun _ _ => rfl

/-- A key has the same mark with two values that are read alike at its end: the same way at a
field, and with the same mark at a relation. -/
theorem mark_ofKey
    (hrelation : ∀ place relation, (fieldAt? setup place).result = .ok (some (.relation relation)) →
      (onRelation place).mark = (onRelation' place).mark) (key : Path) (place : Place) :
    (ofKey setup value inside onRelation key place).mark =
      (ofKey setup value' inside onRelation' key place).mark := by
  induction hn : key.length using Nat.strongRecOn generalizing key place with
  | ind n ih =>
    rw [ofKey_eq_ofOpened, ofKey_eq_ofOpened]
    refine mark_bind rfl fun _ _ => mark_bind (mark_innerKey _ _) fun inner _ =>
      mark_bind rfl fun allowed _ => ?_
    split
    · rfl
    · split
      · rfl
      · refine mark_bind rfl fun steps hsteps => mark_bind ?_ fun _ _ => rfl
        unfold ofOpened
        split
        · rfl
        · next next hnext =>
          dsimp only
          obtain ⟨relation, htarget⟩ := exists_relation_of_find?_crossings
            (key.take (next - place.key.internal.length + 1)) (ok_of_mapError hsteps) hnext
          split
          · exact hrelation _ relation htarget
          · next first rest hdrop =>
            have hlt := hn ▸ length_lt_of_drop_eq hdrop (Nat.succ_pos _)
            exact mark_ofScope htarget (ih _ hlt _ _ rfl)

/-! ## Equations -/

/-- A value where a mapping is wanted asks whether the field there equals it. -/
def equation (v : Value) : Value := .ofEntries [("$eq", v)]

theorem ofEntry_eq (v : Value) : ofEntry setup ("$eq", v) = ofOperator setup "$eq" v := by
  have hkey : DocumentKey.ofText "$eq" = .operator "$eq" := by decide +kernel
  funext place
  rw [ofEntry, hkey]

/-- At a field both spellings are read the same way. -/
theorem ofValue_equation {v : Value} (hv : v.mapping? = none)
    (otherwise : Place → Traced Outline) :
    ofValue setup otherwise (equation v) = ofValue setup (ofOperator setup "$eq" v) v := by
  rw [ofValue_of_mapping? (f := [("$eq", v)]) rfl, ofValue_of_mapping?_eq_none hv]
  funext place
  rw [ofFragment_singleton, ofEntry_eq]

theorem ofOperator_eq_of_relation {relation : RelationField} (v : Value)
    (htarget : (fieldAt? setup place).result = .ok (some (.relation relation))) :
    (ofOperator setup "$eq" v place).result =
      .error (.refused ⟨.relationComparison, place.key.external, v, some "$eq"⟩) := by
  have htoken : FieldOperator.ofToken? "$eq" = some (.compare .eq) := by decide +kernel
  have hevaluate : Field.evaluate (.relation relation) "$eq" v place.key.external place.path =
      .error (.refused ⟨.relationComparison, place.key.external, v, some "$eq"⟩) := by
    unfold Field.evaluate
    rw [htoken]
    rfl
  unfold ofOperator
  rw [htoken]
  dsimp only
  rw [bind_result_of_ok htarget]
  exact bind_result_of_error hevaluate

/-- At a relation both spellings are refused with the same mark, if the conditions of the relation
can be had. -/
theorem mark_ofRelationValue_equation (hbehave : setup.policies.Behave) {v : Value}
    (hv : v.mapping? = none) {relation : RelationField}
    (htarget : (fieldAt? setup place).result = .ok (some (.relation relation))) :
    (ofRelationValue setup v place).mark = (ofRelationValue setup (equation v) place).mark := by
  obtain ⟨conditions, hconditions⟩ := hbehave.exists_conditionsFor place.path
  have hinScope : (ofOperator setup "$eq" v place.inScope).result =
      .error (.refused ⟨.relationComparison, place.key.external, v, some "$eq"⟩) :=
    ofOperator_eq_of_relation v htarget
  have hnamed : ¬("$eq" = "$elemMatch" ∨ "$eq" = "$exists") := by decide +kernel
  have hscope : (ofRelationEntry setup ("$eq", v) place).result =
      .error (.refused ⟨.relationComparison, place.key.external, v, some "$eq"⟩) := by
    rw [ofRelationEntry, if_neg hnamed, ofScope, bind_result_of_ok htarget]
    dsimp only
    rw [bind_result_of_ok hconditions, bind_result_of_ok (x := Traced.log _ _) rfl, ofEntry_eq]
    exact bind_result_of_error hinScope
  rw [ofRelationValue_of_mapping?_eq_none hv,
    ofRelationValue_of_mapping? (f := [("$eq", v)]) rfl (List.cons_ne_nil _ _), List.mapM_cons]
  rw [mark, mark, bind_result_of_error (bind_result_of_error hscope)]
  rfl

/-- The two spellings of an equation have the same mark at every place. -/
theorem mark_ofEntry_equation (hbehave : setup.policies.Behave) {k : String}
    (hk : k.toList.head? ≠ some '$') {v : Value} (hv : v.mapping? = none) (place : Place) :
    (ofEntry setup (k, v) place).mark = (ofEntry setup (k, equation v) place).mark := by
  have hkey := DocumentKey.ofText_of_head hk
  rw [ofEntry_of_field hkey, ofEntry_of_field hkey, ofValue_equation hv]
  exact mark_ofKey (fun _ _ => mark_ofRelationValue_equation hbehave hv) _ _

end Outline

/-! ## Compiled documents -/

/-- The document is refused at this path, with this code, which also tells the class of the
refusal. -/
def RefusedWith {α : Type} (result : Except Failure α) (code : Code) (dataKey : Path) : Prop :=
  ∃ r text, result = .error ⟨.refused r, text⟩ ∧ r.code = code ∧ r.dataKey = dataKey

section Compiled
variable {schema : Schema} {root : String} {options : OptionsArgument} {policies : Policies}
  {d d' : Value} {f f' : Fragment}

theorem refusedWith_iff {α : Type} {result : Except Failure α} {code : Code} {dataKey : Path} :
    RefusedWith result code dataKey ↔
      result.mapError (·.fault.mark) = .error (.inl (code, dataKey)) := by
  constructor
  · rintro ⟨r, text, rfl, rfl, rfl⟩
    rfl
  · intro h
    obtain ⟨⟨fault, text⟩, rfl, hmark⟩ := error_of_mapError h
    obtain ⟨r, rfl, hcode, hdataKey⟩ := Fault.mark_eq_inl hmark
    exact ⟨r, text, rfl, hcode, hdataKey⟩

/-- Without a limit, documents whose outlines have the same mark compile with the same mark. -/
theorem compile_mark_congr (hpolicies : Policies.resolve options = .ok policies)
    (hlimit : policies.limit = none) (hd : d.mapping? = some f) (hd' : d'.mapping? = some f')
    (h : (Outline.ofDocument ⟨schema, root, policies⟩ f).mark =
      (Outline.ofDocument ⟨schema, root, policies⟩ f').mark) :
    (compile schema root d options).result.mapError (·.fault.mark) =
      (compile schema root d' options).result.mapError (·.fault.mark) := by
  have hpredicate : ((Outline.ofDocument ⟨schema, root, policies⟩ f).result.map
      Outline.predicate).mapError Fault.mark = ((Outline.ofDocument ⟨schema, root, policies⟩
        f').result.map Outline.predicate).mapError Fault.mark := by
    rw [mapError_map_except, mapError_map_except]
    exact congrArg _ h
  rw [compile_of_resolve hpolicies, compile_of_resolve hpolicies, Outcome.ofTraced,
    Outcome.ofTraced, mapError_mapError_except, mapError_mapError_except]
  exact Setup.compile_congr_of_outlines Fault.mark hlimit hd hd' hpredicate

/-- Without a limit and under a host that behaves, a bare value under a field key is as good as
an equation with it: the two compile to the same predicate, or are refused with the same code at
the same path. -/
theorem compile_bare_value (hpolicies : Policies.resolve options = .ok policies)
    (hlimit : policies.limit = none) (hbehave : policies.Behave) {k : String}
    (hk : k.toList.head? ≠ some '$') {v : Value} (hv : v.mapping? = none) :
    (∀ p, (compile schema root (.ofEntries [(k, v)]) options).result = .ok p ↔
      (compile schema root (.ofEntries [(k, .ofEntries [("$eq", v)])]) options).result = .ok p) ∧
    ∀ code dataKey,
      RefusedWith (compile schema root (.ofEntries [(k, v)]) options).result code dataKey ↔
        RefusedWith (compile schema root (.ofEntries [(k, .ofEntries [("$eq", v)])])
          options).result code dataKey := by
  have hmark : (compile schema root (.ofEntries [(k, v)]) options).result.mapError
      (·.fault.mark) = (compile schema root (.ofEntries [(k, Outline.equation v)])
        options).result.mapError (·.fault.mark) := by
    refine compile_mark_congr hpolicies hlimit rfl rfl ?_
    rw [Outline.ofDocument, Outline.ofDocument, Outline.ofFragment_singleton,
      Outline.ofFragment_singleton]
    exact Outline.mark_ofEntry_equation hbehave hk hv .root
  constructor
  · intro p
    constructor
    · intro h
      exact ok_of_mapError (hmark.symm.trans (congrArg _ h))
    · intro h
      exact ok_of_mapError (hmark.trans (congrArg _ h))
  · intro code dataKey
    rw [refusedWith_iff, refusedWith_iff, hmark]
    rfl

end Compiled

namespace Sample

def namedTracksPredicate : Predicate :=
  .related tracks ["tracks"] (.all
    [.test ⟨"name", "Track", .scalar .text⟩ ["tracks", "name"] .notNull,
      .test ⟨"name", "Track", .scalar .text⟩ ["tracks", "name"] (.compare .eq (.text "x"))])

/-- Text under a key that crosses a relation, and a date under the name of the relation. -/
theorem compile_bare_value_tracks :
    Policies.resolve (.settings knownTracks) = .ok (.ofOptions knownTracks) ∧
      (Policies.ofOptions knownTracks).limit = none ∧
      (Policies.ofOptions knownTracks).Behave ∧
      "tracks.name".toList.head? ≠ some '$' ∧ "tracks".toList.head? ≠ some '$' ∧
      (Value.text "x").mapping? = none ∧ (Value.date (some 0)).mapping? = none ∧
      (compile catalog.schema "Album" (.ofEntries [("tracks.name", .ofEntries [("$eq", .text "x")])])
        (.settings knownTracks)).result = .ok (some namedTracksPredicate) ∧
      RefusedWith (compile catalog.schema "Album"
        (.ofEntries [("tracks", .ofEntries [("$eq", .date (some 0))])])
        (.settings knownTracks)).result .relation ["tracks"] := by
  have hpolicies : Policies.resolve (.settings knownTracks) = .ok (.ofOptions knownTracks) := rfl
  have hlimit : (Policies.ofOptions knownTracks).limit = none := rfl
  have hname : "tracks.name".toList.head? ≠ some '$' := by decide +kernel
  have htracks : "tracks".toList.head? ≠ some '$' := by decide +kernel
  have hbare : (compile catalog.schema "Album" (.ofEntries [("tracks.name", .text "x")])
      (.settings knownTracks)).result = .ok (some namedTracksPredicate) := rfl
  have hrefused : RefusedWith (compile catalog.schema "Album"
      (.ofEntries [("tracks", .date (some 0))]) (.settings knownTracks)).result .relation
      ["tracks"] := ⟨_, _, rfl, rfl, rfl⟩
  exact ⟨hpolicies, hlimit, behave_knownTracks, hname, htracks, rfl, rfl,
    ((compile_bare_value hpolicies hlimit behave_knownTracks hname rfl).1 _).mp hbare,
    ((compile_bare_value hpolicies hlimit behave_knownTracks htracks rfl).2 _ _).mp hrefused⟩

end Sample
end RowFilter
