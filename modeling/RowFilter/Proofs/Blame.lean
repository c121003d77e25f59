import RowFilter.Proofs.Layout
import RowFilter.Proofs.Rendering

/-!
# Blame

Which faults a caller has to reckon with. A host behaves if its functions answer and its
conditions are predicates. Under a host that behaves a compile fails with a rejection of the
document, with two exceptions: a comparison of a time field with a time of day that passes for
a remainder operand, and a condition of the host that cannot be rendered for a live log.
-/

namespace RowFilter

open Traced

/-- Every condition is a predicate. A single missing value is no condition. -/
def ConditionEntry.HoldsPredicates : ConditionEntry → Prop
  | .one (.value v) => v.isMissing = true ∨ v.predicate?.isSome
  | .one (.predicate _) => True
  | .many conditions => ∀ c ∈ conditions, c.predicate?.isSome

namespace Policies

/-- The functions of the host answer, and its conditions are predicates. -/
structure Behave (policies : Policies) : Prop where
  whitelist : ∀ f, policies.whitelist = .asked f → ∀ path, ∃ answer, f path = .ok answer
  translator : ∀ f, policies.translator = some f → ∀ key, ∃ answer, f key = .ok answer
  table : ∀ entries, policies.conditions = .table entries →
    ∀ path entry, entries.get? path = some entry → entry.HoldsPredicates
  conditions : ∀ f, policies.conditions = .asked f →
    ∀ path, ∃ entry, f path = .ok entry ∧ entry.HoldsPredicates

theorem exists_conditionList (path : Path) {entry : ConditionEntry} (h : entry.HoldsPredicates) :
    ∃ ps, conditionList path entry = .ok ps := by
  have hread {cs : List Condition} (hcs : ∀ c ∈ cs, c.predicate?.isSome) :
      ∃ ps, (if cs.all Condition.looksRight then cs.mapM Condition.read
        else .error (.invalidConditions path.text)) = Except.ok ps := by
    have hlooks : cs.all Condition.looksRight = true := by
      rw [List.all_eq_true]
      intro c hc
      obtain ⟨p, hp⟩ := Option.isSome_iff_exists.mp (hcs c hc)
      exact Condition.looksRight_of_predicate? hp
    rw [if_pos hlooks]
    refine exists_mapM_ok_iff.mpr fun c hc => ?_
    obtain ⟨p, hp⟩ := Option.isSome_iff_exists.mp (hcs c hc)
    exact ⟨p, by rw [Condition.read, hp]⟩
  unfold conditionList
  dsimp only
  split
  · next v =>
    split
    · exact ⟨[], rfl⟩
    · next hmissing =>
      obtain h | h := h
      · exact absurd h hmissing
      · exact hread (List.forall_mem_singleton.mpr h)
  · next c hc =>
    cases c with
    | predicate p => exact hread (List.forall_mem_singleton.mpr rfl)
    | value v => exact absurd rfl (hc v)
  · exact hread h

namespace Behave

variable {policies : Policies} (h : policies.Behave)
include h

theorem exists_isWhitelisted (schema : Schema) (root : String) (path : Path) :
    ∃ allowed, (policies.isWhitelisted schema root path).result = .ok allowed := by
  unfold isWhitelisted
  split
  · exact ⟨_, rfl⟩
  · exact ⟨_, rfl⟩
  · next f hf =>
    obtain ⟨answer, hanswer⟩ := h.whitelist f hf path.text
    rw [hanswer]
    exact ⟨_, rfl⟩

theorem exists_translate (key : Path) : ∃ answer, (policies.translate key).result = .ok answer := by
  unfold translate
  split
  · exact ⟨_, rfl⟩
  · next f hf =>
    obtain ⟨answer, hanswer⟩ := h.translator f hf key.text
    rw [hanswer]
    exact ⟨_, rfl⟩

theorem exists_conditionsFor (path : Path) :
    ∃ ps, (policies.conditionsFor path).result = .ok ps := by
  unfold conditionsFor
  split
  · exact ⟨[], rfl⟩
  · next entries hentries =>
    split
    · next entry hentry => exact exists_conditionList _ (h.table entries hentries _ entry hentry)
    · exact ⟨[], rfl⟩
  · next f hf =>
    obtain ⟨entry, hentry, hholds⟩ := h.conditions f hf path.text
    obtain ⟨ps, hps⟩ := exists_conditionList path hholds
    rw [hentry]
    exact ⟨ps, hps⟩

omit h in
/-- All faults that a traversal finds before it applies an operator are rejections. -/
theorem faultsAmong {setup : Setup} (h : setup.policies.Behave) {bad : Fault → Prop}
    (hbad : ∀ fault, fault.isRejection = true → bad fault) : Traversal.FaultsAmong setup bad where
  refused := fun _ => hbad _ rfl
  whitelist := by
    intro path fault hfault
    obtain ⟨allowed, hok⟩ := h.exists_isWhitelisted setup.schema setup.root path
    rw [hok] at hfault
    cases hfault
  translation := by
    intro key fault hfault
    obtain ⟨answer, hok⟩ := h.exists_translate key
    rw [hok] at hfault
    cases hfault
  conditions := by
    intro path fault hfault
    obtain ⟨ps, hok⟩ := h.exists_conditionsFor path
    rw [hok] at hfault
    cases hfault

end Behave

/-- A host without functions and conditions behaves. -/
theorem behave_of_none {policies : Policies} (hwhitelist : policies.whitelist = .everything)
    (htranslator : policies.translator = none) (hconditions : policies.conditions = .none) :
    policies.Behave where
  whitelist := fun f hf => by rw [hwhitelist] at hf; cases hf
  translator := fun f hf => by rw [htranslator] at hf; cases hf
  table := fun f hf => by rw [hconditions] at hf; cases hf
  conditions := fun f hf => by rw [hconditions] at hf; cases hf

end Policies

theorem FieldOperator.ofText_compare {token : String} {op : CompareOp}
    (h : ofToken? token = some (.compare op)) : DocumentKey.ofText token = .operator token := by
  rw [← token_of_ofToken? h]
  cases op <;> decide +kernel

namespace Traversal
open TraversalState

variable {setup : Setup} {document : Fragment} {s : TraversalState} {op : CompareOp}
  {fault : Fault}

/-- The next task fits the limit, and compares a time field with a time of day that passes for
a remainder operand. -/
structure Misreads (setup : Setup) (s : TraversalState) (op : CompareOp) : Prop where
  within : withinLimit setup s = .ok ()
  next : ∃ token value rest field, s.work = .fragment [(token, value)] :: rest ∧
    FieldOperator.ofToken? token = some (.compare op) ∧
    (openField? setup s).result = .ok (some (.scalar field)) ∧ FieldOperator.Misread field value

/-- No traversal of the document comes to such a comparison. -/
def NeverMisreads (setup : Setup) (document : Fragment) : Prop :=
  ∀ s op, Reachable setup document s → ¬Misreads setup s op

theorem Misreads.step (h : Misreads setup s op) : ∃ task rest, s.work = task :: rest ∧
    (Traversal.step setup s task rest).result = .error (.misused (.single op.label)) := by
  obtain ⟨hwithin, token, value, rest, field, hwork, htoken, hfield, hmisread⟩ := h
  refine ⟨_, rest, hwork, bind_result_eq_error_iff.mpr (.inr ⟨(), hwithin, ?_⟩)⟩
  simp only [perform, read, readEntry, FieldOperator.ofText_compare htoken, operate, htoken]
  refine bind_result_eq_error_iff.mpr (.inr ⟨_, hfield, ?_⟩)
  refine bind_result_eq_error_iff.mpr (.inl ?_)
  exact Field.evaluate_of_misread htoken hmisread

/-- A traversal that comes to a misread operand ends there, with a fault that is no rejection. -/
theorem Reachable.run_of_misreads (h : Reachable setup document s)
    (hmisreads : Misreads setup s op) :
    (run setup document).result = .error (.misused (.single op.label)) := by
  obtain ⟨task, rest, hwork, hstep⟩ := hmisreads.step
  exact h.run_of_error hwork hstep

variable (hbehave : setup.policies.Behave)
include hbehave

/-- A step that fails rejects the document, or compares with a misread operand. -/
theorem Reachable.fault_of_step (h : Reachable setup document s) {task : Task} {rest : List Task}
    (hwork : s.work = task :: rest)
    (hstep : (Traversal.step setup s task rest).result = .error fault) :
    fault.isRejection = true ∨ ∃ op, Misreads setup s op := by
  obtain hlimit | ⟨_, hwithin, hperform⟩ := bind_result_eq_error_iff.mp hstep
  · exact .inl (isRejection_of_withinLimit hlimit)
  · have hbad : FaultsAmong setup fun fault =>
        fault.isRejection = true ∨ ∃ op, Misreads setup s op :=
      hbehave.faultsAmong fun _ hrejection => .inl hrejection
    refine (perform_ends hbad hwork h.laidOut ?_).bad fault hperform
    intro token value htask target fault htarget hevaluate
    obtain hrejection | ⟨op, field, htoken, rfl, hmisread, _⟩ := Field.evaluate_eq_error hevaluate
    · exact .inl hrejection
    · rw [htask] at hwork
      exact .inr ⟨op, hwithin, token, value, rest, field, hwork, htoken, htarget, hmisread⟩

/-- A traversal that fails rejects the document, or comes to a misread operand. -/
theorem fault_of_run (h : (run setup document).result = .error fault) :
    fault.isRejection = true ∨ ∃ s op, Reachable setup document s ∧ Misreads setup s op := by
  obtain ⟨t, ht, ⟨_, hresult⟩ | ⟨task, rest, fault', hwork, hstep, hresult⟩⟩ :=
    exists_stop_of_run setup document
  · obtain ⟨frame, outer, hframes⟩ := ht.laidOut.exists_frame
    rw [hresult, TraversalState.result, hframes] at h
    cases h
  · rw [hresult] at h
    cases h
    obtain hrejection | ⟨op, hmisreads⟩ := ht.fault_of_step hbehave hwork hstep
    · exact .inl hrejection
    · exact .inr ⟨t, op, ht, hmisreads⟩

end Traversal

namespace Setup
variable {setup : Setup} {document : Value} {f : Fragment} {fault : Fault}

theorem compileMapping_eq_error_iff (hf : document.mapping? = some f) :
    (setup.compileMapping document).result = .error fault ↔
      (Traversal.run setup f).result = .error fault ∨
        ∃ p, (Traversal.run setup f).result = .ok p ∧ setup.policies.sink.isLive = true ∧
          p.render = .error fault := by
  unfold compileMapping
  rw [hf]
  dsimp only
  rw [bind_result_eq_error_iff]
  refine or_congr Iff.rfl (exists_congr fun p => and_congr Iff.rfl ?_)
  split
  · next hlive =>
    rw [bind_result_eq_error_iff, ofExcept_result, and_iff_right hlive]
    refine or_iff_left ?_
    rintro ⟨text, _, ⟨⟩⟩
  · next hlive => exact iff_of_false (fun h => nomatch h) fun h => hlive h.1

theorem compile_eq_error_iff :
    (setup.compile document).result = .error fault ↔
      document.isMissing = false ∧ (setup.compileMapping document).result = .error fault := by
  rw [compile_result]
  by_cases hmissing : document.isMissing = true
  · rw [if_pos hmissing, hmissing]
    exact iff_of_false (fun h => nomatch h) fun h => nomatch h.1
  · rw [if_neg hmissing, and_iff_right (Bool.eq_false_iff.mpr hmissing)]
    cases (setup.compileMapping document).result with
    | ok p => exact iff_of_false (fun h => nomatch h) fun h => nomatch h
    | error fault' => exact ⟨congrArg _ ∘ Except.error.inj, congrArg _ ∘ Except.error.inj⟩

theorem compile_of_mapping (hf : document.mapping? = some f)
    (h : (setup.compileMapping document).result = .error fault) :
    (setup.compile document).result = .error fault :=
  compile_eq_error_iff.mpr ⟨Value.isMissing_of_mapping? hf, h⟩

/-- The conditions that the host puts into the document can be rendered, unless the traversal
ends before they are, or the log is silent. -/
def ConditionsRender (setup : Setup) (f : Fragment) : Prop :=
  setup.policies.sink.isLive = true → ∀ o, (Outline.ofDocument setup f).result = .ok o →
    (Traversal.run setup f).result = .ok o.predicate → o.ConditionsRender

/-- A predicate that a traversal comes to can be rendered for a live log if and only if the
conditions in it can. -/
theorem conditionsRender_iff : setup.ConditionsRender f ↔
    (setup.policies.sink.isLive = true →
      ∀ p, (Traversal.run setup f).result = .ok p → p.Renders) := by
  refine forall_congr' fun _ => ?_
  constructor
  · intro h p hrun
    obtain ⟨o, ho, rfl, _⟩ := Traversal.exists_outline_of_run hrun
    have hstands := Outline.stands_of_yields_ofDocument (yields_self ho)
    exact hstands.renders_iff.mpr (h o ho hrun)
  · intro h o ho hrun
    have hstands := Outline.stands_of_yields_ofDocument (yields_self ho)
    exact hstands.renders_iff.mp (h _ hrun)

theorem compile_rejects_iff (hbehave : setup.policies.Behave) :
    (∀ fault, (setup.compile document).result = .error fault → fault.isRejection = true) ↔
      ∀ f, document.mapping? = some f →
        Traversal.NeverMisreads setup f ∧ setup.ConditionsRender f := by
  constructor
  · intro h f hf
    refine ⟨fun s op hs hmisreads => ?_, conditionsRender_iff.mpr fun hlive p hrun => ?_⟩
    · have hrun := hs.run_of_misreads hmisreads
      have hmapping := (compileMapping_eq_error_iff hf).mpr (.inl hrun)
      cases h _ (compile_of_mapping hf hmapping)
    · cases hrender : p.render with
      | ok text => exact ⟨text, hrender⟩
      | error fault =>
        have hmapping := (compileMapping_eq_error_iff hf).mpr (.inr ⟨p, hrun, hlive, hrender⟩)
        have hrejection := h _ (compile_of_mapping hf hmapping)
        rw [Predicate.not_isRejection_of_render hrender] at hrejection
        cases hrejection
  · intro h fault hfault
    obtain ⟨_, hmapping⟩ := compile_eq_error_iff.mp hfault
    cases hf : document.mapping? with
    | none =>
      rw [compileMapping, hf] at hmapping
      cases hmapping
      rfl
    | some f =>
      obtain ⟨hnever, hconditions⟩ := h f hf
      obtain hrun | ⟨p, hrun, hlive, hrender⟩ := (compileMapping_eq_error_iff hf).mp hmapping
      · obtain hrejection | ⟨s, op, hs, hmisreads⟩ := Traversal.fault_of_run hbehave hrun
        · exact hrejection
        · exact absurd hmisreads (hnever s op hs)
      · obtain ⟨text, htext⟩ := conditionsRender_iff.mp hconditions hlive p hrun
        rw [hrender] at htext
        cases htext

end Setup

section Compiled
variable {schema : Schema} {root : String} {document : Value} {options : OptionsArgument}
  {policies : Policies}

/-- Under a host that behaves, whatever a compile fails with is a rejection, if and only if the
traversal never comes to a misread operand and the conditions of the host can be rendered. -/
theorem compile_rejects_only_iff (hpolicies : Policies.resolve options = .ok policies)
    (hbehave : policies.Behave) :
    (∀ failure, (compile schema root document options).result = .error failure →
        failure.fault.isRejection = true) ↔
      ∀ f, document.mapping? = some f →
        Traversal.NeverMisreads ⟨schema, root, policies⟩ f ∧
          Setup.ConditionsRender ⟨schema, root, policies⟩ f := by
  rw [← Setup.compile_rejects_iff hbehave, compile_of_resolve hpolicies]
  dsimp only [Outcome.ofTraced]
  cases (Setup.compile ⟨schema, root, policies⟩ document).result with
  | ok p => exact iff_of_true (fun _ h => nomatch h) fun _ h => nomatch h
  | error fault =>
    constructor
    · rintro h _ ⟨⟩
      exact h _ rfl
    · rintro h _ ⟨⟩
      exact h _ rfl

end Compiled

namespace Sample

/-- A time of day that is a remainder operand, too. -/
def ambiguousTime : Value := .ofEntries
  [("hour", .number (.ofNat 1)), ("minute", .number (.ofNat 2)), ("second", .number (.ofNat 3)),
    ("divisor", .number (.ofNat 2)), ("remainder", .number (.ofNat 1))]

def ambiguousDocument : Value := .ofEntries [("shift_start", .ofEntries [("$eq", ambiguousTime)])]

/-- A comparison with such a time is not refused: it fails in a way that no document should. -/
theorem compile_not_rejects_only :
    Policies.resolve (.settings .empty) = .ok (.ofOptions .empty) ∧
      (Policies.ofOptions .empty).Behave ∧
      ∃ failure, (compile catalog.schema "Employee" ambiguousDocument (.settings .empty)).result =
          .error failure ∧
        failure.fault = .misused (.single "eq") ∧ failure.fault.isRejection = false := by
  refine ⟨rfl, Policies.behave_of_none rfl rfl rfl, _, rfl, rfl, rfl⟩

/-- Wants the name of every track to be known, and a log of what happens. -/
def knownTracks : Options := .ofEntries
  [("nestedConditions", .conditionTable
      [("tracks", .one (.predicate (.test ⟨"name", "Track", .scalar .text⟩ ["tracks", "name"]
        .notNull)))]),
    ("debug", .logger)]

theorem behave_knownTracks : (Policies.ofOptions knownTracks).Behave where
  whitelist := fun f hf => nomatch hf
  translator := fun f hf => nomatch hf
  table := by
    rintro _ ⟨⟩ path entry hentry
    cases List.mem_singleton.mp (List.mem_filter.mp (Entries.mem_of_get? hentry)).1
    trivial
  conditions := fun f hf => nomatch hf

theorem compile_rejects_only_iff_ambiguous :
    Policies.resolve (.settings knownTracks) = .ok (.ofOptions knownTracks) ∧
      (Policies.ofOptions knownTracks).Behave ∧
      ((∀ failure, (compile catalog.schema "Employee" ambiguousDocument
            (.settings knownTracks)).result = .error failure → failure.fault.isRejection = true) ↔
        ∀ f, ambiguousDocument.mapping? = some f →
          Traversal.NeverMisreads ⟨catalog.schema, "Employee", .ofOptions knownTracks⟩ f ∧
            Setup.ConditionsRender ⟨catalog.schema, "Employee", .ofOptions knownTracks⟩ f) :=
  ⟨rfl, behave_knownTracks, compile_rejects_only_iff rfl behave_knownTracks⟩

end Sample
end RowFilter
