import RowFilter.Proofs.Unconditional

/-!
# Debugging

A debug log watches a compile and has no part in it. A traversal never asks where its reports go.
The one thing that is done for the sake of a log is to render the predicate, and whatever a host
without conditions compiles can be rendered.

So the `debug` setting does not matter to the result of a compile, be the other options in order
or not.
-/

namespace RowFilter

/-! ## Setups with another log -/

namespace Setup

/-- The same setup with its reports going elsewhere. -/
def reportingTo (setup : Setup) (sink : Sink) : Setup := { setup with policies.sink := sink }

end Setup

namespace Traversal
variable {setup : Setup}

/-- A step reports without asking where to. -/
theorem step_reportingTo (sink : Sink) : step (setup.reportingTo sink) = step setup := rfl

theorem run_reportingTo (sink : Sink) (f : Fragment) :
    run (setup.reportingTo sink) f = run setup f :=
  run_congr_of_step fun _ _ _ _ _ => by rw [step_reportingTo]

end Traversal

namespace Setup
variable {setup : Setup} {document : Value}

/-- If the predicate can be rendered, then rendering it changes nothing. -/
theorem compileMapping_result_of_renders {f : Fragment} (hf : document.mapping? = some f)
    (h : ∀ p, (Traversal.run setup f).result = .ok p → p.Renders) :
    (setup.compileMapping document).result = (Traversal.run setup f).result := by
  cases hrun : (Traversal.run setup f).result with
  | error fault =>
    unfold compileMapping
    rw [hf]
    exact Traced.bind_result_of_error hrun
  | ok p => exact (compileMapping_eq_ok_iff hf).mpr ⟨hrun, fun _ => h p hrun⟩

/-- Where the reports of a compile go has no effect on its result. -/
theorem compile_reportingTo (hnone : setup.policies.NoConditions) (sink : Sink) :
    ((setup.reportingTo sink).compile document).result = (setup.compile document).result := by
  have hnone' : (setup.reportingTo sink).policies.NoConditions := hnone
  have hmapping : ((setup.reportingTo sink).compileMapping document).result =
      (setup.compileMapping document).result := by
    cases hf : document.mapping? with
    | none =>
      unfold compileMapping
      rw [hf]
    | some f =>
      rw [compileMapping_result_of_renders hf fun _ => Traversal.renders_of_run hnone,
        compileMapping_result_of_renders hf fun _ => Traversal.renders_of_run hnone',
        Traversal.run_reportingTo]
  rw [compile_result, compile_result, hmapping]

end Setup

/-! ## The `debug` setting -/

namespace OptionsArgument
variable {a : OptionsArgument} {o : Options} {name : OptionName} {s : Setting}

/-- The settings of a record, in order or not. An absent argument has none. -/
def record? : OptionsArgument → Option Options
  | .value .absent => some .empty
  | a => a.options?

theorem check_of_record? (h : a.record? = some o) :
    a.check = if o.issues = [] then .ok o
      else .error (.invalidOptions (o.issues.map Issue.text)) := by
  unfold record? at h
  split at h
  · cases h
    rw [if_pos Options.issues_empty]
    rfl
  · next hpresent =>
    have hissues : a.issues = o.issues := by rw [issues, h]
    unfold check
    split
    · exact absurd rfl hpresent
    · rw [h, hissues]
      cases o.issues with
      | nil => rfl
      | cons issue issues => rfl

theorem record?_replace (h : a.record? = some o) :
    (settings (o.replace name s)).record? = some (o.replace name s) := by
  have hkind : (settings (o.replace name s)).kindName = "object" := by
    unfold record? at h
    split at h
    · cases h
      rfl
    · show (settings o).kindName = "object"
      exact kindName_of_options? h
  rw [record?, options?, if_neg (not_not_intro hkind)]
  intro habsent
  cases habsent

end OptionsArgument

/-- The `debug` setting says where reports go, and nothing else. -/
theorem Policies.ofOptions_debug (o : Options) (s : Setting) :
    ofOptions (o.replace .debug s) =
      { ofOptions o with sink := .ofSetting s Sink.defaultScope } := by
  rw [ofOptions, given?_replace_of_ne (by decide), given?_replace_of_ne (by decide),
    given?_replace_of_ne (by decide), given?_replace_of_ne (by decide),
    given?_replace_of_ne (by decide), Options.setting?_replace_self]
  rfl

section Compiled
variable {schema : Schema} {root : String} {document : Value} {options : OptionsArgument}
  {policies : Policies} {o : Options} {p : Predicate} {s : Setting}

/-- Whatever a host without conditions compiles can be rendered. -/
theorem renders_of_noConditions (hpolicies : Policies.resolve options = .ok policies)
    (hnone : policies.NoConditions)
    (h : (compile schema root document options).result = .ok (some p)) : p.Renders := by
  obtain ⟨f, _, hf, _⟩ := Setup.exists_outline_of_compile (yields_of_compile hpolicies h)
  have hrun := ((compile_eq_ok_iff hpolicies hf).mp h).1
  refine Traversal.renders_of_run ?_ hrun
  exact hnone

end Compiled

/-- Without conditions of the host every compiled predicate can be rendered, and whether and
where a compile reports has no effect on what it comes to. -/
theorem compile_of_any_debug {options : OptionsArgument} {o : Options} {s : Setting}
    (hrecord : options.record? = some o)
    (hown : ∀ s', o.setting? OptionName.debug.label = some s' → OptionName.debug.issues s' = [])
    (hnone : (Policies.ofOptions o).NoConditions) (hs : OptionName.debug.issues s = [])
    (schema : Schema) (root : String) (document : Value) :
    (∀ p, (compile schema root document options).result = .ok (some p) → p.Renders) ∧
      (compile schema root document (.settings (o.replace .debug s))).result =
        (compile schema root document options).result := by
  have hcheck := OptionsArgument.check_of_record? hrecord
  have hcheck' : (OptionsArgument.settings (o.replace .debug s)).check = _ :=
    OptionsArgument.check_of_record? (OptionsArgument.record?_replace hrecord)
  rw [Options.issues_replace_eq hs hown] at hcheck'
  by_cases hissues : o.issues = []
  · rw [if_pos hissues] at hcheck hcheck'
    have hresolve := resolve_of_check hcheck
    have hresolve' := resolve_of_check hcheck'
    rw [Policies.ofOptions_debug] at hresolve'
    refine ⟨fun p => renders_of_noConditions hresolve hnone, ?_⟩
    rw [compile_of_resolve hresolve, compile_of_resolve hresolve']
    let setup : Setup := ⟨schema, root, .ofOptions o⟩
    have hresult : ((setup.reportingTo (.ofSetting s Sink.defaultScope)).compile document).result =
        (setup.compile document).result := Setup.compile_reportingTo hnone _
    exact congrArg (Except.mapError _) hresult
  · rw [if_neg hissues] at hcheck hcheck'
    have hfailed {a : OptionsArgument} {fault : Fault} (h : a.check = .error fault) :
        compile schema root document a = .failed fault := by
      rw [compile, Policies.resolve, h]
      rfl
    rw [hfailed hcheck, hfailed hcheck']
    refine ⟨fun _ h => ?_, rfl⟩
    cases h

namespace Sample

/-- A function of the host allows every field, and nothing is reported. -/
def quietOptions : Options := .ofEntries
  [("whitelist", .pathFunction fun _ => .ok (.bool true)), ("debug", .value (.bool false))]

def datedDocument : Value := .ofEntries
  [("released", .ofEntries [("$gte", .text "1995-02-03"), ("$ne", .null)]),
    ("tracks.milliseconds", .ofEntries [("$in", .list [.text "7", .text "+08"])])]

def datedPredicate : Predicate := .all
  [.all [.test ⟨"released", "Album", .scalar .date⟩ ["released"]
        (.compare .gte (.date (some 791769600000))),
      .test ⟨"released", "Album", .scalar .date⟩ ["released"] (.compare .ne .null)],
    .related tracks ["tracks"]
      (.test ⟨"milliseconds", "Track", .scalar .int⟩ ["tracks", "milliseconds"]
        (.among [.number (.ofNat 7), .number (.ofNat 8)]))]

theorem compile_of_any_debug_dated :
    (OptionsArgument.settings quietOptions).record? = some quietOptions ∧
      (∀ s', quietOptions.setting? OptionName.debug.label = some s' →
        OptionName.debug.issues s' = []) ∧
      (Policies.ofOptions quietOptions).NoConditions ∧
      OptionName.debug.issues .logger = [] ∧
      datedPredicate.Renders ∧
      (compile catalog.schema "Album" datedDocument
        (.settings (quietOptions.replace .debug .logger))).result = .ok (some datedPredicate) := by
  have hrecord : (OptionsArgument.settings quietOptions).record? = some quietOptions := rfl
  have hown : ∀ s', quietOptions.setting? OptionName.debug.label = some s' →
      OptionName.debug.issues s' = [] := by
    rintro _ ⟨⟩
    rfl
  have hnone : (Policies.ofOptions quietOptions).NoConditions := Policies.noConditions_of_none rfl
  have hs : OptionName.debug.issues .logger = [] := rfl
  have hcompile : (compile catalog.schema "Album" datedDocument (.settings quietOptions)).result =
      .ok (some datedPredicate) := by rfl
  obtain ⟨hrenders, hsame⟩ :=
    compile_of_any_debug hrecord hown hnone hs catalog.schema "Album" datedDocument
  exact ⟨hrecord, hown, hnone, hs, hrenders _ hcompile, hsame.trans hcompile⟩

end Sample
end RowFilter
