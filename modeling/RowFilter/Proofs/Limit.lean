import RowFilter.Proofs.Simulation

/-!
# Traversals under a limit

A limit on pending work does one thing only: it may end a traversal. Until then the traversal
does what it does without a limit, so that whatever comes out of a limited traversal has the
outline of its document behind it too.
-/

namespace RowFilter

/-- The same setup without a limit on pending work. -/
def Setup.unlimited (setup : Setup) : Setup := { setup with policies.limit := none }

namespace Outline
variable {setup : Setup}

theorem ofOperator_unlimited : ofOperator setup.unlimited = ofOperator setup := rfl

theorem ofScope_unlimited : ofScope setup.unlimited = ofScope setup := rfl

theorem ofKey_unlimited : ofKey setup.unlimited = ofKey setup := by with_unfolding_all rfl

theorem mapM_congr {α β : Type} {f g : α → Traced β} {xs : List α} (h : ∀ x ∈ xs, f x = g x) :
    xs.mapM f = xs.mapM g := by
  induction xs with
  | nil => rfl
  | cons x xs ih =>
    rw [List.mapM_cons, List.mapM_cons, h x List.mem_cons_self,
      ih fun y hy => h y (List.mem_cons_of_mem x hy)]

theorem ofFragment_unlimited {f : Fragment}
    (h : ∀ e ∈ f, ofEntry setup.unlimited e = ofEntry setup e) :
    ofFragment setup.unlimited f = ofFragment setup f := by
  funext place
  unfold ofFragment
  rw [ofEntries_eq_mapM, ofEntries_eq_mapM, mapM_congr fun e he => congrFun (h e he) place]

theorem ofValue_unlimited {v : Value} (otherwise : Place → Traced Outline)
    (h : ∀ f, v.mapping? = some f → ∀ e ∈ f, ofEntry setup.unlimited e = ofEntry setup e) :
    ofValue setup.unlimited otherwise v = ofValue setup otherwise v := by
  cases hf : v.mapping? with
  | some f =>
    rw [ofValue_of_mapping? hf, ofValue_of_mapping? hf, ofFragment_unlimited (h f hf)]
  | none => rw [ofValue_of_mapping?_eq_none hf, ofValue_of_mapping?_eq_none hf]

theorem ofList_unlimited {v : Value} (op : String)
    (h : ∀ fs, v.fragments? = some fs → ∀ f ∈ fs, ∀ e ∈ f,
      ofEntry setup.unlimited e = ofEntry setup e) :
    ofList setup.unlimited op v = ofList setup op v := by
  funext place
  cases hfs : v.fragments? with
  | some fs =>
    rw [ofList_of_fragments? hfs, ofList_of_fragments? hfs,
      mapM_congr fun f hf => congrFun (ofFragment_unlimited (h fs hfs f hf)) place]
  | none => rw [ofList_of_fragments?_eq_none hfs, ofList_of_fragments?_eq_none hfs]

theorem ofRelationValue_unlimited {v : Value}
    (h : ∀ f, v.mapping? = some f → ∀ e ∈ f, ofEntry setup.unlimited e = ofEntry setup e) :
    ofRelationValue setup.unlimited v = ofRelationValue setup v := by
  funext place
  rcases hf : v.mapping? with _ | f
  · rw [ofRelationValue_of_mapping?_eq_none hf, ofRelationValue_of_mapping?_eq_none hf]
  · by_cases hne : f = []
    · rw [hne] at hf
      rw [ofRelationValue_of_empty hf, ofRelationValue_of_empty hf]
    · rw [ofRelationValue_of_mapping? hf hne, ofRelationValue_of_mapping? hf hne,
        mapM_congr fun e he => ?_]
      unfold ofRelationEntry
      rw [h f hf e he, ofScope_unlimited]

theorem ofEntry_unlimited (e : String × Value) : ofEntry setup.unlimited e = ofEntry setup e := by
  induction e using Value.entry_induction with
  | entry key v hmapping hfragments =>
    funext place
    unfold ofEntry
    cases DocumentKey.ofText key with
    | all => simp only [ofList_unlimited _ hfragments]
    | any => simp only [ofList_unlimited _ hfragments]
    | none => simp only [ofList_unlimited _ hfragments]
    | not => simp only [ofValue_unlimited _ hmapping]
    | elemMatch => simp only [ofValue_unlimited _ hmapping, ofScope_unlimited]
    | operator token => simp only [ofOperator_unlimited]
    | field text =>
      simp only [ofKey_unlimited, ofOperator_unlimited, ofValue_unlimited _ hmapping,
        ofRelationValue_unlimited hmapping]

theorem ofDocument_unlimited (document : Fragment) :
    ofDocument setup.unlimited document = ofDocument setup document := by
  unfold ofDocument
  rw [ofFragment_unlimited fun e _ => ofEntry_unlimited e]

end Outline

namespace Traversal
open Traced

variable {setup : Setup}

theorem perform_unlimited : perform setup.unlimited = perform setup := rfl

/-- A task under a limit is carried out, or the limit ends the traversal. -/
theorem step_eq_unlimited_or (setup : Setup) (s : TraversalState) (task : Task) (rest : List Task) :
    step setup s task rest = step setup.unlimited s task rest ∨
      ∃ limit, setup.policies.limit = some limit ∧
        step setup s task rest = fail (.tooComplex limit) := by
  unfold step
  rw [perform_unlimited]
  cases hlimit : setup.policies.limit with
  | none => exact .inl (by simp [withinLimit, hlimit, Setup.unlimited])
  | some limit =>
    by_cases hlt : limit < s.work.length
    · refine .inr ⟨limit, rfl, ?_⟩
      simp only [withinLimit, hlimit, hlt, if_true]
      rfl
    · exact .inl (by simp [withinLimit, hlimit, hlt, Setup.unlimited])

theorem loop_eq_unlimited_or (setup : Setup) (fuel : Nat) (past : List Event) (s : TraversalState) :
    loop setup fuel past s = loop setup.unlimited fuel past s ∨
      ∃ limit, setup.policies.limit = some limit ∧
        (loop setup fuel past s).result = .error (.tooComplex limit) := by
  induction fuel generalizing past s with
  | zero => exact .inl rfl
  | succ fuel ih =>
    unfold loop
    cases s.work with
    | nil => exact .inl rfl
    | cons task rest =>
      dsimp only
      obtain heq | ⟨limit, hlimit, hstep⟩ := step_eq_unlimited_or setup s task rest
      · rw [heq]
        split
        · exact ih _ _
        · exact .inl rfl
      · rw [hstep]
        exact .inr ⟨limit, hlimit, rfl⟩

theorem run_eq_unlimited_or (setup : Setup) (document : Fragment) :
    run setup document = run setup.unlimited document ∨
      ∃ limit, setup.policies.limit = some limit ∧
        (run setup document).result = .error (.tooComplex limit) :=
  loop_eq_unlimited_or setup _ _ _

/-- A traversal that ends well comes to the predicate of an outline, with the same events. -/
theorem exists_outline_of_run {document : Fragment} {p : Predicate}
    (h : (run setup document).result = .ok p) :
    ∃ o, (Outline.ofDocument setup document).result = .ok o ∧ o.predicate = p ∧
      (run setup document).events = (Outline.ofDocument setup document).events := by
  obtain heq | ⟨limit, _, hfault⟩ := run_eq_unlimited_or setup document
  · rw [heq, run_eq_outline rfl, Outline.ofDocument_unlimited] at h ⊢
    obtain ⟨o, ho, hp⟩ := bind_result_eq_ok_iff.mp h
    cases hp
    refine ⟨o, ho, rfl, ?_⟩
    rw [bind_eq, bind_of_ok _ ho]
    exact List.append_nil _
  · rw [hfault] at h
    cases h

end Traversal

/-! ## Options with a limit -/

theorem Setting.number?_of_toInt? {n : Number} {i : Int} (h : n.toInt? = some i) :
    number? (.value (.number n)) = some n := by
  cases n with
  | nan => cases h
  | infinite _ => rfl
  | finite _ _ _ => rfl

/-- Any positive whole number may stand as a limit. -/
theorem OptionName.issues_limit {n : Number} {limit : Nat} (h : n.toInt? = some (limit : Int))
    (hpos : 0 < limit) : complexityLimit.issues (.value (.number n)) = [] := by
  cases hmagnitude : n.wholeMagnitude? with
  | none => simp [Number.toInt?, hmagnitude] at h
  | some m =>
    have hinteger : n.isInteger = true := by rw [Number.isInteger, hmagnitude, Option.isSome_some]
    have hnegative : n.isNegative = false := by
      cases hnegative : n.isNegative with
      | false => rfl
      | true =>
        simp only [Number.toInt?, hmagnitude, hnegative] at h
        have := Option.some.inj h
        simp only [if_true] at this
        omega
    simp [issues, complaints, limitComplaints, Setting.number?_of_toInt? h, hinteger, hnegative]

namespace Options

/-- The same options with a setting in the place of any other of that name. -/
def replace (o : Options) (name : OptionName) (s : Setting) : Options :=
  { o with own := o.own.remove name.label ++ [(name.label, s)] }

/-- The same options with a limit in the place of any other. -/
def limitedTo (o : Options) (n : Number) : Options :=
  o.replace .complexityLimit (.value (.number n))

variable {o : Options} {name : OptionName} {s : Setting}

theorem setting?_replace_self : (o.replace name s).setting? name.label = some s := by
  simp [setting?, replace, Entries.get?_append, Entries.get?_remove_self, Entries.get?_cons]

theorem setting?_replace_of_ne {other : OptionName} (h : other ≠ name) :
    (o.replace name s).setting? other.label = o.setting? other.label := by
  have hlabel : other.label ≠ name.label := fun heq => h (OptionName.label_injective heq)
  have hown : (o.replace name s).own.get? other.label = o.own.get? other.label := by
    rw [replace, Entries.get?_append, Entries.get?_remove_of_ne _ hlabel, Entries.get?_cons,
      if_neg (by simpa using hlabel)]
    exact Option.or_none
  rw [setting?, setting?, hown]
  rfl

/-- A name that no setting has. -/
def isUnknown (name : String) : Bool := !(OptionName.all.map OptionName.label).contains name

theorem unknownNames_eq (o : Options) : o.unknownNames = o.names.filter isUnknown := rfl

theorem isUnknown_label (name : OptionName) : isUnknown name.label = false := by
  cases name <;> decide +kernel

theorem ne_label_of_isUnknown {other : String} (h : isUnknown other = true) (name : OptionName) :
    other ≠ name.label := by
  rintro rfl
  rw [isUnknown_label] at h
  cases h

/-- The setting of a known name has no part in the unknown names. -/
theorem unknownNames_replace : (o.replace name s).unknownNames = o.unknownNames := by
  have hremoved : (o.own.remove name.label).names.filter isUnknown =
      o.own.names.filter isUnknown := by
    rw [Entries.names, Entries.names, List.filter_map, List.filter_map, Entries.remove,
      List.filter_filter]
    refine congrArg _ (List.filter_congr fun e _ => Bool.and_eq_left_iff_imp.mpr fun h => ?_)
    exact bne_iff_ne.mpr (ne_label_of_isUnknown h name)
  have hown : (o.replace name s).own.names.filter isUnknown = o.own.names.filter isUnknown := by
    rw [← hremoved, replace, Entries.names, List.map_append, List.filter_append]
    simp [Entries.names, isUnknown_label]
  rw [unknownNames_eq, unknownNames_eq, names, names, List.filter_append, List.filter_append, hown,
    List.filter_filter, List.filter_filter]
  refine congrArg _ (List.filter_congr fun other _ => ?_)
  cases hunknown : isUnknown other with
  | false => rfl
  | true =>
    simp [replace, Entries.names, Entries.remove, ne_label_of_isUnknown hunknown name]

/-- One setting in order may take the place of another without effect on the issues. -/
theorem issues_replace_eq (hs : name.issues s = [])
    (hown : ∀ s', o.setting? name.label = some s' → name.issues s' = []) :
    (o.replace name s).issues = o.issues := by
  unfold issues
  rw [unknownNames_replace]
  refine congrArg (OptionName.all.flatMap · ++ _) (funext fun other => ?_)
  by_cases heq : other = name
  · rw [heq, setting?_replace_self]
    cases hsetting : o.setting? name.label with
    | none => exact hs
    | some s' => exact hs.trans (hown s' hsetting).symm
  · rw [setting?_replace_of_ne heq]

/-- A setting in order may take the place of any other of its name. -/
theorem issues_replace (h : o.issues = []) (hs : name.issues s = []) :
    (o.replace name s).issues = [] := by
  rw [issues_replace_eq hs fun s' hs' => ?_, h]
  have hname : name ∈ OptionName.all := by cases name <;> decide
  have hnone := List.flatMap_eq_nil_iff.mp (List.append_eq_nil_iff.mp h).1 name hname
  rwa [hs'] at hnone

end Options

namespace OptionsArgument
variable {o : Options}

theorem check_settings (hkind : (settings o).kindName = "object") (hissues : o.issues = []) :
    (settings o).check = .ok o := by
  have hoptions : (settings o).options? = some o := by simp [options?, hkind]
  have hnone : (settings o).issues = [] := by rw [issues, hoptions, ← hissues]
  rw [check, hoptions, hnone]
  intro habsent
  cases habsent

/-- The settings of a record form a record themselves. -/
theorem kindName_of_options? {a : OptionsArgument} (h : a.options? = some o) :
    (settings o).kindName = "object" := by
  unfold options? at h
  split at h
  · cases h
  · next hkind =>
    split at h
    · cases h
      exact Decidable.of_not_not hkind
    · cases h
      rfl

/-- The settings that come out of a check form a record without issues, whatever was checked. -/
theorem inOrder_of_check {a : OptionsArgument} (h : a.check = .ok o) :
    (settings o).kindName = "object" ∧ o.issues = [] := by
  unfold check at h
  split at h
  · cases h
    exact ⟨rfl, Options.issues_empty⟩
  · split at h
    · next hoptions hissues =>
      cases h
      rw [issues, hoptions] at hissues
      exact ⟨kindName_of_options? hoptions, hissues⟩
    · cases h

theorem check_replace {a : OptionsArgument} {name : OptionName} {s : Setting}
    (h : a.check = .ok o) (hs : name.issues s = []) :
    (settings (o.replace name s)).check = .ok (o.replace name s) := by
  obtain ⟨hkind, hissues⟩ := inOrder_of_check h
  exact check_settings hkind (Options.issues_replace hissues hs)

end OptionsArgument

namespace Policies

/-- The same policies with a limit on pending work. -/
def limited (policies : Policies) (limit : Nat) : Policies :=
  { policies with limit := some limit }

theorem given?_replace_self {o : Options} {name : OptionName} {s : Setting} :
    given? (o.replace name s) name = (some s).filter fun s => !s.isMissing := by
  rw [given?, Options.setting?_replace_self]

theorem given?_replace_of_ne {o : Options} {name other : OptionName} {s : Setting}
    (h : other ≠ name) : given? (o.replace name s) other = given? o other := by
  rw [given?, given?, Options.setting?_replace_of_ne h]

theorem ofOptions_limitedTo {o : Options} {n : Number} {limit : Nat}
    (hn : n.toInt? = some (limit : Int)) (hpos : 0 < limit) :
    ofOptions (o.limitedTo n) = (ofOptions o).limited limit := by
  have hlimit : limitOf ((some (.value (.number n))).filter fun s => !s.isMissing) =
      some limit := by
    show limitOf (some (.value (.number n))) = some limit
    rw [limitOf, Option.bind_some, Setting.number?_of_toInt? hn, Option.bind_some, hn,
      Option.bind_some, Int.toNat_natCast, if_neg (Nat.pos_iff_ne_zero.mp hpos)]
  rw [Options.limitedTo, ofOptions, given?_replace_self,
    given?_replace_of_ne (by decide), given?_replace_of_ne (by decide),
    given?_replace_of_ne (by decide), given?_replace_of_ne (by decide),
    Options.setting?_replace_of_ne (by decide), hlimit]
  rfl

/-- A limit may be given along with all other options that are in order. -/
theorem resolve_limitedTo {a : OptionsArgument} {o : Options} {n : Number} {limit : Nat}
    (h : a.check = .ok o) (hn : n.toInt? = some (limit : Int)) (hpos : 0 < limit) :
    resolve (.settings (o.limitedTo n)) = .ok ((ofOptions o).limited limit) := by
  have hcheck := OptionsArgument.check_replace h (OptionName.issues_limit hn hpos)
  rw [resolve, Options.limitedTo, hcheck, ← ofOptions_limitedTo hn hpos]
  rfl

end Policies

end RowFilter
