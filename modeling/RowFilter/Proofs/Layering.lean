import RowFilter.Compiler
import RowFilter.Predicate.Meaning
import RowFilter.Proofs.Compiled
import RowFilter.Proofs.Limit

/-!
# Layered options

What the options of a call come to when they go over the defaults of a compiler. Every name has
its value from the call if the call says something under it, and from the defaults otherwise. A
name that no setting has is refused, and joining a base to what a document compiles to changes
nothing about the compile.

Two names are special. A base among the options of a call is refused by a compile, but the base
that is to be joined is written over it. And the name that puts a value behind the record is
never an entry, so that it is not refused; what stands behind the record counts for a compile,
and is left behind where a base is joined.
-/

namespace RowFilter

namespace Options

/-- The overrides that say something. -/
def said (overrides : Entries Setting) : Entries Setting := overrides.filter fun e => !e.2.isAbsent

/-- The options of a call, as entries over the entries of the defaults. -/
def overlay (defaults overrides : Entries Setting) : Entries Setting :=
  defaults.putAll (said overrides)

/-- A call says something under a name. -/
def Says (overrides : Entries Setting) (name : String) : Prop :=
  ∃ s, overrides.get? name = some s ∧ s.isAbsent = false

variable {o : Options} {defaults es : Entries Setting} {name : String}

theorem said_cons_of_isAbsent {e : String × Setting} (es : Entries Setting)
    (h : e.2.isAbsent = true) : said (e :: es) = said es :=
  List.filter_cons_of_neg (by simp [h])

theorem said_cons {e : String × Setting} (es : Entries Setting) (h : e.2.isAbsent = false) :
    said (e :: es) = e :: said es :=
  List.filter_cons_of_pos (by simp [h])

theorem names_said_sublist (es : Entries Setting) : (said es).names.Sublist es.names :=
  List.filter_sublist.map _

theorem get?_said (hnames : es.names.Nodup) (name : String) :
    (said es).get? name = (es.get? name).filter fun s => !s.isAbsent := by
  induction es with
  | nil => rfl
  | cons e es ih =>
    obtain ⟨he, hes⟩ := List.nodup_cons.mp hnames
    have hnone : (said es).get? e.1 = none :=
      (Entries.get?_eq_none_iff _ _).mpr fun hmem => he ((names_said_sublist es).subset hmem)
    cases habsent : e.2.isAbsent with
    | true =>
      rw [said_cons_of_isAbsent es habsent]
      by_cases hname : name = e.1
      · subst hname
        rw [hnone, Entries.get?_cons_self, Option.filter_some, habsent]
        rfl
      · rw [Entries.get?_cons_of_ne es hname, ih hes]
    | false =>
      rw [said_cons es habsent]
      by_cases hname : name = e.1
      · subst hname
        rw [Entries.get?_cons_self, Entries.get?_cons_self, Option.filter_some, habsent]
        rfl
      · rw [Entries.get?_cons_of_ne _ hname, Entries.get?_cons_of_ne es hname, ih hes]

/-- A name has its value from the call, or else from the defaults. -/
theorem get?_overlay (hnames : es.names.Nodup) (name : String) :
    (overlay defaults es).get? name =
      ((es.get? name).filter fun s => !s.isAbsent).or (defaults.get? name) := by
  rw [overlay, Entries.get?_putAll _ ((names_said_sublist es).nodup hnames), get?_said hnames]

theorem says_iff (hnames : es.names.Nodup) : Says es name ↔ name ∈ (said es).names := by
  rw [← Decidable.not_not (p := name ∈ _), ← Entries.get?_eq_none_iff, get?_said hnames, Says]
  cases es.get? name with
  | none => simp
  | some s => cases hs : s.isAbsent <;> simp [hs]

/-- An entry that says nothing may as well not be there. -/
theorem said_remove (hnames : es.names.Nodup) (h : ¬Says es name) :
    said (es.remove name) = said es := by
  have hcomm : said (es.remove name) = (said es).remove name := by
    rw [said, said, Entries.remove, Entries.remove, List.filter_filter, List.filter_filter]
    congr 1
    funext e
    exact Bool.and_comm _ _
  rw [hcomm, Entries.remove_of_not_mem (mt (says_iff hnames).mpr h)]

theorem behind_of_not_says (h : ¬Says es name) : (es.get? name).bind Setting.behind? = none := by
  cases hs : es.get? name with
  | none => rfl
  | some s =>
    cases s with
    | value v =>
      cases v with
      | absent => rfl
      | _ => exact absurd ⟨_, hs, rfl⟩ h
    | _ => exact absurd ⟨_, hs, rfl⟩ h

/-! ## Merging -/

theorem override_behind (h : o.own.get? behindName = none) (s : Setting) :
    o.override behindName s = { o with behind := s.behind?.getD o.behind } := by
  unfold override
  split
  · next habsent =>
    cases s with
    | value v => cases v <;> first | rfl | cases habsent
    | _ => cases habsent
  · rw [if_pos ⟨rfl, by rw [h]; rfl⟩]
    split
    · next hbehind => rw [hbehind]; rfl
    · next hbehind => rw [hbehind]; rfl

theorem override_of_ne (hname : name ≠ behindName) (s : Setting) :
    o.override name s =
      { o with own := if s.isAbsent then o.own else o.own.put name s } := by
  unfold override
  split
  · rfl
  · rw [if_neg fun h => hname h.1]

theorem foldl_override (hnames : es.names.Nodup) (ho : o.own.get? behindName = none) :
    es.foldl (fun o e => o.override e.1 e.2) o =
      ⟨overlay o.own (es.remove behindName),
        ((es.get? behindName).bind Setting.behind?).getD o.behind⟩ := by
  induction es generalizing o with
  | nil => rfl
  | cons e es ih =>
    obtain ⟨he, hes⟩ := List.nodup_cons.mp hnames
    rw [List.foldl_cons]
    by_cases hname : e.1 = behindName
    · have hget : Entries.get? (e :: es) behindName = some e.2 := hname ▸ Entries.get?_cons_self e es
      have hrest : Entries.get? es behindName = none := by
        rw [Entries.get?_eq_none_iff, ← hname]
        exact he
      have hfold := ih (o := ⟨o.own, e.2.behind?.getD o.behind⟩) hes ho
      rw [hname, override_behind ho, hfold, Entries.remove_cons_of_eq es hname, hget, hrest]
      rfl
    · rw [override_of_ne hname, Entries.remove_cons_of_ne es hname,
        Entries.get?_cons_of_ne es (Ne.symm hname)]
      cases habsent : e.2.isAbsent with
      | true =>
        rw [if_pos rfl, ih hes ho, overlay, overlay, said_cons_of_isAbsent _ habsent]
      | false =>
        have hput : (o.own.put e.1 e.2).get? behindName = none := by
          rw [Entries.get?_put, if_neg (Ne.symm hname), ho]
        rw [if_neg Bool.false_ne_true, ih hes hput, overlay, overlay, said_cons _ habsent]
        rfl

/-- Options over defaults: entries of their own, and whatever the special name puts behind. -/
def layered (defaults es : Entries Setting) : Options :=
  ⟨overlay defaults (es.remove behindName), ((es.get? behindName).bind Setting.behind?).join⟩

theorem merge_eq_layered (hnames : es.names.Nodup) (hdefaults : defaults.get? behindName = none) :
    merge defaults es = layered defaults es := by
  rw [merge, foldl_override hnames hdefaults, layered]
  cases (es.get? behindName).bind Setting.behind? <;> rfl

theorem layered_eq_overlay (hnames : es.names.Nodup) (h : ¬Says es behindName) :
    layered defaults es = .ofEntries (overlay defaults es) := by
  rw [layered, overlay, said_remove hnames h, behind_of_not_says h]
  rfl

/-! ## Checking -/

/-- The names that settings have. -/
def labels : List String := OptionName.all.map OptionName.label

theorem mem_labels_of_issues (h : o.issues = []) (hname : name ∈ o.own.names) : name ∈ labels := by
  have hknown := List.filter_eq_nil_iff.mp (unknownNames_of_issues h) name
    (List.mem_append_left _ hname)
  simpa [labels] using hknown

theorem mem_unknownNames (hname : name ∈ o.own.names) (hlabel : name ∉ labels) :
    name ∈ o.unknownNames :=
  List.mem_filter.mpr ⟨List.mem_append_left _ hname, by simpa [labels] using hlabel⟩

end Options

namespace OptionsArgument
variable {o o' : Options} {name : String}

/-- Settings come out of a check as they are. -/
theorem eq_of_check_settings (h : (settings o).check = .ok o') : o' = o := by
  unfold check at h
  split at h
  · next habsent => cases habsent
  · split at h
    · next hoptions _ =>
      cases h
      unfold options? at hoptions
      split at hoptions
      · cases hoptions
      · exact (Option.some.inj hoptions).symm
    · cases h

/-- A name that no setting has is refused, and named in the complaint. -/
theorem check_of_unknown (hkind : (settings o).kindName = "object")
    (hname : name ∈ o.unknownNames) : ∃ texts, (settings o).check = .error (.invalidOptions texts) ∧
      ∀ issue ∈ Issue.unrecognized [] o.unknownNames, issue.text ∈ texts := by
  have hoptions : (settings o).options? = some o := by simp [options?, hkind]
  have hissues : (settings o).issues = o.issues := by rw [issues, hoptions]
  refine ⟨o.issues.map Issue.text, ?_, fun issue hissue =>
    List.mem_map_of_mem (List.mem_append_right _ hissue)⟩
  have hne : o.issues ≠ [] := fun hnone =>
    List.ne_nil_of_mem hname (Options.unknownNames_of_issues hnone)
  unfold check
  split
  · next habsent => cases habsent
  · rw [hoptions, hissues]
    split
    · next hnone => exact absurd hnone hne
    · rfl

end OptionsArgument

/-! ## Compilers -/

theorem Outcome.andThen_ok {α β : Type} (o : Outcome α) (f : α → β) :
    (o.andThen fun a => .ok (f a)) = o.map f := by
  obtain ⟨events, sink, failure | a⟩ := o <;> rfl

/-- A base and a compiled predicate are joined by conjunction, and one that is not there asks for
nothing. -/
theorem joinBase_holds_iff {Row : Type} {I : Interpretation Row} {row : Row}
    {base compiled : Option Predicate} : (joinBase base compiled).Holds I row ↔
      (∀ p ∈ base, p.Holds I row) ∧ ∀ p ∈ compiled, p.Holds I row := by
  have halone : (compiled.getD .true).Holds I row ↔ ∀ p ∈ compiled, p.Holds I row := by
    cases compiled with
    | none => simp [Predicate.holds_true]
    | some p => simp
  unfold joinBase
  cases base with
  | none => simpa using halone
  | some q =>
    rw [Option.filter_some]
    cases htrue : q.isTrue with
    | true =>
      have hq : q.Holds I row := by
        unfold Predicate.isTrue at htrue
        split at htrue
        · exact Predicate.holds_true
        · cases htrue
      simpa [hq] using halone
    | false =>
      cases compiled with
      | none => simp
      | some p => simp [Predicate.holds_conjunction_iff]

namespace Compiler
open Options

variable {schema : Schema} {model : String} {config overrides : OptionsArgument} {c : Compiler}
  {es : Entries Setting} {document : Value} {base : Setting} {b : Option Predicate}

/-- The defaults of a compiler were checked when it was made. -/
theorem exists_policies_of_make (h : make schema model config = .ok c) :
    ∃ policies, Policies.resolve (.settings (.ofEntries c.defaults)) = .ok policies := by
  have hbound (entries : Entries Setting)
      (h : (do
        let _ ← Policies.resolve (.settings (.ofEntries (entries.remove modelName)))
        return (⟨schema, model, entries.remove modelName⟩ : Compiler)) = .ok c) :
      ∃ policies, Policies.resolve (.settings (.ofEntries c.defaults)) = .ok policies := by
    obtain ⟨policies, hpolicies, h⟩ := ok_of_bind h
    cases h
    exact ⟨policies, hpolicies⟩
  unfold make at h
  dsimp only at h
  split at h
  · exact hbound [] h
  · obtain ⟨entries, _, h⟩ := ok_of_bind h
    exact hbound entries h

/-- So they have known names only. -/
theorem mem_labels_of_make (h : make schema model config = .ok c) :
    ∀ name ∈ c.defaults.names, name ∈ labels := by
  obtain ⟨policies, hpolicies⟩ := exists_policies_of_make h
  unfold Policies.resolve at hpolicies
  cases hcheck : OptionsArgument.check (.settings (.ofEntries c.defaults)) with
  | error fault =>
    rw [hcheck] at hpolicies
    cases hpolicies
  | ok o =>
    have hissues := (OptionsArgument.inOrder_of_check hcheck).2
    rw [OptionsArgument.eq_of_check_settings hcheck] at hissues
    exact fun name hname => mem_labels_of_issues hissues hname

theorem get?_defaults_of_make (h : make schema model config = .ok c) {name : String}
    (hname : name ∉ labels) : c.defaults.get? name = none :=
  (Entries.get?_eq_none_iff _ _).mpr fun hmem => hname (mem_labels_of_make h name hmem)

/-- The defaults are in the order of a record, since no setting is named like a list index. -/
theorem inOrder_defaults (h : make schema model config = .ok c) :
    Entries.inOrder c.defaults = c.defaults := by
  have hlabels : ∀ name ∈ labels, Entries.index? name = none := by decide +kernel
  exact Entries.inOrder_of_unindexed fun e he =>
    hlabels e.1 (mem_labels_of_make h e.1 (List.mem_map_of_mem he))

theorem behindName_not_mem_labels : behindName ∉ labels := by decide +kernel

theorem baseName_not_mem_labels : baseName ∉ labels := by decide +kernel

theorem compile_eq_layered (h : make schema model config = .ok c)
    (hentries : overrides.entries = .ok es) (hnames : es.names.Nodup) :
    c.compile document overrides =
      RowFilter.compile c.schema c.model document (.settings (layered c.defaults es)) := by
  unfold Compiler.compile optionsFor
  rw [hentries, ← merge_eq_layered hnames (get?_defaults_of_make h behindName_not_mem_labels)]
  rfl

/-- Where a base is joined, what stands behind the options is left behind, and the base is
written over a base among the options. -/
theorem apply_eq_layered (h : make schema model config = .ok c)
    (hentries : overrides.entries = .ok es) (hnames : es.names.Nodup)
    (hbase : baseOf (some base) = .ok b) :
    c.apply document base overrides =
      (RowFilter.compile c.schema c.model document
        (.settings (.ofEntries ((layered c.defaults es).own.remove baseName)))).map (joinBase b) := by
  have horder : Entries.inOrder (layered c.defaults es).own = (layered c.defaults es).own :=
    Entries.inOrder_putAll (inOrder_defaults h) _
  have hindex : Entries.index? baseName = none := by decide +kernel
  unfold Compiler.apply optionsFor
  rw [hentries, ← merge_eq_layered hnames (get?_defaults_of_make h behindName_not_mem_labels)] at *
  show RowFilter.apply c.schema c.model document
    (.settings (.ofEntries ((merge c.defaults es).own.put baseName base))) = _
  unfold RowFilter.apply
  dsimp only [OptionsArgument.entries, ofEntries]
  rw [Entries.get?_put, if_pos rfl, Entries.remove_put horder hindex, hbase]
  exact Outcome.andThen_ok _ _

theorem compile_eq_overlay (h : make schema model config = .ok c)
    (hentries : overrides.entries = .ok es) (hnames : es.names.Nodup)
    (hbehind : ¬Says es behindName) (document : Value) :
    c.compile document overrides = RowFilter.compile c.schema c.model document
      (.settings (.ofEntries (overlay c.defaults es))) := by
  rw [compile_eq_layered h hentries hnames, layered_eq_overlay hnames hbehind]

theorem compile_of_unknown (h : make schema model config = .ok c)
    (hentries : overrides.entries = .ok es) (hnames : es.names.Nodup)
    (hbehind : ¬Says es behindName) {name : String} (hsome : Says es name)
    (hlabel : name ∉ labels) : ∃ names texts, name ∈ names ∧
      (∀ issue ∈ Issue.unrecognized [] names, issue.text ∈ texts) ∧
      ∀ document, c.compile document overrides = .failed (.invalidOptions texts) := by
  obtain ⟨s, hs, hsaid⟩ := hsome
  have hget : (overlay c.defaults es).get? name = some s := by
    rw [get?_overlay hnames, hs, Option.filter_some, hsaid]
    rfl
  have hmem : name ∈ (overlay c.defaults es).names :=
    List.mem_map_of_mem (Entries.mem_of_get? hget)
  have hunknown : name ∈ (Options.ofEntries (overlay c.defaults es)).unknownNames :=
    mem_unknownNames hmem hlabel
  obtain ⟨texts, hcheck, htexts⟩ := OptionsArgument.check_of_unknown rfl hunknown
  refine ⟨_, texts, hunknown, htexts, fun document => ?_⟩
  rw [compile_eq_overlay h hentries hnames hbehind, RowFilter.compile, Policies.resolve, hcheck]
  rfl

theorem apply_eq_map (h : make schema model config = .ok c)
    (hentries : overrides.entries = .ok es) (hnames : es.names.Nodup)
    (hbehind : ¬Says es behindName) (hnobase : ¬Says es baseName)
    (hbase : baseOf (some base) = .ok b) :
    c.apply document base overrides = (c.compile document overrides).map (joinBase b) := by
  have hsaid : (said es).get? baseName = none :=
    (Entries.get?_eq_none_iff _ _).mpr (mt (says_iff hnames).mpr hnobase)
  have hnone : (overlay c.defaults es).get? baseName = none := by
    rw [get?_overlay hnames, ← get?_said hnames, hsaid,
      get?_defaults_of_make h baseName_not_mem_labels]
    rfl
  have hremove : (overlay c.defaults es).remove baseName = overlay c.defaults es :=
    Entries.remove_of_not_mem ((Entries.get?_eq_none_iff _ _).mp hnone)
  rw [apply_eq_layered h hentries hnames hbase, compile_eq_overlay h hentries hnames hbehind,
    layered_eq_overlay hnames hbehind]
  show (RowFilter.compile _ _ _ (.settings (.ofEntries
    ((overlay c.defaults es).remove baseName)))).map _ = _
  rw [hremove]

end Compiler

/-- What a compiler makes of the options of a call. -/
structure Layers (c : Compiler) (overrides : OptionsArgument) (es : Entries Setting) : Prop where
  /-- Every name has its value from the call if the call says something under it, and from the
  defaults otherwise. -/
  setting : ∀ name, (Options.overlay c.defaults es).get? name =
    ((es.get? name).filter fun s => !s.isAbsent).or (c.defaults.get? name)
  /-- A compile goes by these options. -/
  compile : ¬Options.Says es Options.behindName → ∀ document, c.compile document overrides =
    RowFilter.compile c.schema c.model document
      (.settings (.ofEntries (Options.overlay c.defaults es)))
  /-- A name that no setting has is refused, and named in the complaint. -/
  unknown : ¬Options.Says es Options.behindName → ∀ name, Options.Says es name →
    name ∉ Options.labels → ∃ names texts, name ∈ names ∧
      (∀ issue ∈ Issue.unrecognized [] names, issue.text ∈ texts) ∧
      ∀ document, c.compile document overrides = .failed (.invalidOptions texts)
  /-- A base is joined to what the compile comes to. -/
  apply : ¬Options.Says es Options.behindName → ¬Options.Says es baseName →
    ∀ document base b, baseOf (some base) = .ok b →
      c.apply document base overrides = (c.compile document overrides).map (joinBase b)
  /-- A row satisfies what was joined if it satisfies both. -/
  joined : ∀ (Row : Type) (I : Interpretation Row) (row : Row) (b compiled : Option Predicate),
    (joinBase b compiled).Holds I row ↔
      (∀ p ∈ b, p.Holds I row) ∧ ∀ p ∈ compiled, p.Holds I row
  /-- A value put behind the options counts for a compile. -/
  behind : ∀ document, c.compile document overrides =
    RowFilter.compile c.schema c.model document (.settings (Options.layered c.defaults es))
  /-- Where a base is joined, neither that value counts nor a base among the options. -/
  dropped : ∀ document base b, baseOf (some base) = .ok b → c.apply document base overrides =
    (RowFilter.compile c.schema c.model document (.settings (.ofEntries
      ((Options.layered c.defaults es).own.remove baseName)))).map (joinBase b)

variable {schema : Schema} {model : String} {config overrides : OptionsArgument} {c : Compiler}
  {es : Entries Setting}

/-- The options of a call go over the defaults of a compiler name by name, and joining a base does
not change what a document compiles to, unless the call says something under one of the two
special names. -/
theorem compiler_layers_options (h : Compiler.make schema model config = .ok c)
    (hentries : overrides.entries = .ok es) (hnames : es.names.Nodup) :
    Layers c overrides es where
  setting := Options.get?_overlay hnames
  compile := Compiler.compile_eq_overlay h hentries hnames
  unknown hbehind _ := Compiler.compile_of_unknown h hentries hnames hbehind
  apply hbehind hnobase _ _ _ := Compiler.apply_eq_map h hentries hnames hbehind hnobase
  joined _ _ _ _ _ := joinBase_holds_iff
  behind _ := Compiler.compile_eq_layered h hentries hnames
  dropped _ _ _ := Compiler.apply_eq_layered h hentries hnames

namespace Sample

/-- Albums, with a list of granted paths. -/
def titles : Compiler :=
  ⟨catalog.schema, "Album", [("whitelist", .value (.list [.text "title"]))]⟩

def titlesConfig : OptionsArgument := .value (.ofEntries [("whitelist", .list [.text "title"])])

/-- Says something under one name, and nothing under another. -/
def narrowing : Entries Setting :=
  [("complexityLimit", .value (.number (.ofNat 3))), ("whitelist", .value .absent)]

theorem compiler_layers_options_narrowing :
    Compiler.make catalog.schema "Album" titlesConfig = .ok titles ∧
      OptionsArgument.entries (.settings (.ofEntries narrowing)) = .ok narrowing ∧
      narrowing.names.Nodup ∧ Layers titles (.settings (.ofEntries narrowing)) narrowing := by
  have hmake : Compiler.make catalog.schema "Album" titlesConfig = .ok titles := rfl
  have hnames : narrowing.names.Nodup := by decide +kernel
  exact ⟨hmake, rfl, hnames, compiler_layers_options hmake rfl hnames⟩

def titleDocument : Value := .ofEntries [("title", .text "A")]

/-- A base among the options of a call is refused by a compile, and dropped without a word where a
base is joined. And the name that puts a value behind the options is refused by neither. -/
theorem unknown_options_taken :
    Compiler.make catalog.schema "Album" titlesConfig = .ok titles ∧
      (titles.compile titleDocument (.value (.ofEntries [("base", .number (.ofNat 1))]))).result =
        .error (.of .plain (.invalidOptions
          ["(root): Unrecognized key(s) in object: 'base'"])) ∧
      (∃ p, (titles.apply titleDocument (.value .null)
        (.value (.ofEntries [("base", .number (.ofNat 1))]))).result = .ok p) ∧
      (∃ p, (titles.compile titleDocument
        (.value (.ofEntries [("__proto__", .ofEntries [])]))).result = .ok p) ∧
      ∃ p, (titles.apply titleDocument (.value .null)
        (.value (.ofEntries [("__proto__", .ofEntries [])]))).result = .ok p :=
  ⟨rfl, rfl, ⟨_, rfl⟩, ⟨_, rfl⟩, ⟨_, rfl⟩⟩

end Sample
end RowFilter
