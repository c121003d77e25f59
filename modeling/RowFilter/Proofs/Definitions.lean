import RowFilter.Proofs.Resolution

/-!
# What a checked definition promises

A definition without issues gives every field a name that is an identifier and that paths accept.
In particular the name is one segment of a path, and none that a path would take for a list index.
-/

namespace RowFilter.Definition

/-- A name that a definition may give: an identifier that field paths accept. -/
structure IsName (name : String) : Prop where
  isIdentifier : isIdentifier name.toList = true
  problem? : (Path.ofText name).problem? = none

theorem nameIssues_eq_nil {path : Path} {name : String} (h : nameIssues path name = []) :
    IsName name := by
  unfold nameIssues at h
  obtain ⟨hidentifier, hreserved⟩ := List.append_eq_nil_iff.mp h
  constructor
  · by_cases hid : isIdentifier name.toList = true
    · exact hid
    · rw [if_neg hid] at hidentifier
      cases hidentifier
  · cases hproblem : (Path.ofText name).problem? with
    | none => rfl
    | some problem =>
      rw [hproblem] at hreserved
      cases hreserved

/-- In a record without issues no name has issues, and neither has anything named. -/
theorem recordIssues_eq_nil {path : Path} {v : Value} {each : Path → Value → List Issue}
    (h : recordIssues path v each = []) : ∃ entries, v.entries? = some entries ∧
      ∀ e ∈ entries, IsName e.1 ∧ each (path ++ [e.1]) e.2 = [] := by
  unfold recordIssues at h
  split at h
  · cases h
  · next entries hentries =>
    refine ⟨entries, hentries, fun e he => ?_⟩
    obtain ⟨hname, heach⟩ := List.append_eq_nil_iff.mp (List.flatMap_eq_nil_iff.mp h e he)
    exact ⟨nameIssues_eq_nil hname, heach⟩

theorem isName_of_mem_fieldDeclarations {path : Path} {v : Value}
    (h : modelIssues path v = []) {d : String × Declaration} (hd : d ∈ fieldDeclarations v) :
    IsName d.1 := by
  unfold modelIssues at h
  split at h
  · cases h
  · next entries hentries =>
    obtain ⟨hfields, _⟩ := List.append_eq_nil_iff.mp h
    obtain ⟨fields, hrecord, hnames⟩ := recordIssues_eq_nil hfields
    have hmember : (v.member? "fields").bind Value.entries? = some fields := by
      rw [Value.member?, hentries, Option.bind_some]
      cases hget : entries.get? "fields" with
      | none =>
        rw [hget] at hrecord
        cases hrecord
      | some value =>
        rw [hget] at hrecord
        exact hrecord
    unfold fieldDeclarations at hd
    rw [hmember] at hd
    obtain ⟨e, he, hdeclared⟩ := List.mem_filterMap.mp hd
    obtain ⟨declaration, _, rfl⟩ := Option.map_eq_some_iff.mp hdeclared
    exact (hnames e he).1

theorem define_eq_ok {definition : Value} {catalog : Catalog}
    (h : define definition = .ok catalog) :
    issues definition = [] ∧ catalog = .declare (declarations definition) := by
  unfold define at h
  dsimp only at h
  split at h
  · next hissues _ => exact ⟨hissues, (Except.ok.inj h).symm⟩
  · cases h
  · cases h

theorem mem_names_of_isSome {α : Type} {es : Entries α} {name : String}
    (h : (es.get? name).isSome) : name ∈ es.names := by
  by_cases hname : name ∈ es.names
  · exact hname
  · rw [(Entries.get?_eq_none_iff es name).mpr hname] at h
    cases h

/-- An identifier does not begin with a digit. -/
theorem isIndex_of_isIdentifier {name : String} (h : isIdentifier name.toList = true) :
    Path.isIndex name = false := by
  unfold isIdentifier at h
  split at h
  · cases h
  · next c rest hname =>
    rw [Bool.and_eq_true] at h
    have hdigit : Text.isDigit c = false := by
      have hstart := h.1
      simp only [isIdentifierStart, Bool.or_eq_true, Bool.and_eq_true, decide_eq_true_eq] at hstart
      simp only [Text.isDigit, Bool.and_eq_false_iff, decide_eq_false_iff_not, Char.not_le]
      refine .inr ?_
      rcases hstart with (⟨hlow, _⟩ | ⟨hlow, _⟩) | rfl
      · exact Std.lt_of_lt_of_le (by decide) hlow
      · exact Std.lt_of_lt_of_le (by decide) hlow
      · decide
    simp [Path.isIndex, hname, hdigit]

/-- There is no point in an identifier. -/
theorem IsName.isPlain {name : String} (h : IsName name) : Path.IsPlain name := by
  have hchar {c : Char} (hc : (isIdentifierStart c || Text.isDigit c) = true) : c ≠ '.' := by
    rintro rfl
    revert hc
    decide
  have hidentifier := h.isIdentifier
  unfold Definition.isIdentifier at hidentifier
  unfold Path.IsPlain
  split at hidentifier
  · next hname =>
    rw [hname]
    exact List.not_mem_nil
  · next c rest hname =>
    obtain ⟨hstart, hrest⟩ := Bool.and_eq_true_iff.mp hidentifier
    rw [hname]
    intro hmem
    obtain rfl | hmem := List.mem_cons.mp hmem
    · exact hchar (by rw [hstart, Bool.true_or]) rfl
    · exact hchar (List.all_eq_true.mp hrest _ hmem) rfl

theorem IsName.isSafe {name : String} (h : IsName name) : Path.IsSafe name := by
  refine (Path.problem?_eq_none_iff _).mp h.problem? name ?_
  rw [Path.ofText_of_isPlain h.isPlain]
  exact List.mem_singleton_self name

/-- The fields that a definition gives a model have such names. -/
theorem isName_of_field? {definition : Value} {catalog : Catalog}
    (h : define definition = .ok catalog) {model name : String}
    (hfield : (catalog.schema.field? model name).isSome) : IsName name := by
  obtain ⟨hissues, rfl⟩ := define_eq_ok h
  obtain ⟨entries, hentries, hmodels⟩ := recordIssues_eq_nil hissues
  obtain ⟨field, hfield⟩ := Option.isSome_iff_exists.mp hfield
  obtain ⟨m, hm, hfield⟩ := Option.bind_eq_some_iff.mp hfield
  obtain ⟨d, hd, rfl⟩ := List.mem_map.mp (List.mem_of_find?_eq_some hm)
  unfold declarations at hd
  rw [hentries, Option.getD_some] at hd
  obtain ⟨e, he, rfl⟩ := List.mem_map.mp hd
  have hname : name ∈ (Model.declare e.1 (fieldDeclarations e.2)).fields.names := by
    refine mem_names_of_isSome ?_
    exact Option.isSome_iff_exists.mpr ⟨field, hfield⟩
  obtain ⟨_, hmem, rfl⟩ := List.mem_map.mp hname
  obtain ⟨declared, hdeclared, rfl⟩ := List.mem_map.mp hmem
  exact isName_of_mem_fieldDeclarations (hmodels e he).2 hdeclared

/-- No field of a defined schema has a name that looks like a list index. -/
theorem namesNoIndex_of_define {definition : Value} {catalog : Catalog}
    (h : define definition = .ok catalog) : catalog.schema.NamesNoIndex :=
  fun _ _ hfield => isIndex_of_isIdentifier (isName_of_field? h hfield).isIdentifier

/-- A field of a defined schema is what its declaration makes of the names of model and field. -/
theorem exists_declaration_of_field? {definition : Value} {catalog : Catalog}
    (h : define definition = .ok catalog) {model name : String} {f : Field}
    (hfield : catalog.schema.field? model name = some f) :
    ∃ d : Declaration, d.field model name = f := by
  obtain ⟨_, rfl⟩ := define_eq_ok h
  obtain ⟨m, hm, hfield⟩ := Option.bind_eq_some_iff.mp hfield
  have hname : m.name = model := by simpa using List.find?_some hm
  obtain ⟨declared, _, rfl⟩ := List.mem_map.mp (List.mem_of_find?_eq_some hm)
  obtain ⟨d, _, heq⟩ := List.mem_map.mp (Entries.mem_of_get? hfield)
  cases heq
  exact ⟨d.2, hname ▸ rfl⟩

/-- A relation of a defined schema is called by the name under which it is found. -/
theorem name_of_field?_relation {definition : Value} {catalog : Catalog}
    (h : define definition = .ok catalog) {model name : String} {relation : RelationField}
    (hfield : catalog.schema.field? model name = some (.relation relation)) :
    relation.name = name := by
  obtain ⟨d, hd⟩ := exists_declaration_of_field? h hfield
  cases d <;> cases hd
  rfl

end RowFilter.Definition
