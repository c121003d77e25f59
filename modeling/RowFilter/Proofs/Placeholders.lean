import RowFilter.Proofs.Agreement
import RowFilter.Proofs.Compiled
import RowFilter.Proofs.OpenKeys

/-!
# Paths without their list indices

The host is asked about a path without its list indices, and predicates name fields by it. What
is left out is decided by spelling alone, while a walk takes a list index for one only behind a
relation and looks everything else up. The two agree but at the first segment: a root model
with a field of that name is left by it, and the path without it is another one.
-/

namespace RowFilter

namespace Schema
variable {s : Schema} {model root : String} {current : Option Field} {p q : Path}
  {steps : List Step}

/-- A path of plain segments may be joined and cut again before it is resolved. -/
theorem resolve_ofText_text (hplain : ∀ segment ∈ p, Path.IsPlain segment) :
    s.resolve root (.ofText p.text) = s.resolve root p := by
  by_cases hp : p = []
  · subst hp
    rfl
  · rw [Path.ofText_text hp hplain]

/-- What is left of a path without its list indices leads to the same steps, just if its first
segment does not look like a list index. -/
theorem resolve_strip_iff (h : s.resolve root p = .ok steps) :
    s.resolve root p.strip = .ok (steps.filter (·.field.isSome)) ↔
      ∀ name ∈ p.head?, Path.isIndex name = false := by
  constructor
  · intro hstrip name hname
    cases hroot : p.isRoot with
    | true => exact Path.isIndex_of_isRoot hroot hname
    | false =>
      obtain ⟨rest, rfl⟩ := List.head?_eq_some_iff.mp hname
      obtain ⟨tail, owner, _, ⟨_, hcurrent, _⟩ | ⟨field, _, _, rfl, _⟩⟩ :=
        walk_cons_eq_ok_iff.mp (walk_of_resolve h hroot)
      · cases hcurrent
      · -- the first step finds a field, so that its name is still there
        rw [List.filter_cons_of_pos rfl] at hstrip
        have hstripped := isRoot_of_ne_nil hstrip (List.cons_ne_nil _ _)
        have hmem : name ∈ Path.strip (name :: rest) := by
          rw [← names_of_walk (walk_of_resolve hstrip hstripped)]
          simp
        simpa [Path.strip] using (List.mem_filter.mp hmem).2
  · intro hhead
    exact resolve_strip hhead h

/-- Where the root model has no field whose name looks like a list index, no path that resolves
begins with one. -/
theorem IndexFree.head_of_resolve (hfree : s.IndexFree root) (h : s.resolve root p = .ok steps) :
    ∀ name ∈ p.head?, Path.isIndex name = false := by
  intro name hname
  cases hroot : p.isRoot with
  | true => exact Path.isIndex_of_isRoot hroot hname
  | false =>
    have hfield := isSome_field?_of_resolve hroot h hname
    cases hindex : Path.isIndex name with
    | false => rfl
    | true =>
      rw [hfree name hindex] at hfield
      cases hfield

/-- Behind a beginning of a path that resolves, something is left without list indices if anything
is left at all. -/
theorem strip_ne_nil_of_resolve (hnames : s.NamesNoIndex) (hroot : Path.isRoot (p ++ q) = false)
    (h : s.resolve root (p ++ q) = .ok steps) (hq : q ≠ []) : Path.strip q ≠ [] := by
  obtain ⟨f, hleaf⟩ := exists_leaf_of_resolve h hroot
  have hstrip := resolve_strip ((hnames.indexFree root).head_of_resolve h) h
  obtain ⟨before, step, rfl, hfound⟩ := leaf?_eq_some hleaf
  have hlast := names_of_walk (walk_of_resolve h hroot)
  have hmem : step.name ∈ Path.strip (p ++ q) := by
    have hleaf := leaf?_filter hleaf
    have hrootStrip := isRoot_of_leaf? hstrip hleaf
    rw [← names_of_walk (walk_of_resolve hstrip hrootStrip)]
    exact List.mem_map_of_mem (List.mem_filter.mpr ⟨by simp, by rw [hfound]; rfl⟩)
  have hindex : Path.isIndex step.name = false := by
    simpa using (List.mem_filter.mp hmem).2
  obtain ⟨front, name, rfl⟩ : ∃ front name, q = front ++ [name] :=
    ⟨q.dropLast, q.getLast hq, (List.dropLast_concat_getLast hq).symm⟩
  rw [List.map_append, ← List.append_assoc] at hlast
  have hname : [step.name] = [name] := (List.append_inj' hlast rfl).2
  cases hname
  rw [Path.strip_append]
  simp [Path.strip, hindex]

/-- As many steps find a field up to a place as there are names up to there. -/
theorem length_filter_take (hnames : s.NamesNoIndex) (hroot : p.isRoot = false)
    (h : s.resolve root p = .ok steps) (n : Nat) :
    ((steps.take n).filter (·.field.isSome)).length = (Path.strip (p.take n)).length := by
  have hhead := (hnames.indexFree root).head_of_resolve h
  have htake : ∀ name ∈ (p.take n).head?, Path.isIndex name = false := by
    intro name hname
    cases n with
    | zero => cases hname
    | succ n =>
      refine hhead name ?_
      cases p with
      | nil => cases hname
      | cons first p => exact hname
  exact length_of_walk (walk_strip (fun _ => htake) (walk_take (walk_of_resolve h hroot) n))

/-- Where a path is split at a crossing, what stands before it and after it without list indices
is what the path without list indices is split into at the crossing there. -/
theorem exists_split_strip (hnames : s.NamesNoIndex) {inner : Path} {key : Path} {next : Nat}
    (hroot : Path.isRoot (inner ++ key) = false) (h : s.resolve root (inner ++ key) = .ok steps)
    (hnext : (crossings steps).find? (inner.length ≤ ·) = some next) :
    ∃ next', (crossings (steps.filter (·.field.isSome))).find? ((Path.strip inner).length ≤ ·) =
        some next' ∧
      (Path.strip key).take (next' - (Path.strip inner).length + 1) =
        Path.strip (key.take (next - inner.length + 1)) ∧
      (Path.strip key).drop (next' - (Path.strip inner).length + 1) =
        Path.strip (key.drop (next - inner.length + 1)) := by
  have hcount := length_filter_take hnames hroot h
  have hfound := find?_crossings_filter steps inner.length
  rw [hcount, List.take_left, hnext, Option.map_some] at hfound
  obtain ⟨step, hstep, hcrosses⟩ := mem_crossings.mp (List.mem_of_find?_eq_some hnext)
  have hle : inner.length ≤ next := by simpa using List.find?_some hnext
  have hle' := List.find?_some hfound
  -- the crossing finds a field, so that it is counted itself
  have hwidth : ((steps.take next).filter (·.field.isSome)).length + 1 =
      (Path.strip inner).length +
        (Path.strip (key.take (next - inner.length + 1))).length := by
    obtain ⟨r, hkept⟩ := Step.crosses_iff.mp hcrosses
    have hnextCount := hcount (next + 1)
    have htake : (inner ++ key).take (next + 1) = inner ++ key.take (next - inner.length + 1) := by
      rw [List.take_append, List.take_of_length_le (by omega)]
      congr 2
      omega
    rw [htake, Path.strip_append, List.length_append, List.take_add_one, hstep,
      List.filter_append, List.length_append] at hnextCount
    rw [← hnextCount]
    simp [hkept]
  have hkey : Path.strip key = Path.strip (key.take (next - inner.length + 1)) ++
      Path.strip (key.drop (next - inner.length + 1)) := by
    rw [← Path.strip_append, List.take_append_drop]
  have hplace : ((steps.take next).filter (·.field.isSome)).length - (Path.strip inner).length + 1 =
      (Path.strip (key.take (next - inner.length + 1))).length := by
    have : (Path.strip inner).length ≤ ((steps.take next).filter (·.field.isSome)).length := by
      simpa using hle'
    omega
  refine ⟨_, hfound, ?_, ?_⟩
  · rw [hplace, hkey, List.take_left]
  · rw [hplace, hkey, List.drop_left]

/-- A dotted path that resolves leads to the same fields without its list indices, just if its
first segment does not look like a list index. The field at its end is that of the whole path. -/
theorem resolve_stripped_text_iff (s : Schema) (root p : String) {steps : List Step}
    (h : s.resolve root (.ofText p) = .ok steps) :
    (s.resolve root (.ofText (Path.ofText p).strip.text) =
        .ok (steps.filter (·.field.isSome)) ↔
      ∀ name ∈ (Path.ofText p).head?, Path.isIndex name = false) ∧
    leaf? (steps.filter (·.field.isSome)) = leaf? steps := by
  have hplain : ∀ segment ∈ (Path.ofText p).strip, Path.IsPlain segment := by
    intro segment hsegment
    exact Path.isPlain_of_mem_ofText (List.mem_filter.mp hsegment).1
  refine ⟨?_, ?_⟩
  · rw [resolve_ofText_text hplain]
    exact resolve_strip_iff h
  · by_cases hroot : (Path.ofText p).isRoot = true
    · unfold resolve at h
      rw [if_pos hroot] at h
      cases h
      rfl
    · obtain ⟨f, hleaf⟩ := exists_leaf_of_resolve h (by simpa using hroot)
      rw [leaf?_filter hleaf, hleaf]

end Schema

/-! ## What the host is asked about -/

namespace Traversal
variable {setup : Setup} {s : TraversalState}

/-- The path of which the host has allowed a key leads to the field of the key. -/
theorem Passes.resolve_asked {key inner : Path} {steps : List Step}
    (hfree : setup.schema.IndexFree setup.root) (h : Passes setup s key inner steps) :
    setup.schema.resolve setup.root (s.openKey.internal ++ inner).strip =
      .ok (steps.filter (·.field.isSome)) :=
  Schema.resolve_strip (hfree.head_of_resolve h.resolved) h.resolved

end Traversal

namespace Sample

/-- The way to the name of a track on an album. -/
def firstTrackName : List Step :=
  [⟨"tracks", some (.relation tracks), "Album"⟩, ⟨"0", none, "Track"⟩, ⟨"1", none, "Track"⟩,
    ⟨"name", some (.scalar ⟨"name", "Track", .scalar .text⟩), "Track"⟩]

theorem resolve_stripped_text_iff_tracks :
    catalog.schema.resolve "Album" (.ofText "tracks.0.1.name") = .ok firstTrackName ∧
      (catalog.schema.resolve "Album" (.ofText (Path.ofText "tracks.0.1.name").strip.text) =
          .ok (firstTrackName.filter (·.field.isSome)) ↔
        ∀ name ∈ (Path.ofText "tracks.0.1.name").head?, Path.isIndex name = false) ∧
      leaf? (firstTrackName.filter (·.field.isSome)) = leaf? firstTrackName := by
  have hresolve : catalog.schema.resolve "Album" (.ofText "tracks.0.1.name") =
      .ok firstTrackName := rfl
  exact ⟨hresolve, Schema.resolve_stripped_text_iff _ _ _ hresolve⟩

/-- Albums with one track under the name `0`, and both with a name of their own. -/
def numbered : Schema where
  field? model name :=
    match model, name with
    | "Album", "0" => some (.relation ⟨"0", "Album", "Track", .one⟩)
    | "Album", "name" => some (.scalar ⟨"name", "Album", .scalar .text⟩)
    | "Track", "name" => some (.scalar ⟨"name", "Track", .scalar .text⟩)
    | _, _ => none

/-- The host allows the name of the album, and the document gets at that of the track. -/
theorem resolve_strip_numbered :
    (¬ ∀ (s : Schema) (root p : String) (steps : List Step),
      s.resolve root (.ofText p) = .ok steps →
      s.resolve root (.ofText (Path.ofText p).strip.text) =
        .ok (steps.filter (·.field.isSome))) ∧
    (compile numbered "Album" (.ofEntries [("0.name", .text "x")])
        (.settings (.ofEntries [("whitelist", .value (.list [.text "name"]))]))).result =
      .ok (some (.related ⟨"0", "Album", "Track", .one⟩ []
        (.test ⟨"name", "Track", .scalar .text⟩ ["name"] (.compare .eq (.text "x"))))) := by
  refine ⟨?_, rfl⟩
  intro hall
  have hfound : numbered.resolve "Album" (.ofText (Path.ofText "0.name").strip.text) =
      .ok [⟨"name", some (.scalar ⟨"name", "Album", .scalar .text⟩), "Album"⟩] := rfl
  have hclaimed := hall numbered "Album" "0.name" _ rfl
  have hlength := congrArg List.length (Except.ok.inj (hfound.symm.trans hclaimed))
  cases hlength

end Sample
end RowFilter
