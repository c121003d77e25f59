import RowFilter.Traversal.Performed

/-!
# A bound on the steps

Every step lowers the load of the pending work, whatever the schema and the policies answer. So
the load of a document bounds the number of steps, and a traversal that is given more comes to
the same.
-/

namespace RowFilter

namespace DocumentKey

theorem ofText_of_head {s : String} (h : s.toList.head? ≠ some '$') : ofText s = .field s := by
  have hne (token : String) (ht : token.toList.head? = some '$') : s ≠ token := by
    rintro rfl
    exact h ht
  simp [ofText, h, hne "$and" (by decide +kernel), hne "$or" (by decide +kernel),
    hne "$nor" (by decide +kernel), hne "$not" (by decide +kernel),
    hne "$elemMatch" (by decide +kernel)]

/-- The text of a path of safe segments is a field key. -/
theorem ofText_of_isSafe {p : Path} (hp : p ≠ []) (h : ∀ segment ∈ p, Path.IsSafe segment) :
    ofText p.text = .field p.text := by
  apply ofText_of_head
  cases p with
  | nil => exact absurd rfl hp
  | cons first rest =>
    obtain ⟨hne, hhead⟩ := Path.IsSafe.head (h first (by simp))
    have : (Path.text (first :: rest)).toList.head? = first.toList.head? := by
      cases rest with
      | nil => simp [Path.text]
      | cons second rest =>
        simp only [Path.text, String.toList_intercalate, List.map_cons,
          List.intercalate_cons_cons, List.append_assoc]
        rw [List.head?_append, List.head?_eq_some_head hne]
        rfl
    rw [this]
    exact hhead

end DocumentKey

namespace Fragment

theorem totalLoad_singleton (e : String × Value) : totalLoad [e] = entryLoad e := by
  simp [totalLoad, entryLoads_eq, joined]

theorem totalLoad_cons_cons (e d : String × Value) (rest : Fragment) :
    totalLoad (e :: d :: rest) = 2 + sum ((e :: d :: rest).map entryLoad) := by
  simp [totalLoad, entryLoads_eq, joined]

/-- A fragment weighs little more than its entries. -/
theorem totalLoad_le (f : Fragment) : totalLoad f ≤ 2 + sum (f.map entryLoad) := by
  rcases f with _ | ⟨e, _ | ⟨d, rest⟩⟩
  · simp [totalLoad, entryLoads_eq, joined]
  · simp [totalLoad_singleton]
  · exact Nat.le_of_eq (totalLoad_cons_cons e d rest)

theorem totalLoad_of_two_le {f : Fragment} (h : 2 ≤ f.length) :
    totalLoad f = 2 + sum ((f.map ([·])).map totalLoad) := by
  rcases f with _ | ⟨e, _ | ⟨d, rest⟩⟩
  · simp at h
  · simp at h
  · simp [totalLoad_cons_cons, totalLoad_singleton, Function.comp_def]

theorem entryLoad_pos (e : String × Value) : 0 < entryLoad e := by
  obtain ⟨key, v⟩ := e
  simp only [entryLoad_eq, keyLoad]
  cases DocumentKey.ofText key <;> dsimp only <;> omega

theorem totalLoad_pos (f : Fragment) : 0 < totalLoad f := by
  rcases f with _ | ⟨e, _ | ⟨d, rest⟩⟩
  · simp [totalLoad, entryLoads_eq, joined]
  · simpa [totalLoad_singleton] using entryLoad_pos e
  · rw [totalLoad_cons_cons]; omega

/-! ## Fragments that a traversal makes -/

theorem totalLoad_scope (key : String) (v : Value) :
    totalLoad (scope key v) = 3 + entryLoad (key, v) := by
  have h : DocumentKey.ofText "$elemMatch" = .elemMatch := by decide +kernel
  have hload : load (.ofEntries [(key, v)]) = totalLoad [(key, v)] := load_of_mapping? rfl
  simp [scope, totalLoad_singleton, entryLoad_eq, keyLoad, h, hload]

theorem totalLoad_anyOf (v : Value) : totalLoad (anyOf v) = 3 + load v := by
  have h : DocumentKey.ofText "$or" = .any := by decide +kernel
  simp [anyOf, totalLoad_singleton, entryLoad_eq, keyLoad, h]

theorem totalLoad_ofValue_le (v : Value) : totalLoad (ofValue v) ≤ 2 + spread v := by
  cases h : v.mapping? with
  | none =>
    have hk : DocumentKey.ofText "$eq" = .operator "$eq" := by decide +kernel
    simp [ofValue, h, totalLoad_singleton, entryLoad_eq, keyLoad, hk]
    omega
  | some f =>
    have := totalLoad_le f
    simp only [ofValue, h, Option.getD_some, spread_of_mapping? h]
    omega

theorem totalLoad_onRelation_le (e : String × Value) :
    totalLoad (onRelation e) ≤ 3 + entryLoad e := by
  simp only [onRelation]
  split
  · rw [totalLoad_singleton]; omega
  · exact Nat.le_of_eq (totalLoad_scope e.1 e.2)

theorem sum_totalLoad_onRelation_le (f : Fragment) :
    sum ((f.map onRelation).map totalLoad) ≤ 3 * f.length + sum (f.map entryLoad) := by
  induction f with
  | nil => simp
  | cons e rest ih =>
    have := totalLoad_onRelation_le e
    simp only [List.map_cons, sum_cons, List.length_cons]
    omega

theorem sum_totalLoad_of_fragments? {v : Value} {fs : List Fragment}
    (h : v.fragments? = some fs) : sum (fs.map totalLoad) ≤ load v := by
  obtain ⟨items, rfl⟩ := Value.exists_list_of_fragments? h
  have hload : load (.list items) = sum (items.map load) := by
    simp [load, weigh, weighAll_eq]
  rw [hload]
  clear hload
  induction items generalizing fs with
  | nil =>
    cases h
    exact Nat.le_refl 0
  | cons v items ih =>
    obtain ⟨f, rest, hf, hrest, rfl⟩ := Value.fragments?_cons_eq_some_iff.mp h
    have := ih hrest
    simp only [List.map_cons, sum_cons, load_of_mapping? hf]
    omega

end Fragment

namespace TraversalState
variable (s : TraversalState)

theorem load_openPath (key : OpenKey) (inside : List Task) :
    (s.openPath key inside).load = Fragment.sum (inside.map Task.load) + 1 + s.load := by
  simp [load, openPath, Task.load, Nat.add_assoc]

theorem load_openFrame (frame : Frame) (inside : List Task) :
    (s.openFrame frame inside).load = Fragment.sum (inside.map Task.load) + 1 + s.load := by
  simp [load, openFrame, Task.load, Nat.add_assoc]

theorem load_openFragments (frame : Frame) (fs : List Fragment) :
    (s.openFrame frame (fs.map .fragment)).load =
      Fragment.sum (fs.map Fragment.totalLoad) + 1 + s.load := by
  rw [load_openFrame, List.map_map]
  rfl

theorem load_openFragment (frame : Frame) (f : Fragment) :
    (s.openFrame frame [.fragment f]).load = f.totalLoad + 1 + s.load :=
  s.load_openFragments frame [f]

theorem load_openScope : s.openScope.load = 1 + s.load := by
  simp [load, openScope, Task.load]

theorem load_gather {s t : TraversalState} {p : Predicate} (h : s.gather p = .ok t) :
    t.load = s.load := by
  obtain ⟨frame, outer, _, rfl⟩ := gather_eq_ok_iff.mp h
  rfl

theorem load_closeFrame {s t : TraversalState} (h : s.closeFrame = .ok t) : t.load = s.load := by
  obtain ⟨frame, outer, _, h⟩ := closeFrame_eq_ok_iff.mp h
  exact (load_gather h).trans rfl

end TraversalState

namespace Traversal
open TraversalState Fragment Traced

variable {setup : Setup} {s t : TraversalState} {value : Value}

theorem load_entry (key : String) (v : Value) :
    (Task.fragment [(key, v)]).load = keyLoad key (Fragment.load v) (spread v) := by
  rw [Task.load, totalLoad_singleton, entryLoad_eq]

/-- The rest of a key is a field key again, of fewer segments. -/
theorem entryLoad_rest {key : Path} {width : Nat} (hw : 0 < width)
    (hsafe : ∀ segment ∈ key, Path.IsSafe segment) (hplain : ∀ segment ∈ key, Path.IsPlain segment)
    (hrest : Path.text (key.drop width) ≠ "") (v : Value) :
    entryLoad (Path.text (key.drop width), v) + 5 ≤ 5 * key.length + 4 + spread v := by
  have hne : key.drop width ≠ [] := by
    intro h0
    exact hrest (by rw [h0]; rfl)
  have hcut := Path.ofText_text hne fun segment hs => hplain segment (List.mem_of_mem_drop hs)
  have hkey : DocumentKey.ofText (Path.text (key.drop width)) =
      .field (Path.text (key.drop width)) :=
    DocumentKey.ofText_of_isSafe hne fun segment hs => hsafe segment (List.mem_of_mem_drop hs)
  have hlen : (key.drop width).length + 1 ≤ key.length := by
    have := List.length_pos_iff.mpr hne
    rw [List.length_drop] at this ⊢
    omega
  simp only [entryLoad_eq, keyLoad, hkey, hcut]
  omega

theorem load_entered {key inner : Path} {steps : List Step}
    (hpasses : Passes setup s key inner steps)
    (h : Entered s ⟨key, inner⟩ value (crossings steps) t) :
    t.load + 1 ≤ 5 * key.length + 4 + spread value + s.load := by
  have hlen := List.length_pos_iff.mpr hpasses.ne_nil
  cases h with
  | whole _ =>
    have := totalLoad_ofValue_le value
    rw [load_openPath]
    simp only [List.map_cons, List.map_nil, sum_cons, sum_nil, Task.load]
    omega
  | @relation _ _ f _ _ _ hf _ =>
    have := sum_totalLoad_onRelation_le f
    rw [load_openFragments, load_openPath, spread_of_mapping? hf]
    simp only [List.map_nil, sum_nil]
    omega
  | split _ hwidth hrest =>
    have := entryLoad_rest (by omega) hpasses.safe hpasses.plain hrest value
    rw [load_openPath]
    simp only [List.map_cons, List.map_nil, sum_cons, sum_nil, Task.load, totalLoad_scope]
    omega

/-- Every task that is carried out leaves less to do. -/
theorem load_performed {task : Task} (h : Performed setup s task t) :
    t.load < task.load + s.load := by
  cases h with
  | nothing => exact Nat.lt_add_of_pos_left (totalLoad_pos [])
  | entries hlength =>
    rw [load_openFragments, Task.load, totalLoad_of_two_le hlength]
    omega
  | all hkey hfs =>
    have := sum_totalLoad_of_fragments? hfs
    rw [load_openFragments, load_entry, keyLoad, hkey]
    dsimp only
    omega
  | any hkey hfs =>
    have := sum_totalLoad_of_fragments? hfs
    rw [load_openFragments, load_entry, keyLoad, hkey]
    dsimp only
    omega
  | none hkey _ =>
    rw [load_openFragment, totalLoad_anyOf, load_entry, keyLoad, hkey]
    dsimp only
    omega
  | not hkey hf =>
    rw [load_openFragment, ← load_of_mapping? hf, load_entry, keyLoad, hkey]
    dsimp only
    omega
  | elemMatch hkey _ hf _ _ =>
    rw [load_openFragment, load_openScope, ← load_of_mapping? hf, load_entry, keyLoad, hkey]
    dsimp only
    omega
  | operator hkey _ _ _ hgather =>
    rw [load_gather hgather, load_entry, keyLoad, hkey]
    dsimp only
    omega
  | field hkey hpasses hentered =>
    have := load_entered hpasses hentered
    rw [load_entry, keyLoad, hkey]
    dsimp only
    omega
  | closePath => exact Nat.lt_add_of_pos_left Nat.one_pos
  | closeScope => exact Nat.lt_add_of_pos_left Nat.one_pos
  | closeFrame hclose =>
    rw [load_closeFrame hclose]
    exact Nat.lt_add_of_pos_left Nat.one_pos

theorem load_step {task : Task} {rest : List Task} (hw : s.work = task :: rest)
    (h : (step setup s task rest).result = .ok t) : t.load < s.load := by
  have := load_performed (step_eq_ok_iff.mp h).2
  simp only [TraversalState.load, hw, List.map_cons, sum_cons] at this ⊢
  exact this

theorem load_eq_zero_iff : s.load = 0 ↔ s.work = [] := by
  obtain ⟨work, paths, scopes, frames⟩ := s
  cases work with
  | nil => simp [TraversalState.load]
  | cons task rest =>
    have : 0 < task.load := by
      cases task with
      | fragment f => exact totalLoad_pos f
      | _ => simp [Task.load]
    simp [TraversalState.load]
    omega

/-- More steps than the load allows for change nothing. -/
theorem loop_of_load_le {fuel extra : Nat} {past : List Event} (h : s.load ≤ fuel) :
    loop setup (fuel + extra) past s = loop setup fuel past s := by
  induction fuel generalizing s past with
  | zero =>
    have hw := load_eq_zero_iff.mp (Nat.le_zero.mp h)
    cases extra <;> simp [loop, hw]
  | succ fuel ih =>
    rw [Nat.add_right_comm]
    simp only [loop]
    split
    · rfl
    · next task rest hw =>
      split
      · next events s' hs =>
        have hlt := load_step (t := s') hw (by rw [hs])
        exact ih (by omega)
      · rfl

end Traversal
end RowFilter
