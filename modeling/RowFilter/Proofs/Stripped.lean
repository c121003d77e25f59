import RowFilter.Document
import RowFilter.Proofs.Outline
import RowFilter.Traversal.Bound

/-!
# Documents without list indices

A document whose field keys have lost their list indices, at every depth. What an operator is
given is no document and stays. Two keys of one mapping may become one by it, and then only one
of them is left; in a document whose keys stay apart, every mapping keeps all its entries, in
their order.
-/

namespace RowFilter

/-! ## Keys -/

/-- A key without list indices, if it is a field key. A key that is no path stays. -/
def strippedKey (key : String) : String :=
  match DocumentKey.ofText key with
  | .field text =>
    let path := Path.ofText text
    if path.problem?.isNone then path.strip.text else text
  | _ => key

theorem strippedKey_of_field {key : String} (hkey : DocumentKey.ofText key = .field key)
    (hsafe : ∀ segment ∈ Path.ofText key, Path.IsSafe segment) :
    strippedKey key = (Path.ofText key).strip.text := by
  have hproblem := (Path.problem?_eq_none_iff (Path.ofText key)).mpr hsafe
  unfold strippedKey
  rw [hkey]
  dsimp only
  rw [hproblem, Option.isNone_none, if_pos rfl]

theorem strippedKey_of_problem {key : String} (hkey : DocumentKey.ofText key = .field key)
    (hproblem : (Path.ofText key).problem? ≠ none) : strippedKey key = key := by
  unfold strippedKey
  rw [hkey]
  dsimp only
  rw [if_neg (by simpa using hproblem)]

theorem strippedKey_of_not_field {key : String} (h : ∀ text, DocumentKey.ofText key ≠ .field text) :
    strippedKey key = key := by
  unfold strippedKey
  split
  · next text htext => exact absurd htext (h text)
  · rfl

/-- What a key says is not changed. -/
theorem ofText_strippedKey (key : String) : DocumentKey.ofText (strippedKey key) =
    match DocumentKey.ofText key with
    | .field _ => .field (strippedKey key)
    | other => other := by
  cases hkey : DocumentKey.ofText key with
  | field text =>
    obtain rfl := DocumentKey.eq_of_ofText_field hkey
    by_cases hproblem : (Path.ofText text).problem? = none
    · have hsafe := (Path.problem?_eq_none_iff (Path.ofText text)).mp hproblem
      rw [strippedKey_of_field hkey hsafe]
      by_cases hnil : (Path.ofText text).strip = []
      · rw [hnil]
        rfl
      · exact DocumentKey.ofText_of_isSafe hnil fun segment hsegment =>
          hsafe segment (List.mem_filter.mp hsegment).1
    · rw [strippedKey_of_problem hkey hproblem, hkey]
  | _ =>
    rw [strippedKey_of_not_field (by simp [hkey]), hkey]

/-- What is left of a key is no list index. -/
theorem isIndex_strippedKey (key : String) : Path.isIndex (strippedKey key) = false := by
  cases hindex : Path.isIndex (strippedKey key) with
  | false => rfl
  | true =>
    have hsafe := Path.isSafe_of_isIndex hindex
    have hplain := Path.isPlain_of_isIndex hindex
    have hfield : DocumentKey.ofText (strippedKey key) = .field (strippedKey key) :=
      DocumentKey.ofText_of_head hsafe.head.2
    rw [ofText_strippedKey] at hfield
    cases hkey : DocumentKey.ofText key with
    | field text =>
      obtain rfl := DocumentKey.eq_of_ofText_field hkey
      by_cases hproblem : (Path.ofText text).problem? = none
      · have hsafe := (Path.problem?_eq_none_iff (Path.ofText text)).mp hproblem
        have hstripped := strippedKey_of_field hkey hsafe
        by_cases hnil : (Path.ofText text).strip = []
        · rw [hstripped, hnil] at hindex
          exact absurd hindex (by decide)
        · -- a text that is one segment is that segment, and it was not left out
          have hpath : (Path.ofText text).strip = [strippedKey text] := by
            rw [← Path.ofText_of_isPlain hplain, hstripped, Path.ofText_text hnil]
            intro segment hsegment
            exact Path.isPlain_of_mem_ofText (List.mem_filter.mp hsegment).1
          have hmem : strippedKey text ∈ (Path.ofText text).strip := by
            rw [hpath]
            exact List.mem_singleton_self _
          simpa [hindex] using (List.mem_filter.mp hmem).2
      · rw [strippedKey_of_problem hkey hproblem] at hsafe hplain
        refine absurd ((Path.problem?_eq_none_iff _).mpr ?_) hproblem
        rw [Path.ofText_of_isPlain hplain]
        simpa using hsafe
    | _ =>
      rw [hkey] at hfield
      cases hfield

theorem index?_strippedKey (key : String) : Entries.index? (strippedKey key) = none := by
  have hindex := isIndex_strippedKey key
  unfold Entries.index?
  dsimp only
  rw [if_neg]
  intro h
  have hdigits : Path.isIndex (strippedKey key) = true := by
    simpa [Path.isIndex] using And.intro h.1 h.2.1
  rw [hdigits] at hindex
  cases hindex

/-! ## Documents -/

namespace Value

mutual

/-- A document without list indices. Anything else than a document stays. -/
def stripped : Value → Value
  | .record .ofClass entries => .record .ofClass entries
  | .record kind entries => .record kind (Entries.putAll [] (strippedEntries entries))
  | v => v

/-- A list of documents without list indices. -/
def strippedList : Value → Value
  | .list items => .list (strippedItems items)
  | v => v

def strippedItems : List Value → List Value
  | [] => []
  | v :: rest => v.stripped :: strippedItems rest

def strippedEntry : String × Value → String × Value
  | (key, v) =>
    (strippedKey key,
      match DocumentKey.ofText key with
      | .all | .any | .none => v.strippedList
      | .not | .elemMatch | .field _ => v.stripped
      | .operator _ => v)

def strippedEntries : List (String × Value) → List (String × Value)
  | [] => []
  | e :: rest => strippedEntry e :: strippedEntries rest

end

mutual

/-- No two keys of a mapping in the document are the same without list indices. -/
def KeysApart : Value → Prop
  | .record .ofClass _ => True
  | .record _ entries => (entries.map (strippedKey ·.1)).Nodup ∧ EntriesApart entries
  | _ => True

def ListApart : Value → Prop
  | .list items => ItemsApart items
  | _ => True

def ItemsApart : List Value → Prop
  | [] => True
  | v :: rest => v.KeysApart ∧ ItemsApart rest

def EntryApart : String × Value → Prop
  | (key, v) =>
    match DocumentKey.ofText key with
    | .all | .any | .none => v.ListApart
    | .not | .elemMatch | .field _ => v.KeysApart
    | .operator _ => True

def EntriesApart : List (String × Value) → Prop
  | [] => True
  | e :: rest => EntryApart e ∧ EntriesApart rest

end

theorem strippedEntries_eq_map (entries : List (String × Value)) :
    strippedEntries entries = entries.map strippedEntry := by
  induction entries with
  | nil => rfl
  | cons e rest ih => rw [strippedEntries, ih, List.map_cons]

theorem strippedItems_eq_map (items : List Value) : strippedItems items = items.map stripped := by
  induction items with
  | nil => rfl
  | cons v rest ih => rw [strippedItems, ih, List.map_cons]

theorem entriesApart_iff (entries : List (String × Value)) :
    EntriesApart entries ↔ ∀ e ∈ entries, EntryApart e := by
  induction entries with
  | nil => simp [EntriesApart]
  | cons e rest ih => rw [EntriesApart, ih, List.forall_mem_cons]

theorem itemsApart_iff (items : List Value) : ItemsApart items ↔ ∀ v ∈ items, v.KeysApart := by
  induction items with
  | nil => simp [ItemsApart]
  | cons v rest ih => rw [ItemsApart, ih, List.forall_mem_cons]

theorem strippedEntry_fst (e : String × Value) : (strippedEntry e).1 = strippedKey e.1 := by
  obtain ⟨key, v⟩ := e
  rw [strippedEntry]

theorem strippedEntry_of_field {key : String} (h : DocumentKey.ofText key = .field key)
    (v : Value) : strippedEntry (key, v) = (strippedKey key, v.stripped) := by
  rw [strippedEntry, h]

theorem entryApart_of_field {key : String} {v : Value} (h : DocumentKey.ofText key = .field key) :
    EntryApart (key, v) ↔ v.KeysApart := by
  rw [EntryApart, h]

end Value

namespace Fragment
open Value

/-- A fragment without list indices. -/
def stripped (f : Fragment) : Fragment := f.map strippedEntry

/-- No two keys of a mapping inside the fragment are the same without list indices. -/
def Apart (f : Fragment) : Prop := ∀ e ∈ f, EntryApart e

variable {f : Fragment} {v : Value}

theorem putAll_stripped (h : (f.map (strippedKey ·.1)).Nodup) :
    Entries.putAll [] f.stripped = f.stripped := by
  have hunindexed : ∀ e ∈ f.stripped, Entries.index? e.1 = none := by
    intro e he
    obtain ⟨d, _, rfl⟩ := List.mem_map.mp he
    rw [strippedEntry_fst]
    exact index?_strippedKey d.1
  have hnames : (Entries.names f.stripped).Nodup := by
    unfold Entries.names stripped
    rw [List.map_map]
    simpa [Function.comp_def, strippedEntry_fst] using h
  exact Entries.putAll_eq_append rfl hunindexed (by simp [Entries.names]) hnames

theorem apart_of_mapping? (hf : v.mapping? = some f) (h : v.KeysApart) :
    (f.map (strippedKey ·.1)).Nodup ∧ f.Apart := by
  cases v with
  | record kind entries =>
    cases kind with
    | plain =>
      cases hf
      rw [KeysApart] at h
      · exact ⟨h.1, (entriesApart_iff _).mp h.2⟩
      · simp
    | bare =>
      cases hf
      rw [KeysApart] at h
      · exact ⟨h.1, (entriesApart_iff _).mp h.2⟩
      · simp
    | ofClass => cases hf
  | _ => cases hf

/-- A mapping whose keys stay apart keeps its entries. -/
theorem mapping?_stripped (hf : v.mapping? = some f) (h : v.KeysApart) :
    v.stripped.mapping? = some f.stripped := by
  obtain ⟨hnodup, _⟩ := apart_of_mapping? hf h
  have hentries := putAll_stripped hnodup
  cases v with
  | record kind entries =>
    cases kind with
    | plain =>
      cases hf
      rw [Value.stripped, strippedEntries_eq_map]
      · exact congrArg some hentries
      · simp
    | bare =>
      cases hf
      rw [Value.stripped, strippedEntries_eq_map]
      · exact congrArg some hentries
      · simp
    | ofClass => cases hf
  | _ => cases hf

theorem stripped_of_mapping?_eq_none (h : v.mapping? = none) : v.stripped = v := by
  cases v with
  | record kind entries =>
    cases kind with
    | ofClass => rw [Value.stripped]
    | _ => cases h
  | _ => rw [Value.stripped] <;> simp

/-- A list of documents stays one, item by item. -/
theorem fragments?_stripped {fs : List Fragment} (hfs : v.fragments? = some fs)
    (h : v.ListApart) :
    v.strippedList.fragments? = some (fs.map stripped) ∧ ∀ f ∈ fs, f.Apart := by
  obtain ⟨items, rfl⟩ := Value.exists_list_of_fragments? hfs
  rw [ListApart, itemsApart_iff] at h
  rw [Value.strippedList, strippedItems_eq_map]
  induction items generalizing fs with
  | nil =>
    cases hfs
    exact ⟨rfl, List.forall_mem_nil _⟩
  | cons w items ih =>
    obtain ⟨hw, hitems⟩ := List.forall_mem_cons.mp h
    obtain ⟨g, gs, hg, hgs, rfl⟩ := Value.fragments?_cons_eq_some_iff.mp hfs
    obtain ⟨hrest, hapart⟩ := ih hgs hitems
    exact ⟨Value.fragments?_cons_eq_some_iff.mpr ⟨_, _, mapping?_stripped hg hw, hrest, rfl⟩,
      List.forall_mem_cons.mpr ⟨(apart_of_mapping? hg hw).2, hapart⟩⟩

theorem ofValue_stripped (h : v.KeysApart) : (ofValue v).stripped = ofValue v.stripped := by
  unfold ofValue
  cases hf : v.mapping? with
  | some f =>
    rw [mapping?_stripped hf h]
    rfl
  | none =>
    rw [stripped_of_mapping?_eq_none hf, hf]
    rfl

theorem ofValue_apart (h : v.KeysApart) : (ofValue v).Apart := by
  unfold ofValue
  cases hf : v.mapping? with
  | some f => exact (apart_of_mapping? hf h).2
  | none =>
    intro e he
    rw [Option.getD_none, List.mem_singleton] at he
    subst he
    trivial

theorem anyOf_stripped (v : Value) : (anyOf v).stripped = anyOf v.strippedList := rfl

theorem anyOf_apart (h : v.ListApart) : (anyOf v).Apart := by
  intro e he
  rw [anyOf, List.mem_singleton] at he
  subst he
  exact h

/-- A record of one entry has one entry without list indices. -/
theorem stripped_ofEntries_singleton (e : String × Value) :
    (Value.ofEntries [e]).stripped = .ofEntries [strippedEntry e] := by
  have hentries := @putAll_stripped [e] (by simp)
  unfold Value.ofEntries
  rw [Value.stripped, strippedEntries_eq_map]
  · exact congrArg (Value.record .plain) hentries
  · simp

theorem scope_stripped (e : String × Value) :
    (scope e.1 e.2).stripped = scope (strippedEntry e).1 (strippedEntry e).2 :=
  congrArg (fun v => [("$elemMatch", v)]) (stripped_ofEntries_singleton e)

theorem scope_apart {e : String × Value} (h : EntryApart e) : (scope e.1 e.2).Apart := by
  intro d hd
  rw [scope, List.mem_singleton] at hd
  subst hd
  show (Value.ofEntries [e]).KeysApart
  unfold Value.ofEntries
  rw [KeysApart]
  · exact ⟨by simp, h, trivial⟩
  · simp

/-- An entry under the name of a relation is about the relation or about its rows, with or without
list indices. -/
theorem onRelation_stripped (e : String × Value) :
    (onRelation e).stripped = onRelation (strippedEntry e) := by
  have hkeys : (strippedEntry e).1 = "$elemMatch" ∨ (strippedEntry e).1 = "$exists" ↔
      e.1 = "$elemMatch" ∨ e.1 = "$exists" := by
    rw [strippedEntry_fst]
    constructor
    · intro h
      cases hfield : DocumentKey.ofText e.1 with
      | field text =>
        have hkey : DocumentKey.ofText (strippedKey e.1) = .field (strippedKey e.1) := by
          rw [ofText_strippedKey, hfield]
        rcases h with h | h <;> rw [h] at hkey <;> exact absurd hkey (by decide)
      | _ => rwa [strippedKey_of_not_field (by simp [hfield])] at h
    · intro h
      rcases h with h | h <;> rw [h] <;> decide
  unfold onRelation
  by_cases h : e.1 = "$elemMatch" ∨ e.1 = "$exists"
  · rw [if_pos h, if_pos (hkeys.mpr h)]
    rfl
  · rw [if_neg h, if_neg (mt hkeys.mp h)]
    exact scope_stripped e

theorem onRelation_apart {e : String × Value} (h : EntryApart e) : (onRelation e).Apart := by
  unfold onRelation
  split
  · intro d hd
    rw [List.mem_singleton.mp hd]
    exact h
  · exact scope_apart h

end Fragment
end RowFilter
