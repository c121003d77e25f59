import RowFilter.Text.Digits

/-!
# Entries

The entries of a record are name and value pairs. Their order is part of the record: names
that are list indices come first, in ascending order, and the other names follow in the order
of their first arrival. No name occurs twice.
-/

namespace RowFilter

abbrev Entries (α : Type) := List (String × α)

namespace Entries
variable {α : Type}

/-- The value under a name. -/
def get? (es : Entries α) (name : String) : Option α := es.lookup name

def names (es : Entries α) : List String := es.map (·.1)

/-- The greatest name that counts as a list index. -/
def lastIndex : Nat := 4294967294

/-- The list index a name spells, in digits without leading zeros. -/
def index? (name : String) : Option Nat :=
  let ds := name.toList
  if ds ≠ [] ∧ ds.all Text.isDigit ∧ (ds = ['0'] ∨ ds.head? ≠ some '0') ∧
      Text.readDigits ds ≤ lastIndex then
    some (Text.readDigits ds)
  else none

/-- Inserts an entry before the first one with a greater index. -/
def insertIndexed (n : Nat) (e : String × α) :
    List (Nat × String × α) → List (Nat × String × α)
  | [] => [(n, e)]
  | (m, d) :: rest =>
    if n < m then (n, e) :: (m, d) :: rest else (m, d) :: insertIndexed n e rest

/-- Puts the entries into the order of a record. -/
def inOrder (es : Entries α) : Entries α :=
  let indexed := es.foldl (fun sorted e =>
    match index? e.1 with
    | some n => insertIndexed n e sorted
    | none => sorted) []
  indexed.map (·.2) ++ es.filter fun e => (index? e.1).isNone

/-- Writes a value under a name: in the place of the name, or as a new entry. -/
def put (es : Entries α) (name : String) (value : α) : Entries α :=
  if es.any (·.1 == name) then
    es.map fun e => if e.1 == name then (name, value) else e
  else inOrder (es ++ [(name, value)])

def remove (es : Entries α) (name : String) : Entries α := es.filter (·.1 != name)

theorem get?_cons (e : String × α) (es : Entries α) (name : String) :
    get? (e :: es) name = if name == e.1 then some e.2 else get? es name := by
  obtain ⟨k, v⟩ := e
  simp only [get?, List.lookup_cons]
  split <;> simp_all

theorem get?_eq_none_iff (es : Entries α) (name : String) :
    es.get? name = none ↔ name ∉ es.names := by
  induction es with
  | nil => simp [get?, names]
  | cons e es ih =>
    rw [get?_cons]
    simp only [names, List.map_cons, List.mem_cons, not_or] at ih ⊢
    by_cases h : name = e.1
    · simp [h]
    · simp [h, ih]

theorem mem_of_get? {es : Entries α} {name : String} {value : α} (h : es.get? name = some value) :
    (name, value) ∈ es := by
  induction es with
  | nil => cases h
  | cons e es ih =>
    rw [get?_cons] at h
    split at h
    · next hname =>
      cases h
      rw [eq_of_beq hname]
      exact List.mem_cons_self
    · exact List.mem_cons_of_mem _ (ih h)

theorem get?_append (es ds : Entries α) (name : String) :
    get? (es ++ ds) name = (es.get? name).or (ds.get? name) := by
  induction es with
  | nil => rfl
  | cons e es ih =>
    rw [List.cons_append, get?_cons, get?_cons, ih]
    split <;> rfl

theorem get?_remove_self (es : Entries α) (name : String) : (es.remove name).get? name = none := by
  rw [get?_eq_none_iff]
  simp [names, remove]

theorem get?_remove_of_ne (es : Entries α) {name other : String} (h : other ≠ name) :
    (es.remove name).get? other = es.get? other := by
  induction es with
  | nil => rfl
  | cons e es ih =>
    rw [remove, List.filter_cons]
    split
    · rw [get?_cons, get?_cons]
      exact congrArg (if other == e.1 then some e.2 else ·) ih
    · next hname =>
      have hother : other ≠ e.1 := by
        rintro rfl
        exact hname (bne_iff_ne.mpr h)
      rw [get?_cons, if_neg (by simpa using hother)]
      exact ih

example : (inOrder [("b", 1), ("10", 2), ("a", 3), ("2", 4)]).names = ["2", "10", "b", "a"] := by
  decide +kernel

theorem remove_cons_of_eq {e : String × α} (es : Entries α) {name : String} (h : e.1 = name) :
    remove (e :: es) name = es.remove name :=
  List.filter_cons_of_neg fun hne => bne_iff_ne.mp hne h

theorem remove_cons_of_ne {e : String × α} (es : Entries α) {name : String} (h : e.1 ≠ name) :
    remove (e :: es) name = e :: es.remove name :=
  List.filter_cons_of_pos (bne_iff_ne.mpr h)

theorem remove_of_not_mem {es : Entries α} {name : String} (h : name ∉ es.names) :
    es.remove name = es :=
  List.filter_eq_self.mpr fun e he => bne_iff_ne.mpr fun hname =>
    h (List.mem_map.mpr ⟨e, he, hname⟩)

theorem get?_cons_self (e : String × α) (es : Entries α) : get? (e :: es) e.1 = some e.2 := by
  rw [get?_cons, beq_self_eq_true, if_pos rfl]

theorem get?_cons_of_ne {e : String × α} (es : Entries α) {name : String} (h : name ≠ e.1) :
    get? (e :: es) name = get? es name := by
  rw [get?_cons, if_neg (by simpa using h)]

theorem get?_filter (p : String → Bool) (es : Entries α) (name : String) :
    get? (es.filter fun e => p e.1) name = if p name then es.get? name else none := by
  induction es with
  | nil => simp [get?]
  | cons e es ih =>
    rw [List.filter_cons]
    by_cases hname : name = e.1
    · subst hname
      split
      · rw [get?_cons_self, get?_cons_self]
      · next hp => rw [ih, if_neg hp]
    · rw [get?_cons_of_ne es hname, ← ih]
      split
      · exact get?_cons_of_ne _ hname
      · rfl

/-! ## Order -/

/-- Adds the entries under list indices to others that are in order. -/
def addIndexed (sorted : List (Nat × String × α)) (es : Entries α) : List (Nat × String × α) :=
  es.foldl (fun sorted e =>
    match index? e.1 with
    | some n => insertIndexed n e sorted
    | none => sorted) sorted

theorem inOrder_eq (es : Entries α) :
    inOrder es = (addIndexed [] es).map (·.2) ++ es.filter fun e => (index? e.1).isNone :=
  rfl

/-- Entries under list indices, in ascending order. -/
structure Ascending (sorted : List (Nat × String × α)) : Prop where
  pairwise : sorted.Pairwise (·.1 ≤ ·.1)
  indexed : ∀ d ∈ sorted, index? d.2.1 = some d.1

variable {sorted : List (Nat × String × α)} {n : Nat} {e : String × α} {name : String}

theorem mem_insertIndexed {d : Nat × String × α} :
    d ∈ insertIndexed n e sorted ↔ d = (n, e) ∨ d ∈ sorted := by
  induction sorted with
  | nil => simp [insertIndexed]
  | cons c rest ih =>
    unfold insertIndexed
    split
    · exact List.mem_cons
    · rw [List.mem_cons, ih, List.mem_cons]
      exact or_left_comm

theorem Ascending.insertIndexed (h : Ascending sorted) (he : index? e.1 = some n) :
    Ascending (insertIndexed n e sorted) := by
  constructor
  · have hpairwise := h.pairwise
    clear h
    induction sorted with
    | nil => exact List.pairwise_singleton _ _
    | cons c rest ih =>
      obtain ⟨hc, hrest⟩ := List.pairwise_cons.mp hpairwise
      unfold Entries.insertIndexed
      split
      · next hlt =>
        refine List.pairwise_cons.mpr ⟨fun d hd => ?_, hpairwise⟩
        obtain rfl | hd := List.mem_cons.mp hd
        · exact Nat.le_of_lt hlt
        · exact Nat.le_trans (Nat.le_of_lt hlt) (hc d hd)
      · next hle =>
        refine List.pairwise_cons.mpr ⟨fun d hd => ?_, ih hrest⟩
        obtain rfl | hd := mem_insertIndexed.mp hd
        · exact Nat.le_of_not_lt hle
        · exact hc d hd
  · intro d hd
    obtain rfl | hd := mem_insertIndexed.mp hd
    · exact he
    · exact h.indexed d hd

theorem Ascending.of_cons {d : Nat × String × α} (h : Ascending (d :: sorted)) :
    Ascending sorted :=
  ⟨(List.pairwise_cons.mp h.pairwise).2, fun c hc => h.indexed c (List.mem_cons_of_mem d hc)⟩

/-- An entry finds its place behind all entries of its own name. -/
theorem get?_insertIndexed (h : Ascending sorted) (he : index? e.1 = some n) (name : String) :
    get? ((insertIndexed n e sorted).map (·.2)) name = get? (sorted.map (·.2) ++ [e]) name := by
  induction sorted with
  | nil => rfl
  | cons d rest ih =>
    unfold insertIndexed
    split
    · next hlt =>
      rw [get?_append, List.map_cons, get?_cons, get?_cons]
      split
      · next hname =>
        have hnone : get? ((d :: rest).map (·.2)) name = none := by
          rw [get?_eq_none_iff]
          intro hmem
          obtain ⟨_, hd', hcname⟩ := List.mem_map.mp hmem
          obtain ⟨c, hc, rfl⟩ := List.mem_map.mp hd'
          have hle : d.1 ≤ c.1 := by
            obtain rfl | hc := List.mem_cons.mp hc
            · exact Nat.le_refl _
            · exact (List.pairwise_cons.mp h.pairwise).1 c hc
          have hindex := h.indexed c hc
          rw [hcname, eq_of_beq hname, he] at hindex
          cases hindex
          exact absurd hlt (Nat.not_lt.mpr hle)
        rw [hnone]
        rfl
      · exact (Option.or_none).symm
    · rw [List.map_cons, List.map_cons, List.cons_append, get?_cons, get?_cons, ih h.of_cons]

theorem Ascending.addIndexed (h : Ascending sorted) (es : Entries α) :
    Ascending (addIndexed sorted es) := by
  induction es generalizing sorted with
  | nil => exact h
  | cons e es ih =>
    rw [Entries.addIndexed, List.foldl_cons]
    split
    · next hindex => exact ih (h.insertIndexed hindex)
    · exact ih h

theorem ascending_nil : Ascending ([] : List (Nat × String × α)) :=
  ⟨.nil, fun _ hd => nomatch hd⟩

theorem get?_addIndexed (h : Ascending sorted) (es : Entries α) (name : String) :
    get? ((addIndexed sorted es).map (·.2)) name =
      (get? (sorted.map (·.2)) name).or
        (get? (es.filter fun e => (index? e.1).isSome) name) := by
  induction es generalizing sorted with
  | nil => exact (Option.or_none).symm
  | cons e es ih =>
    rw [addIndexed, List.foldl_cons, List.filter_cons]
    cases hindex : index? e.1 with
    | some n =>
      rw [← addIndexed, ih (h.insertIndexed hindex), get?_insertIndexed h hindex, get?_append,
        Option.or_assoc, ← get?_append]
      rfl
    | none => exact ih h

/-- Order matters to no question for a name. -/
theorem get?_inOrder (es : Entries α) (name : String) : (inOrder es).get? name = es.get? name := by
  rw [inOrder_eq, get?_append, get?_addIndexed ascending_nil,
    get?_filter fun name => (index? name).isSome, get?_filter fun name => (index? name).isNone]
  cases index? name with
  | some n => exact Option.or_none
  | none => rfl

/-- Writes a value in the place of a name. -/
def setAt (es : Entries α) (name : String) (value : α) : Entries α :=
  es.map fun e => if e.1 == name then (name, value) else e

theorem any_iff_mem_names (es : Entries α) (name : String) :
    es.any (·.1 == name) = true ↔ name ∈ es.names := by
  simp [names, List.any_eq_true]

theorem put_of_mem {es : Entries α} {name : String} {value : α} (h : name ∈ es.names) :
    es.put name value = setAt es name value := by
  rw [put, if_pos ((any_iff_mem_names es name).mpr h), setAt]

theorem put_of_not_mem {es : Entries α} {name : String} {value : α} (h : name ∉ es.names) :
    es.put name value = inOrder (es ++ [(name, value)]) := by
  rw [put, if_neg (mt (any_iff_mem_names es name).mp h)]

theorem get?_setAt (es : Entries α) (name other : String) (value : α) :
    (setAt es name value).get? other =
      if other = name then (es.get? name).map fun _ => value else es.get? other := by
  induction es with
  | nil => simp [setAt, get?]
  | cons e es ih =>
    have htail : get? (setAt (e :: es) name value) other =
        get? ((if e.1 == name then (name, value) else e) :: setAt es name value) other := rfl
    rw [htail]
    by_cases hname : e.1 = name
    · rw [if_pos (beq_iff_eq.mpr hname)]
      by_cases hother : other = name
      · rw [if_pos hother, hother, get?_cons_self (name, value), ← hname, get?_cons_self]
        rfl
      · rw [get?_cons_of_ne _ hother, ih, if_neg hother, if_neg hother,
          get?_cons_of_ne es (hname ▸ hother)]
    · rw [if_neg (by simpa using hname), get?_cons_of_ne es (Ne.symm hname)]
      by_cases hother : other = e.1
      · rw [hother, get?_cons_self, get?_cons_self, if_neg hname]
      · rw [get?_cons_of_ne _ hother, get?_cons_of_ne _ hother, ih]

/-- Writing changes what stands under the name, and nothing else. -/
theorem get?_put (es : Entries α) (name other : String) (value : α) :
    (es.put name value).get? other = if other = name then some value else es.get? other := by
  by_cases hmem : name ∈ es.names
  · obtain ⟨v, hv⟩ := Option.ne_none_iff_exists'.mp (mt (get?_eq_none_iff es name).mp (not_not_intro hmem))
    rw [put_of_mem hmem, get?_setAt, hv, Option.map_some]
  · rw [put_of_not_mem hmem, get?_inOrder, get?_append]
    split
    · next hname => rw [hname, (get?_eq_none_iff es name).mpr hmem, get?_cons_self, Option.none_or]
    · next hname =>
      rw [get?_cons_of_ne [] hname]
      exact Option.or_none

theorem addIndexed_of_unindexed {es : Entries α} (h : ∀ e ∈ es, index? e.1 = none) :
    addIndexed sorted es = sorted := by
  induction es with
  | nil => rfl
  | cons e es ih =>
    rw [addIndexed, List.foldl_cons, h e List.mem_cons_self]
    exact ih fun d hd => h d (List.mem_cons_of_mem e hd)

theorem addIndexed_append (es ds : Entries α) :
    addIndexed sorted (es ++ ds) = addIndexed (addIndexed sorted es) ds :=
  List.foldl_append

theorem insertIndexed_of_le (h : ∀ d ∈ sorted, d.1 ≤ n) :
    insertIndexed n e sorted = sorted ++ [(n, e)] := by
  induction sorted with
  | nil => rfl
  | cons d rest ih =>
    rw [insertIndexed, if_neg (Nat.not_lt.mpr (h d List.mem_cons_self)),
      ih fun c hc => h c (List.mem_cons_of_mem d hc)]
    rfl

/-- Entries that come in order stay as they come. -/
theorem addIndexed_of_ascending (sorted : List (Nat × String × α))
    {more : List (Nat × String × α)} (h : Ascending (sorted ++ more)) :
    addIndexed sorted (more.map (·.2)) = sorted ++ more := by
  induction more generalizing sorted with
  | nil => exact (List.append_nil sorted).symm
  | cons d more ih =>
    have hle : ∀ c ∈ sorted, c.1 ≤ d.1 := fun c hc =>
      (List.pairwise_append.mp h.pairwise).2.2 c hc d List.mem_cons_self
    have hindex : index? d.2.1 = some d.1 :=
      h.indexed d (List.mem_append_right sorted List.mem_cons_self)
    rw [List.map_cons, addIndexed, List.foldl_cons, hindex]
    show addIndexed (insertIndexed d.1 d.2 sorted) (more.map (·.2)) = _
    rw [insertIndexed_of_le hle, List.append_cons sorted d more]
    exact ih _ (List.append_cons sorted d more ▸ h)

theorem inOrder_of_unindexed {es : Entries α} (h : ∀ e ∈ es, index? e.1 = none) :
    inOrder es = es := by
  rw [inOrder_eq, addIndexed_of_unindexed h, List.filter_eq_self.mpr fun e he => by rw [h e he]; rfl]
  rfl

theorem inOrder_inOrder (es : Entries α) : inOrder (inOrder es) = inOrder es := by
  have hascending : Ascending (addIndexed [] es) := ascending_nil.addIndexed es
  have hunindexed : ∀ e ∈ es.filter fun e => (index? e.1).isNone, index? e.1 = none :=
    fun e he => Option.isNone_iff_eq_none.mp (List.mem_filter.mp he).2
  have hindexed : ((addIndexed [] es).map (·.2)).filter (fun e => (index? e.1).isNone) = [] := by
    refine List.filter_eq_nil_iff.mpr fun e he => ?_
    obtain ⟨d, hd, rfl⟩ := List.mem_map.mp he
    rw [hascending.indexed d hd]
    exact Bool.false_ne_true
  have hstays : addIndexed [] ((addIndexed [] es).map (·.2)) = [] ++ addIndexed [] es :=
    addIndexed_of_ascending [] hascending
  rw [inOrder_eq es, inOrder_eq, addIndexed_append, addIndexed_of_unindexed hunindexed, hstays,
    List.filter_append, hindexed, List.filter_filter]
  simp only [Bool.and_self, List.nil_append]

/-- A name that is no list index comes last when it comes new. -/
theorem inOrder_concat (es : Entries α) (h : index? e.1 = none) :
    inOrder (es ++ [e]) = inOrder es ++ [e] := by
  have hsingle : ∀ d ∈ [e], index? d.1 = none := fun d hd => List.mem_singleton.mp hd ▸ h
  have hkept : [e].filter (fun d => (index? d.1).isNone) = [e] :=
    List.filter_eq_self.mpr fun d hd => by rw [hsingle d hd]; rfl
  rw [inOrder_eq, inOrder_eq, addIndexed_append, addIndexed_of_unindexed hsingle,
    List.filter_append, hkept, List.append_assoc]

theorem insertIndexed_map {f : String × α → String × α} :
    insertIndexed n (f e) (sorted.map fun d => (d.1, f d.2)) =
      (insertIndexed n e sorted).map fun d => (d.1, f d.2) := by
  induction sorted with
  | nil => rfl
  | cons d rest ih =>
    rw [insertIndexed, List.map_cons, insertIndexed]
    split
    · rfl
    · rw [ih, List.map_cons]

theorem addIndexed_map (sorted : List (Nat × String × α)) {f : String × α → String × α}
    (hf : ∀ e, (f e).1 = e.1) (es : Entries α) :
    addIndexed (sorted.map fun d => (d.1, f d.2)) (es.map f) =
      (addIndexed sorted es).map fun d => (d.1, f d.2) := by
  induction es generalizing sorted with
  | nil => rfl
  | cons e es ih =>
    rw [List.map_cons, addIndexed, addIndexed, List.foldl_cons, List.foldl_cons, hf]
    cases index? e.1 with
    | none => exact ih sorted
    | some n =>
      dsimp only
      rw [insertIndexed_map]
      exact ih _

/-- Order depends on the names only. -/
theorem inOrder_map {f : String × α → String × α} (hf : ∀ e, (f e).1 = e.1) (es : Entries α) :
    inOrder (es.map f) = (inOrder es).map f := by
  have hindexed : addIndexed [] (es.map f) = (addIndexed [] es).map fun d => (d.1, f d.2) :=
    addIndexed_map [] hf es
  have hunindexed : (fun e : String × α => (index? e.1).isNone) ∘ f =
      fun e => (index? e.1).isNone := funext fun e => by rw [Function.comp_apply, hf]
  rw [inOrder_eq, inOrder_eq, List.map_append, List.filter_map, hunindexed, hindexed, List.map_map,
    List.map_map]
  rfl

theorem setAt_name (e : String × α) (name : String) (value : α) :
    (if e.1 == name then (name, value) else e).1 = e.1 := by
  split
  · next hname => exact (eq_of_beq hname).symm
  · rfl

theorem inOrder_setAt (es : Entries α) (name : String) (value : α) :
    inOrder (setAt es name value) = setAt (inOrder es) name value :=
  inOrder_map (setAt_name · name value) es

/-- A record stays in order. -/
theorem inOrder_put {es : Entries α} (h : inOrder es = es) (name : String) (value : α) :
    inOrder (es.put name value) = es.put name value := by
  by_cases hmem : name ∈ es.names
  · rw [put_of_mem hmem, inOrder_setAt, h]
  · rw [put_of_not_mem hmem, inOrder_inOrder]

theorem remove_setAt (es : Entries α) (name : String) (value : α) :
    (setAt es name value).remove name = es.remove name := by
  have hnames : ((fun e : String × α => e.1 != name) ∘
      fun e => if e.1 == name then (name, value) else e) = fun e => e.1 != name :=
    funext fun e => by rw [Function.comp_apply, setAt_name]
  have hkept : ∀ e ∈ es.filter (·.1 != name),
      (if e.1 == name then (name, value) else e) = id e := fun e he =>
    if_neg (by simpa using (List.mem_filter.mp he).2)
  rw [remove, setAt, List.filter_map, hnames, List.map_congr_left hkept, List.map_id, remove]

/-- What is written under a name and removed again leaves no trace. -/
theorem remove_put {es : Entries α} {name : String} (h : inOrder es = es)
    (hname : index? name = none) (value : α) : (es.put name value).remove name = es.remove name := by
  by_cases hmem : name ∈ es.names
  · rw [put_of_mem hmem, remove_setAt]
  · rw [put_of_not_mem hmem, inOrder_concat es hname, h, remove, List.filter_append]
    simp [remove]

/-- Writes some entries, one after the other. -/
def putAll (es ds : Entries α) : Entries α := ds.foldl (fun es d => es.put d.1 d.2) es

theorem get?_putAll (es : Entries α) {ds : Entries α} (hnames : ds.names.Nodup) (name : String) :
    (es.putAll ds).get? name = (ds.get? name).or (es.get? name) := by
  induction ds generalizing es with
  | nil => rfl
  | cons d ds ih =>
    obtain ⟨hd, hds⟩ := List.nodup_cons.mp hnames
    rw [putAll, List.foldl_cons, ← putAll, ih _ hds, get?_put]
    split
    · next hname =>
      rw [hname, (get?_eq_none_iff ds d.1).mpr hd, get?_cons_self]
      rfl
    · next hname => rw [get?_cons_of_ne ds hname]

theorem inOrder_putAll {es : Entries α} (h : inOrder es = es) (ds : Entries α) :
    inOrder (es.putAll ds) = es.putAll ds := by
  induction ds generalizing es with
  | nil => exact h
  | cons d ds ih => exact ih (inOrder_put h d.1 d.2)

/-- New names that are no list indices come behind those that are there, in the order given. -/
theorem putAll_eq_append {es ds : Entries α} (h : inOrder es = es)
    (hunindexed : ∀ d ∈ ds, index? d.1 = none) (hnew : ∀ d ∈ ds, d.1 ∉ es.names)
    (hnames : ds.names.Nodup) : es.putAll ds = es ++ ds := by
  induction ds generalizing es with
  | nil => exact (List.append_nil es).symm
  | cons d ds ih =>
    obtain ⟨hd, hds⟩ := List.nodup_cons.mp hnames
    obtain ⟨hindex, hindices⟩ := List.forall_mem_cons.mp hunindexed
    obtain ⟨hfresh, hfreshes⟩ := List.forall_mem_cons.mp hnew
    have hput : es.put d.1 d.2 = es ++ [d] := by
      rw [put_of_not_mem hfresh, inOrder_concat es hindex, h]
    have hrest : ∀ c ∈ ds, c.1 ∉ names (es ++ [d]) := by
      intro c hc hmem
      have hcd : c.1 ∈ es.names ∨ c.1 = d.1 := by simpa [names] using hmem
      rcases hcd with hold | hsame
      · exact hfreshes c hc hold
      · exact hd (List.mem_map.mpr ⟨c, hc, hsame⟩)
    rw [putAll, List.foldl_cons, ← putAll, hput, ih _ hindices hrest hds]
    · simp
    · rw [inOrder_concat es hindex, h]

end Entries
end RowFilter
