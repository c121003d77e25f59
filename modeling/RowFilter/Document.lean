import RowFilter.Operator
import RowFilter.Value

/-!
# Filter documents

A document is a mapping, read entry by entry. A key that begins with a dollar sign combines
documents, opens a scope on the relation that the key around it names, or applies an operator
to the field there. Any other key is a field path.

The load of a document bounds how often a traversal turns to it or to what it makes of it. A
dotted key loads each of its segments, since every relation on the way makes a new document of
the rest.
-/

namespace RowFilter

/-- What a key of a document says: the cases of `processFragment`. -/
inductive DocumentKey where
  | all
  | any
  | none
  | not
  | elemMatch
  | operator (token : String)
  | field (key : String)
deriving DecidableEq

namespace DocumentKey

def ofText (s : String) : DocumentKey :=
  if s = "$and" then .all
  else if s = "$or" then .any
  else if s = "$nor" then .none
  else if s = "$not" then .not
  else if s = "$elemMatch" then .elemMatch
  else if s.toList.head? = some '$' then .operator s
  else .field s

/-- An operator is called by its whole key. -/
theorem eq_of_ofText_operator {s token : String} (h : ofText s = .operator token) : token = s := by
  unfold ofText at h
  repeat' split at h
  all_goals cases h
  rfl

/-- A field key is read as it is written. -/
theorem eq_of_ofText_field {s key : String} (h : ofText s = .field key) : key = s := by
  unfold ofText at h
  repeat' split at h
  all_goals cases h
  rfl

example : ofText "$and" = .all ∧ ofText "$size" = .operator "$size" ∧
    ofText "tracks.name" = .field "tracks.name" := by decide +kernel

end DocumentKey

abbrev Fragment := Entries Value

namespace Value

/-- The fragments of a list of mappings (`isFilterList`). -/
def fragments? (v : Value) : Option (List Fragment) := v.list?.bind (·.mapM mapping?)

variable {fs : List Fragment}

/-- Only a list has fragments. -/
theorem exists_list_of_fragments? {v : Value} (h : v.fragments? = some fs) :
    ∃ items, v = .list items := by
  cases v with
  | list items => exact ⟨items, rfl⟩
  | _ => cases h

/-- The fragments of a list are the mapping that comes first and those of the other items. -/
theorem fragments?_cons_eq_some_iff {v : Value} {items : List Value} :
    (list (v :: items)).fragments? = some fs ↔
      ∃ f rest, v.mapping? = some f ∧ (list items).fragments? = some rest ∧ fs = f :: rest := by
  show (v :: items).mapM mapping? = some fs ↔
    ∃ f rest, v.mapping? = some f ∧ items.mapM mapping? = some rest ∧ fs = f :: rest
  simp only [List.mapM_cons, Option.bind_eq_bind, Option.bind_eq_some_iff, Option.pure_def,
    Option.some.injEq, exists_and_left, @eq_comm _ _ fs]

end Value

namespace Fragment

/-- The fragment that `processField` makes of a value: the value itself, or an equation. -/
def ofValue (v : Value) : Fragment := v.mapping?.getD [("$eq", v)]

/-- The documents in a list are alternatives. So `processNor` puts them. -/
def anyOf (v : Value) : Fragment := [("$or", v)]

/-- A scope around one entry. So `processField` puts one around the rest of a key. -/
def scope (key : String) (v : Value) : Fragment := [("$elemMatch", .ofEntries [(key, v)])]

/-- One entry of a mapping under the bare name of a relation (`relationMatch`). Scopes and the
question of existence are about the relation itself, and all else is about the rows behind it. -/
def onRelation (e : String × Value) : Fragment :=
  if e.1 = "$elemMatch" ∨ e.1 = "$exists" then [e] else scope e.1 e.2

/-! ## Load -/

/-- The load of an entry, from the load of its value as a fragment or a list of fragments, and
from that of the fragments it spreads into under the name of a relation. -/
def keyLoad (key : String) (whole spread : Nat) : Nat :=
  match DocumentKey.ofText key with
  | .all | .any | .not | .elemMatch => 3 + whole
  | .none => 5 + whole
  | .operator _ => 1
  | .field text => 5 * (Path.ofText text).length + 4 + spread

/-- The sum of some loads. -/
def sum : List Nat → Nat
  | [] => 0
  | n :: ns => n + sum ns

@[simp] theorem sum_nil : sum [] = 0 := rfl

@[simp] theorem sum_cons (n : Nat) (ns : List Nat) : sum (n :: ns) = n + sum ns := rfl

@[simp] theorem sum_append (ms ns : List Nat) : sum (ms ++ ns) = sum ms + sum ns := by
  induction ms with
  | nil => simp
  | cons m ms ih => simp [ih, Nat.add_assoc]

/-- The load of a fragment, from the loads of its entries. -/
def joined : List Nat → Nat
  | [n] => n
  | ns => 2 + sum ns

mutual

/-- The load of a value where a fragment or a list of fragments is wanted, and its load when
each of its entries gets a scope of its own. A record of a class is never read as a fragment. -/
def weigh : Value → Nat × Nat
  | .record .ofClass _ => (0, 0)
  | .record _ entries =>
    let loads := entryLoads entries
    (joined loads, 3 * loads.length + sum loads)
  | .list items => (sum (weighAll items), 0)
  | _ => (0, 0)

def weighAll : List Value → List Nat
  | [] => []
  | v :: rest => (weigh v).1 :: weighAll rest

def entryLoad : String × Value → Nat
  | (key, v) =>
    let weight := weigh v
    keyLoad key weight.1 weight.2

def entryLoads : List (String × Value) → List Nat
  | [] => []
  | e :: rest => entryLoad e :: entryLoads rest

end

def load (v : Value) : Nat := (weigh v).1

def spread (v : Value) : Nat := (weigh v).2

theorem weighAll_eq (items : List Value) : weighAll items = items.map load := by
  induction items with
  | nil => rfl
  | cons v rest ih => simp [weighAll, load, ih]

theorem entryLoads_eq (entries : List (String × Value)) :
    entryLoads entries = entries.map entryLoad := by
  induction entries with
  | nil => rfl
  | cons e rest ih => simp [entryLoads, ih]

theorem entryLoad_eq (key : String) (v : Value) :
    entryLoad (key, v) = keyLoad key (load v) (spread v) := by
  simp [entryLoad, load, spread]

/-- The load of a whole fragment. -/
def totalLoad (f : Fragment) : Nat := joined (entryLoads f)

theorem load_of_mapping? {v : Value} {f : Fragment} (h : v.mapping? = some f) :
    load v = totalLoad f := by
  cases v with
  | record kind entries => cases kind <;> cases h <;> rfl
  | _ => cases h

theorem spread_of_mapping? {v : Value} {f : Fragment} (h : v.mapping? = some f) :
    spread v = 3 * f.length + sum (f.map entryLoad) := by
  have hspread : spread v = 3 * (entryLoads f).length + sum (entryLoads f) := by
    cases v with
    | record kind entries => cases kind <;> cases h <;> rfl
    | _ => cases h
  rw [hspread, entryLoads_eq, List.length_map]

end Fragment
end RowFilter
