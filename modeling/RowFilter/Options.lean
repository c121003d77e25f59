import RowFilter.Message
import RowFilter.Predicate.Written

/-!
# Options

What a host passes along with a filter document: settings under names, not yet checked. A
setting is a plain value, or one of the things that only a host can make.

Options are layered: those of a call go over the defaults of a compiler, name by name. A call
with an absent value says nothing. One name is special in a layered record: it does not become
an entry but puts another value behind the record, which is asked for the names that have no
entry of their own.
-/

namespace RowFilter

/-- A condition on the rows behind a relation, or whatever else stands in its place. -/
inductive Condition where
  | predicate (p : Predicate)
  | value (v : Value)

inductive ConditionEntry where
  | one (condition : Condition)
  | many (conditions : List Condition)

inductive Setting where
  | value (v : Value)
  | predicate (p : Predicate)
  /-- A function of paths. It may fail with a message. -/
  | pathFunction (f : String → Except String Value)
  | conditionTable (table : Entries ConditionEntry)
  | conditionFunction (f : String → Except String ConditionEntry)
  | formatter (format : Formatter)
  /-- A function that keeps the messages it is given. -/
  | logger

/-- A plain value in the place of conditions. -/
def ConditionEntry.ofValue : Value → ConditionEntry
  | .list items => .many (items.map .value)
  | v => .one (.value v)

namespace Condition

/-- The predicate itself, or the one that a value is written as. -/
def predicate? : Condition → Option Predicate
  | .predicate p => some p
  | .value v => v.predicate?

/-- Does it show itself as a predicate? -/
def looksRight : Condition → Bool
  | .predicate _ => true
  | .value v => v.looksLikePredicate

theorem looksRight_of_predicate? {c : Condition} {p : Predicate} (h : c.predicate? = some p) :
    c.looksRight = true := by
  cases c with
  | predicate q => rfl
  | value v => exact Value.looksLikePredicate_of_predicate? h

/-- Reads a condition. -/
def read (c : Condition) : Except Fault Predicate :=
  match c.predicate? with
  | some p => .ok p
  | none => .error .noPredicate

end Condition

namespace Setting

def isAbsent : Setting → Bool
  | .value .absent => true
  | _ => false

def isMissing : Setting → Bool
  | .value v => v.isMissing
  | _ => false

def isFunction : Setting → Bool
  | .value .function | .pathFunction _ | .conditionFunction _ | .formatter _ | .logger => true
  | _ => false

/-- The word for the kind of a setting in reports. -/
def kindName : Setting → String
  | .value v => v.kindName
  | .predicate _ | .conditionTable _ => "object"
  | _ => "function"

/-- The value that stands behind a record when this setting is put there: a value with
properties, or nothing. Other settings change nothing. -/
def behind? : Setting → Option (Option Value)
  | .value .null => some none
  | .value v =>
    match v with
    | .record _ _ | .list _ | .date _ | .table | .function => some (some v)
    | _ => none
  | _ => none

end Setting

structure Options where
  own : Entries Setting
  /-- Asked for the names without an entry. -/
  behind : Option Value

namespace Options

def ofEntries (own : Entries Setting) : Options := ⟨own, none⟩

def empty : Options := ofEntries []

/-- The setting under a name. -/
def setting? (o : Options) (name : String) : Option Setting :=
  match o.own.get? name with
  | some s => some s
  | none => (o.behind.bind (·.member? name)).map .value

/-- Every name with a setting, the own ones first. -/
def names (o : Options) : List String :=
  let inherited := match o.behind with
    | some v => v.properties.names
    | none => []
  o.own.names ++ inherited.filter fun name => !o.own.names.contains name

/-- The name that does not become an entry of a layered record. -/
def behindName : String := "__proto__"

/-- Lays one setting over the options. -/
def override (o : Options) (name : String) (s : Setting) : Options :=
  if s.isAbsent then o
  else if name = behindName ∧ (o.own.get? name).isNone then
    match s.behind? with
    | some behind => { o with behind }
    | none => o
  else { o with own := o.own.put name s }

/-- Lays overrides over defaults (`mergeCompileOptions`). -/
def merge (defaults overrides : Entries Setting) : Options :=
  overrides.foldl (fun o e => o.override e.1 e.2) (ofEntries defaults)

/-- A copy takes the own settings and leaves the value behind. -/
def copy (o : Options) : Options := ofEntries o.own

end Options

/-- What was passed as options: a record of settings, or any other value. -/
inductive OptionsArgument where
  | settings (o : Options)
  | value (v : Value)

namespace OptionsArgument

def absent : OptionsArgument := .value .absent

/-- The kind of the argument as a whole. -/
def kindName : OptionsArgument → String
  | .settings o =>
    match o.behind with
    | some .table => "map"
    | some (.date _) => "date"
    | _ => "object"
  | .value v => v.kindName

/-- The settings of an argument that is a record. -/
def options? (a : OptionsArgument) : Option Options :=
  if a.kindName ≠ "object" then none
  else match a with
    | .settings o => some o
    | .value v => some (.ofEntries (v.properties.map fun e => (e.1, .value e.2)))

/-- The settings that a copy of the argument takes over. An absent argument has none, and null
cannot be copied. -/
def entries (a : OptionsArgument) : Except Fault (Entries Setting) :=
  match a with
  | .settings o => .ok o.own
  | .value .null => .error .noRecord
  | .value v => .ok (v.properties.map fun e => (e.1, .value e.2))

end OptionsArgument
end RowFilter
