import RowFilter.Log
import RowFilter.Options.Check
import RowFilter.Schema.Resolve

/-!
# Policies

What checked options mean for a compile: which fields may be asked about, which conditions hold
of the rows behind a relation, what a key is called inside, and how much work may be pending.

Every path that a policy is asked about goes without its list indices, except that keys are
translated as the document writes them. A question to a function of the host is on record even
if the function fails.
-/

namespace RowFilter

inductive Whitelist where
  /-- Every field, but not the root itself. -/
  | everything
  | listed (paths : List String)
  | asked (f : String → Except String Value)

inductive ConditionSource where
  | none
  | table (entries : Entries ConditionEntry)
  | asked (f : String → Except String ConditionEntry)

/-- What the options of a compile come to (`ResolvedCompileOptions`). -/
structure Policies where
  whitelist : Whitelist
  conditions : ConditionSource
  translator : Option (String → Except String Value)
  limit : Option Nat
  formatter : Formatter
  sink : Sink

namespace Policies

/-! ## From options -/

/-- A function of paths. Functions of another kind answer nothing. -/
def pathFunction : Setting → String → Except String Value
  | .pathFunction f => f
  | _ => fun _ => .ok .absent

def conditionFunction : Setting → String → Except String ConditionEntry
  | .conditionFunction f => f
  | _ => fun _ => .ok (.one (.value .absent))

/-- The setting under a name, unless it is left out. -/
def given? (o : Options) (name : OptionName) : Option Setting :=
  (o.setting? name.label).filter fun s => !s.isMissing

def whitelistOf : Option Setting → Whitelist
  | none => .everything
  | some s =>
    match s.texts? with
    | some paths => .listed paths
    | none => .asked (pathFunction s)

/-- The name that no table keeps. -/
def unkeptName : String := "__proto__"

def conditionsOf : Option Setting → ConditionSource
  | none => .none
  | some s =>
    match s.table? with
    | some table => .table (table.remove unkeptName)
    | none => .asked (conditionFunction s)

/-- The limit; none at all if it is zero. -/
def limitOf (s : Option Setting) : Option Nat :=
  ((s.bind Setting.number?).bind Number.toInt?).bind fun i =>
    if i.toNat = 0 then none else some i.toNat

def formatterOf : Option Setting → Formatter
  | none => .plain
  | some (.formatter format) => format
  | some _ => fun _ _ => ""

def ofOptions (o : Options) : Policies where
  whitelist := whitelistOf (given? o .whitelist)
  conditions := conditionsOf (given? o .nestedConditions)
  translator := (given? o .keyTranslator).map pathFunction
  limit := limitOf (given? o .complexityLimit)
  formatter := formatterOf (given? o .formatMessage)
  sink := .ofSetting ((o.setting? OptionName.debug.label).getD (.value .absent))
    Sink.defaultScope

/-- Checks an argument and reads it (`resolveCompileOptions`). -/
def resolve (a : OptionsArgument) : Except Fault Policies := a.check.map ofOptions

/-! ## Questions -/

/-- May a field be asked about (`isWhitelisted`)? A listed path must also lead to a field. -/
def isWhitelisted (p : Policies) (schema : Schema) (root : String) (path : Path) : Traced Bool :=
  match p.whitelist with
  | .everything => return path.text ≠ ""
  | .listed paths => return paths.contains path.text && schema.resolves root path
  | .asked f => do
    let answer ← Traced.ask .whitelist path (f path.text)
    return match answer with
      | .bool b => b
      | _ => false

/-- The predicates of an entry (`toPredicateList`). A single missing value is no condition. -/
def conditionList (path : Path) (entry : ConditionEntry) : Except Fault (List Predicate) :=
  let checked (cs : List Condition) : Except Fault (List Predicate) :=
    if cs.all Condition.looksRight then cs.mapM Condition.read
    else .error (.invalidConditions path.text)
  match entry with
  | .one (.value v) => if v.isMissing then .ok [] else checked [.value v]
  | .one c => checked [c]
  | .many cs => checked cs

/-- The conditions of the rows behind a relation (`nestedConditionsFor`). -/
def conditionsFor (p : Policies) (path : Path) : Traced (List Predicate) :=
  match p.conditions with
  | .none => return []
  | .table entries =>
    match entries.get? path.text with
    | some entry => Traced.ofExcept (conditionList path entry)
    | none => return []
  | .asked f => do
    let entry ← Traced.ask .nestedConditions path (f path.text)
    Traced.ofExcept (conditionList path entry)

/-- The inner name of a key, if the answer is a text (`translateKey`). -/
def translate (p : Policies) (key : Path) : Traced (Option String) :=
  match p.translator with
  | none => return some key.text
  | some f => do
    let answer ← Traced.ask .keyTranslator key (f key.text)
    return answer.text?

end Policies
end RowFilter
