import RowFilter.Fault
import RowFilter.Issue
import RowFilter.Options

/-!
# Checking options

The settings known by name, and what each of them may be. Three of them may also be null, which
is the same as leaving them out. Unknown names are issues too, so that a misspelled policy is
never silently without effect.
-/

namespace RowFilter

/-- The settings that a compile knows (`CompileOptions`). -/
inductive OptionName where
  | whitelist
  | nestedConditions
  | keyTranslator
  | complexityLimit
  | formatMessage
  | debug
deriving DecidableEq

namespace OptionName

def all : List OptionName :=
  [.whitelist, .nestedConditions, .keyTranslator, .complexityLimit, .formatMessage, .debug]

def label : OptionName → String
  | .whitelist => "whitelist"
  | .nestedConditions => "nestedConditions"
  | .keyTranslator => "keyTranslator"
  | .complexityLimit => "complexityLimit"
  | .formatMessage => "formatMessage"
  | .debug => "debug"

theorem label_injective {a b : OptionName} (h : a.label = b.label) : a = b := by
  revert h
  cases a <;> cases b <;> decide

/-- May the setting be null? -/
def takesNull : OptionName → Bool
  | .formatMessage | .debug => false
  | _ => true

end OptionName

namespace Setting

/-- The texts of a list that holds nothing else. -/
def texts? : Setting → Option (List String)
  | .value (.list items) => items.mapM Value.text?
  | _ => none

/-- The conditions of each path, for a table of conditions or a record in its place. -/
def table? : Setting → Option (Entries ConditionEntry)
  | .conditionTable table => some table
  | .value (.record _ entries) => some (entries.map fun e => (e.1, ConditionEntry.ofValue e.2))
  | _ => none

def number? : Setting → Option Number
  | .value (.number n) => if n = .nan then none else some n
  | _ => none

def bool? : Setting → Option Bool
  | .value (.bool b) => some b
  | _ => none

end Setting

def ConditionEntry.looksRight : ConditionEntry → Bool
  | .one c => c.looksRight
  | .many cs => cs.all Condition.looksRight

/-- A table all of whose entries look like predicates (`predicateSchema`). -/
def conditionsLookRight (table : Entries ConditionEntry) : Bool :=
  table.all fun e => e.2.looksRight

namespace OptionName

/-- The complaints about a limit. -/
def limitComplaints (s : Setting) : List String :=
  match s.number? with
  | none => ["Expected number, received " ++ s.kindName]
  | some n =>
    (if n.isInteger then [] else ["Expected integer, received float"]) ++
      (if n.isNegative && !n.isZero then ["Number must be greater than or equal to 0"] else [])

/-- The complaints about a setting that is there. -/
def complaints (name : OptionName) (s : Setting) : List String :=
  let demand (ok : Bool) (complaint : String) : List String := if ok then [] else [complaint]
  match name with
  | .whitelist => demand (s.isFunction || s.texts?.isSome) "Invalid input"
  | .nestedConditions =>
    demand (s.isFunction || s.table?.any conditionsLookRight) "Invalid input"
  | .keyTranslator | .formatMessage => demand s.isFunction "Expected a function"
  | .complexityLimit => limitComplaints s
  | .debug => demand (s.isFunction || s.bool?.isSome) "Invalid input"

def issues (name : OptionName) (s : Setting) : List Issue :=
  if s.isAbsent || name.takesNull && s.isMissing then []
  else (name.complaints s).map (⟨[name.label], ·⟩)

end OptionName

namespace Options

/-- The names that no setting has. -/
def unknownNames (o : Options) : List String :=
  o.names.filter fun name => !(OptionName.all.map OptionName.label).contains name

def issues (o : Options) : List Issue :=
  let known := OptionName.all.flatMap fun name =>
    match o.setting? name.label with
    | some s => name.issues s
    | none => []
  known ++ Issue.unrecognized [] o.unknownNames

theorem issues_empty : Options.empty.issues = [] := by decide +kernel

/-- Settings in order have known names only. -/
theorem unknownNames_of_issues {o : Options} (h : o.issues = []) : o.unknownNames = [] := by
  have hunknown := (List.append_eq_nil_iff.mp h).2
  by_cases hnone : o.unknownNames = []
  · exact hnone
  · simp [Issue.unrecognized, hnone] at hunknown

end Options

namespace OptionsArgument

def issues (a : OptionsArgument) : List Issue :=
  match a.options? with
  | some o => o.issues
  | none => [.notARecord [] a.kindName]

/-- The settings of an argument without issues (`compileOptionsSchema`). An absent argument has no
settings. -/
def check (a : OptionsArgument) : Except Fault Options :=
  match a with
  | .value .absent => .ok .empty
  | a =>
    match a.options?, a.issues with
    | some o, [] => .ok o
    | _, issues => .error (.invalidOptions (issues.map Issue.text))

end OptionsArgument
end RowFilter
