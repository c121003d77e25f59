import RowFilter.Issue
import RowFilter.Schema.Catalog
import RowFilter.Value

/-!
# Schema definitions

A definition is a record of models by name, each with a record of fields by name. A field is
defined by the word for its type, alone or in a record, or by the related model and the
cardinality. Names are identifiers, and none that field paths refuse.

The check lists all issues of the whole definition. A definition without issues may still name
related models that it does not have; those are reported last.

The issues of names are those of `identifierSchema`, and the issues of fields, models and
definitions those of `fieldDefinitionSchema`, `modelDefinitionSchema` and
`schemaDefinitionSchema`.
-/

namespace RowFilter.Definition

/-! ## Names -/

def isIdentifierStart (c : Char) : Bool :=
  'a' ≤ c && c ≤ 'z' || 'A' ≤ c && c ≤ 'Z' || c = '_'

def isIdentifier (s : List Char) : Bool :=
  match s with
  | [] => false
  | c :: rest => isIdentifierStart c && rest.all fun c => isIdentifierStart c || Text.isDigit c

/-- A name may fail on both counts. -/
def nameIssues (path : Path) (name : String) : List Issue :=
  (if isIdentifier name.toList then [] else [⟨path, "Must be an identifier"⟩]) ++
    if (Path.ofText name).problem?.isSome then [⟨path, "Reserved property name"⟩] else []

/-! ## Fields -/

def scalarType? (v : Value) : Option ScalarType := v.text?.bind ScalarType.ofLabel?

/-- The type in a record that is about nothing else. -/
def typed? (entries : Entries Value) : Option ScalarType :=
  (entries.get? "type").bind scalarType?

/-- Related model and cardinality. -/
def related? (entries : Entries Value) : Option (String × Cardinality) := do
  let target ← (← entries.get? "relation").text?
  let cardinality ← Cardinality.ofLabel? (← (← entries.get? "cardinality").text?)
  return (target, cardinality)

/-- The names in a record that are not among those it should have. -/
def extraNames (entries : Entries Value) (declared : List String) : List String :=
  entries.names.filter fun name => !declared.contains name

/-- The issues of a field. A record that reads as one of the forms has the issues of that form,
and whatever reads as none has a single one. -/
def fieldIssues (path : Path) (v : Value) : List Issue :=
  let invalid : List Issue := [⟨path, "Invalid input"⟩]
  match v with
  | .text s => if (ScalarType.ofLabel? s).isSome then [] else invalid
  | .record _ entries =>
    match typed? entries, related? entries with
    | some _, _ => Issue.unrecognized path (extraNames entries ["type"])
    | none, some (target, _) =>
      nameIssues (path ++ ["relation"]) target ++
        Issue.unrecognized path (extraNames entries ["relation", "cardinality"])
    | none, none => invalid
  | _ => invalid

def declaration? (v : Value) : Option Declaration :=
  match v with
  | .record _ entries =>
    match typed? entries with
    | some type => some (.scalar (.scalar type))
    | none => (related? entries).map fun r => .relation r.1 r.2
  | v => (scalarType? v).map (.scalar ∘ .scalar)

/-! ## Models -/

/-- The issues of a record of named things. -/
def recordIssues (path : Path) (v : Value) (each : Path → Value → List Issue) : List Issue :=
  match v.entries? with
  | none => [.notARecord path v.kindName]
  | some entries => entries.flatMap fun e =>
    nameIssues (path ++ [e.1]) e.1 ++ each (path ++ [e.1]) e.2

def modelIssues (path : Path) (v : Value) : List Issue :=
  match v.entries? with
  | none => [.notARecord path v.kindName]
  | some entries =>
    recordIssues (path ++ ["fields"]) ((entries.get? "fields").getD .absent) fieldIssues ++
      Issue.unrecognized path (extraNames entries ["fields"])

def issues (definition : Value) : List Issue := recordIssues [] definition modelIssues

/-! ## Declarations -/

/-- The declarations of one model. -/
def fieldDeclarations (model : Value) : Entries Declaration :=
  ((model.member? "fields").bind Value.entries?).getD [] |>.filterMap fun e =>
    (declaration? e.2).map (e.1, ·)

def declarations (definition : Value) : Entries (Entries Declaration) :=
  (definition.entries?.getD []).map fun e => (e.1, fieldDeclarations e.2)

/-- Relations to models that are not there. -/
def missingTargets (models : Entries (Entries Declaration)) : List Issue :=
  models.flatMap fun m => m.2.filterMap fun d =>
    match d.2 with
    | .relation target _ =>
      if models.names.contains target then none
      else some ⟨[m.1, "fields", d.1, "relation"], "Unknown model '" ++ target ++ "'"⟩
    | .scalar _ => none

/-- Checks a definition and makes its models (`defineSchema`). -/
def define (definition : Value) : Except Fault Catalog :=
  let models := declarations definition
  match issues definition, missingTargets models with
  | [], [] => .ok (.declare models)
  | [], missing => .error (.invalidDefinition (missing.map Issue.text))
  | found, _ => .error (.invalidDefinition (found.map Issue.text))

example : issues (.ofEntries [("M", .ofEntries [("fields",
      .ofEntries [("f", .ofEntries [("type", .text "int"), ("x", .null)])])])]) =
    [⟨["M", "fields", "f"], "Unrecognized key(s) in object: 'x'"⟩] := by decide +kernel

end RowFilter.Definition
