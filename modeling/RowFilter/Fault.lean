import RowFilter.Message
import RowFilter.Path
import RowFilter.Value

/-!
# Faults

Whatever can go wrong, as causes. A *refusal* is the fault of a filter document at one place:
its cause, the path as the document writes it, the fragment and the operator there. The code,
the message and the details of a refusal follow from its cause.

The other faults lie with the caller: ill-formed options or definitions, a name that no schema
declares, a comparison built by hand with the wrong operand, a policy function that failed.
-/

namespace RowFilter

/-- Why a filter document is refused. -/
inductive Cause where
  | notADocument
  | logicalList
  | logicalObject
  | invalidOperator
  | moduloField
  | notAList
  | moduloOperands
  | moduloZero
  | relationComparison
  | relationPrimitive
  | attributeObject
  | emptyObject
  | misplacedMatch
  | unconvertible
  | malformedPath (problem : Path.Problem)
  /-- The inner name of a key has another number of segments, or there is none. -/
  | untranslated (answer : Option String)
  | unknownField (segment model : String)
  | forbidden
deriving DecidableEq

/-- What programs may rely on to tell refusals apart (`FieldErrorCode`). -/
inductive Code where
  | operator
  | membership
  | modulo
  | relation
  | attribute
  | empty
  | elemMatch
  | conversion
  | logical
  | path
  | unknown
  | permission
deriving DecidableEq

namespace Code

def label : Code → String
  | .operator => "invalid_op"
  | .membership => "invalid_in_comp"
  | .modulo => "invalid_mod_values"
  | .relation => "invalid_relation_comp"
  | .attribute => "invalid_attr_comp"
  | .empty => "invalid_empty_comp"
  | .elemMatch => "invalid_elem_match"
  | .conversion => "data_conversion_error"
  | .logical => "invalid_logical_comp"
  | .path => "invalid_field_path"
  | .unknown => "unknown_field"
  | .permission => "invalid_whitelist_permission"

end Code

namespace Cause

def code : Cause → Code
  | .notADocument | .logicalList | .logicalObject => .logical
  | .invalidOperator | .moduloField => .operator
  | .notAList => .membership
  | .moduloOperands | .moduloZero => .modulo
  | .relationComparison | .relationPrimitive => .relation
  | .attributeObject => .attribute
  | .emptyObject => .empty
  | .misplacedMatch => .elemMatch
  | .unconvertible => .conversion
  | .malformedPath _ => .path
  | .untranslated _ | .unknownField _ _ => .unknown
  | .forbidden => .permission

def message : Cause → Message
  | .notADocument => .notADocument
  | .logicalList => .logicalList
  | .logicalObject => .logicalObject
  | .invalidOperator => .invalidOperator
  | .moduloField => .moduloField
  | .notAList => .notAList
  | .moduloOperands => .moduloOperands
  | .moduloZero => .moduloZero
  | .relationComparison => .relationComparison
  | .relationPrimitive => .relationPrimitive
  | .attributeObject => .attributeObject
  | .emptyObject => .emptyObject
  | .misplacedMatch => .misplacedMatch
  | .unconvertible => .unconvertible
  | .malformedPath _ => .malformedPath
  | .untranslated _ | .unknownField _ _ => .unknownField
  | .forbidden => .forbidden

/-- What a report says beyond the message. -/
def details : Cause → Entries Value
  | .malformedPath problem => [("reason", .text problem.reason)]
  | .untranslated (some answer) => [("translated", .text answer)]
  | .untranslated none => [("translated", .null)]
  | .unknownField segment model => [("segment", .text segment), ("model", .text model)]
  | _ => []

end Cause

/-- The fault of a document at one place (`FieldError`, with `FieldPermissionError` and
`UnknownFieldError`). -/
structure Refusal where
  cause : Cause
  /-- The path as the document writes it. -/
  dataKey : Path
  /-- The fragment at that path. -/
  filter : Value
  op : Option String

namespace Refusal

def code (r : Refusal) : Code := r.cause.code

/-- The values for the placeholders of the message; most messages take none. -/
def values (r : Refusal) : Option (Entries String) :=
  match r.cause with
  | .logicalList | .logicalObject => some [("op", r.op.getD "")]
  | .malformedPath problem => some [("reason", problem.reason)]
  | .untranslated _ | .unknownField _ _ => some [("field", r.dataKey.text)]
  | _ => none

def text (format : Formatter) (r : Refusal) : String :=
  format r.cause.message.template r.values

end Refusal

/-- A comparison built by hand with an operand of the wrong kind. -/
inductive Misuse where
  | membership
  | modulo
  | single (op : String)
deriving DecidableEq

def Misuse.text : Misuse → String
  | .membership => "in comparisons take a list of values"
  | .modulo => "mod comparisons take a \x7b divisor, remainder \x7d operand"
  | .single op => op ++ " comparisons take a single value"

inductive Fault where
  | refused (refusal : Refusal)
  /-- More work was pending than the limit allows (`ComplexityExceededError`). -/
  | tooComplex (limit : Nat)
  /-- A value that no coercion takes to the type (`TypeConversionError`). -/
  | unconvertible (value : Value) (target : String)
  /-- Options out of order (`FilterOptionsError`). -/
  | invalidOptions (issues : List String)
  /-- A source of nested conditions answered something else for this path. -/
  | invalidConditions (path : String)
  /-- A definition out of order (`SchemaDefinitionError`). -/
  | invalidDefinition (issues : List String)
  | unknownModel (name : String)
  | notScalar (model name : String)
  | notRelation (model name : String)
  | misused (misuse : Misuse)
  | policyFailed (message : String)
  | noOpenFrame
  /-- A value that has no text where text is wanted. -/
  | noText
  /-- A date that is no instant where its text is wanted. -/
  | noInstant
  /-- An argument that is absent where a record is wanted. -/
  | noRecord
  /-- Something else, or not enough of it, where a predicate is wanted. -/
  | noPredicate

namespace Fault

/-- The issues that a report on options or a definition lists. -/
def issues : Fault → List String
  | .invalidOptions issues | .invalidDefinition issues => issues
  | .invalidConditions path => [path ++ ": Expected a predicate node"]
  | _ => []

/-- The text of a fault. The last four have none of their own. -/
def text? (format : Formatter) : Fault → Option String
  | .refused r => some (r.text format)
  | .tooComplex _ => some (format Message.tooComplex.template none)
  | .unconvertible _ target => some ("Unable to convert value to " ++ target)
  | .invalidOptions issues => some ("Invalid compile options: " ++ "; ".intercalate issues)
  | .invalidConditions path => some ("Invalid nested conditions for '" ++ path ++ "'")
  | .invalidDefinition issues =>
    some ("Invalid schema definition: " ++ "; ".intercalate issues)
  | .unknownModel name => some ("Unknown model: " ++ name)
  | .notScalar model name => some (model ++ "." ++ name ++ " is not a scalar field")
  | .notRelation model name => some (model ++ "." ++ name ++ " is not a relation")
  | .misused misuse => some misuse.text
  | .policyFailed message => some message
  | .noOpenFrame => some "Scope frame stack is empty"
  | .noText | .noInstant | .noRecord | .noPredicate => none

/-- Is the filter document to blame (`InvalidFilterError`)? -/
def isRejection : Fault → Bool
  | .refused _ | .tooComplex _ => true
  | _ => false

end Fault

/-- A fault with its text in the words of the formatter in force. -/
structure Failure where
  fault : Fault
  text : Option String

def Failure.of (format : Formatter) (fault : Fault) : Failure := ⟨fault, fault.text? format⟩

end RowFilter
