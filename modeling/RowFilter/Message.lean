import RowFilter.Entries

/-!
# Messages

The catalogue of messages, and the filling of their templates. A placeholder is a name of ASCII
letters, digits and underscores between braces; it gives way to the value of that name, and
stays as it is where there is none. Values are not searched for placeholders again.
-/

namespace RowFilter

/-- The messages of the catalogue (`MESSAGES`). -/
inductive Message where
  | tooComplex
  | invalidOperator
  | moduloField
  | notAList
  | moduloOperands
  | moduloZero
  | relationComparison
  | relationPrimitive
  | attributeObject
  | emptyObject
  | misplacedMatch
  | unconvertible
  | notADocument
  | logicalList
  | logicalObject
  | malformedPath
  | unknownField
  | forbidden
deriving DecidableEq

namespace Message

def all : List Message :=
  [.tooComplex, .invalidOperator, .moduloField, .notAList, .moduloOperands, .moduloZero,
   .relationComparison, .relationPrimitive, .attributeObject, .emptyObject, .misplacedMatch,
   .unconvertible, .notADocument, .logicalList, .logicalObject, .malformedPath, .unknownField,
   .forbidden]

theorem mem_all (m : Message) : m ∈ all := by
  cases m <;> simp [all]

/-- The name of a message in translated catalogues. -/
def key : Message → String
  | .tooComplex => "complexity_exceeded"
  | .invalidOperator => "invalid_op"
  | .moduloField => "invalid_mod_field"
  | .notAList => "invalid_in_comp"
  | .moduloOperands => "invalid_mod_values"
  | .moduloZero => "invalid_mod_divisor"
  | .relationComparison => "invalid_relation_comp"
  | .relationPrimitive => "invalid_relation_primitive"
  | .attributeObject => "invalid_attr_comp"
  | .emptyObject => "invalid_empty_comp"
  | .misplacedMatch => "invalid_elem_match"
  | .unconvertible => "data_conversion_error"
  | .notADocument => "invalid_filter_document"
  | .logicalList => "invalid_logical_list"
  | .logicalObject => "invalid_logical_object"
  | .malformedPath => "invalid_field_path"
  | .unknownField => "unknown_field"
  | .forbidden => "invalid_whitelist_permission"

def template : Message → String
  | .tooComplex => "This query is too complex."
  | .invalidOperator => "Invalid operator."
  | .moduloField => "$mod may only be used on integer fields."
  | .notAList => "$in and $nin values must be a list."
  | .moduloOperands => "$mod value must be a list of two integers."
  | .moduloZero => "$mod divisor must not be zero."
  | .relationComparison => "Relationships can't be checked for equality."
  | .relationPrimitive => "Relationships can't be compared to primitive values."
  | .attributeObject => "Attempts at comparing an attribute to an object aren't valid."
  | .emptyObject => "Fields can't be compared to empty objects."
  | .misplacedMatch => "$elemMatch not applied to subobject."
  | .unconvertible => "Unable to convert provided data to the proper type for this field."
  | .notADocument => "Filter must be a filter object."
  | .logicalList => "\x7bop\x7d value must be a list of filter objects."
  | .logicalObject => "\x7bop\x7d value must be a filter object."
  | .malformedPath => "Invalid field path: \x7breason\x7d."
  | .unknownField => "Unknown field: \x7bfield\x7d."
  | .forbidden => "Attempt made to query a field without proper permission."

end Message

/-- Makes the text of a message from its template and, for some messages, named values
(`MessageFormatter`). -/
abbrev Formatter := String → Option (Entries String) → String

namespace Template

def isNameChar (c : Char) : Bool :=
  'a' ≤ c && c ≤ 'z' || 'A' ≤ c && c ≤ 'Z' || '0' ≤ c && c ≤ '9' || c = '_'

def opening : Char := '\x7b'

def closing : Char := '\x7d'

/-- Fills a template in one pass, at the matches of `PLACEHOLDER_REGEX`. `pending` is the name read
since an opening brace, last character first. -/
def fillFrom (value? : String → Option String) : (pending : Option (List Char)) →
    List Char → List Char
  | none, [] => []
  | some name, [] => opening :: name.reverse
  | none, c :: s =>
    if c = opening then fillFrom value? (some []) s else c :: fillFrom value? none s
  | some name, c :: s =>
    if isNameChar c then fillFrom value? (some (c :: name)) s
    else if c = closing ∧ name ≠ [] then
      match value? (String.ofList name.reverse) with
      | some value => value.toList ++ fillFrom value? none s
      | none => opening :: name.reverse ++ closing :: fillFrom value? none s
    else if c = opening then opening :: name.reverse ++ fillFrom value? (some []) s
    else opening :: name.reverse ++ c :: fillFrom value? none s

def fill (value? : String → Option String) (template : String) : String :=
  String.ofList (fillFrom value? none template.toList)

/-- A template without an opening brace is its own text. -/
theorem fill_of_no_opening (value? : String → Option String) (template : String)
    (h : opening ∉ template.toList) : fill value? template = template := by
  suffices ∀ s : List Char, opening ∉ s → fillFrom value? none s = s by
    simp [fill, this template.toList h]
  intro s hs
  induction s with
  | nil => rfl
  | cons c s ih =>
    simp only [List.mem_cons, not_or] at hs
    simp [fillFrom, Ne.symm hs.1, ih hs.2]

example : fill (fun _ => some "x") "Invalid operator." = "Invalid operator." := by decide +kernel

end Template

/-- Fills in the named values; without any, the template is the message
(`defaultFormatMessage`). -/
def Formatter.plain : Formatter := fun template values =>
  match values with
  | none => template
  | some es => Template.fill es.get? template

example : Formatter.plain Message.unknownField.template (some [("field", "tracks.nme")]) =
    "Unknown field: tracks.nme." := by decide +kernel
example : Formatter.plain "\x7b\x7ba\x7d\x7d \x7bb\x7d" (some [("a", "\x7bb\x7d")]) =
    "\x7b\x7bb\x7d\x7d \x7bb\x7d" := by decide +kernel

end RowFilter
