import RowFilter.Path

/-!
# Schemas

A model has fields under names. A scalar field holds a value of one type, a relation leads to
rows of another model, to one or to many. A schema looks fields up by model and name and says
nothing else, so that relations may run in circles and models may have any field names.
-/

namespace RowFilter

/-- The types of values (`SCALAR_TYPES`). -/
inductive ScalarType where
  | int
  | text
  | bool
  | date
  | datetime
  | float
  | time
deriving DecidableEq

namespace ScalarType

def all : List ScalarType := [.int, .text, .bool, .date, .datetime, .float, .time]

def label : ScalarType → String
  | .int => "int"
  | .text => "text"
  | .bool => "bool"
  | .date => "date"
  | .datetime => "datetime"
  | .float => "float"
  | .time => "time"

def ofLabel? (s : String) : Option ScalarType := all.find? (·.label == s)

theorem ofLabel?_label (t : ScalarType) : ofLabel? t.label = some t := by
  cases t <;> decide

end ScalarType

/-- The type of a scalar field, which a schema of the host's own may take from elsewhere. -/
inductive ValueType where
  | scalar (type : ScalarType)
  | foreign (label : String)
deriving DecidableEq

namespace ValueType

def label : ValueType → String
  | .scalar type => type.label
  | .foreign label => label

def ofLabel (s : String) : ValueType :=
  match ScalarType.ofLabel? s with
  | some type => .scalar type
  | none => .foreign s

end ValueType

inductive Cardinality where
  | one
  | many
deriving DecidableEq

namespace Cardinality

def label : Cardinality → String
  | .one => "one"
  | .many => "many"

def ofLabel? (s : String) : Option Cardinality := [one, many].find? (·.label == s)

end Cardinality

/-- A field knows its name and the model that owns it. -/
structure ScalarField where
  name : String
  model : String
  valueType : ValueType
deriving DecidableEq

/-- A field that leads to rows of the model `target`. -/
structure RelationField where
  name : String
  model : String
  /-- The model of the related rows. -/
  target : String
  cardinality : Cardinality
deriving DecidableEq

/-- What a name of a model stands for (`FieldDescriptor`). -/
inductive Field where
  | scalar (field : ScalarField)
  | relation (field : RelationField)
deriving DecidableEq

namespace Field

def isRelation : Field → Bool
  | .relation _ => true
  | .scalar _ => false

end Field

/-- The models that are known (`SchemaModel`), each under its name. -/
structure Schema where
  /-- The field of a model under a name (`getField`). -/
  field? : (model name : String) → Option Field

end RowFilter
