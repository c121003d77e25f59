import RowFilter.Fault
import RowFilter.Entries
import RowFilter.Schema

/-!
# Catalogues

The models of a schema with their fields in order of declaration. A catalogue is made from the
declarations of its models: a field is declared with its type, or with the related model and the
cardinality.
-/

namespace RowFilter

/-- How a field is declared. -/
inductive Declaration where
  | scalar (type : ValueType)
  | relation (target : String) (cardinality : Cardinality)
deriving DecidableEq

/-- The field that a declaration makes of a name on a model. -/
def Declaration.field (d : Declaration) (model name : String) : Field :=
  match d with
  | .scalar type => .scalar ⟨name, model, type⟩
  | .relation target cardinality => .relation ⟨name, model, target, cardinality⟩

/-- A model with its fields (`DefinedModel`). -/
structure Model where
  name : String
  fields : Entries Field

namespace Model

def declare (name : String) (declarations : Entries Declaration) : Model :=
  ⟨name, declarations.map fun d => (d.1, d.2.field name d.1)⟩

def fieldNames (m : Model) : List String := m.fields.names

def field? (m : Model) (name : String) : Option Field := m.fields.get? name

/-- The field under a name, which has to be a scalar one (`scalar`). -/
def scalar (m : Model) (name : String) : Except Fault ScalarField :=
  match m.field? name with
  | some (.scalar field) => .ok field
  | _ => .error (.notScalar m.name name)

/-- The field under a name, which has to be a relation (`relation`). -/
def relation (m : Model) (name : String) : Except Fault RelationField :=
  match m.field? name with
  | some (.relation field) => .ok field
  | _ => .error (.notRelation m.name name)

end Model

/-- What `defineSchema` makes. -/
structure Catalog where
  models : List Model

namespace Catalog

def declare (declarations : Entries (Entries Declaration)) : Catalog :=
  ⟨declarations.map fun d => .declare d.1 d.2⟩

def model? (c : Catalog) (name : String) : Option Model := c.models.find? (·.name == name)

/-- The model under a name, which has to be there (`model`). -/
def model (c : Catalog) (name : String) : Except Fault Model :=
  match c.model? name with
  | some m => .ok m
  | none => .error (.unknownModel name)

/-- The fields of all models. -/
def schema (c : Catalog) : Schema :=
  ⟨fun model name => (c.model? model).bind (·.field? name)⟩

end Catalog
end RowFilter
