import RowFilter.Fault
import RowFilter.Schema

/-!
# Predicates

What a filter asks of a row. A comparison asks about one scalar field, a related node about the
rows behind a relation: that one of many, or the one there is, satisfies the inner predicate.
Paths lead from the root model, also inside related nodes.

The empty conjunction holds of every row, and so, by convention, does the empty disjunction.
-/

namespace RowFilter

/-- The comparisons with one value (`ValueComparisonOp`). -/
inductive CompareOp where
  | eq
  | ne
  | lt
  | lte
  | gt
  | gte
deriving DecidableEq

namespace CompareOp

def all : List CompareOp := [.eq, .ne, .lt, .lte, .gt, .gte]

def label : CompareOp → String
  | .eq => "eq"
  | .ne => "ne"
  | .lt => "lt"
  | .lte => "lte"
  | .gt => "gt"
  | .gte => "gte"

/-- The sign of a comparison (`OPERATOR_SYMBOLS`). -/
def symbol : CompareOp → String
  | .eq => "="
  | .ne => "!="
  | .lt => "<"
  | .lte => "<="
  | .gt => ">"
  | .gte => ">="

def ofLabel? (s : String) : Option CompareOp := all.find? (·.label == s)

end CompareOp

/-- What a comparison asks of the value of its field. -/
inductive Comparison where
  | compare (op : CompareOp) (operand : Value)
  /-- A pattern with wildcards. -/
  | like (pattern : String)
  | among (operands : List Value)
  /-- The remainder for a divisor, as a record that names both. -/
  | modulo (operand : Value)
  | isNull
  | notNull

def Comparison.label : Comparison → String
  | .compare op _ => op.label
  | .like _ => "like"
  | .among _ => "in"
  | .modulo _ => "mod"
  | .isNull => "isNull"
  | .notNull => "notNull"

/-- A node, with those below it (`PredicateNode`). -/
inductive Predicate where
  | all (children : List Predicate)
  | any (children : List Predicate)
  | not (child : Predicate)
  | related (relation : RelationField) (path : Path) (inner : Predicate)
  | test (field : ScalarField) (path : Path) (comparison : Comparison)

namespace Predicate

/-- The predicate of every row (`TRUE`). -/
def true : Predicate := .all []

/-- Is it the predicate of every row (`isTrue`)? -/
def isTrue : Predicate → Bool
  | .all [] => Bool.true
  | _ => Bool.false

/-- Conjunction (`and`). A single predicate stands for itself. -/
def conjunction : List Predicate → Predicate
  | [p] => p
  | ps => .all ps

/-- Disjunction (`or`). A single predicate stands for itself, and none at all is true. -/
def disjunction : List Predicate → Predicate
  | [] => true
  | [p] => p
  | ps => .any ps

/-- Is the node a conjunction or a disjunction? -/
def isCompound : Predicate → Bool
  | .all _ | .any _ => Bool.true
  | _ => Bool.false

/-- The kinds by which a record shows itself as a predicate (`PREDICATE_KINDS`). -/
def kinds : List String := ["and", "or", "not", "exists", "comparison"]

def kind : Predicate → String
  | .all _ => "and"
  | .any _ => "or"
  | .not _ => "not"
  | .related _ _ _ => "exists"
  | .test _ _ _ => "comparison"

theorem kind_mem_kinds (p : Predicate) : p.kind ∈ kinds := by
  cases p <;> simp [kind, kinds]

/-! ## Comparisons with a checked operand

The four forms of `compare`, each with the check of its operand, and the two checks for null.
-/

/-- A value that stands for itself, and neither for a list nor for a remainder. -/
def isSingle (v : Value) : Bool :=
  match v with
  | .list _ => Bool.false
  | v => v.modulus?.isNone

def compare (field : ScalarField) (op : CompareOp) (operand : Value) (path : Path) :
    Except Fault Predicate :=
  if isSingle operand then .ok (.test field path (.compare op operand))
  else .error (.misused (.single op.label))

def like (field : ScalarField) (pattern : Value) (path : Path) : Except Fault Predicate :=
  match pattern.spelling? with
  | some s => .ok (.test field path (.like s))
  | none => .error .noText

def among (field : ScalarField) (operands : Value) (path : Path) : Except Fault Predicate :=
  match operands with
  | .list vs => .ok (.test field path (.among vs))
  | _ => .error (.misused .membership)

def modulo (field : ScalarField) (operand : Value) (path : Path) : Except Fault Predicate :=
  if operand.modulus?.isSome then .ok (.test field path (.modulo operand))
  else .error (.misused .modulo)

def isNull (field : ScalarField) (path : Path) : Predicate := .test field path .isNull

def notNull (field : ScalarField) (path : Path) : Predicate := .test field path .notNull

end Predicate

end RowFilter
