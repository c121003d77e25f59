import RowFilter.Coercion
import RowFilter.Predicate

/-!
# Operators on a field

Which comparison an operator asks of a field. A scalar field takes every operator; a relation
takes the operator of existence only, which asks whether any related row is there.

Operands are coerced to the type of the field, except patterns, which keep the text of the
operand, and remainders, which take two safe integers and no zero divisor. A refused operand is
reported whole, also if one of its items is to blame.
-/

namespace RowFilter

/-- The operators on a field (`FIELD_OPERATORS`). -/
inductive FieldOperator where
  | compare (op : CompareOp)
  | among
  | notAmong
  | modulo
  | like
  | presence
deriving DecidableEq

namespace FieldOperator

def all : List FieldOperator :=
  CompareOp.all.map .compare ++ [.among, .notAmong, .modulo, .like, .presence]

def token : FieldOperator → String
  | .compare op => "$" ++ op.label
  | .among => "$in"
  | .notAmong => "$nin"
  | .modulo => "$mod"
  | .like => "$like"
  | .presence => "$exists"

def tokens : List String := all.map token

/-- The operator behind a token, if it is one (`isFieldOperator`). -/
def ofToken? (s : String) : Option FieldOperator := all.find? (·.token == s)

theorem ofToken?_token (op : FieldOperator) : ofToken? op.token = some op := by
  cases op with
  | compare op => cases op <;> decide +kernel
  | _ => decide +kernel

theorem token_of_ofToken? {s : String} {op : FieldOperator} (h : ofToken? s = some op) :
    op.token = s := by
  simpa using List.find?_some h

/-- Divisor and remainder of a remainder operand. -/
def modulus (operand : Value) : Except Cause (Number × Number) :=
  match operand with
  | .list [.number divisor, .number remainder] =>
    if !(divisor.isSafeInteger && remainder.isSafeInteger) then .error .moduloOperands
    else if divisor.isZero then .error .moduloZero
    else .ok (divisor, remainder)
  | _ => .error .moduloOperands

/-- The text that a pattern looks for. -/
def patternText? : Value → Option String
  | .text s => some s
  | .number n => some n.text
  | .bool b => some (if b then "true" else "false")
  | .integer n => some (toString n)
  | _ => none

/-- A coerced operand (`coerce` of an `Evaluation`); a refusal names no more than its cause. -/
def coerced (type : ValueType) (v : Value) : Except Cause Value :=
  match Coercion.coerce type v with
  | .ok w => .ok w
  | .error _ => .error .unconvertible

/-- Does an operand of existence ask for presence? -/
def asksPresence (operand : Value) : Bool :=
  match Coercion.coerce (.scalar .bool) operand with
  | .ok (.bool b) => b
  | _ => false

variable (refuse : Cause → Fault)

/-- What an operator asks of a scalar field (`evaluateScalar`). -/
def onScalar (op : FieldOperator) (field : ScalarField) (operand : Value) (path : Path) :
    Except Fault Predicate :=
  match op with
  | .compare op => do
    let w ← (coerced field.valueType operand).mapError refuse
    Predicate.compare field op w path
  | .like =>
    match patternText? operand with
    | some s => .ok (.test field path (.like ("%" ++ s ++ "%")))
    | none => .error (refuse .unconvertible)
  | .among => do return (← membership)
  | .notAmong => do return .not (← membership)
  | .modulo =>
    if field.valueType ≠ .scalar .int then .error (refuse .moduloField)
    else do
      let (divisor, remainder) ← (modulus operand).mapError refuse
      return .test field path (.modulo (.ofModulus divisor remainder))
  | .presence =>
    .ok (if asksPresence operand then .notNull field path else .isNull field path)
where
  membership : Except Fault Predicate :=
    match operand with
    | .list items => do
      let ws ← (items.mapM (coerced field.valueType)).mapError refuse
      return .test field path (.among ws)
    | _ => .error (refuse .notAList)

/-- What an operator asks of a relation: the part of `evaluateOperator` for relations. -/
def onRelation (op : FieldOperator) (relation : RelationField) (operand : Value) (path : Path) :
    Except Fault Predicate :=
  if op = .presence then
    let present := Predicate.related relation path .true
    .ok (if asksPresence operand then present else .not present)
  else .error (refuse .relationComparison)

end FieldOperator

namespace Field

/-- Applies the operator behind a token to the field (`evaluateOperator`). Refusals name the data
key, the whole operand and the token. -/
def evaluate (field : Field) (token : String) (operand : Value) (dataKey path : Path) :
    Except Fault Predicate :=
  let refuse (cause : Cause) : Fault := .refused ⟨cause, dataKey, operand, some token⟩
  match FieldOperator.ofToken? token, field with
  | none, _ => .error (refuse .invalidOperator)
  | some op, .scalar s => op.onScalar refuse s operand path
  | some op, .relation r => op.onRelation refuse r operand path

end Field
end RowFilter
