import RowFilter.Predicate
import RowFilter.Text.Quoted

/-!
# Predicates on one line

Conjunctions and disjunctions stand in parentheses, and empty ones read `TRUE`. A related node
reads `ANY` or `HAS` by its cardinality, then its path, then its inner predicate unless that is
true; the inner predicate stands in parentheses of its own or of the node's.

Values that are no operand of a comparison have the text that text wants of them. A date that
is no instant, and a value without a text, cannot be rendered.
-/

namespace RowFilter

namespace Value

/-- A value as it stands in a rendered comparison (`formatValue`). -/
def render (v : Value) : Except Fault String :=
  match v with
  | .null => .ok "NULL"
  | .text s => .ok (Text.quote s)
  | .number n => .ok n.text
  | .bool b => .ok (if b then "true" else "false")
  | .date (some ms) => .ok (Instant.text ms)
  | .date none => .error .noInstant
  | v =>
    match v.timeOfDay? with
    | some (hour, minute, second) =>
      .ok (String.ofList (Text.Form.time.write [hour, minute, second]))
    | none =>
      match v.spelling? with
      | some s => .ok s
      | none => .error .noText

end Value

namespace Comparison

/-- Everything a comparison says about its field (`formatComparison`). -/
def render : Comparison → Except Fault String
  | .compare op operand => do return op.symbol ++ " " ++ (← operand.render)
  | .like pattern => return "LIKE " ++ Text.quote pattern
  | .among operands => do
    let texts ← operands.mapM Value.render
    return "IN (" ++ ", ".intercalate texts ++ ")"
  | .modulo operand =>
    match operand.modulus? with
    | some (divisor, remainder) => return "% " ++ divisor.text ++ " = " ++ remainder.text
    | none => throw .noText
  | .isNull => return "IS NULL"
  | .notNull => return "IS NOT NULL"

end Comparison

namespace Predicate

def quantifier : Cardinality → String
  | .many => "ANY"
  | .one => "HAS"

mutual

/-- A predicate on one line (`formatPredicate`). -/
def render : Predicate → Except Fault String
  | .all [] | .any [] => return "TRUE"
  | .all children => do return "(" ++ " AND ".intercalate (← renderAll children) ++ ")"
  | .any children => do return "(" ++ " OR ".intercalate (← renderAll children) ++ ")"
  | .not child => do return "NOT " ++ (← render child)
  | .related relation path inner => do
    let head := quantifier relation.cardinality ++ " " ++ path.text
    if inner.isTrue then return head
    let text ← render inner
    return head ++ " " ++ if inner.isCompound then text else "(" ++ text ++ ")"
  | .test _ path comparison => do return path.text ++ " " ++ (← comparison.render)

def renderAll : List Predicate → Except Fault (List String)
  | [] => return []
  | p :: rest => do return (← render p) :: (← renderAll rest)

end

end Predicate
end RowFilter
