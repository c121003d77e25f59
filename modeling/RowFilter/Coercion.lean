import RowFilter.Fault
import RowFilter.Number.Numeral
import RowFilter.Schema

/-!
# Coercion

An operand becomes a value of the field's type, or it is refused. Missing operands and the word
"null" become the null value for every type, before the type is looked at. A value that already
has the type stays as it is.
-/

namespace RowFilter.Coercion
open Text

/-- Does the operand stand for null (`isNullValue`)? -/
def isNull : Value → Bool
  | .text s => spells "null" s
  | v => v.isMissing

/-- Whole numbers, fractions cut towards zero, truth values as one and zero, and whole numerals
whose nearest number is a safe integer (`toInt`). -/
def int? : Value → Option Value
  | .number n => if n.isFinite then some (.number (if n.isInteger then n else n.trunc)) else none
  | .bool b => some (.number (.ofNat (if b then 1 else 0)))
  | .text s =>
    match Numeral.whole? s.toList with
    | some (negative, m) =>
      let n := Number.signed negative m
      if n.isSafeInteger then some (.number n) else none
    | none => none
  | _ => none

/-- Texts, and the texts of numbers, truth values and instants (`toText`). -/
def text? : Value → Option Value
  | .text s => some (.text s)
  | .number n => some (.text n.text)
  | .bool b => some (.text (if b then "true" else "false"))
  | .integer n => some (.text (toString n))
  | .date (some ms) => some (.text (Instant.text ms))
  | _ => none

/-- Everything is true but false itself, the word "false", and zero as a number or a digit
(`toBool`). -/
def bool? : Value → Option Value
  | .bool b => some (.bool b)
  | .text s => some (.bool !(spells "false" s || s == "0"))
  | .number n => some (.bool !n.isZero)
  | _ => some (.bool true)

/-- Numbers, truth values as one and zero, and decimal numerals (`toFloat`). -/
def float? : Value → Option Value
  | .number n => if n = .nan then none else some (.number n)
  | .bool b => some (.number (.ofNat (if b then 1 else 0)))
  | .text s => (Numeral.decimal? s.toList).map .number
  | _ => none

/-- The instant that a text in one of the forms of a day names (`matchNumbers`, then `utcDate`). -/
def instant? (form : Form) (s : String) : Option Value :=
  match form.read s.toList with
  | some [year, month, day] => (Instant.ofFields? year month day 0 0 0).map (.date ∘ some)
  | some [year, month, day, hour, minute, second] =>
    (Instant.ofFields? year month day hour minute second).map (.date ∘ some)
  | _ => none

/-- Instants, and texts in the form (`toDate` with the form of a day, `toDateTime` with that of a
day and a time). -/
def date? (form : Form) : Value → Option Value
  | .date (some ms) => some (.date (some ms))
  | .text s => instant? form s
  | _ => none

/-- Times of day as they are, whatever else their record holds, and their texts (`toTime`). -/
def time? (v : Value) : Option Value :=
  if v.isTimeOfDay then some v
  else match v with
    | .text s =>
      match Form.time.read s.toList with
      | some [hour, minute, second] =>
        if isTimeOfDay hour minute second then some (.ofTimeOfDay hour minute second) else none
      | _ => none
    | _ => none

def convert? : ScalarType → Value → Option Value
  | .int => int?
  | .text => text?
  | .bool => bool?
  | .date => date? Form.day
  | .datetime => date? Form.dayTime
  | .float => float?
  | .time => time?

/-- The operand as a value of the type (`coerceValue`). Nothing but null has a type that is not
known here. -/
def coerce (type : ValueType) (v : Value) : Except Fault Value :=
  if isNull v then .ok .null
  else
    let converted := match type with
      | .scalar t => convert? t v
      | .foreign _ => none
    match converted with
    | some w => .ok w
    | none => .error (.unconvertible v type.label)

theorem coerce_of_isNull {v : Value} (type : ValueType) (h : isNull v = true) :
    coerce type v = .ok .null := by
  simp [coerce, h]

theorem coerce_scalar_eq_ok_iff {t : ScalarType} {v w : Value} (h : isNull v = false) :
    coerce (.scalar t) v = .ok w ↔ convert? t v = some w := by
  simp only [coerce, h]
  cases convert? t v <;> simp

end RowFilter.Coercion
