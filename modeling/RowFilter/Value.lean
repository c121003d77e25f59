import RowFilter.Calendar
import RowFilter.Entries
import RowFilter.Number.Shortest
import RowFilter.Text.Units

/-!
# Values

What a filter document is made of. Besides the values of the data format, a document that a
host builds by hand may hold things the format has no name for: a missing value, whole numbers
of any size, instants, functions, tables, and records of classes of the host's own.

A record is *plain* when it was written down, *bare* when it inherits nothing, and *of a class*
when a class of the host made it. Only the first two are mappings.
-/

namespace RowFilter

inductive RecordKind where
  | plain
  | bare
  | ofClass
deriving DecidableEq

inductive Value where
  | null
  | absent
  | bool (b : Bool)
  | number (n : Number)
  | integer (n : Int)
  | text (s : String)
  /-- Milliseconds since the beginning of 1970, or no instant at all. -/
  | date (ms : Option Int)
  /-- A table with keys of any kind; its content is out of reach. -/
  | table
  /-- A function that answers nothing. -/
  | function
  | list (items : List Value)
  | record (kind : RecordKind) (entries : List (String × Value))

namespace Value

/-- A record as written down. -/
def ofEntries (entries : Entries Value) : Value := .record .plain entries

/-- The entries of a mapping (`isFilterMapping`). -/
def mapping? : Value → Option (Entries Value)
  | .record .plain entries | .record .bare entries => some entries
  | _ => none

def isMapping (v : Value) : Bool := v.mapping?.isSome

/-- The entries of any record. -/
def entries? : Value → Option (Entries Value)
  | .record _ entries => some entries
  | _ => none

/-- A property of a record. -/
def member? (v : Value) (name : String) : Option Value := v.entries?.bind (·.get? name)

/-- What a copy of a value takes over: the entries of a record, the items of a list and the
units of a text under their places. -/
def properties : Value → Entries Value
  | .record _ entries => entries
  | .list items => items.zipIdx.map fun (v, i) => (toString i, v)
  | .text s => (Text.units s.toList).zipIdx.map fun (c, i) =>
    (toString i, .text (String.singleton c))
  | _ => []

def number? : Value → Option Number
  | .number n => some n
  | _ => none

def text? : Value → Option String
  | .text s => some s
  | _ => none

theorem eq_text_of_text? {v : Value} {s : String} (h : v.text? = some s) : v = .text s := by
  cases v with
  | text => exact congrArg Value.text (Option.some.inj h)
  | _ => cases h

def list? : Value → Option (List Value)
  | .list items => some items
  | _ => none

/-- The values that count as absent. -/
def isMissing : Value → Bool
  | .null | .absent => true
  | _ => false

theorem isMissing_of_mapping? {v : Value} {entries : Entries Value}
    (h : v.mapping? = some entries) : v.isMissing = false := by
  cases v with
  | record => rfl
  | _ => cases h

/-- The values that count as no. -/
def isFalsy : Value → Bool
  | .null | .absent | .bool false => true
  | .number n => n == .nan || n.isZero
  | .integer n => n == 0
  | .text s => s == ""
  | _ => false

/-- The instant of a number of milliseconds, cut to whole ones. Too distant an instant is none. -/
def dateOf (ms : Number) : Value :=
  match ms.trunc.toInt? with
  | some n => .date (if n.natAbs ≤ Instant.furthest then some n else none)
  | none => .date none

/-! ## The text of a value -/

/-- What a record's own function of text would answer decides first, then what every record
inherits. A bare record without such a function has no text. -/
def recordSpelling? (kind : RecordKind) (entries : Entries Value) : Option String :=
  let answers (name : String) : Bool := match entries.get? name with
    | some .function => true
    | _ => false
  if answers "toString" then some "undefined"
  else if kind ≠ .bare ∧ (entries.get? "toString").isNone then some "[object Object]"
  else if answers "valueOf" then some "undefined"
  else none

mutual

/-- The text of a value where text is wanted: bare, without quotes. Missing items of a list
leave their place empty. -/
def spelling? : Value → Option String
  | .null => some "null"
  | .absent => some "undefined"
  | .bool b => some (if b then "true" else "false")
  | .number n => some n.text
  | .integer n => some (toString n)
  | .text s => some s
  | .date (some ms) => some (Instant.longText ms)
  | .date none => some "Invalid Date"
  | .table => some "[object Map]"
  | .function => some "() => undefined"
  | .list items => (itemSpellings? items).map (",".intercalate ·)
  | .record kind entries => recordSpelling? kind entries

def itemSpellings? : List Value → Option (List String)
  | [] => some []
  | v :: rest => do
    let head ← if v.isMissing then some "" else spelling? v
    let tail ← itemSpellings? rest
    return head :: tail

end

/-! ## Times of day -/

/-- Hour, minute and second of a record that has all three, in their ranges. -/
def timeOfDay? (v : Value) : Option (Nat × Nat × Nat) := do
  let part (name : String) : Option Nat := do
    let n ← (← v.member? name).number?
    let i ← n.toInt?
    if 0 ≤ i then some i.toNat else none
  let hour ← part "hour"
  let minute ← part "minute"
  let second ← part "second"
  if isTimeOfDay hour minute second then some (hour, minute, second) else none

/-- Is the value a time of day (`isTimeOfDay`)? -/
def isTimeOfDay (v : Value) : Bool := v.timeOfDay?.isSome

/-- The time of day as a record. -/
def ofTimeOfDay (hour minute second : Nat) : Value :=
  .ofEntries [("hour", .number (.ofNat hour)), ("minute", .number (.ofNat minute)),
    ("second", .number (.ofNat second))]

/-! ## Remainder operands -/

/-- Divisor and remainder of a record that has both as numbers (`isModOperand`). -/
def modulus? (v : Value) : Option (Number × Number) := do
  let divisor ← (← v.member? "divisor").number?
  let remainder ← (← v.member? "remainder").number?
  return (divisor, remainder)

def ofModulus (divisor remainder : Number) : Value :=
  .ofEntries [("divisor", .number divisor), ("remainder", .number remainder)]

theorem modulus?_ofModulus (divisor remainder : Number) :
    (ofModulus divisor remainder).modulus? = some (divisor, remainder) := by
  simp [modulus?, ofModulus, ofEntries, member?, entries?, number?, Entries.get?_cons]

/-! ## Kinds -/

/-- The word for the kind of a value in reports on ill-formed options and definitions. -/
def kindName : Value → String
  | .null => "null"
  | .absent => "undefined"
  | .bool _ => "boolean"
  | .number n => if n = .nan then "nan" else "number"
  | .integer _ => "bigint"
  | .text _ => "string"
  | .date _ => "date"
  | .table => "map"
  | .function => "function"
  | .list _ => "array"
  | .record _ _ => "object"

end Value
end RowFilter
