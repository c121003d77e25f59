import RowFilter.Number
import RowFilter.Text.Digits

/-!
# Shortest decimal text

The text of a number is the shortest decimal that reads back to it. The decimals that read
back to `m * 2 ^ e` lie between half way to the neighbour below and half way to the neighbour
above, both ends included exactly when `m` is even. For one, two, and up to seventeen digits
the two decimals next to the value are tested; the first length with a hit is taken, of two
hits the nearer one, and of two equally near the even one.

A decimal is laid out positionally while the point falls inside its digits or within a few
places of them, and with an exponent otherwise.
-/

namespace RowFilter.Number

/-- Compares `a * 10 ^ i` with `b * 2 ^ j`. -/
def compareScaled (a : Nat) (i : Int) (b : Nat) (j : Int) : Ordering :=
  compare (a * Nat.pow 10 i.toNat * Nat.pow 2 (-j).toNat)
    (b * Nat.pow 2 j.toNat * Nat.pow 10 (-i).toNat)

/-- The gap below a power of two is half the gap above it. -/
def narrowBelow (scale : Fin 2047) (fraction : Fraction) : Bool :=
  fraction.val == 0 && scale.val > 1

/-- Does the decimal `digits * 10 ^ power` read back to the number with these fields? -/
def readsBack (scale : Fin 2047) (fraction : Fraction) (digits : Nat) (power : Int) : Bool :=
  let m := significand scale fraction
  let e := exponent scale - 2
  let below := if narrowBelow scale fraction then 4 * m - 1 else 4 * m - 2
  let even := m % 2 == 0
  let low := compareScaled digits power below e
  let high := compareScaled digits power (4 * m + 2) e
  (low == .gt || even && low == .eq) && (high == .lt || even && high == .eq)

/-- The least `k` with `m * 2 ^ e < 10 ^ k`, for positive `m`. The binary logarithm gives it
up to two steps. -/
def decimalPoint (m : Nat) (e : Int) : Int :=
  let k := ((m.log2 + e) * 30103).fdiv 100000
  if compareScaled 1 k m e == .gt then k
  else if compareScaled 1 (k + 1) m e == .gt then k + 1
  else k + 2

/-- The nearer of the two decimals next to the value on the grid `10 ^ power` that read back. -/
def onGrid? (scale : Fin 2047) (fraction : Fraction) (power : Int) : Option Nat :=
  let m := significand scale fraction
  let e := exponent scale
  let num := m * Nat.pow 2 e.toNat * Nat.pow 10 (-power).toNat
  let den := Nat.pow 2 (-e).toNat * Nat.pow 10 power.toNat
  let floor := num / den
  match readsBack scale fraction floor power, readsBack scale fraction (floor + 1) power with
  | true, true => some (roundQuotient num den)
  | true, false => some floor
  | false, true => some (floor + 1)
  | false, false => none

/-- The digits of the shortest decimal, without zeros at the end, and the place of its point:
the value is `0.d₁d₂… * 10 ^ point`. Seventeen digits always suffice; the exact value stands
in for a search that finds nothing. -/
def shortest (scale : Fin 2047) (fraction : Fraction) : List Char × Int :=
  let m := significand scale fraction
  let e := exponent scale
  let point := decimalPoint m e
  let found := (List.range 17).findSome? fun n =>
    let power := point - (n + 1 : Nat)
    (onGrid? scale fraction power).map fun digits => (digits, power)
  let (digits, power) := found.getD (m * Nat.pow 2 e.toNat * Nat.pow 5 (-e).toNat, min e 0)
  let ds := (toString digits).toList
  ((ds.reverse.dropWhile (· == '0')).reverse, ds.length + power)

/-- The point may stand up to this many places behind the first digit of a positional text. -/
def mostPlaces : Int := 21

/-- A positional text may have fewer than this many zeros between its point and its digits. -/
def fewestZeros : Int := 6

/-- Writes `0.ds * 10 ^ point`. -/
def layout (ds : List Char) (point : Int) : String :=
  let size : Int := ds.length
  if size ≤ point ∧ point ≤ mostPlaces then
    String.ofList (ds ++ List.replicate (point - size).toNat '0')
  else if 0 < point ∧ point ≤ mostPlaces then
    String.ofList (ds.take point.toNat ++ '.' :: ds.drop point.toNat)
  else if -fewestZeros < point ∧ point ≤ 0 then
    String.ofList ('0' :: '.' :: List.replicate (-point).toNat '0' ++ ds)
  else
    let mantissa := match ds with
      | d :: rest@(_ :: _) => d :: '.' :: rest
      | _ => ds
    let power := point - 1
    String.ofList mantissa ++ (if power < 0 then "e-" else "e+") ++ toString power.natAbs

/-- The text of a number. Both zeros are written alike. -/
def text : Number → String
  | .nan => "NaN"
  | .infinite negative => if negative then "-Infinity" else "Infinity"
  | .finite negative scale fraction =>
    if significand scale fraction = 0 then "0"
    else
      let (ds, point) := shortest scale fraction
      (if negative then "-" else "") ++ layout ds point

example : text (.ofDecimal false 1 (-1)) = "0.1" := by decide +kernel
example : text (.ofDecimal true 5 (-324)) = "-5e-324" := by decide +kernel
example : text (.ofDecimal false 1 21) = "1e+21" := by decide +kernel
example : text (.ofDecimal false 15 (-7)) = "0.0000015" := by decide +kernel
example : text (.ofDecimal false 298023223876953125 (-25)) = "2.9802322387695312e-8" := by
  decide +kernel

end RowFilter.Number
