/-!
# Numbers

A number is a binary64 value, given by its fields: a sign, a scale and a fraction. Every
combination of fields is a different number, so equality of numbers needs no normal form. A
finite number is `significand * 2 ^ exponent` with its sign.

Rounding is exact: `ofRatio` compares natural numbers and takes the nearest value, of two
equally near ones the one with an even significand.
-/

namespace RowFilter

/-- The fraction of a number: the 52 bits behind the first of its significand. -/
abbrev Fraction := Fin (Nat.pow 2 52)

/-- The fraction of the lowest 52 bits. -/
def Fraction.ofNat (n : Nat) : Fraction := ⟨n % Nat.pow 2 52, Nat.mod_lt n (by decide)⟩

inductive Number where
  | nan
  | infinite (negative : Bool)
  | finite (negative : Bool) (scale : Fin 2047) (fraction : Fraction)
deriving DecidableEq

namespace Number

/-- The scale zero is shared by zero and the numbers below the least normal one. -/
def significand (scale : Fin 2047) (fraction : Fraction) : Nat :=
  if scale.val = 0 then fraction.val else Nat.pow 2 52 + fraction.val

def exponent (scale : Fin 2047) : Int := (max scale.val 1 : Nat) - 1075

theorem significand_lt (scale : Fin 2047) (fraction : Fraction) :
    significand scale fraction < Nat.pow 2 53 := by
  have hlt := fraction.isLt
  simp only [significand, Nat.pow_eq] at hlt ⊢
  split <;> omega

def zero (negative : Bool) : Number := .finite negative 0 (Fraction.ofNat 0)

/-- Either of the two zeros. -/
def isZero : Number → Bool
  | .finite _ scale fraction => significand scale fraction == 0
  | _ => false

def isNegative : Number → Bool
  | .nan => false
  | .infinite negative | .finite negative _ _ => negative

def isFinite : Number → Bool
  | .finite _ _ _ => true
  | _ => false

/-! ## Whole numbers -/

/-- The distance from zero, when it is a whole number. -/
def wholeMagnitude? : Number → Option Nat
  | .finite _ scale fraction =>
    let m := significand scale fraction
    let e := exponent scale
    if 0 ≤ e then some (m * Nat.pow 2 e.toNat)
    else if m % Nat.pow 2 (-e).toNat = 0 then some (m / Nat.pow 2 (-e).toNat)
    else none
  | _ => none

def toInt? (n : Number) : Option Int :=
  n.wholeMagnitude?.map fun m => if n.isNegative then -(m : Int) else m

def isInteger (n : Number) : Bool := n.wholeMagnitude?.isSome

/-- The greatest distance from zero below which every whole number is a number. -/
def maxSafe : Nat := Nat.pow 2 53 - 1

def isSafeInteger (n : Number) : Bool :=
  match n.wholeMagnitude? with
  | some m => m ≤ maxSafe
  | none => false

/-! ## Rounding -/

/-- The quotient rounded to the nearest whole number, a half to the even neighbour. -/
def roundQuotient (num den : Nat) : Nat :=
  let q := num / den
  match compare (2 * (num % den)) den with
  | .lt => q
  | .gt => q + 1
  | .eq => if q % 2 = 0 then q else q + 1

/-- The greatest `l` with `2 ^ l ≤ num / den`, for positive arguments. -/
def floorLog2 (num den : Nat) : Int :=
  let l : Int := (num.log2 : Int) - den.log2
  if den * Nat.pow 2 l.toNat ≤ num * Nat.pow 2 (-l).toNat then l else l - 1

/-- The number `whole * 2 ^ step`, for `whole` at most `2 ^ 53` that has 53 bits unless `step`
is the least exponent. What is too large for the format is infinite. -/
def pack (negative : Bool) (whole : Nat) (step : Int) : Number :=
  if h : whole < Nat.pow 2 52 then .finite negative 0 ⟨whole, h⟩
  else
    let scale := ((if whole = Nat.pow 2 53 then step + 1 else step) + 1075).toNat
    if h : scale < 2047 then .finite negative ⟨scale, h⟩ (Fraction.ofNat whole)
    else .infinite negative

/-- The number nearest to `num / den`. -/
def ofRatio (negative : Bool) (num den : Nat) : Number :=
  if num = 0 then zero negative
  else
    let step := max (floorLog2 num den - 52) (-1074)
    pack negative (roundQuotient (num * Nat.pow 2 (-step).toNat) (den * Nat.pow 2 step.toNat)) step

def ofNat (n : Nat) : Number := ofRatio false n 1

/-- The number nearest to a magnitude with a sign; a zero keeps its sign. -/
def signed (negative : Bool) (magnitude : Nat) : Number := ofRatio negative magnitude 1

/-- The whole number next to `n` towards zero. A fraction below one gives the zero of its sign. -/
def trunc : Number → Number
  | .finite negative scale fraction =>
    let e := exponent scale
    if 0 ≤ e then .finite negative scale fraction
    else signed negative (significand scale fraction / Nat.pow 2 (-e).toNat)
  | n => n

/-- The number nearest to `digits * 10 ^ power`. Beyond 310 places before the point every
decimal is infinite, and more than 330 places behind it every decimal is zero. -/
def ofDecimal (negative : Bool) (digits : Nat) (power : Int) : Number :=
  let size : Int := (toString digits).length
  if digits = 0 then zero negative
  else if 310 < power + size then .infinite negative
  else if power + size < -330 then zero negative
  else ofRatio negative (digits * Nat.pow 10 power.toNat) (Nat.pow 10 (-power).toNat)

example : ofDecimal false 15 (-1) = .finite false 1023 (Fraction.ofNat (Nat.pow 2 51)) := by
  decide +kernel
example : ofDecimal false 9007199254740993 0 = ofNat (Nat.pow 2 53) := by decide +kernel
example : trunc (ofDecimal true 5 (-1)) = zero true := by decide +kernel
example : (ofNat 59).toInt? = some 59 := by decide +kernel

end Number
end RowFilter
