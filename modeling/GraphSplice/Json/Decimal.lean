import GraphSplice.Power

/-!
Decimals of floating-point numbers: the shortest digits that read back as the same number, of
several such the nearest to it, and of two equally near the even one. All comparisons are exact.
-/

namespace GraphSplice.Decimals

/-- A positive finite number `significand * 2 ^ (exponent - 1074)`. -/
structure Binary where
  significand : Nat
  exponent : Nat
  /-- The number below is nearer than the number above: the significand is at a power of two. -/
  narrowBelow : Bool
  deriving DecidableEq, Repr

/-- Reads the magnitude in the bits of a double-precision number; zero has significand zero. -/
def Binary.ofBits (bits : Nat) : Binary :=
  let fraction := bits % twoTo 52
  let biased := bits / twoTo 52 % twoTo 11
  if biased = 0 then ⟨fraction, 0, false⟩
  else ⟨twoTo 52 + fraction, biased - 1, fraction = 0 ∧ 1 < biased⟩

/-- A fraction of natural numbers. -/
structure Fraction where
  num : Nat
  den : Nat

/-- `quarters` quarters of the unit in the last place of `b`. -/
def Binary.scaled (b : Binary) (quarters : Nat) : Fraction :=
  ⟨quarters * twoTo b.exponent, twoTo 1076⟩

def Binary.value (b : Binary) : Fraction := b.scaled (4 * b.significand)

/-- Halfway to the number below. -/
def Binary.low (b : Binary) : Fraction :=
  b.scaled (4 * b.significand - if b.narrowBelow then 1 else 2)

/-- Halfway to the number above. -/
def Binary.high (b : Binary) : Fraction := b.scaled (4 * b.significand + 2)

/-- A decimal `digits * 10 ^ exponent`. -/
structure Decimal where
  digits : Nat
  exponent : Int
  deriving DecidableEq, Repr

def Decimal.toFraction (d : Decimal) : Fraction :=
  if 0 ≤ d.exponent then ⟨d.digits * tenTo d.exponent.toNat, 1⟩
  else ⟨d.digits, tenTo (-d.exponent).toNat⟩

namespace Fraction

def le (x y : Fraction) : Bool := x.num * y.den ≤ y.num * x.den

def lt (x y : Fraction) : Bool := x.num * y.den < y.num * x.den

/-- The distance of two fractions. -/
def distance (x y : Fraction) : Fraction :=
  let a := x.num * y.den
  let b := y.num * x.den
  ⟨(a - b) + (b - a), x.den * y.den⟩

def digitCount (n : Nat) : Nat := (Nat.toDigits 10 n).length

/-- The exponent of the greatest power of ten that is not above a positive fraction. -/
def magnitude (x : Fraction) : Int :=
  if x.den ≤ x.num then digitCount (x.num / x.den) - 1
  else
    let count := digitCount (x.den / x.num)
    if x.num * tenTo (count - 1) = x.den then 1 - (count : Int) else -count

/-- The greatest decimal with the given exponent that is not above the fraction. -/
def floorAt (x : Fraction) (exponent : Int) : Decimal :=
  if 0 ≤ exponent then ⟨x.num / (x.den * tenTo exponent.toNat), exponent⟩
  else ⟨x.num * tenTo (-exponent).toNat / x.den, exponent⟩

end Fraction

/-- The decimal reads back as `b`: it lies between the halfway points, which belong to `b` when
its significand is even. -/
def Binary.covers (b : Binary) (d : Decimal) : Bool :=
  let x := d.toFraction
  if b.significand % 2 = 0 then b.low.le x && x.le b.high else b.low.lt x && x.lt b.high

/-- The nearer of two decimals, of two equally near ones the one with an even last digit. -/
def Binary.nearer (b : Binary) (d e : Decimal) : Decimal :=
  let x := d.toFraction.distance b.value
  let y := e.toFraction.distance b.value
  if x.lt y then d else if y.lt x then e else if d.digits % 2 = 0 then d else e

/-- The decimal with `count` digits that reads back as `b`, if there is one. -/
def Binary.withDigits? (b : Binary) (count : Nat) : Option Decimal :=
  let below := b.value.floorAt (b.value.magnitude + 1 - count)
  let above : Decimal := ⟨below.digits + 1, below.exponent⟩
  match b.covers below, b.covers above with
  | true, true => some (b.nearer below above)
  | true, false => some below
  | false, true => some above
  | false, false => none

/-- The shortest decimal of a positive number. Seventeen digits always suffice. -/
def Binary.shortest (b : Binary) : Decimal :=
  ((List.range 17).findSome? fun i => b.withDigits? (i + 1)).getD (b.value.floorAt 0)

/-- Which decimals are written positionally, by the exponent of the first digit; the others get
an exponent with its sign. -/
structure Layout where
  leastPositional : Int
  greatestPositional : Int
  deriving DecidableEq, Repr

/-- The digits without zeros at the end. -/
def trim (digits : List Char) : List Char := (digits.reverse.dropWhile (· = '0')).reverse

def Layout.render (layout : Layout) (d : Decimal) : String :=
  let all := Nat.toDigits 10 d.digits
  let digits := trim all
  let first : Int := d.exponent + all.length - 1
  let zeros (n : Nat) : List Char := List.replicate n '0'
  let orZero (ds : List Char) : List Char := if ds = [] then ['0'] else ds
  if layout.leastPositional ≤ first ∧ first ≤ layout.greatestPositional then
    if 0 ≤ first then
      let point := first.toNat + 1
      let whole := digits.take point ++ zeros (point - digits.length)
      String.ofList (whole ++ '.' :: orZero (digits.drop point))
    else String.ofList ('0' :: '.' :: zeros ((-first).toNat - 1) ++ digits)
  else
    let fraction := if digits.length ≤ 1 then [] else '.' :: digits.drop 1
    let sign := if 0 ≤ first then "+" else "-"
    String.ofList (digits.take 1 ++ fraction) ++ "e" ++ sign ++ toString first.natAbs

end GraphSplice.Decimals
