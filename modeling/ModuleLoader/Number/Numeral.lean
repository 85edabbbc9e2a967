/-!
Decimal numerals and the numbers they stand for.

A numeral is what a document writes: a sign, whole digits, perhaps a fraction
and an exponent. A whole numeral that fits sixty-four bits is kept as an
integer. Any other becomes a double, and by a rule that is simple rather than
exact: as many digits as fit sixty-four bits make a significand, the digits that
follow only count as powers of ten, and the significand is then multiplied or
divided by one power of ten in double arithmetic. So long numerals may differ
from the nearest double in the last bit, always in the same way.

A numeral too large for a double stands for nothing. One too small is zero.
-/

namespace ModuleLoader

inductive Number where
  | natural (n : Nat)
  /-- The integer `-n`, for `n` not zero. -/
  | negative (n : Nat)
  | float (x : Float)
  deriving Inhabited

namespace Number

def toFloat : Number → Float
  | natural n => (UInt64.ofNat n).toFloat
  | negative n => -(UInt64.ofNat n).toFloat
  | float x => x

end Number

structure Numeral where
  negative : Bool
  whole : List Nat
  fraction? : Option (List Nat)
  /-- Whether the exponent is negative, and its digits. -/
  exponent? : Option (Bool × List Nat)
  deriving Repr

namespace Numeral

def ofDigits (digits : List Nat) : Nat :=
  digits.foldl (fun n d => n * 10 + d) 0

/-- Append digits to a significand as long as it fits, and return the digits that did not. -/
def absorb : Nat → List Nat → Nat × List Nat
  | s, [] => (s, [])
  | s, d :: ds => if s * 10 + d < UInt64.size then absorb (s * 10 + d) ds else (s, d :: ds)

/-- Powers of ten up to this one are doubles. -/
def largestPower : Nat := 308

def power (n : Nat) : Float := Float.ofScientific 1 false n

/-- Divide by a power of ten, in steps that are themselves doubles. -/
def shrink (x : Float) (n : Nat) : Float :=
  if n ≤ largestPower then x / power n
  else if x == 0 then x
  else shrink (x / power largestPower) (n - largestPower)
termination_by n
decreasing_by simp only [largestPower] at *; omega

def grow? (x : Float) (n : Nat) : Option Float :=
  if n ≤ largestPower then
    let y := x * power n
    if y.isInf then none else some y
  else if x == 0 then some x
  else none

def scale? (x : Float) : Int → Option Float
  | .ofNat n => grow? x n
  | .negSucc n => some (shrink x (n + 1))

/-- The largest exponent that is counted rather than taken for boundless. -/
def exponentLimit : Nat := Nat.pow 2 31 - 1

def float? (n : Numeral) : Option Float :=
  let (whole, lost) := absorb 0 n.whole
  let fraction := n.fraction?.getD []
  let (significand, ignored) := absorb whole fraction
  let exponent : Int := (lost.length : Int) - (fraction.length - ignored.length : Nat)
  let magnitude? : Option Float :=
    match n.exponent? with
    | none => scale? (UInt64.ofNat significand).toFloat exponent
    | some (down, digits) =>
      let e := ofDigits digits
      if exponentLimit < e then
        if significand ≠ 0 ∧ !down then none else some 0
      else
        scale? (UInt64.ofNat significand).toFloat (if down then exponent - e else exponent + e)
  magnitude?.map fun x => if n.negative then -x else x

def number? (n : Numeral) : Option Number :=
  let whole := ofDigits n.whole
  let limit := if n.negative then UInt64.size / 2 + 1 else UInt64.size
  if n.fraction?.isNone ∧ n.exponent?.isNone ∧ whole < limit ∧ ¬(n.negative ∧ whole = 0) then
    some (if n.negative then .negative whole else .natural whole)
  else n.float?.map .float

end Numeral

end ModuleLoader
