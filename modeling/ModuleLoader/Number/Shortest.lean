/-!
The fewest digits that read back as the same number.

A double stands for every real number that rounds to it. Those reals form an
interval around the double, and any decimal in the interval reads back; the
text of a number is the shortest such decimal, and of the shortest the nearest.

All of it is exact arithmetic on naturals. A positive double is `m · 2 ^ q`; in
units of a quarter of `2 ^ q` it is `4m`, and the interval reaches from `4m - 2`
to `4m + 2`. Below a power of two the doubles lie twice as close, so there it
begins at `4m - 1`. The ends belong to the interval exactly if `m` is even,
since a tie rounds to even.

For one digit, two digits, and so on to seventeen, the value lies between two
neighbours on the grid of decimals with that many digits. If any decimal of the
grid is in the interval then one of the two is, so it is enough to try them.

It can happen that both are in the interval and the value lies exactly half way
between them. Then nothing in the number itself prefers one to the other, and
whoever asks has to say how a tie is broken.
-/

namespace ModuleLoader

namespace Number

structure Ratio where
  num : Nat
  den : Nat
  deriving Repr

/-- `n · 2 ^ q`, for `q` of either sign. -/
def Ratio.scaled (n : Nat) (q : Int) : Ratio :=
  if 0 ≤ q then ⟨n * Nat.pow 2 q.toNat, 1⟩ else ⟨n, Nat.pow 2 (-q).toNat⟩

/-- How a rational compares with `d · 10 ^ k`: multiply out. -/
def Ratio.compareDecimal (r : Ratio) (d : Nat) (k : Int) : Ordering :=
  if 0 ≤ k then compare r.num (d * Nat.pow 10 k.toNat * r.den)
  else compare (r.num * Nat.pow 10 (-k).toNat) (d * r.den)

/-- The digits of the number in units of `10 ^ k`, fractions of a unit dropped. -/
def Ratio.floorDecimal (r : Ratio) (k : Int) : Nat :=
  if 0 ≤ k then r.num / (r.den * Nat.pow 10 k.toNat) else r.num * Nat.pow 10 (-k).toNat / r.den

structure Rounded where
  value : Ratio
  low : Ratio
  high : Ratio
  closed : Bool
  deriving Repr

inductive Magnitude where
  | zero
  | finite (r : Rounded)
  | infinite
  | nan
  deriving Repr

/-- The double with these bits, by the layout of the format: eleven bits of exponent, fifty-two of
fraction. -/
def Magnitude.ofBits (bits : UInt64) : Magnitude :=
  let fraction := bits.toNat % Nat.pow 2 52
  let exponent := bits.toNat / Nat.pow 2 52 % Nat.pow 2 11
  if exponent = 2047 then if fraction = 0 then .infinite else .nan
  else if exponent = 0 ∧ fraction = 0 then .zero
  else
    let m := if exponent = 0 then fraction else Nat.pow 2 52 + fraction
    let q : Int := (if exponent = 0 then 1 else exponent : Nat) - 1075
    let below := if fraction = 0 ∧ 1 < exponent then 4 * m - 1 else 4 * m - 2
    .finite
      { value := .scaled (4 * m) (q - 2)
        low := .scaled below (q - 2)
        high := .scaled (4 * m + 2) (q - 2)
        closed := m % 2 == 0 }

inductive Tie where
  | greater
  | even
  deriving DecidableEq, Repr, Inhabited

def Tie.choose : Tie → Nat → Nat
  | greater, d => d + 1
  | even, d => if d % 2 = 0 then d else d + 1

namespace Rounded

/-- Whether `d · 10 ^ k` reads back as this double. -/
def admits (r : Rounded) (d : Nat) (k : Int) : Bool :=
  match r.low.compareDecimal d k, r.high.compareDecimal d k with
  | .lt, .gt => true
  | .eq, _ => r.closed
  | _, .eq => r.closed
  | _, _ => false

def magnitude (r : Rounded) : Int :=
  let guess : Int :=
    ((r.value.num.log2 : Int) - (r.value.den.log2 : Int) - 1) * 30103 / 100000 - 1
  let grow (e : Int) : Int := if r.value.compareDecimal 1 (e + 1) != .lt then e + 1 else e
  grow (grow (grow (grow guess)))

def nearer (r : Rounded) (tie : Tie) (d : Nat) (k : Int) : Nat :=
  match (⟨2 * r.value.num, r.value.den⟩ : Ratio).compareDecimal (2 * d + 1) k with
  | .lt => d
  | .eq => tie.choose d
  | .gt => d + 1

/-- A decimal in units of `10 ^ k` that reads back, if the grid has one. -/
def onGrid? (r : Rounded) (tie : Tie) (k : Int) : Option Nat :=
  let d := r.value.floorDecimal k
  match r.admits d k, r.admits (d + 1) k with
  | true, true => some (r.nearer tie d k)
  | true, false => some d
  | false, true => some (d + 1)
  | false, false => none

/-- The first grid that has one, trying `count` of them from `k` down. -/
def search (r : Rounded) (tie : Tie) (k : Int) : Nat → Nat × Int
  | 0 => (r.value.floorDecimal k, k)
  | count + 1 =>
    match r.onGrid? tie k with
    | some d => (d, k)
    | none => r.search tie (k - 1) count

end Rounded

/-- Digits and the exponent of the last one, without zeros at the end. -/
def dropZeros : Nat → Nat → Int → Nat × Int
  | 0, d, k => (d, k)
  | fuel + 1, d, k => if d % 10 = 0 ∧ d ≠ 0 then dropZeros fuel (d / 10) (k + 1) else (d, k)

/-- The shortest decimal `d · 10 ^ k` that reads back as this double. -/
def Rounded.shortest (r : Rounded) (tie : Tie) : Nat × Int :=
  let (d, k) := r.search tie r.magnitude 17
  dropZeros 20 d k

end Number

end ModuleLoader
