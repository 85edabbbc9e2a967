import ModuleLoader.Number.Shortest
/-!
How a number is written once its digits are chosen.

The digits of a double and the place of its decimal point say all there is to
say; what remains is taste, and there are two tastes here. Messages and
concatenated texts write every number out in full, however many zeros that
takes, and leave a whole number bare. Documents switch to an exponent where the
zeros would be many, give it a sign either way, and mark a whole number as a
fraction by `.0`. They also differ where two decimals stand for a double equally
well: messages take the greater, documents the even one. Both are values of one
record, so that there is one way to write numbers and not two.
-/

namespace ModuleLoader

namespace Number

structure Layout where
  /-- The decimal point may stand this many places before the first digit without an exponent. -/
  smallest : Option Nat
  /-- The decimal point may stand this many places after the first digit without an exponent. -/
  largest : Option Nat
  /-- What follows a whole number. -/
  wholeMark : String
  /-- What precedes an exponent that is not negative. -/
  plusMark : String
  /-- How a tie between two decimals is broken. -/
  tie : Tie
  nan : String
  infinity : String

def plain : Layout where
  smallest := none
  largest := none
  wholeMark := ""
  plusMark := ""
  tie := .greater
  nan := "NaN"
  infinity := "inf"

def document : Layout where
  smallest := some 4
  largest := some 16
  wholeMark := ".0"
  plusMark := "+"
  tie := .even
  nan := "null"
  infinity := "null"

def zeros (n : Nat) : String := String.ofList (List.replicate n '0')

/-- `d · 10 ^ k` with a decimal point or without, but with no exponent. -/
def Layout.positional (l : Layout) (digits : List Char) (k : Int) : String :=
  let point : Int := digits.length + k
  if 0 ≤ k then String.ofList digits ++ zeros k.toNat ++ l.wholeMark
  else if 0 < point then
    String.ofList (digits.take point.toNat) ++ "." ++ String.ofList (digits.drop point.toNat)
  else "0." ++ zeros (-point).toNat ++ String.ofList digits

def Layout.exponent (l : Layout) (e : Int) : String :=
  "e" ++ (if 0 ≤ e then l.plusMark else "") ++ toString e

/-- `d · 10 ^ k` as one digit, a fraction and an exponent. -/
def Layout.scientific (l : Layout) (digits : List Char) (k : Int) : String :=
  let exponent := l.exponent (digits.length + k - 1)
  match digits with
  | [] => ""
  | [d] => String.ofList [d] ++ exponent
  | d :: rest => String.ofList [d] ++ "." ++ String.ofList rest ++ exponent

def Layout.digits (l : Layout) (d : Nat) (k : Int) : String :=
  let digits := Nat.toDigits 10 d
  let point : Int := digits.length + k
  if l.smallest.all (fun n => -(n : Int) ≤ point) && l.largest.all (fun n => point ≤ n) then
    l.positional digits k
  else l.scientific digits k

def Layout.text (l : Layout) (x : Float) : String :=
  let bits := x.toBits
  let sign := if bits.toNat / Nat.pow 2 63 = 1 then "-" else ""
  match Magnitude.ofBits bits with
  | .nan => l.nan
  | .infinite => sign ++ l.infinity
  | .zero => sign ++ "0" ++ l.wholeMark
  | .finite r =>
    let (d, k) := r.shortest l.tie
    sign ++ l.digits d k

end Number

end ModuleLoader
