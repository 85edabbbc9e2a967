import ModuleLoader.Number.Numeral
/-!
JSON documents, and the reader that accepts them.

Reading is done in two steps, because what a text must satisfy depends on
whether anyone wants its value. The *grammar* is the same everywhere: strict
JSON, with no blank before or after but the four characters that count as one,
no control character inside a string and no digit too few or too many. It is
all that is asked of a part of a document that nobody looks at, so it is all
that this module checks, and what it builds keeps every choice of the writer
open: a `Document` still has its escapes, its digits and its repeated keys.

What a document *means* is settled in the next module, and only there can an
escape fail to name a character or a number lie out of range.
-/

namespace ModuleLoader

namespace Json

/-- A character of a string as written: itself, perhaps behind a backslash, or the number of a
sixteen-bit unit. -/
inductive Piece where
  | char (c : Char)
  | unit (n : Nat)
  deriving Repr

inductive Document where
  | null
  | bool (b : Bool)
  | number (n : Numeral)
  | string (pieces : List Piece)
  | array (items : List Document)
  | object (fields : List (List Piece × Document))
  deriving Repr, Inhabited

abbrev Reader (α : Type) := List Char → Option (α × List Char)

/-! ### Blanks and digits -/

def isBlank (c : Char) : Bool :=
  c == ' ' || c == '\n' || c == '\t' || c == '\r'

def skipBlanks (cs : List Char) : List Char :=
  cs.dropWhile isBlank

def digitValue (c : Char) : Nat := c.toNat - 48

def hexValue? (c : Char) : Option Nat :=
  if '0' ≤ c ∧ c ≤ '9' then some (c.toNat - 48)
  else if 'a' ≤ c ∧ c ≤ 'f' then some (c.toNat - 87)
  else if 'A' ≤ c ∧ c ≤ 'F' then some (c.toNat - 55)
  else none

/-! ### Numbers -/

def takeDigits (cs : List Char) : List Nat × List Char :=
  ((cs.takeWhile Char.isDigit).map digitValue, cs.dropWhile Char.isDigit)

def someDigits : Reader (List Nat) := fun cs =>
  match takeDigits cs with
  | ([], _) => none
  | (ds, rest) => some (ds, rest)

/-- Digits that begin with a zero only if that is all of them. -/
def wholeDigits : Reader (List Nat) := fun cs =>
  match takeDigits cs with
  | ([], _) => none
  | (0 :: _ :: _, _) => none
  | (ds, rest) => some (ds, rest)

def fraction : Reader (Option (List Nat))
  | '.' :: cs => (someDigits cs).map fun (ds, rest) => (some ds, rest)
  | cs => some (none, cs)

def exponentDigits : Reader (Bool × List Nat)
  | '+' :: cs => (someDigits cs).map fun (ds, rest) => ((false, ds), rest)
  | '-' :: cs => (someDigits cs).map fun (ds, rest) => ((true, ds), rest)
  | cs => (someDigits cs).map fun (ds, rest) => ((false, ds), rest)

def exponent : Reader (Option (Bool × List Nat))
  | 'e' :: cs => (exponentDigits cs).map fun (e, rest) => (some e, rest)
  | 'E' :: cs => (exponentDigits cs).map fun (e, rest) => (some e, rest)
  | cs => some (none, cs)

def unsigned (negative : Bool) : Reader Numeral := fun cs => do
  let (whole, cs) ← wholeDigits cs
  let (fraction?, cs) ← fraction cs
  let (exponent?, cs) ← exponent cs
  some (⟨negative, whole, fraction?, exponent?⟩, cs)

def numeral : Reader Numeral
  | '-' :: cs => unsigned true cs
  | cs => unsigned false cs

/-! ### Strings -/

def escaped? : Char → Option Char
  | '"' => some '"'
  | '\\' => some '\\'
  | '/' => some '/'
  | 'b' => some '\x08'
  | 'f' => some '\x0c'
  | 'n' => some '\n'
  | 'r' => some '\r'
  | 't' => some '\t'
  | _ => none

def stringBody : Reader (List Piece)
  | [] => none
  | '"' :: cs => some ([], cs)
  | '\\' :: 'u' :: a :: b :: c :: d :: cs => do
    let n := (← hexValue? a) * 4096 + (← hexValue? b) * 256 + (← hexValue? c) * 16 + (← hexValue? d)
    let (pieces, rest) ← stringBody cs
    some (.unit n :: pieces, rest)
  | '\\' :: e :: cs => do
    let c ← escaped? e
    let (pieces, rest) ← stringBody cs
    some (.char c :: pieces, rest)
  | c :: cs =>
    if c.toNat < 0x20 || c == '\\' then none
    else do
      let (pieces, rest) ← stringBody cs
      some (.char c :: pieces, rest)

/-! ### Documents

The depth of the calls is bounded by the length of the text: each of them
stands behind a character of its own, a bracket, a comma or a colon. The
bound is therefore no limit, and `read?` hides it. -/

mutual

def document : Nat → Reader Document
  | 0, _ => none
  | n + 1, cs =>
    match skipBlanks cs with
    | 'n' :: 'u' :: 'l' :: 'l' :: cs => some (.null, cs)
    | 't' :: 'r' :: 'u' :: 'e' :: cs => some (.bool true, cs)
    | 'f' :: 'a' :: 'l' :: 's' :: 'e' :: cs => some (.bool false, cs)
    | '"' :: cs => (stringBody cs).map fun (s, rest) => (.string s, rest)
    | '[' :: cs =>
      match skipBlanks cs with
      | ']' :: cs => some (.array [], cs)
      | cs => (items n cs).map fun (ds, rest) => (.array ds, rest)
    | '\x7b' :: cs =>
      match skipBlanks cs with
      | '\x7d' :: cs => some (.object [], cs)
      | cs => (fields n cs).map fun (fs, rest) => (.object fs, rest)
    | cs => (numeral cs).map fun (x, rest) => (.number x, rest)

/-- One item and those that follow it, to the closing bracket. -/
def items : Nat → Reader (List Document)
  | 0, _ => none
  | n + 1, cs => do
    let (d, cs) ← document n cs
    match skipBlanks cs with
    | ']' :: cs => some ([d], cs)
    | ',' :: cs => (items n cs).map fun (ds, rest) => (d :: ds, rest)
    | _ => none

def fields : Nat → Reader (List (List Piece × Document))
  | 0, _ => none
  | n + 1, cs =>
    match skipBlanks cs with
    | '"' :: cs => do
      let (key, cs) ← stringBody cs
      match skipBlanks cs with
      | ':' :: cs =>
        let (d, cs) ← document n cs
        match skipBlanks cs with
        | '\x7d' :: cs => some ([(key, d)], cs)
        | ',' :: cs => (fields n cs).map fun (fs, rest) => ((key, d) :: fs, rest)
        | _ => none
      | _ => none
    | _ => none

end

/-- The document a text is, with nothing but blanks around it. -/
def Document.read? (text : String) : Option Document :=
  let cs := text.toList
  match document (2 * cs.length + 2) cs with
  | some (d, rest) => if (skipBlanks rest).isEmpty then some d else none
  | none => none

end Json

end ModuleLoader
