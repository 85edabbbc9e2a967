import ModuleLoader.Path.Normal
/-!
The `file` URL of a path.

A module is told where it stands by URL, so two modules must not share one: the
text of a component is encoded such that it can be read back. Visible ASCII
stands for itself, unless it would be taken for the syntax of the URL; every
other character becomes its UTF-8 bytes, each written as a percent sign and two
hexadecimal digits. The percent sign itself is among the characters encoded,
which is what makes the encoding injective, and so is the slash, which is why
the boundaries between components survive.
-/

namespace ModuleLoader

namespace Path

/-- The visible characters that a path component may not show in a URL. -/
def reserved : List Char :=
  " \"#<>`?\x7b\x7d%/\\".toList

def isPlain (c : Char) : Bool :=
  0x20 < c.val && c.val < 0x7f && !reserved.contains c

def hexDigit (n : Nat) : Char :=
  if n < 10 then Char.ofNat (48 + n) else Char.ofNat (55 + n)

def percentByte (b : UInt8) : List Char :=
  ['%', hexDigit (b.toNat / 16), hexDigit (b.toNat % 16)]

def percentChar (c : Char) : List Char :=
  if isPlain c then [c] else (String.utf8EncodeChar c).flatMap percentByte

def percentEncode (text : String) : String :=
  String.ofList (text.toList.flatMap percentChar)

/-- The URL of an absolute path; any other has none. The root is a slash, and every further step a
slash and the step. -/
def fileUrl? (p : Path) : Option String :=
  match p.components with
  | [.root] => some "file:///"
  | .root :: steps =>
    some ("file://" ++ String.join (steps.map fun step => "/" ++ percentEncode step.text))
  | _ => none

end Path

end ModuleLoader
