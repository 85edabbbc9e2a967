import ModuleLoader.Json.Basic
import ModuleLoader.Value.Literal
/-!
A small scripting language, written as documents.

A script is an array of statements, and a statement is an array that begins with
a keyword. Everything else about it is looked at only when its turn comes: a
statement that makes no sense does no harm before it is reached, and what stands
in place of an expression or of a name is refused when it is used. So reading a
script cannot fail beyond its outer form, and the syntax has a place for every
kind of nonsense. An operand that should be a name is none where it is not a
text, and an operand that is missing is null.
-/

namespace ModuleLoader

namespace Scripted

abbrev Operand := Option String

inductive Expr where
  | literal (l : Literal)
  | globalName (name : Operand)
  | binding (name : Operand)
  | member (object : Expr) (key : Operand)
  | object (fields : List (Operand × Expr))
  | typeName (e : Expr)
  | same (a b : Expr)
  | add (a b : Expr)
  | concat (parts : List Expr)
  | keys (e : Expr)
  | exports
  | imports
  | about (key : Operand)
  | importer
  | bad

def Expr.absent : Expr := literal .null

inductive Statement where
  | unless (condition : Expr) (body : Statement)
  | staticImport (specifier : Operand) (binding? : Option Operand)
  | dynamicImport (binding specifier : Operand)
  | tryImport (binding specifier : Operand)
  | require (binding id : Operand)
  | tryRequire (binding id : Operand)
  | replaceExports (e : Expr)
  | assign (binding : Operand) (e : Expr)
  | exportAs (name : Operand) (e : Expr)
  | setGlobal (name : Operand) (e : Expr)
  | addGlobal (name : Operand) (e : Expr)
  | setProperty (object : Expr) (key : Operand) (e : Expr)
  | deleteProperty (object : Expr) (key : Operand)
  | call (binding : Operand) (function : Expr) (arguments : List Expr)
  | log (e : Expr)
  | throw (message : Operand)
  | unknown (keyword : String)

/-! ### Numbers by their bits -/

def hexNumber? (digits : List Char) : Option Nat :=
  digits.foldlM (fun n c => (Json.hexValue? c).map (n * 16 + ·)) 0

/-- A double by its sixteen hexadecimal digits, or by name if it is not a number. -/
def floatOfBits? (text : String) : Option Float :=
  if text == "nan" then some (0.0 / 0.0)
  else if text.length == 16 then
    (hexNumber? text.toList).map fun n => Float.ofBits (UInt64.ofNat n)
  else none

/-! ### Reading expressions -/

def operandAt (items : List Json) (i : Nat) : Operand :=
  (items[i]?).bind Json.string?

def Expr.at (items : List Expr) (i : Nat) : Expr :=
  items[i]?.getD absent

mutual

/-- A constant stands for itself, and an object for the operation that its first key names. -/
def Expr.ofJson : Json → Expr
  | .null => .literal .null
  | .bool b => .literal (.boolean b)
  | .number n => .literal (.number n.toFloat)
  | .string s => .literal (.string s)
  | .array _ => .bad
  | .object [] => .bad
  | .object ((key, j) :: _) =>
    match key with
    | "undef" => .literal .undefined
    | "f64" =>
      match j.string?.bind floatOfBits? with
      | some x => .literal (.number x)
      | none => .bad
    | "g" => .globalName j.string?
    | "v" => .binding j.string?
    | "m" => .member (Expr.at (itemsOf j) 0) (operandAt (j.array?.getD []) 1)
    | "obj" => .object (fieldsOf j)
    | "typeof" => .typeName (Expr.ofJson j)
    | "eq" => .same (Expr.at (itemsOf j) 0) (Expr.at (itemsOf j) 1)
    | "add" => .add (Expr.at (itemsOf j) 0) (Expr.at (itemsOf j) 1)
    | "cat" => .concat (itemsOf j)
    | "keys" => .keys (Expr.ofJson j)
    | "exports" => .exports
    | "imports" => .imports
    | "meta" => .about j.string?
    | "dynref" => .importer
    | _ => .bad

def itemsOf : Json → List Expr
  | .array items => ofItems items
  | _ => []

def ofItems : List Json → List Expr
  | [] => []
  | j :: rest => Expr.ofJson j :: ofItems rest

def fieldsOf : Json → List (Operand × Expr)
  | .array items => ofFields items
  | _ => []

def ofFields : List Json → List (Operand × Expr)
  | [] => []
  | j :: rest => fieldOf j :: ofFields rest

def fieldOf : Json → Operand × Expr
  | .array (key :: e :: _) => (key.string?, Expr.ofJson e)
  | .array [key] => (key.string?, .absent)
  | _ => (none, .absent)

end

/-! ### Reading statements -/

def simpleStatement (keyword : String) (operands : List Json) : Statement :=
  let name (i : Nat) : Operand := operandAt operands i
  let expr (i : Nat) : Expr := Expr.at (operands.map Expr.ofJson) i
  match keyword with
  | "import" => .staticImport (name 0) (if operands.length < 2 then none else some (name 1))
  | "dynimport" => .dynamicImport (name 0) (name 1)
  | "trydyn" => .tryImport (name 0) (name 1)
  | "require" => .require (name 0) (name 1)
  | "tryrequire" => .tryRequire (name 0) (name 1)
  | "exports" => .replaceExports (expr 0)
  | "let" => .assign (name 0) (expr 1)
  | "export" => .exportAs (name 0) (expr 1)
  | "setglobal" => .setGlobal (name 0) (expr 1)
  | "addglobal" => .addGlobal (name 0) (expr 1)
  | "setprop" => .setProperty (expr 0) (name 1) (expr 2)
  | "delprop" => .deleteProperty (expr 0) (name 1)
  | "call" => .call (name 0) (expr 1) (itemsOf (operands[2]?.getD .null))
  | "log" => .log (expr 0)
  | "throw" => .throw (name 0)
  | keyword => .unknown keyword

def Statement.ofJson : Json → Statement
  | .array (.string "unless" :: e :: body :: _) => .unless (Expr.ofJson e) (Statement.ofJson body)
  | .array (.string "unless" :: e :: []) => .unless (Expr.ofJson e) (.unknown "")
  | .array (.string keyword :: operands) => simpleStatement keyword operands
  | _ => .unknown ""

def isStatement : Json → Bool
  | .array (.string _ :: _) => true
  | _ => false

def parse? (text : String) : Option (List Statement) :=
  match Json.read? text with
  | some (.array items) =>
    if items.all isStatement then some (items.map Statement.ofJson) else none
  | _ => none

/-- What a module asks to be imported before it runs: the imports that stand on their own. -/
def requests (statements : List Statement) : List String :=
  statements.filterMap fun s =>
    match s with
    | .staticImport specifier _ => some (specifier.getD "")
    | _ => none

end Scripted

end ModuleLoader
