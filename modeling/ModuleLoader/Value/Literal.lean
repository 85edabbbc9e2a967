import ModuleLoader.Json.Basic
import ModuleLoader.Value.Heap
/-!
Values written down.

A literal describes a value without being one: making it twice makes two
objects that look alike and are not the same. It is what a document, or the
table of exports of a built-in module, says about the value that is to come
out. A literal may also contain a value that is there already, and making it
leaves that one as it is.
-/

namespace ModuleLoader

inductive Literal where
  | undefined
  | null
  | boolean (b : Bool)
  | number (x : Float)
  | string (s : String)
  | object (fields : List (String × Literal))
  | moduleNamespace (fields : List (String × Literal))
  | native (name : String) (code : NativeCode)
  | existing (v : Value)

namespace Literal

def firstArgument (name : String) : Literal :=
  native name fun arguments => .ok (arguments.headD .undefined)

def failing (name message : String) : Literal :=
  native name fun _ => .error (.engine message)

/-! ### Making values -/

mutual

/-- A new value as described. Of equal keys the first fixes the position and the last the value. -/
def make : Literal → Heap → Value × Heap
  | undefined, h => (.undefined, h)
  | null, h => (.null, h)
  | boolean b, h => (.boolean b, h)
  | number x, h => (.number x, h)
  | string s, h => (.string s, h)
  | object fields, h =>
    let (pairs, h) := makeFields fields h
    let (o, h) := h.newObject (.ofList pairs)
    (.object o, h)
  | moduleNamespace fields, h =>
    let (pairs, h) := makeFields fields h
    let (n, h) := h.newNamespace (.ofList pairs)
    (.moduleNamespace n, h)
  | native name code, h =>
    let (f, h) := h.newFunction name code
    (.function f, h)
  | existing v, h => (v, h)

def makeFields : List (String × Literal) → Heap → List (String × Value) × Heap
  | [], h => ([], h)
  | (k, l) :: rest, h =>
    let (v, h) := l.make h
    let (pairs, h) := makeFields rest h
    ((k, v) :: pairs, h)

end

/-! ### Documents as values -/

/-- The items of an array under their positions, followed by how many there are. -/
def arrayFields (items : List Literal) : List (String × Literal) :=
  (items.zipIdx.map fun (l, i) => (toString i, l)) ++
    [("length", .number (Float.ofNat items.length))]

mutual

/-- A document's value as a script sees it. An array becomes an object of its items and its length;
an object lists its keys in order of their characters, the last of equal keys standing for all. -/
def ofJson : Json → Literal
  | .null => .null
  | .bool b => .boolean b
  | .number n => .number n.toFloat
  | .string s => .string s
  | .array items => .object (arrayFields (ofItems items))
  | .object fields => .object (sortedPairs (ofFields fields))

def ofItems : List Json → List Literal
  | [] => []
  | j :: rest => ofJson j :: ofItems rest

def ofFields : List (String × Json) → List (String × Literal)
  | [] => []
  | (k, j) :: rest => (k, ofJson j) :: ofFields rest

end

end Literal

end ModuleLoader
