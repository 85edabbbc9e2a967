import ModuleLoader.Json.Document
/-!
JSON values: what a document means.

Three things can still go wrong with a document that follows the grammar. Its
strings may escape half of a surrogate pair, its numbers may be larger than any
double, and it may nest deeper than is accepted. A value has none of these
faults: its strings are text and its numbers are numbers.

An object of a value keeps its fields as they were written, repeated keys
included. Which of two equal keys counts, and in which order they are listed,
is decided where the object is used.
-/

namespace ModuleLoader

inductive Json where
  | null
  | bool (b : Bool)
  | number (n : Number)
  | string (s : String)
  | array (items : List Json)
  | object (fields : List (String × Json))
  deriving Inhabited

namespace Json

/-! ### Text -/

def isLead (n : Nat) : Bool := 0xD800 ≤ n && n < 0xDC00

def isTrail (n : Nat) : Bool := 0xDC00 ≤ n && n < 0xE000

/-- The text of a string. A unit that leads a pair must be followed by one that trails, and no
other unit may trail. -/
def chars? : List Piece → Option (List Char)
  | [] => some []
  | .char c :: rest => (chars? rest).map (c :: ·)
  | .unit n :: rest =>
    if isLead n then
      match rest with
      | .unit m :: rest =>
        if isTrail m then
          (chars? rest).map (Char.ofNat (0x10000 + (n - 0xD800) * 0x400 + (m - 0xDC00)) :: ·)
        else none
      | _ => none
    else if isTrail n then none
    else (chars? rest).map (Char.ofNat n :: ·)

def text? (pieces : List Piece) : Option String :=
  (chars? pieces).map String.ofList

/-! ### Depth -/

mutual

/-- How many containers of a document lie inside each other. -/
def Document.depth : Document → Nat
  | .array items => depthOfItems items + 1
  | .object fields => depthOfFields fields + 1
  | _ => 0

def depthOfItems : List Document → Nat
  | [] => 0
  | d :: ds => max d.depth (depthOfItems ds)

def depthOfFields : List (List Piece × Document) → Nat
  | [] => 0
  | (_, d) :: fs => max d.depth (depthOfFields fs)

end

def depthLimit : Nat := 127

/-! ### Values -/

mutual

def Document.json? : Document → Option Json
  | .null => some .null
  | .bool b => some (.bool b)
  | .number n => n.number?.map .number
  | .string s => (text? s).map .string
  | .array items => (jsonItems? items).map .array
  | .object fields => (jsonFields? fields).map .object

def jsonItems? : List Document → Option (List Json)
  | [] => some []
  | d :: ds => do
    let v ← d.json?
    let vs ← jsonItems? ds
    some (v :: vs)

def jsonFields? : List (List Piece × Document) → Option (List (String × Json))
  | [] => some []
  | (k, d) :: fs => do
    let k ← text? k
    let v ← d.json?
    let vs ← jsonFields? fs
    some ((k, v) :: vs)

end

def Document.value? (d : Document) : Option Json :=
  if d.depth ≤ depthLimit then d.json? else none

def read? (text : String) : Option Json :=
  (Document.read? text).bind Document.value?

/-! ### Looking into a value -/

def string? : Json → Option String
  | string s => some s
  | _ => none

def bool? : Json → Option Bool
  | bool b => some b
  | _ => none

def array? : Json → Option (List Json)
  | array items => some items
  | _ => none

def object? : Json → Option (List (String × Json))
  | object fields => some fields
  | _ => none

/-- The value under a key: the last, where the key is repeated. -/
def field? (j : Json) (key : String) : Option Json :=
  j.object?.bind fun fields => fields.reverse.lookup key

end Json

end ModuleLoader
