import ModuleLoader.Json.Basic
/-!
Documents that are expected to have a shape.

A record is written as an object of its fields, in any order, or as an array of
them, in the order in which they are declared. In an object, a field that the
record does not declare is passed over without a look at its value, while a
declared one may stand only once. Which fields may be missing is up to the
record.

So reading a record first sorts the fields out and only then asks for values.
A `Fields` holds for every declared name the document that stands for it, if
there is one, and `Fields.get` asks that document for a value of some type. A
type's reader sees the document, not its value, because it may refuse what it
sees without caring for the rest.
-/

namespace ModuleLoader

namespace Json

abbrev Fields := List (String × Document)

/-- Sort out the fields of an object. A declared name that comes twice spoils the record. -/
def declaredFields? (declared : List String) : List (List Piece × Document) → Option Fields
  | [] => some []
  | (key, d) :: rest => do
    let name ← text? key
    let fields ← declaredFields? declared rest
    if declared.contains name then
      if (fields.lookup name).isSome then none else some ((name, d) :: fields)
    else some fields

/-- The fields of a record that declares these names, from an object or from an array that is not
longer than the list of names. -/
def Document.record? (declared : List String) : Document → Option Fields
  | .object fields => declaredFields? declared fields
  | .array items => if items.length ≤ declared.length then some (declared.zip items) else none
  | _ => none

def Fields.get (fields : Fields) (name : String) (reader : Document → Option α)
    (missing : Option α) : Option α :=
  match fields.lookup name with
  | some d => reader d
  | none => missing

namespace Document

def string? : Document → Option String
  | .string s => text? s
  | _ => none

def bool? : Document → Option Bool
  | .bool b => some b
  | _ => none

def optionalString? : Document → Option (Option String)
  | .null => some none
  | d => d.string?.map some

/-- One of a list of names: a string, or an object whose only field has the name and no value. -/
def name? : Document → Option String
  | .string s => text? s
  | .object [(key, .null)] => text? key
  | _ => none

def mapEntries? (reader : Document → Option α) :
    List (List Piece × Document) → Option (List (String × α))
  | [] => some []
  | (key, d) :: rest => do
    let k ← text? key
    let v ← reader d
    let vs ← mapEntries? reader rest
    some ((k, v) :: vs)

def map? (reader : Document → Option α) : Document → Option (List (String × α))
  | .object fields => mapEntries? reader fields
  | _ => none

end Document

end Json

end ModuleLoader
