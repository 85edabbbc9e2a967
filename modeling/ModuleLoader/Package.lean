import ModuleLoader.Error
import ModuleLoader.Json.Shape
/-!
What a package says about itself.

A directory is described by a file `package.json`, a document of which at any
time one field is wanted and the others are passed over: `main` to find the
module that stands for the whole package, `type` to find the format of its
files. The field may be missing or say null, and it may be given as the only
item of an array; a document of any other shape is an error, whether or not the
field can be guessed from it.
-/

namespace ModuleLoader

namespace Package

def manifestOf (dir : Path) : Path := dir.join ⟨"package.json"⟩

def ofDocument? (name : String) (d : Json.Document) : Option (Option String) :=
  match d with
  | .array [] => none
  | d => (d.record? [name]).bind fun fields =>
      fields.get name Json.Document.optionalString? (some none)

def field (name : String) (text : String) : Except Error (Option String) :=
  match (Json.Document.read? text).bind (ofDocument? name) with
  | some value => .ok value
  | none => .error .json

end Package

end ModuleLoader
