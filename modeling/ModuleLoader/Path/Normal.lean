import ModuleLoader.Path.Basic
/-!
The normal form of a path.

Identifiers and cache keys are compared as they stand, so a place should have
one spelling. Normalising walks the components with the path built so far as a
stack, its last component on top: a name is pushed, a dot is skipped, and `..`
takes back the name on top. Where there is no name to take back it depends on
what is there instead. At the root, `..` stays at the root. In a relative path
nothing is known about what lies outside, so `..` is kept, and from then on the
stack begins with a run of them.

No file is consulted: `..` undoes the name before it even where that name is
missing or is a file.
-/

namespace ModuleLoader

namespace Path

def ofComponents : List Component → Path
  | .root :: steps => ⟨"/" ++ joined (steps.map Component.text)⟩
  | steps => ⟨joined (steps.map Component.text)⟩

def walkStep (walk : List Component) : Component → List Component
  | .here => walk
  | .up =>
    match walk with
    | .name _ :: rest => rest
    | .root :: rest => .root :: rest
    | walk => .up :: walk
  | step => step :: walk

def normalSteps (steps : List Component) : List Component :=
  (steps.foldl walkStep []).reverse

def normalize (p : Path) : Path :=
  ofComponents (normalSteps p.components)

/-- Whether an identifier is meant from where its reader stands: `.` or `..`, alone or before a
slash. -/
def spellsRelative (id : String) : Bool :=
  match id.toList with
  | ['.'] => true
  | '.' :: '/' :: _ => true
  | ['.', '.'] => true
  | '.' :: '.' :: '/' :: _ => true
  | _ => false

end Path

end ModuleLoader
