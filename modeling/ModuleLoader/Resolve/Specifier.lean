import ModuleLoader.Resolve.RequireId
/-!
Where an import specifier leads.

A specifier is resolved without a look at the files, unless it names a package.
A built-in name leads to the built-in and is kept as it was written. A path is
joined to the directory of the referrer and normalised; whether anything is
there shows when it is read. Packages are found by whoever knows where packages
are, from the referrer.

The referrer has to be an absolute path, because directories are counted from
it. That is checked after the built-ins, which need no referrer.
-/

namespace ModuleLoader

inductive Location where
  | builtin (specifier : String)
  | file (path : Path)
  | package (specifier : String) (path : Path)
  deriving DecidableEq, Repr

namespace Location

def path? : Location → Option Path
  | builtin _ => none
  | file p => some p
  | package _ p => some p

def isBuiltin : Location → Bool
  | builtin _ => true
  | _ => false

def display : Location → String
  | builtin s => s
  | file p => p.text
  | package _ p => p.text

/-- Find out what a specifier means. -/
def resolve (builtins : Registry Provider) (packages : String → Path → Except Error Path)
    (specifier referrer : String) : Except Error Location :=
  let base : Path := ⟨referrer⟩
  let target : Path := ⟨specifier⟩
  if builtins.isBuiltin specifier then .ok (.builtin specifier)
  else if !base.isAbsolute then .error (.invalidReferrer referrer)
  else if target.isAbsolute then .ok (.file target.normalize)
  else if Path.spellsRelative specifier then
    .ok (.file ((base.parentOr base).join target).normalize)
  else (packages specifier base).map (.package specifier)

end Location

end ModuleLoader
