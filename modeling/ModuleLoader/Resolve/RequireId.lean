import ModuleLoader.Builtin.Registry
import ModuleLoader.Package
import ModuleLoader.Path.Normal
/-!
Where a required id leads.

An id that the registry knows leads to a built-in module. An id that looks like
a path is taken from the directory of the file that requires it and names a
file or a directory. Any other id names a package, perhaps with a path inside
it, and packages are looked for in the `node_modules` of every directory above
the requiring file, the nearest first.

A path is tried as it stands and then with each of four extensions. A directory
stands for the file its manifest calls `main`, tried in the same way, or else
for its index file. Everything comes down to a list of candidates of which the
first that is a file is taken; the manifest is what keeps this from being a list
known beforehand, because a manifest that cannot be read or understood ends the
search with an error.
-/

namespace ModuleLoader

inductive Resolution where
  | builtin (name : String)
  | script (path : Path)
  | json (path : Path)
  | native (path : Path)
  deriving DecidableEq, Repr

namespace Resolution

def path? : Resolution → Option Path
  | builtin _ => none
  | script p => some p
  | json p => some p
  | native p => some p

def ofFile (p : Path) : Resolution :=
  match p.extension? with
  | some "json" => json p
  | some "node" => native p
  | _ => script p

end Resolution

namespace RequireId

/-! ### Candidates -/

def extensions : List String := [".js", ".cjs", ".json", ".node"]

/-- The path with each extension after its file name. -/
def extended (p : Path) : List Path :=
  match p.fileName? with
  | some name => extensions.map fun ext => p.withFileName (name ++ ext)
  | none => []

def asFile? (files : FileTree) (p : Path) : Option Path :=
  (p :: extended p).find? files.isFile

def indexes (dir : Path) : List Path :=
  extensions.map fun ext => dir.join ⟨"index" ++ ext⟩

/-- What the manifest of a directory calls its main module, if there is a manifest. -/
def main? (files : FileTree) (dir : Path) : Except Error (Option String) :=
  let manifest := Package.manifestOf dir
  if files.isFile manifest then
    match files.read manifest with
    | .error e => .error (.io e)
    | .ok text => Package.field "main" text
  else .ok none

def asDirectory? (files : FileTree) (dir : Path) : Except Error (Option Path) :=
  (main? files dir).map fun main =>
    match main.bind fun m => asFile? files (dir.join ⟨m⟩).normalize with
    | some p => some p
    | none => (indexes dir).find? files.isFile

def asPath? (files : FileTree) (p : Path) : Except Error (Option Path) :=
  match asFile? files p with
  | some found => .ok (some found)
  | none => if files.isDirectory p then asDirectory? files p else .ok none

/-! ### Packages -/

def splitAtSlash : List Char → Option (List Char × List Char)
  | [] => none
  | '/' :: rest => some ([], rest)
  | c :: rest => (splitAtSlash rest).map fun (before, after) => (c :: before, after)

/-- A package id as the name of the package and the path inside it. The name ends before the first
slash, or before the second where it begins with a scope. -/
def splitPackage (id : String) : String × Option String :=
  match id.toList with
  | '@' :: rest =>
    match splitAtSlash rest with
    | none => (id, none)
    | some (scope, rest) =>
      match splitAtSlash rest with
      | none => (id, none)
      | some (name, sub) =>
        (String.ofList ('@' :: scope ++ '/' :: name), some (String.ofList sub))
  | chars =>
    match splitAtSlash chars with
    | none => (id, none)
    | some (name, sub) => (String.ofList name, some (String.ofList sub))

/-- Where a package would be that belongs to a directory. -/
def packageDir (name : String) (dir : Path) : Path :=
  (dir.join ⟨"node_modules"⟩).join ⟨name⟩

def inPackage? (files : FileTree) (package : Path) : Option String → Except Error (Option Path)
  | some sub => asPath? files (package.join ⟨sub⟩).normalize
  | none => asDirectory? files package

/-- The file found in the first of the directories that has the package and finds it there. -/
def inPackages? (files : FileTree) (name : String) (sub? : Option String) :
    List Path → Except Error (Option Path)
  | [] => .ok none
  | dir :: rest =>
    let package := packageDir name dir
    if files.isDirectory package then
      match inPackage? files package sub? with
      | .error e => .error e
      | .ok (some p) => .ok (some p)
      | .ok none => inPackages? files name sub? rest
    else inPackages? files name sub? rest

/-! ### Resolution -/

def isPath (id : String) : Bool :=
  Path.spellsRelative id || (⟨id⟩ : Path).isAbsolute

def target (id : String) (parent : Path) : Path :=
  ((parent.parentOr ⟨"/"⟩).join ⟨id⟩).normalize

def file? (files : FileTree) (id : String) (parent : Path) : Except Error (Option Path) :=
  if isPath id then asPath? files (target id parent)
  else
    let (name, sub?) := splitPackage id
    inPackages? files name sub? parent.ancestors

def resolve (files : FileTree) (builtins : Registry Provider) (id : String) (parent : Path) :
    Except Error Resolution :=
  match builtins.canonicalName? id with
  | some name => .ok (.builtin name)
  | none =>
    match file? files id parent with
    | .error e => .error e
    | .ok (some p) => .ok (.ofFile p)
    | .ok none => .error (.moduleNotFound id)

def resolvePackage (files : FileTree) (builtins : Registry Provider) (specifier : String)
    (anchor : Path) : Except Error Path :=
  match resolve files builtins specifier anchor with
  | .ok found =>
    match found.path? with
    | some p => .ok p
    | none => .error (.unresolvedPackage specifier anchor)
  | .error (.moduleNotFound _) => .error (.unresolvedPackage specifier anchor)
  | .error e => .error e

end RequireId

end ModuleLoader
