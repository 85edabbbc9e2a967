import ModuleLoader.Error
import ModuleLoader.Json.Printer
import ModuleLoader.Json.Shape
import ModuleLoader.OrderedMap
/-!
The settings of a loader.

There are four: the scheme under which built-in modules are also known, how a
value that is no module is turned into exports, which format a file name's
extension stands for, and whether the package a file belongs to has a say in
that. Each has a default, so a document of settings names only those that
differ, and after the document the environment has the last word on all but the
formats.

Overrides from the environment are taken one after the other. One that makes no
sense is an error, but the ones before it stay in force.
-/

namespace ModuleLoader

inductive ExportMode where
  /-- One export for each property of the value. -/
  | ownKeys
  /-- The value itself, as the default export. -/
  | defaultOnly
  deriving DecidableEq, Repr, Inhabited

namespace ExportMode

def text : ExportMode → String
  | ownKeys => "own-keys"
  | defaultOnly => "default-only"

def ofText? : String → Option ExportMode
  | "own-keys" => some ownKeys
  | "default-only" => some defaultOnly
  | _ => none

theorem ofText?_text (m : ExportMode) : ofText? m.text = some m := by
  cases m <;> rfl

def parse (text : String) : Except Error ExportMode :=
  match ofText? text with
  | some m => .ok m
  | none => .error (.config ("unknown export mode '" ++ text ++ "'"))

end ExportMode

inductive ModuleFormat where
  | source
  | legacy
  /-- The package that the file belongs to decides. -/
  | packageScoped
  deriving DecidableEq, Repr, Inhabited

namespace ModuleFormat

def text : ModuleFormat → String
  | source => "source"
  | legacy => "legacy"
  | packageScoped => "package-scoped"

def ofText? : String → Option ModuleFormat
  | "source" => some source
  | "legacy" => some legacy
  | "package-scoped" => some packageScoped
  | _ => none

theorem ofText?_text (f : ModuleFormat) : ofText? f.text = some f := by
  cases f <;> rfl

def ofPackageType : Option String → ModuleFormat
  | some "module" => source
  | _ => legacy

end ModuleFormat

structure Config where
  builtinScheme : String := "node:"
  exportMode : ExportMode := .ownKeys
  /-- The formats of extensions, in the order of the extensions. -/
  extensions : List (String × ModuleFormat) :=
    [("cjs", .legacy), ("js", .packageScoped), ("json", .legacy), ("mjs", .source)]
  packageTypeLookup : Bool := true
  deriving DecidableEq, Repr, Inhabited

namespace Config

def default : Config := {}

def format? (c : Config) (extension : String) : Option ModuleFormat :=
  c.extensions.lookup extension

/-! ### Documents of settings -/

def fieldNames : List String :=
  ["builtinScheme", "exportMode", "extensions", "packageTypeLookup"]

def ofFields? (fields : Json.Fields) : Option Config := do
  let scheme ← fields.get "builtinScheme" Json.Document.string? (some default.builtinScheme)
  let mode ← fields.get "exportMode" (fun d => d.name?.bind ExportMode.ofText?)
    (some default.exportMode)
  let extensions ← fields.get "extensions"
    (fun d => (d.map? fun d => d.name?.bind ModuleFormat.ofText?).map sortedPairs)
    (some default.extensions)
  let lookup ← fields.get "packageTypeLookup" Json.Document.bool? (some default.packageTypeLookup)
  some
    { builtinScheme := scheme
      exportMode := mode
      extensions := extensions
      packageTypeLookup := lookup }

def read (text : String) : Except Error Config :=
  match (Json.Document.read? text).bind fun d => (d.record? fieldNames).bind ofFields? with
  | some c => .ok c
  | none => .error .json

def toJson (c : Config) : Json :=
  .object
    [("builtinScheme", .string c.builtinScheme),
     ("exportMode", .string c.exportMode.text),
     ("extensions", .object (c.extensions.map fun (ext, f) => (ext, .string f.text))),
     ("packageTypeLookup", .bool c.packageTypeLookup)]

/-! ### The environment -/

def switch? : String → Option Bool
  | "1" => some true
  | "true" => some true
  | "yes" => some true
  | "0" => some false
  | "false" => some false
  | "no" => some false
  | _ => none

abbrev Environment := String → Option String

def overrideMode (env : Environment) (c : Config) : Except Error Config :=
  match env "SPACEY_VM_EXPORT_MODE" with
  | none => .ok c
  | some text => (ExportMode.parse text).map fun m => { c with exportMode := m }

def overrideScheme (env : Environment) (c : Config) : Except Error Config :=
  match env "SPACEY_VM_BUILTIN_SCHEME" with
  | none => .ok c
  | some scheme => .ok { c with builtinScheme := scheme }

def overrideLookup (env : Environment) (c : Config) : Except Error Config :=
  match env "SPACEY_VM_PACKAGE_TYPE_LOOKUP" with
  | none => .ok c
  | some text =>
    match switch? text with
    | some b => .ok { c with packageTypeLookup := b }
    | none =>
      .error (.config ("SPACEY_VM_PACKAGE_TYPE_LOOKUP must be a boolean, got '" ++ text ++ "'"))

/-- Apply overrides in turn up to the first that fails, and return the settings reached by then. -/
def applyAll : List (Config → Except Error Config) → Config → Config × Option Error
  | [], c => (c, none)
  | step :: rest, c =>
    match step c with
    | .ok c => applyAll rest c
    | .error e => (c, some e)

/-- The settings after the environment has been asked, and what was wrong with it. -/
def override (env : Environment) (c : Config) : Config × Option Error :=
  applyAll [overrideMode env, overrideScheme env, overrideLookup env] c

def ofFile (files : FileTree) (p : Path) (env : Environment) : Except Error Config := do
  let text ← (files.read p).mapError Error.io
  let c ← read text
  match c.override env with
  | (c, none) => .ok c
  | (_, some e) => .error e

end Config

end ModuleLoader
