import ModuleLoader.Format
import ModuleLoader.Legacy.Loader
import ModuleLoader.Resolve.Specifier
/-!
From a specifier to a record.

A specifier becomes a record in two steps. It is resolved to a place, and then
the place, by its format, is either compiled as a source module or loaded as a
script would load it and wrapped. Built-in modules are always wrapped, and their
records keep the specifier as it was written.

Records are not shared. Every time a specifier is linked a new record comes of
it, even for a file that has records already. What keeps a cycle of imports from
being followed forever is the chain of modules that a referrer carries: a source
file that is on the chain is not built again, and the cycle is reported instead.
-/

namespace ModuleLoader

variable {σ η : Type}

namespace Linker

def addRecord (record : ModuleRecord σ η) : Eff σ η RecordId :=
  modifyGet fun s => (⟨s.records.size⟩, { s with records := s.records.push record })

/-- What a specifier means to a referrer. Packages are found as scripts find them. -/
def resolve (host : Host σ η) (specifier : String) (referrer : Referrer) : Except Error Location :=
  Location.resolve host.linkerBuiltins (RequireId.resolvePackage host.files host.builtins)
    specifier referrer.identifier

/-- The path of a module that cannot be a built-in. -/
def resolveFile (host : Host σ η) (specifier : String) (referrer : Referrer) :
    Except Error Path := do
  match (← resolve host specifier referrer).path? with
  | some p => .ok p
  | none => .error (.unsupportedFormat specifier)

def buildSource (host : Host σ η) (serve : (c : Call) → Eff σ η c.Reply) (specifier : String)
    (referrer : Referrer) : Eff σ η RecordId := do
  let p ← Eff.ofExcept (resolveFile host specifier referrer)
  let text ← Legacy.fetch host p
  match p.fileUrl? with
  | none => Eff.fail (.invalidReferrer p.text)
  | some url =>
    Eff.emit (.compile p.text url referrer.context)
    let compiled ← (host.compile text ⟨p.text, referrer.context, url⟩).exec serve
    addRecord (.fresh p.text referrer (.source ⟨p, url, compiled⟩))

/-- The value that a synthetic module wraps, and the name it goes by. -/
def originOf (host : Host σ η) (serve : (c : Call) → Eff σ η c.Reply) (specifier : String)
    (referrer : Referrer) : Eff σ η (String × Value) := do
  if host.linkerBuiltins.isBuiltin specifier then
    return (specifier, ← Legacy.provide serve host.linkerBuiltins specifier)
  else
    let p ← Eff.ofExcept (resolveFile host specifier referrer)
    return (p.text, ← Legacy.require host serve ⟨p.text, ⟨referrer.identifier⟩⟩)

def wrap (mode : ExportMode) (h : Heap) (origin : Value) : SyntheticModule :=
  match mode with
  | .ownKeys => .ownKeys h origin
  | .defaultOnly => .whole origin

def buildSynthetic (host : Host σ η) (serve : (c : Call) → Eff σ η c.Reply) (specifier : String)
    (referrer : Referrer) : Eff σ η RecordId := do
  let (identifier, origin) ← originOf host serve specifier referrer
  let m := wrap host.config.exportMode (← get).heap origin
  addRecord (.fresh identifier referrer (.synthetic m))

def buildAt (host : Host σ η) (serve : (c : Call) → Eff σ η c.Reply) (specifier : String)
    (referrer : Referrer) (p : Path) : Eff σ η RecordId := do
  match ← Eff.ofExcept (host.config.detect host.files p) with
  | some .source =>
    if referrer.lineage.contains p.text then
      Eff.fail (.circularImport (referrer.lineage ++ [p.text]))
    else buildSource host serve p.text referrer
  | some .synthetic => buildSynthetic host serve p.text referrer
  | none => Eff.fail (.unsupportedFormat specifier)

def link (host : Host σ η) (serve : (c : Call) → Eff σ η c.Reply) (specifier : String)
    (referrer : Referrer) : Eff σ η RecordId := do
  if host.linkerBuiltins.isBuiltin specifier then buildSynthetic host serve specifier referrer
  else
    match (← Eff.ofExcept (resolve host specifier referrer)).path? with
    | some p => buildAt host serve specifier referrer p
    | none => buildSynthetic host serve specifier referrer

end Linker

end ModuleLoader
