import ModuleLoader.Hook.Intercept
import ModuleLoader.Resolve.RequireId
/-!
Loading what scripts require.

A lookup that has passed the hooks resolves its id and then loads what it found.
A built-in is provided anew each time. A file is loaded once: the cache has its
exports from then on. For a script the entry is made before the body runs, with
the empty object that the body starts from, so a file that is required again
while it is still being loaded answers with that object. When the body has ended
the entry gets what the script then exports; when it fails the entry goes, and
the next lookup starts over. A panic that goes through the body leaves the entry
as it is.

The requiring file is told which file it got before the cache is asked, so that
its list of children is the same whether or not that file was loaded already.
-/

namespace ModuleLoader

variable {σ η : Type}

namespace Legacy

def fetch (host : Host σ η) (p : Path) : Eff σ η String := do
  Eff.emit (.read p)
  match host.files.read p with
  | .ok text => return text
  | .error e => Eff.fail (.sourceRead p e)

def modifyCache (f : Cache → Cache) : Eff σ η Unit :=
  modify fun s => { s with cache := f s.cache }

/-- Change what is kept for a file, and leave an event of it. -/
def record (e : Event) (f : Cache → Cache) : Eff σ η Unit :=
  modify fun s => { s with cache := f s.cache }.emit e

/-- A new object to start from, and a variable that holds it. -/
def newExports : Eff σ η (Value × ExportsRef) :=
  modifyGet fun s =>
    let (o, heap) := s.heap.newObject .empty
    let r : ExportsRef := ⟨s.exports.size⟩
    ((.object o, r), { s with heap, exports := s.exports.push (.object o) })

def dirname (p : Path) : Path := p.parentOr ⟨"/"⟩

/-- Run the body of a script that has an entry by now, and settle the entry. -/
def runBody (host : Host σ η) (serve : (c : Call) → Eff σ η c.Reply) (p : Path) (text : String)
    (r : ExportsRef) : Eff σ η Value := do
  let body := host.runScript text ⟨p, dirname p, host.scriptContext, r⟩
  match ← (body.exec serve).settle with
  | .ok () =>
    let exports := (← get).exportsOf r
    record (.leave p (.ok exports)) (·.finish p exports)
    return exports
  | .error e =>
    record (.leave p (.error e)) (·.erase p)
    Eff.fail e

def loadScript (host : Host σ η) (serve : (c : Call) → Eff σ η c.Reply) (p parent : Path) :
    Eff σ η Value := do
  modifyCache (·.addChild parent p)
  match (← get).cache.exports? p with
  | some exports => return exports
  | none =>
    let text ← fetch host p
    let (start, r) ← newExports
    record (.enter p host.scriptContext r start) (·.insert p (.loading p (some parent) start))
    runBody host serve p text r

def loadJson (host : Host σ η) (p parent : Path) : Eff σ η Value := do
  modifyCache (·.addChild parent p)
  match (← get).cache.exports? p with
  | some exports => return exports
  | none =>
    let text ← fetch host p
    match Json.read? text with
    | none => Eff.fail .json
    | some json =>
      let value ← Eff.perform (.make (.ofJson json))
      record (.parse p value) (·.insert p
        ((CachedModule.loading p (some parent) value).finish value))
      return value

def answering (p : Path) (exports : Eff σ η Value) : Eff σ η Value := do
  let value ← exports
  Eff.emit (.answer p value)
  return value

def provide (serve : (c : Call) → Eff σ η c.Reply) (builtins : Registry (Provider σ η))
    (specifier : String) : Eff σ η Value :=
  match builtins.find? specifier with
  | none => Eff.fail (.unknownBuiltin specifier)
  | some provider => do
    Eff.emit (.provide specifier)
    provider.run serve

def load (host : Host σ η) (serve : (c : Call) → Eff σ η c.Reply) (call : LookupCall) :
    Eff σ η Value := do
  match ← Eff.ofExcept (RequireId.resolve host.files host.builtins call.id call.parent) with
  | .builtin name => provide serve host.builtins name
  | .script p => answering p (loadScript host serve p call.parent)
  | .json p => answering p (loadJson host p call.parent)
  | .native p => Eff.fail (.unsupportedFormat p.text)

def base (host : Host σ η) (serve : (c : Call) → Eff σ η c.Reply) (call : LookupCall) :
    Eff σ η Value := do
  Eff.emit (.lookup call)
  match host.lookup? with
  | some f => (f call).exec serve
  | none => load host serve call

/-- A lookup, through the hooks that are installed as it begins. -/
def require (host : Host σ η) (serve : (c : Call) → Eff σ η c.Reply) (call : LookupCall) :
    Eff σ η Value := do
  let layers := (← get).hooks.outermostFirst
  intercept host serve call (base host serve call) layers

end Legacy

end ModuleLoader
