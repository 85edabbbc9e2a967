import ModuleLoader.Linker.Build
/-!
Linking and evaluating the graph below a record.

Linking a record builds a record for each of its requests and links that one
before it goes on to the next, so the graph is built depth first in the order of
the requests. Evaluating a record evaluates what was linked for its requests, in
the same order, and then runs its body. What went wrong first is what both
report. The record on which it went wrong, and every record on the way down to
it, is then errored for good and keeps the sentence.

Both may be asked for at any time, also while they are under way: what a record
does is decided by its status. A record that is being linked cannot be linked
again, one that is not linked cannot be evaluated, and one that is done has
nothing more to do.
-/

namespace ModuleLoader

variable {σ η α : Type}

namespace Linker

/-! ### The status of a record -/

/-- A record by its name. There is no program that could make up a name. -/
def recordAt (r : RecordId) : Eff σ η (ModuleRecord σ η) := do
  match (← get).records[r.index]? with
  | some record => return record
  | none => throw (.panic "no such record")

def modifyPhase (r : RecordId) (f : Phase → Phase) : Eff σ η Unit :=
  modify (·.modifyRecord r fun record => { record with phase := f record.phase })

def transition (r : RecordId) (status : Status) : Eff σ η Unit := do
  let record ← recordAt r
  if record.status.canMove status then modifyPhase r (·.move status)
  else Eff.fail (.invalidStatus record.identifier record.status status)

def complete (r : RecordId) (n : Namespace) : Eff σ η Unit := do
  transition r .evaluated
  modifyPhase r (·.keep n)

/-- Mark a record as failed, unless it has a status from which it cannot fail. -/
def markFailed (r : RecordId) (e : Error) : Eff σ η Unit := do
  let record ← recordAt r
  if record.status.canMove .errored then modifyPhase r (·.fail e.message)

/-- Work on behalf of a record: if it fails, the record has failed. -/
def onBehalf (r : RecordId) (work : Eff σ η α) : Eff σ η α := do
  match ← work.settle with
  | .ok a => return a
  | .error e =>
    markFailed r e
    Eff.fail e

def addDependency (r : RecordId) (specifier : String) (dep : RecordId) : Eff σ η Unit :=
  modify (·.modifyRecord r fun record =>
    { record with dependencies := record.dependencies ++ [(specifier, dep)] })

/-! ### Linking -/

def linkRequests (host : Host σ η) (serve : (c : Call) → Eff σ η c.Reply) (r : RecordId)
    (referrer : Referrer) : List String → Eff σ η Unit
  | [] => pure ()
  | specifier :: rest => do
    let dep ← link host serve specifier referrer
    serve (.linkModule dep)
    addDependency r specifier dep
    linkRequests host serve r referrer rest

def linkModule (host : Host σ η) (serve : (c : Call) → Eff σ η c.Reply) (r : RecordId) :
    Eff σ η Unit := do
  let record ← recordAt r
  match record.status with
  | .unlinked =>
    transition r .linking
    onBehalf r (linkRequests host serve r record.referrer record.requests)
    transition r .linked
  | .linking => Eff.fail (.circularImport record.chain)
  | .errored => Eff.fail record.failed
  | _ => pure ()

/-! ### Evaluating -/

def evaluateAll (serve : (c : Call) → Eff σ η c.Reply) (imports : OrderedMap Namespace) :
    List (String × RecordId) → Eff σ η (OrderedMap Namespace)
  | [] => pure imports
  | (specifier, dep) :: rest => do
    let n ← serve (.evaluate dep)
    evaluateAll serve (imports.insert specifier n) rest

/-- Evaluate what a source module depends on, and then run its body. -/
def evaluateSource (serve : (c : Call) → Eff σ η c.Reply) (r : RecordId)
    (record : ModuleRecord σ η) (m : SourceModule σ η) : Eff σ η Namespace := do
  let imports ← evaluateAll serve .empty record.dependencies
  let importMeta ← Eff.ofExcept (ImportMeta.ofPath m.location)
  let env : ModuleEnvironment := ⟨record.context, importMeta, imports, record.importer⟩
  Eff.emit (.evaluate r env)
  (m.compiled.body env).exec serve

def evaluateSynthetic (m : SyntheticModule) : Eff σ η Namespace := do
  let h := (← get).heap
  Eff.perform (.newNamespace (m.snapshot h))

def evaluateKind (serve : (c : Call) → Eff σ η c.Reply) (r : RecordId)
    (record : ModuleRecord σ η) : Eff σ η Namespace :=
  match record.kind with
  | .source m => evaluateSource serve r record m
  | .synthetic m => evaluateSynthetic m

/-- Evaluate what a record is made from, and keep what comes of it. -/
def evaluateAnew (serve : (c : Call) → Eff σ η c.Reply) (r : RecordId)
    (record : ModuleRecord σ η) : Eff σ η Namespace := do
  transition r .evaluating
  let n ← onBehalf r (evaluateKind serve r record)
  complete r n
  return n

/-- The namespace of a record, which is there if the record has been evaluated before. -/
def evaluate (serve : (c : Call) → Eff σ η c.Reply) (r : RecordId) : Eff σ η Namespace := do
  let record ← recordAt r
  match record.status with
  | .linked => evaluateAnew serve r record
  | .evaluated =>
    match record.phase.namespace? with
    | some n => return n
    | none => evaluateAnew serve r record
  | .errored => Eff.fail record.failed
  | _ => Eff.fail (.notLinked record.identifier)

end Linker

end ModuleLoader
