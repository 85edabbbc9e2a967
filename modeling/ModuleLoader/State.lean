import ModuleLoader.Cache
import ModuleLoader.Hook.Stack
import ModuleLoader.Trace
/-!
The state of a loader, and computations on it.

All that changes while a loader works is in one value: the heap, the contexts
with their global objects, the records, the cache, the hooks, and what the code
that is not the loader's remembers. A computation may come to nothing in three
ways. It may fail with an error, which is an answer like any other; a panic may
go through it; or it may not have come to an end within the depth it was given.
In each case the state reached by then remains, because that is what a failure
in the middle leaves behind.
-/

namespace ModuleLoader

structure Context where
  name? : Option String
  globals : ObjectRef
  deriving Inhabited

structure State (σ η : Type) where
  heap : Heap
  contexts : Array Context
  /-- What scripts export, while they run. -/
  exports : Array Value
  records : Array (ModuleRecord σ η)
  cache : Cache
  hooks : HookStack η
  trace : Trace
  store : σ

inductive Fault where
  | error (e : Error)
  | panic (message : String)
  | outOfDepth
  deriving DecidableEq, Repr

abbrev Eff (σ η : Type) := ExceptT Fault (StateM (State σ η))

variable {σ η α β : Type}

namespace State

def initial (store : σ) : State σ η where
  heap := .empty
  contexts := #[]
  exports := #[]
  records := #[]
  cache := .empty
  hooks := .empty
  trace := #[]
  store := store

def newContext (s : State σ η) (name? : Option String) : ContextId × State σ η :=
  let (globals, heap) := s.heap.newObject .empty
  (⟨s.contexts.size⟩, { s with heap, contexts := s.contexts.push { name?, globals } })

def context (s : State σ η) (c : ContextId) : Context :=
  s.contexts[c.index]?.getD default

def emit (s : State σ η) (e : Event) : State σ η :=
  { s with trace := s.trace.push e }

def exportsOf (s : State σ η) (r : ExportsRef) : Value :=
  s.exports[r.index]?.getD .undefined

def modifyRecord (s : State σ η) (r : RecordId)
    (f : ModuleRecord σ η → ModuleRecord σ η) : State σ η :=
  { s with records := s.records.modify r.index f }

end State

/-! ### Actions on the state -/

/-- The answer to an action, and the state after it. -/
def Action.carryOut (s : State σ η) : (a : Action σ η) → a.Reply × State σ η
  | make l =>
    let (v, heap) := l.make s.heap
    (v, { s with heap })
  | newNamespace exports =>
    let (n, heap) := s.heap.newNamespace exports
    (n, { s with heap })
  | properties o => (s.heap.properties o, s)
  | setProperty o key value => ((), { s with heap := s.heap.set o key value })
  | deleteProperty o key => ((), { s with heap := s.heap.delete o key })
  | apply f arguments => (s.heap.apply f arguments, s)
  | readExports r => (s.exportsOf r, s)
  | writeExports r value =>
    ((), { s with exports := s.exports.setIfInBounds r.index value }.emit (.assign r value))
  | newContext name? => s.newContext name?
  | globalObject c => ((s.context c).globals, s)
  | status r => (s.records[r.index]?.map ModuleRecord.status, s)
  | dependencies r => (s.records[r.index]?.map ModuleRecord.dependencies, s)
  | evict p =>
    let dropped := s.cache.contains p
    (dropped, { s with cache := s.cache.erase p }.emit (.evict p dropped))
  | install hook =>
    let (g, hooks) := s.hooks.install hook
    (g, { s with hooks })
  | restore g => ((), { s with hooks := s.hooks.restore g })
  | isActive g => (s.hooks.isActive g, s)
  | note line => ((), s.emit (.note line))
  | store => (s.store, s)
  | modifyStore f => ((), { s with store := f s.store })

/-! ### Computations -/

namespace Eff

def perform (a : Action σ η) : Eff σ η a.Reply :=
  modifyGet fun s => a.carryOut s

def emit (e : Event) : Eff σ η Unit := modify (·.emit e)

def fail (e : Error) : Eff σ η α := throw (.error e)

def ofExcept : Except Error α → Eff σ η α
  | .ok a => pure a
  | .error e => fail e

/-- Run to an end of whatever kind, and have that end as a value. -/
def outcome (x : Eff σ η α) : Eff σ η (Except Fault α) :=
  ExceptT.lift x.run

def ofOutcome : Except Fault α → Eff σ η α
  | .ok a => pure a
  | .error f => throw f

/-- Run, and have an error as a value. A panic goes through. -/
def settle (x : Eff σ η α) : Eff σ η (Except Error α) := do
  match ← x.outcome with
  | .ok a => return .ok a
  | .error (.error e) => return .error e
  | .error f => throw f

end Eff

/-! ### Running programs -/

/-- Run a program, given someone who answers its calls. -/
def Program.run (serve : (c : Call) → Eff σ η c.Reply) : Program σ η α → Eff σ η α
  | done a => pure a
  | panic m => throw (.panic m)
  | act a next => do
    let r ← Eff.perform a
    (next r).run serve
  | call c next => do
    let r ← (serve c).settle
    (next r).run serve

def Script.exec (serve : (c : Call) → Eff σ η c.Reply) (s : Script σ η α) : Eff σ η α := do
  Eff.ofExcept (← Program.run serve s.run)

end ModuleLoader
