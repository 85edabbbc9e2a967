import ModuleLoader.Linker.Graph
/-!
The loader as a whole.

What a call does may make further calls: linking a record links others, and the
programs that are run along the way may call for anything. So calls nest, and
nothing bounds how deep they nest but the programs. `serve` answers calls that
nest at most so deep, and does not answer what would go deeper. The depth is no
part of any answer, since whatever ends within one depth ends in the same way
within every greater one.

Some requests take several calls in turn, and those are programs themselves: a
dynamic import is what a module body does when it links, and evaluates, one more
module; and a run does it for an entry that nobody imports.
-/

namespace ModuleLoader

variable {σ η α : Type}

def answer (host : Host σ η) (serve : (c : Call) → Eff σ η c.Reply) :
    (c : Call) → Eff σ η c.Reply
  | .require lookup => Legacy.require host serve lookup
  | .link specifier referrer => Linker.link host serve specifier referrer
  | .buildSource specifier referrer => Linker.buildSource host serve specifier referrer
  | .buildSynthetic specifier referrer => Linker.buildSynthetic host serve specifier referrer
  | .linkModule r => Linker.linkModule host serve r
  | .evaluate r => Linker.evaluate serve r

/-- Calls that nest no deeper than this. -/
def serve (host : Host σ η) : Nat → (c : Call) → Eff σ η c.Reply
  | 0, _ => throw .outOfDepth
  | depth + 1, c => answer host (serve host depth) c

/-- Run a program on a state. -/
def Host.exec (host : Host σ η) (depth : Nat) (p : Program σ η α) (s : State σ η) :
    Except Fault α × State σ η :=
  (p.run (serve host depth)).run s

namespace Script

def importModule (referrer : Referrer) (specifier : String) : Script σ η Namespace := do
  let r ← request (.link specifier referrer)
  request (.linkModule r)
  request (.evaluate r)

/-- The context to run in: the given one, or a new one. -/
def contextFor : Option ContextId → Script σ η ContextId
  | some c => pure c
  | none => perform (.newContext none)

/-- Run the module at an absolute path, in the given context or in one of its own. -/
def runEntry (entry : Path) (context? : Option ContextId) : Script σ η RecordId :=
  if entry.isAbsolute then do
    let context ← contextFor context?
    let r ← request (.buildSource entry.text (.root entry.text context))
    request (.linkModule r)
    let _ ← request (.evaluate r)
    return r
  else throw (.invalidEntry entry)

end Script

end ModuleLoader
