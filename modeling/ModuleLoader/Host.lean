import ModuleLoader.Builtin.Registry
import ModuleLoader.Config
import ModuleLoader.Hook.Stack
import ModuleLoader.Record.Basic
/-!
What a loader is given and does not change.

The files, the settings and the tables of built-in modules belong here, and so
does the code that is not the loader's: how source text becomes a module, how
the text of a script is run, what an installed hook does. While the loader works
none of this changes, so that it is a parameter of every computation and no part
of its state.

The linker may have built-in modules of its own. Where it has none it shares
those of the scripts.
-/

namespace ModuleLoader

structure CompileOptions where
  identifier : String
  context : ContextId
  url : String
  deriving DecidableEq, Repr

/-- What the body of a script is given. What it exports is what the variable holds when it ends. -/
structure ScriptModule where
  filename : Path
  dirname : Path
  context : ContextId
  exports : ExportsRef
  deriving DecidableEq, Repr

abbrev Provider (σ η : Type) := Program σ η Value

structure Host (σ η : Type) where
  files : FileTree
  config : Config
  /-- The built-in modules that scripts know. -/
  builtins : Registry (Provider σ η)
  linkerBuiltins? : Option (Registry (Provider σ η))
  /-- The context that scripts run in. -/
  scriptContext : ContextId
  compile : String → CompileOptions → Script σ η (Compiled σ η)
  runScript : String → ScriptModule → Script σ η Unit
  hook : η → Hook σ η
  /-- What a lookup does behind the hooks, if it is not to look for modules. -/
  lookup? : Option (LookupCall → Script σ η Value)

namespace Host

variable {σ η : Type}

def linkerBuiltins (host : Host σ η) : Registry (Provider σ η) :=
  host.linkerBuiltins?.getD host.builtins

/-- Enter a provider into the linker's table, which may be the scripts' table as well. -/
def register (host : Host σ η) (name : String) (p : Provider σ η) : Host σ η :=
  match host.linkerBuiltins? with
  | some r => { host with linkerBuiltins? := some (r.register name p) }
  | none => { host with builtins := host.builtins.register name p }

end Host

end ModuleLoader
