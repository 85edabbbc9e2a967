import ModuleLoader.Config
import ModuleLoader.Package
/-!
Which kind of module a file becomes.

The extension of the file name decides, as far as the settings know it. Some
extensions leave the decision to the package: it is then made by the nearest
`package.json` above the file that can be read at all, and by no other. Going
up stops at that one even if nothing useful is in it, and a file in which no
document can be found is an error there, not a reason to look further.
-/

namespace ModuleLoader

inductive Dispatch where
  | source
  | synthetic
  deriving DecidableEq, Repr

namespace ModuleFormat

def dispatch : ModuleFormat → Dispatch
  | source => .source
  | _ => .synthetic

end ModuleFormat

/-- The nearest manifest above a path that can be read, as text. -/
def FileTree.scope? (files : FileTree) (p : Path) : Option String :=
  p.ancestors.findSome? fun dir => (files.read (Package.manifestOf dir)).toOption

namespace Config

def scopedFormat (files : FileTree) (p : Path) : Except Error ModuleFormat :=
  match files.scope? p with
  | none => .ok .legacy
  | some text => (Package.field "type" text).map ModuleFormat.ofPackageType

def detect (c : Config) (files : FileTree) (p : Path) : Except Error (Option Dispatch) :=
  match p.extension?.bind c.format? with
  | none => .ok none
  | some .packageScoped =>
    if c.packageTypeLookup then (scopedFormat files p).map fun f => some f.dispatch
    else .ok (some .synthetic)
  | some f => .ok (some f.dispatch)

end Config

end ModuleLoader
