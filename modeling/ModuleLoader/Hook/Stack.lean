import ModuleLoader.Program
/-!
Hooks around lookups, and the stack they are kept in.

A hook is a pair of callbacks, one to run before a lookup and one after it. An
installed hook is a layer of the stack, and whoever installed it holds a guard
with which to take it out again. A guard works once: it takes out its own layer,
wherever that is by then, and from then on does nothing. So layers can be taken
out in any order, and each is in the stack exactly as long as its guard is good.
-/

namespace ModuleLoader

structure Hook (σ η : Type) where
  before? : Option (LookupCall → Program σ η Unit)
  after? : Option (LookupCall → Program σ η Unit)

structure Layer (η : Type) where
  guard : GuardId
  hook : η
  deriving DecidableEq

structure HookStack (η : Type) where
  /-- Which guards are still good, by their numbers. -/
  guards : Array Bool
  /-- The layers, the latest last. -/
  layers : List (Layer η)
  deriving DecidableEq

namespace HookStack

variable {η : Type}

instance : Inhabited (HookStack η) := ⟨⟨#[], []⟩⟩

def empty : HookStack η := ⟨#[], []⟩

def install (s : HookStack η) (hook : η) : GuardId × HookStack η :=
  let guard : GuardId := ⟨s.guards.size⟩
  (guard, ⟨s.guards.push true, s.layers ++ [⟨guard, hook⟩]⟩)

def isActive (s : HookStack η) (g : GuardId) : Bool :=
  s.guards[g.index]?.getD false

def restore (s : HookStack η) (g : GuardId) : HookStack η :=
  if s.isActive g then
    ⟨s.guards.setIfInBounds g.index false, s.layers.filter fun l => l.guard != g⟩
  else s

def isHooked (s : HookStack η) : Bool := !s.layers.isEmpty

def outermostFirst (s : HookStack η) : List (Layer η) := s.layers.reverse

end HookStack

end ModuleLoader
