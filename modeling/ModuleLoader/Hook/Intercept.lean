import ModuleLoader.Host
import ModuleLoader.State
/-!
A lookup on its way through the hooks.

The layers that a lookup passes are those installed when it begins. Callbacks
may install and take out layers as they like; that is for the lookups that come
later, and for those the callbacks make themselves.

The layer installed last is the outermost. Its `before` runs first and its
`after` last, and what lies between is the lookup as the other layers leave it.
Once a layer has been entered its `after` runs however the inner lookup ends,
with a value, an error or a panic, and that end is passed on. A panic in its own
`before` is different, since then the layer has not been entered.
-/

namespace ModuleLoader

variable {σ η : Type}

namespace Hook

def callback (serve : (c : Call) → Eff σ η c.Reply) (event : Event) (call : LookupCall) :
    Option (LookupCall → Program σ η Unit) → Eff σ η Unit
  | none => pure ()
  | some f => do
    Eff.emit event
    (f call).run serve

end Hook

/-- A lookup through layers, the outermost first, down to what lies behind them all. -/
def intercept (host : Host σ η) (serve : (c : Call) → Eff σ η c.Reply) (call : LookupCall)
    (base : Eff σ η Value) : List (Layer η) → Eff σ η Value
  | [] => base
  | outer :: inner => do
    let hook := host.hook outer.hook
    Hook.callback serve (.before outer.guard call) call hook.before?
    match ← (intercept host serve call base inner).outcome with
    | .error .outOfDepth => throw .outOfDepth
    | end_ =>
      Hook.callback serve (.after outer.guard call) call hook.after?
      Eff.ofOutcome end_

end ModuleLoader
