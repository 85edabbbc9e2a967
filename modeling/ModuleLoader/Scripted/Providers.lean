import ModuleLoader.Builtin.Os
import ModuleLoader.Builtin.Path
import ModuleLoader.Builtin.Registry
import ModuleLoader.Scripted.Hooks
/-!
Built-in modules that follow a plan.

A provider may have one value for everyone or make a new one every time, and it
may keep count of how often it was asked. One kind looks at a module record that
was given a name, in order to see what a record may be asked while it is being
linked or evaluated.
-/

namespace ModuleLoader

namespace Scripted

inductive ProviderPlan where
  | constant (v : Value)
  | fresh (l : Literal)
  /-- An object of the given key and the count so far, which an object of its own remembers. -/
  | counter (memory : ObjectRef) (key : String)
  | probe (name : String) (record? : Option RecordId)

def defaultProviders : List (String × ProviderPlan) :=
  [("os", .fresh Builtin.Os.exports), ("path", .fresh Builtin.Path.exports)]

def defaultScheme : String := "node:"

def countUp (memory : ObjectRef) : Routine Float := do
  let ps ← Program.perform (.properties memory)
  let n := (((ps.find? "count").bind Value.number?).getD 0) + 1
  Program.perform (.setProperty memory "count" (.number n))
  return n

def ending {α : Type} : Except Error α → String
  | .ok _ => "ok"
  | .error e => e.brief

def statusText (r : RecordId) : Routine (Option Status) :=
  Program.perform (.status r)

/-- Ask a record that is under way to be linked and evaluated, and note what it says. -/
def probeUnderWay (name : String) (r : RecordId) (s : Status) : Routine Unit := do
  let linked ← Program.attempt (.linkModule r)
  let evaluated ← Program.attempt (.evaluate r)
  let now := ((← statusText r).map Status.text).getD "none"
  Program.perform (.note
    ("probe " ++ name ++ " " ++ s.text ++ " link=" ++ ending linked ++ " evaluate=" ++
      ending evaluated ++ " after=" ++ now))

def runProbe (name : String) : Option RecordId → Routine Unit
  | none => Program.perform (.note ("probe " ++ name ++ " none"))
  | some r => do
    match ← statusText r with
    | none => Program.perform (.note ("probe " ++ name ++ " none"))
    | some .linking => probeUnderWay name r .linking
    | some .evaluating => probeUnderWay name r .evaluating
    | some s => Program.perform (.note ("probe " ++ name ++ " " ++ s.text))

def ProviderPlan.provide : ProviderPlan → Routine Value
  | constant v => return v
  | fresh l => Program.perform (.make l)
  | counter memory key => do
    let n ← countUp memory
    Program.perform (.make (.object [(key, .number n)]))
  | probe name record? => do
    runProbe name record?
    Program.perform (.make (.object []))

end Scripted

end ModuleLoader
