import ModuleLoader.Hook.Stack
/-!
Hooks that follow a plan.

The callbacks of a hook are lists of things to do: write to the log, evict a
file, install a hook or take one out, look something up. Guards are kept under
names, and a name that is given to a new guard takes the old one out. A lookup
made by a hook passes the hooks like any other, so one more thing is remembered:
whether such a lookup is under way, during which no further one is begun.
-/

namespace ModuleLoader

namespace Scripted

inductive HookAction where
  | log (tag : String)
  | evict (path? : Option String)
  | restore (name : String)
  | drop (name : String)
  | install (name : String) (before? after? : Option (List HookAction))
  | call (id parent : String)
  | panic (message : String)

structure HookPlan where
  before? : Option (List HookAction)
  after? : Option (List HookAction)

structure Session where
  guards : OrderedMap GuardId
  inCall : Bool
  deriving Inhabited

def Session.initial : Session := ⟨.empty, false⟩

abbrev Routine := Program Session HookPlan

/-! ### Guards under names -/

def guard? (name : String) : Routine (Option GuardId) := do
  let s ← Program.perform .store
  return s.guards.find? name

def restoreHook (name : String) : Routine Unit := do
  match ← guard? name with
  | some g => Program.perform (.restore g)
  | none => return ()

def dropHook (name : String) : Routine Unit := do
  restoreHook name
  Program.perform (.modifyStore fun s => { s with guards := s.guards.erase name })

def installHook (name : String) (plan : HookPlan) : Routine Unit := do
  let g ← Program.perform (.install plan)
  restoreHook name
  Program.perform (.modifyStore fun s => { s with guards := s.guards.insert name g })

def isHookActive (name : String) : Routine Bool := do
  match ← guard? name with
  | some g => Program.perform (.isActive g)
  | none => return false

/-! ### Callbacks -/

def yesNo (b : Bool) : String := if b then "true" else "false"

def nestedCall (id parent : String) : Routine Unit := do
  let s ← Program.perform .store
  if s.inCall then return ()
  else
    Program.perform (.modifyStore fun s => { s with inCall := true })
    let r ← Program.attempt (.require ⟨id, ⟨parent⟩⟩)
    Program.perform (.modifyStore fun s => { s with inCall := false })
    let result : String := match r with
      | .ok v => v.display
      | .error e => e.brief
    Program.perform (.note ("called " ++ id ++ " " ++ result))

def HookAction.run (lookup : LookupCall) : HookAction → Routine Unit
  | log tag => Program.perform (.note (tag ++ " " ++ lookup.id ++ " " ++ lookup.parent.text))
  | evict path? => do
    let path := path?.getD lookup.id
    let evicted ← Program.perform (.evict ⟨path⟩)
    Program.perform (.note ("evict " ++ path ++ " " ++ yesNo evicted))
  | restore name => restoreHook name
  | drop name => dropHook name
  | install name before? after? => installHook name ⟨before?, after?⟩
  | call id parent => nestedCall id parent
  | panic message => .panic message

def runActions (lookup : LookupCall) : List HookAction → Routine Unit
  | [] => return ()
  | a :: rest => do
    a.run lookup
    runActions lookup rest

def HookPlan.hook (plan : HookPlan) : Hook Session HookPlan where
  before? := plan.before?.map fun actions lookup => runActions lookup actions
  after? := plan.after?.map fun actions lookup => runActions lookup actions

/-! ### A lookup to try hooks on -/

def afterColon (id : String) : String :=
  String.ofList ((id.toList.dropWhile (· != ':')).drop 1)

/-- Answer an id with itself, or fail or panic if the id says so. -/
def echo (lookup : LookupCall) : Script Session HookPlan Value := do
  Script.perform (.note ("base " ++ lookup.id ++ " " ++ lookup.parent.text))
  if "err:".toList.isPrefixOf lookup.id.toList then throw (.engine (afterColon lookup.id))
  else if "panic:".toList.isPrefixOf lookup.id.toList then Script.panic (afterColon lookup.id)
  else return .string lookup.id

end Scripted

end ModuleLoader
