import ModuleLoader.Path.Basic
import ModuleLoader.Record.Status
import ModuleLoader.Value.Literal
/-!
What module bodies, built-in modules and hooks may do.

A loader runs code that it has not seen: the bodies of modules, the providers of
built-ins, the callbacks of hooks. Such code works on values and objects, writes
to a log, and turns back to the loader in the middle of what the loader is
doing. All of it is a `Program`: a tree that says what to do first and, for
every answer to that, how to go on. Nothing is said about how the code is
written or what language it is in, and a statement about all programs is a
statement about every engine.

The two ways of asking are kept apart because of what can come of them. An
`Action` is carried out on the spot and always has an answer. A `Call` is work
for the loader; it may run other programs in turn, and it may fail, which the
program that made it gets to see and may survive. What no program survives is a
panic. It has no answer at all, and so a tree has no branch for it.

Two types are left open. `σ` is whatever the code that is not the loader's wants
to remember between its runs, and `η` is how hooks are described to whoever
installs them.
-/

namespace ModuleLoader

/-! ### Names of things

Contexts, records, hooks and the variable that holds the exports of a running
script are all entries of tables that only grow, and are known by position. -/

structure ContextId where
  index : Nat
  deriving DecidableEq, Repr, Inhabited

structure RecordId where
  index : Nat
  deriving DecidableEq, Repr, Inhabited

structure GuardId where
  index : Nat
  deriving DecidableEq, Repr, Inhabited

/-- The variable in which a script keeps what it exports, from when it starts until it ends. -/
structure ExportsRef where
  index : Nat
  deriving DecidableEq, Repr, Inhabited

/-! ### Calls -/

structure LookupCall where
  id : String
  parent : Path
  deriving DecidableEq, Repr, Inhabited

/-- Who imports: under which name, for which context, and reached through which modules. The chain
of modules is what a cycle is recognised by. -/
structure Referrer where
  identifier : String
  context : ContextId
  lineage : List String
  deriving DecidableEq, Repr, Inhabited

def Referrer.root (identifier : String) (context : ContextId) : Referrer :=
  ⟨identifier, context, []⟩

inductive Call where
  | require (lookup : LookupCall)
  | link (specifier : String) (referrer : Referrer)
  | buildSource (specifier : String) (referrer : Referrer)
  | buildSynthetic (specifier : String) (referrer : Referrer)
  | linkModule (record : RecordId)
  | evaluate (record : RecordId)
  deriving DecidableEq, Repr

/-- What a call that succeeds answers. -/
@[reducible] def Call.Reply : Call → Type
  | require _ => Value
  | link .. => RecordId
  | buildSource .. => RecordId
  | buildSynthetic .. => RecordId
  | linkModule _ => Unit
  | evaluate _ => Namespace

/-! ### Actions -/

inductive Action (σ η : Type) where
  | make (l : Literal)
  | newNamespace (exports : Properties)
  | properties (o : ObjectRef)
  | setProperty (o : ObjectRef) (key : String) (value : Value)
  | deleteProperty (o : ObjectRef) (key : String)
  | apply (f : FunctionRef) (arguments : List Value)
  | readExports (r : ExportsRef)
  | writeExports (r : ExportsRef) (value : Value)
  | newContext (name? : Option String)
  | globalObject (c : ContextId)
  | status (r : RecordId)
  | dependencies (r : RecordId)
  | evict (p : Path)
  | install (hook : η)
  | restore (g : GuardId)
  | isActive (g : GuardId)
  | note (line : String)
  | store
  | modifyStore (f : σ → σ)

/-- What an action answers. -/
@[reducible] def Action.Reply {σ η : Type} : Action σ η → Type
  | make _ => Value
  | newNamespace _ => Namespace
  | properties _ => Properties
  | setProperty .. => Unit
  | deleteProperty .. => Unit
  | apply .. => Except Error Value
  | readExports _ => Value
  | writeExports .. => Unit
  | newContext _ => ContextId
  | globalObject _ => ObjectRef
  | status _ => Option Status
  | dependencies _ => Option (List (String × RecordId))
  | evict _ => Bool
  | install _ => GuardId
  | restore _ => Unit
  | isActive _ => Bool
  | note _ => Unit
  | store => σ
  | modifyStore _ => Unit

/-! ### Programs -/

inductive Program (σ η α : Type) where
  | done (a : α)
  | panic (message : String)
  | act (a : Action σ η) (next : a.Reply → Program σ η α)
  | call (c : Call) (next : Except Error c.Reply → Program σ η α)

namespace Program

variable {σ η α β : Type}

def bind : Program σ η α → (α → Program σ η β) → Program σ η β
  | done a, f => f a
  | panic m, _ => panic m
  | act a next, f => act a fun r => (next r).bind f
  | call c next, f => call c fun r => (next r).bind f

instance : Monad (Program σ η) where
  pure := done
  bind := bind

@[simp] theorem pure_bind (a : α) (f : α → Program σ η β) : (done a).bind f = f a := rfl

@[simp] theorem bind_done (p : Program σ η α) : p.bind done = p := by
  induction p with
  | done a => rfl
  | panic m => rfl
  | act a next ih => simp only [bind, ih]
  | call c next ih => simp only [bind, ih]

theorem bind_assoc {γ : Type} (p : Program σ η α) (f : α → Program σ η β)
    (g : β → Program σ η γ) : (p.bind f).bind g = p.bind fun a => (f a).bind g := by
  induction p with
  | done a => rfl
  | panic m => rfl
  | act a next ih => simp only [bind, ih]
  | call c next ih => simp only [bind, ih]

def perform (a : Action σ η) : Program σ η a.Reply := act a done

def attempt (c : Call) : Program σ η (Except Error c.Reply) := call c done

end Program

abbrev Script (σ η : Type) := ExceptT Error (Program σ η)

namespace Script

variable {σ η α : Type}

def perform (a : Action σ η) : Script σ η a.Reply :=
  ExceptT.lift (Program.perform a)

def request (c : Call) : Script σ η c.Reply :=
  ExceptT.mk (Program.attempt c)

def ofExcept : Except Error α → Script σ η α
  | .ok a => pure a
  | .error e => throw e

def attempt (s : Script σ η α) : Script σ η (Except Error α) :=
  ExceptT.lift s.run

def panic (message : String) : Script σ η α :=
  ExceptT.lift (.panic message)

end Script

end ModuleLoader
