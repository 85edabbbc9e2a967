import ModuleLoader.Path.Url
import ModuleLoader.Program
/-!
Module records.

A record is one module in one graph: a name, the context it belongs to, the
chain of modules through which it was reached, and what it is made from. A
source module comes with the specifiers it imports and with its body, as an
engine made them from its text. A synthetic module wraps a value, and exports
either the properties the value had when it was wrapped, or the value as a
whole.

Only two things about a record ever change: how far it has come, and the list of
modules it depends on. How far it has come is its status, and beside that there
is room for a namespace and for the reason of a failure. The three are set one by
one. That an evaluated record has a namespace, a failed one a reason, and no other
record either of them, is nothing a record says by itself.
-/

namespace ModuleLoader

/-! ### What the body of a source module is given -/

structure ImportMeta where
  url : String
  dirname : String
  filename : String
  deriving DecidableEq, Repr, Inhabited

namespace ImportMeta

def ofPath (p : Path) : Except Error ImportMeta :=
  match p.fileUrl? with
  | some url =>
    .ok { url, dirname := (p.parent?.map Path.text).getD "", filename := p.text }
  | none => .error (.invalidReferrer p.text)

/-- Resolving a specifier from inside a module is not offered. -/
def resolve (_ : ImportMeta) (_specifier : String) : Except Error String :=
  .error (.unimplemented "import.meta.resolve")

def toLiteral (m : ImportMeta) : Literal :=
  .object
    [("url", .string m.url), ("dirname", .string m.dirname), ("filename", .string m.filename)]

end ImportMeta

structure ModuleEnvironment where
  context : ContextId
  importMeta : ImportMeta
  imports : OrderedMap Namespace
  importer : Referrer

/-! ### Records -/

structure Compiled (σ η : Type) where
  requests : List String
  body : ModuleEnvironment → Script σ η Namespace

structure SourceModule (σ η : Type) where
  location : Path
  url : String
  compiled : Compiled σ η

inductive SyntheticModule where
  /-- These properties of the value, whatever they are by then. -/
  | properties (names : List String) (origin : Value)
  /-- The value, by default. -/
  | whole (origin : Value)

namespace SyntheticModule

/-- An export for every property, if the value is of a kind that has properties. -/
def ownKeys (h : Heap) (origin : Value) : SyntheticModule :=
  match h.ownKeys? origin with
  | some names => properties names origin
  | none => whole origin

def exportNames : SyntheticModule → List String
  | properties names _ => names
  | whole _ => ["default"]

def snapshot (h : Heap) : SyntheticModule → Properties
  | properties names origin => .ofList (names.map fun name => (name, h.get origin name))
  | whole origin => .ofList [("default", origin)]

end SyntheticModule

inductive ModuleKind (σ η : Type) where
  | source (m : SourceModule σ η)
  | synthetic (m : SyntheticModule)

/-- How far a record has come, and what has been put down about it by then. -/
structure Phase where
  (status : Status) (namespace? : Option Namespace) (failure? : Option String)
  deriving Inhabited

namespace Phase

def unlinked : Phase := ⟨.unlinked, none, none⟩

def linking : Phase := ⟨.linking, none, none⟩

def linked : Phase := ⟨.linked, none, none⟩

def evaluating : Phase := ⟨.evaluating, none, none⟩

def evaluated (n : Namespace) : Phase := ⟨.evaluated, some n, none⟩

def errored (reason : String) : Phase := ⟨.errored, none, some reason⟩

@[simp] theorem status_unlinked : unlinked.status = .unlinked := rfl

@[simp] theorem status_linking : linking.status = .linking := rfl

@[simp] theorem status_linked : linked.status = .linked := rfl

@[simp] theorem status_evaluating : evaluating.status = .evaluating := rfl

@[simp] theorem status_evaluated (n : Namespace) : (evaluated n).status = .evaluated := rfl

@[simp] theorem status_errored (reason : String) : (errored reason).status = .errored := rfl

/-! Each of these sets what it names, and leaves the rest as it was. -/

def move (p : Phase) (status : Status) : Phase := { p with status }

def keep (p : Phase) (n : Namespace) : Phase := { p with namespace? := some n }

def fail (p : Phase) (reason : String) : Phase :=
  { p with status := .errored, failure? := some reason }

end Phase

structure ModuleRecord (σ η : Type) where
  identifier : String
  context : ContextId
  lineage : List String
  kind : ModuleKind σ η
  phase : Phase
  /-- What was linked for each request so far, in order. -/
  dependencies : List (String × RecordId)

namespace ModuleRecord

variable {σ η : Type}

/-- A record at the beginning of its life, on behalf of a referrer. -/
def fresh (identifier : String) (referrer : Referrer) (kind : ModuleKind σ η) :
    ModuleRecord σ η :=
  { identifier
    context := referrer.context
    lineage := referrer.lineage
    kind
    phase := .unlinked
    dependencies := [] }

def status (r : ModuleRecord σ η) : Status := r.phase.status

/-- What is answered for a record that has failed. -/
def failed (r : ModuleRecord σ η) : Error :=
  .moduleErrored r.identifier (r.phase.failure?.getD "")

/-- The chain of modules down to and including this one. -/
def chain (r : ModuleRecord σ η) : List String := r.lineage ++ [r.identifier]

/-- The module as the referrer of its own static imports. -/
def referrer (r : ModuleRecord σ η) : Referrer := ⟨r.identifier, r.context, r.chain⟩

/-- The module as the referrer of imports made while it runs. They begin a chain of their own. -/
def importer (r : ModuleRecord σ η) : Referrer := .root r.identifier r.context

def requests (r : ModuleRecord σ η) : List String :=
  match r.kind with
  | .source m => m.compiled.requests
  | .synthetic _ => []

end ModuleRecord

end ModuleLoader
