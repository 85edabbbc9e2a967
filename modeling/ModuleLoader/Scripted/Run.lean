import ModuleLoader.Host
import ModuleLoader.Loader
import ModuleLoader.Scripted.Providers
import ModuleLoader.Scripted.Syntax
/-!
Running scripts.

A script runs with bindings of its own and with a value that it exports. The
same language serves modules and legacy scripts, and each has a few statements
that the other lacks: importing on the one side, requiring and replacing the
exports as a whole on the other. A module exports the properties of an object
that is filled while it runs. A legacy script starts from the exports it is
given, and hands back what it has made of them only if it comes to its end.

Operands are evaluated in the order in which they are written, and one that is
not what it should be is refused when its turn comes.
-/

namespace ModuleLoader

namespace Scripted

abbrev Code := Script Session HookPlan

inductive Surroundings where
  | module (env : ModuleEnvironment)
  | script (m : ScriptModule)

def Surroundings.context : Surroundings → ContextId
  | module env => env.context
  | script m => m.context

structure Frame where
  around : Surroundings
  bindings : List (String × Value)
  exports : Value

/-! ### Failures -/

def syntaxError {α : Type} (what : String) : Code α :=
  throw (.engine ("SyntaxError: " ++ what))

def typeError {α : Type} (what : String) : Code α :=
  throw (.engine ("TypeError: " ++ what))

def use : Operand → Code String
  | some s => pure s
  | none => syntaxError "bad operand"

/-! ### Operations on values -/

def getProperty (v : Value) (key : String) : Code Value :=
  match v with
  | .object o => do
    let ps ← Script.perform (.properties o)
    return (ps.find? key).getD .undefined
  | .moduleNamespace n => return (n.contents.find? key).getD .undefined
  | _ => return .undefined

def ownKeys (v : Value) : Code (List String) :=
  match v with
  | .object o => do
    let ps ← Script.perform (.properties o)
    return ps.keys
  | .moduleNamespace n => return n.contents.keys
  | _ => return []

def isTruthy : Value → Bool
  | .undefined => false
  | .null => false
  | .boolean b => b
  | .number x => !(x == 0 || x.isNaN)
  | .string s => s != ""
  | _ => true

/-- The sum of numbers, the second value if there is no first, and else the texts one after the
other. -/
def sum : Value → Value → Value
  | .undefined, b => b
  | .number x, .number y => .number (x + y)
  | a, b => .string (a.display ++ b.display)

def globalObject (frame : Frame) : Code ObjectRef :=
  Script.perform (.globalObject frame.around.context)

def newObject (pairs : List (String × Value)) : Code Value :=
  Script.perform (.make (.object (pairs.map fun (k, v) => (k, .existing v))))

/-! ### Expressions -/

/-- What a script can learn about itself. -/
def aboutSelf (around : Surroundings) (key : String) : Code Value :=
  match around with
  | .module env =>
    match key with
    | "url" => return .string env.importMeta.url
    | "filename" => return .string env.importMeta.filename
    | "dirname" => return .string env.importMeta.dirname
    | "value" => Script.perform (.make env.importMeta.toLiteral)
    | specifier => do
      let url ← Script.ofExcept (env.importMeta.resolve specifier)
      return .string url
  | .script m =>
    match key with
    | "filename" => return .string m.filename.text
    | "dirname" => return .string m.dirname.text
    | _ => syntaxError "import.meta outside a module"

/-- The importer of a module: its name, how long its chain is, and whether it is of the module's
own context. -/
def aboutImporter : Surroundings → Value
  | .module env =>
    let r := env.importer
    .string (r.identifier ++ "#" ++ toString r.lineage.length ++ "#" ++
      yesNo (r.context == env.context))
  | .script _ => .undefined

def importNames : Surroundings → Value
  | .module env =>
    .string (",".intercalate ((sortedPairs env.imports.entries).map Prod.fst))
  | .script _ => .string ""

mutual

def eval (frame : Frame) : Expr → Code Value
  | .literal l => Script.perform (.make l)
  | .globalName name => do
    let name ← use name
    getProperty (.object (← globalObject frame)) name
  | .binding name => do
    let name ← use name
    match frame.bindings.lookup name with
    | some v => return v
    | none => throw (.engine ("ReferenceError: " ++ name ++ " is not defined"))
  | .member e key => do
    let v ← eval frame e
    getProperty v (← use key)
  | .object fields => do newObject (← evalFields frame fields)
  | .typeName e => do return .string (← eval frame e).typeName
  | .same a b => do
    let a ← eval frame a
    let b ← eval frame b
    return .boolean (a.same b)
  | .add a b => do
    let a ← eval frame a
    let b ← eval frame b
    return sum a b
  | .concat parts => do
    let vs ← evalAll frame parts
    return .string (String.join (vs.map Value.display))
  | .keys e => do
    let v ← eval frame e
    return .string (",".intercalate (← ownKeys v))
  | .exports => return frame.exports
  | .imports => return importNames frame.around
  | .about key => do aboutSelf frame.around (← use key)
  | .importer => return aboutImporter frame.around
  | .bad => syntaxError "bad expression"

def evalAll (frame : Frame) : List Expr → Code (List Value)
  | [] => return []
  | e :: rest => do
    let v ← eval frame e
    return v :: (← evalAll frame rest)

def evalFields (frame : Frame) : List (Operand × Expr) → Code (List (String × Value))
  | [] => return []
  | (key, e) :: rest => do
    let key ← use key
    let v ← eval frame e
    return (key, v) :: (← evalFields frame rest)

end

/-! ### Statements -/

def Frame.bind (frame : Frame) (binding : Operand) (v : Value) : Code Frame := do
  let name ← use binding
  return { frame with bindings := (name, v) :: frame.bindings }

def orBrief (attempt : Code Value) : Code Value := do
  match ← attempt.attempt with
  | .ok v => return v
  | .error e => return .string e.brief

def importValue (env : ModuleEnvironment) (specifier : String) : Code Value := do
  return .moduleNamespace (← Script.importModule env.importer specifier)

def requireValue (m : ScriptModule) (id : String) : Code Value :=
  Script.request (.require ⟨id, m.filename⟩)

/-- The object that an export goes to, which is a new one if there is no object yet. -/
def exportsObject (frame : Frame) : Code (Frame × ObjectRef) := do
  match frame.exports with
  | .object o => return (frame, o)
  | _ =>
    match ← newObject [] with
    | .object o => return ({ frame with exports := .object o }, o)
    | _ => return (frame, ⟨0⟩)

def badStatement {α : Type} (keyword : String) : Code α :=
  syntaxError ("bad statement " ++ keyword)

def exec (frame : Frame) : Statement → Code Frame
  | .unless condition body => do
    if isTruthy (← eval frame condition) then return frame else exec frame body
  | .staticImport specifier binding? => do
    match frame.around with
    | .script _ => badStatement "import"
    | .module env =>
      let specifier ← use specifier
      match binding? with
      | none => return frame
      | some binding =>
        match env.imports.find? specifier with
        | some n => frame.bind binding (.moduleNamespace n)
        | none => frame.bind binding .undefined
  | .dynamicImport binding specifier => do
    match frame.around with
    | .script _ => badStatement "dynimport"
    | .module env => frame.bind binding (← importValue env (← use specifier))
  | .tryImport binding specifier => do
    match frame.around with
    | .script _ => badStatement "trydyn"
    | .module env =>
      let specifier ← use specifier
      frame.bind binding (← orBrief (importValue env specifier))
  | .require binding id => do
    match frame.around with
    | .module _ => badStatement "require"
    | .script m => frame.bind binding (← requireValue m (← use id))
  | .tryRequire binding id => do
    match frame.around with
    | .module _ => badStatement "tryrequire"
    | .script m =>
      let id ← use id
      frame.bind binding (← orBrief (requireValue m id))
  | .replaceExports e => do
    match frame.around with
    | .module _ => badStatement "exports"
    | .script _ => return { frame with exports := ← eval frame e }
  | .assign binding e => do frame.bind binding (← eval frame e)
  | .exportAs name e => do
    let name ← use name
    let v ← eval frame e
    let (frame, o) ← exportsObject frame
    Script.perform (.setProperty o name v)
    return frame
  | .setGlobal name e => do
    let name ← use name
    let v ← eval frame e
    Script.perform (.setProperty (← globalObject frame) name v)
    return frame
  | .addGlobal name e => do
    let name ← use name
    let v ← eval frame e
    let globals ← globalObject frame
    let old ← getProperty (.object globals) name
    Script.perform (.setProperty globals name (sum old v))
    return frame
  | .setProperty object key e => do
    match ← eval frame object with
    | .object o =>
      let key ← use key
      let v ← eval frame e
      Script.perform (.setProperty o key v)
      return frame
    | other => typeError ("cannot set property of " ++ other.display)
  | .deleteProperty object key => do
    match ← eval frame object with
    | .object o =>
      Script.perform (.deleteProperty o (← use key))
      return frame
    | other => typeError ("cannot delete property of " ++ other.display)
  | .call binding function arguments => do
    match ← eval frame function with
    | .function f =>
      let vs ← evalAll frame arguments
      let r ← Script.perform (.apply f vs)
      frame.bind binding (← Script.ofExcept r)
    | other => typeError (other.display ++ " is not a function")
  | .log e => do
    let v ← eval frame e
    Script.perform (.note v.display)
    return frame
  | .throw message => do
    let message ← use message
    throw (.engine message)
  | .unknown keyword => badStatement keyword

theorem exec_unless (frame : Frame) (condition : Expr) (body : Statement) :
    exec frame (.unless condition body) = (do
      if isTruthy (← eval frame condition) then return frame else exec frame body) := by
  rw [exec]

def execAll (frame : Frame) : List Statement → Code Frame
  | [] => return frame
  | s :: rest => do
    let frame ← exec frame s
    execAll frame rest

/-! ### The engine -/

def parse (text : String) : Code (List Statement) :=
  match parse? text with
  | some statements => pure statements
  | none => syntaxError "bad program"

def runModule (statements : List Statement) (env : ModuleEnvironment) : Code Namespace := do
  let start ← newObject []
  let frame ← execAll ⟨.module env, [], start⟩ statements
  match frame.exports with
  | .object o =>
    let ps ← Script.perform (.properties o)
    Script.perform (.newNamespace ps)
  | _ => Script.perform (.newNamespace .empty)

def compile (text : String) (_ : CompileOptions) : Code (Compiled Session HookPlan) := do
  let statements ← parse text
  return { requests := requests statements, body := runModule statements }

def runScript (text : String) (m : ScriptModule) : Code Unit := do
  let statements ← parse text
  let start ← Script.perform (.readExports m.exports)
  let frame ← execAll ⟨.script m, [], start⟩ statements
  Script.perform (.writeExports m.exports frame.exports)

/-- A host whose modules, scripts, hooks and built-ins are all of this language. -/
def host (files : FileTree) (config : Config) (builtins : Registry ProviderPlan)
    (linkerBuiltins? : Option (Registry ProviderPlan)) (scriptContext : ContextId) :
    Host Session HookPlan where
  files := files
  config := config
  builtins := builtins.map ProviderPlan.provide
  linkerBuiltins? := linkerBuiltins?.map (·.map ProviderPlan.provide)
  scriptContext := scriptContext
  compile := compile
  runScript := runScript
  hook := HookPlan.hook
  lookup? := none

end Scripted

end ModuleLoader
