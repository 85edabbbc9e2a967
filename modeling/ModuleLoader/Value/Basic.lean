import ModuleLoader.Number.Layout
import ModuleLoader.OrderedMap
/-!
Values of scripts.

An object is a place in a heap: two values are the same object if they name the
same place, and what one of them sets the other sees. A module namespace, by
contrast, never changes once it is made. It therefore carries its exports with
it, and beside them only a number that tells it from other namespaces with the
same exports. A function is a place again, in a heap of its own, with a name to
show.
-/

namespace ModuleLoader

structure ObjectRef where
  index : Nat
  deriving DecidableEq, Repr, Inhabited

structure FunctionRef where
  index : Nat
  name : String
  deriving DecidableEq, Repr, Inhabited

structure Identified (α : Type) where
  id : Nat
  contents : α

inductive Value where
  | undefined
  | null
  | boolean (b : Bool)
  | number (x : Float)
  | string (s : String)
  | object (o : ObjectRef)
  | moduleNamespace (n : Identified (OrderedMap Value))
  | function (f : FunctionRef)

instance : Inhabited Value := ⟨.undefined⟩

abbrev Properties := OrderedMap Value

/-- The exports of a module, as they were when it had been evaluated. -/
abbrev Namespace := Identified Properties

instance : Inhabited Namespace := ⟨⟨0, .empty⟩⟩

namespace Namespace

def find? (n : Namespace) (name : String) : Option Value := n.contents.find? name

def names (n : Namespace) : List String := n.contents.keys

def defaultExport? (n : Namespace) : Option Value := n.find? "default"

end Namespace

namespace Value

/-- Whether two values are the same: numbers as numbers compare, so that no NaN is the same as
another, and whatever has an identity by that identity. -/
def same : Value → Value → Bool
  | undefined, undefined => true
  | null, null => true
  | boolean a, boolean b => a == b
  | number x, number y => x == y
  | string s, string t => s == t
  | object o, object p => o.index == p.index
  | moduleNamespace m, moduleNamespace n => m.id == n.id
  | function f, function g => f.index == g.index
  | _, _ => false

def isUndefined : Value → Bool
  | undefined => true
  | _ => false

def isNullish : Value → Bool
  | undefined => true
  | null => true
  | _ => false

def number? : Value → Option Float
  | number x => some x
  | _ => none

def string? : Value → Option String
  | string s => some s
  | _ => none

def object? : Value → Option ObjectRef
  | object o => some o
  | _ => none

def typeName : Value → String
  | undefined => "undefined"
  | null => "object"
  | boolean _ => "boolean"
  | number _ => "number"
  | string _ => "string"
  | object _ => "object"
  | moduleNamespace _ => "object"
  | function _ => "function"

def display : Value → String
  | undefined => "undefined"
  | null => "null"
  | boolean true => "true"
  | boolean false => "false"
  | number x => Number.plain.text x
  | string s => s
  | object _ => "[object Object]"
  | moduleNamespace _ => "[object Module]"
  | function f => "[Function: " ++ f.name ++ " (native)]"

end Value

end ModuleLoader
