import ModuleLoader.Error
import ModuleLoader.Value.Basic
/-!
The heap: where objects keep their properties.

Objects and functions are only ever added, and a reference is the position at
which one was added, so a reference stays good for as long as the heap lives.
An object that was never made has no properties, and a function that was never
made returns nothing.

Namespaces need no place, since they never change. The heap only counts them,
so that each gets an identity of its own.
-/

namespace ModuleLoader

abbrev NativeCode := List Value → Except Error Value

structure Heap where
  objects : Array Properties
  functions : Array NativeCode
  namespaces : Nat

namespace Heap

def empty : Heap := ⟨#[], #[], 0⟩

instance : Inhabited Heap := ⟨empty⟩

/-! ### Objects -/

def newObject (h : Heap) (properties : Properties) : ObjectRef × Heap :=
  (⟨h.objects.size⟩, { h with objects := h.objects.push properties })

def properties (h : Heap) (o : ObjectRef) : Properties :=
  h.objects[o.index]?.getD .empty

def setProperties (h : Heap) (o : ObjectRef) (ps : Properties) : Heap :=
  { h with objects := h.objects.setIfInBounds o.index ps }

def set (h : Heap) (o : ObjectRef) (key : String) (value : Value) : Heap :=
  h.setProperties o ((h.properties o).insert key value)

def delete (h : Heap) (o : ObjectRef) (key : String) : Heap :=
  h.setProperties o ((h.properties o).erase key)

def remove (h : Heap) (o : ObjectRef) (key : String) : Option Value × Heap :=
  ((h.properties o).find? key, h.delete o key)

/-- The property of a value; a value that has no such property, or none at all, gives undefined. -/
def get (h : Heap) (v : Value) (key : String) : Value :=
  match v with
  | .object o => ((h.properties o).find? key).getD .undefined
  | .moduleNamespace n => (n.contents.find? key).getD .undefined
  | _ => .undefined

/-- The names of the properties a value has of its own, if it is of a kind that has any. -/
def ownKeys? (h : Heap) : Value → Option (List String)
  | .object o => some (h.properties o).keys
  | .moduleNamespace n => some n.contents.keys
  | _ => none

/-! ### Namespaces and functions -/

def newNamespace (h : Heap) (exports : Properties) : Namespace × Heap :=
  (⟨h.namespaces, exports⟩, { h with namespaces := h.namespaces + 1 })

def newFunction (h : Heap) (name : String) (code : NativeCode) : FunctionRef × Heap :=
  (⟨h.functions.size, name⟩, { h with functions := h.functions.push code })

def apply (h : Heap) (f : FunctionRef) (arguments : List Value) : Except Error Value :=
  match h.functions[f.index]? with
  | some code => code arguments
  | none => .ok .undefined

/-! ### What an update leaves alone -/

@[simp] theorem functions_setProperties (h : Heap) (o : ObjectRef) (ps : Properties) :
    (h.setProperties o ps).functions = h.functions := rfl

@[simp] theorem namespaces_setProperties (h : Heap) (o : ObjectRef) (ps : Properties) :
    (h.setProperties o ps).namespaces = h.namespaces := rfl

theorem properties_setProperties (h : Heap) (o p : ObjectRef) (ps : Properties)
    (ho : o.index < h.objects.size) :
    (h.setProperties o ps).properties p = if p = o then ps else h.properties p := by
  by_cases hp : p = o
  · subst hp; simp [properties, setProperties, ho]
  · have hi : o.index ≠ p.index := fun e => hp (by cases p; cases o; simp_all)
    simp [properties, setProperties, hi, hp]

end Heap

end ModuleLoader
