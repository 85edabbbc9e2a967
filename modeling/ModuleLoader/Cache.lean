import ModuleLoader.Path.Basic
import ModuleLoader.Value.Basic
/-!
The cache of loaded files.

Every file that is being loaded or has been loaded has an entry, under its path;
paths are the same key if they take the same steps, whatever their texts. The
entry is there before the file's body runs, which is how a cycle of requires
finds what its members have exported so far, and it is marked when the body has
ended.

An entry remembers who asked for the file first and which files it asked for
itself. Removing it leaves the entries of those files where they are.
-/

namespace ModuleLoader

structure CachedModule where
  exports : Value
  filename : Path
  loaded : Bool
  children : List Path
  parent? : Option Path
  deriving Inhabited

namespace CachedModule

def loading (filename : Path) (parent? : Option Path) (exports : Value) : CachedModule :=
  { exports, filename, loaded := false, children := [], parent? }

def addChild (m : CachedModule) (child : Path) : CachedModule :=
  if m.children.any (·.same child) then m else { m with children := m.children ++ [child] }

def finish (m : CachedModule) (exports : Value) : CachedModule :=
  { m with exports, loaded := true }

end CachedModule

structure Cache where
  entries : List (Path × CachedModule)
  deriving Inhabited

namespace Cache

def empty : Cache := ⟨[]⟩

def size (c : Cache) : Nat := c.entries.length

def keys (c : Cache) : List Path := c.entries.map Prod.fst

def get? (c : Cache) (p : Path) : Option CachedModule :=
  (c.entries.find? (·.1.same p)).map Prod.snd

def exports? (c : Cache) (p : Path) : Option Value :=
  (c.get? p).map CachedModule.exports

def contains (c : Cache) (p : Path) : Bool := (c.get? p).isSome

def modify (c : Cache) (p : Path) (f : CachedModule → CachedModule) : Cache :=
  ⟨c.entries.map fun (key, m) => if key.same p then (key, f m) else (key, m)⟩

/-- Store an entry. A key that is there already keeps its text. -/
def insert (c : Cache) (p : Path) (m : CachedModule) : Cache :=
  if c.contains p then c.modify p fun _ => m else ⟨c.entries ++ [(p, m)]⟩

def erase (c : Cache) (p : Path) : Cache :=
  ⟨c.entries.filter fun e => !e.1.same p⟩

def addChild (c : Cache) (parent child : Path) : Cache :=
  c.modify parent (·.addChild child)

def finish (c : Cache) (p : Path) (exports : Value) : Cache :=
  c.modify p (·.finish exports)

end Cache

end ModuleLoader
