import ModuleLoader.Path.Basic
/-!
A tree of files, and what a path finds in it.

The tree is a finite map from locations to entries. A location is the list of
names that lead to it, the innermost first, so that the directory of a location
is its tail and nothing has to be searched for. The root is a directory without
being stored.

A path is followed one segment at a time, and this is where following differs
from normalising. A slash asks for a directory before it, so `/a/` and `/a/.`
fail where `/a` is a file; `..` leaves a directory that has to be there, so
`/a/../b` fails where `/a` is missing. Relative paths start at the root.

What is in a file is either text or bytes that are no text. The bytes
themselves are never looked at, so a file that cannot be read as UTF-8 is kept
without them.

Changing the tree follows paths in the same way, and so it can fail in the same
ways. What is made or taken away is made or taken away under a name. A path that
ends in a dot, or is the root, gives no name to do it under.
-/

namespace ModuleLoader

inductive IoError where
  | notFound
  | alreadyExists
  | notADirectory
  | isADirectory
  | nameTooLong
  | nulInPath
  | invalidUtf8
  | other (message : String)
  deriving DecidableEq, Repr

def IoError.message : IoError → String
  | notFound => "No such file or directory (os error 2)"
  | alreadyExists => "File exists (os error 17)"
  | notADirectory => "Not a directory (os error 20)"
  | isADirectory => "Is a directory (os error 21)"
  | nameTooLong => "File name too long (os error 36)"
  | nulInPath => "file name contained an unexpected NUL byte"
  | invalidUtf8 => "stream did not contain valid UTF-8"
  | other message => message

inductive Entry where
  | directory
  | file (text? : Option String)
  deriving DecidableEq, Repr

def Entry.ofBytes (bytes : ByteArray) : Entry :=
  .file (String.fromUTF8? bytes)

/-- The names that lead to a place, innermost first. -/
abbrev Place := List String

structure FileTree where
  entries : List (Place × Entry)
  deriving Inhabited, Repr

namespace FileTree

def empty : FileTree := ⟨[]⟩

/-! ### Following a path -/

def entry? (t : FileTree) : Place → Option Entry
  | [] => some .directory
  | place => t.entries.lookup place

/-- The longest name a directory may hold, in bytes. -/
def nameLimit : Nat := 255

/-- The longest path that can be followed, in bytes. -/
def pathLimit : Nat := 4095

/-- Follow segments from a place. Every segment, an empty one too, needs a directory to start
from. -/
def walk (t : FileTree) : Place → List String → Except IoError Place
  | here, [] => .ok here
  | here, segment :: rest =>
    match t.entry? here with
    | none => .error .notFound
    | some (.file _) => .error .notADirectory
    | some .directory =>
      match segment with
      | "" => t.walk here rest
      | "." => t.walk here rest
      | ".." => t.walk here.tail rest
      | name =>
        if nameLimit < name.utf8ByteSize then .error .nameTooLong else t.walk (name :: here) rest

def checkText (p : Path) : Except IoError Unit :=
  if p.text == "" then .error .notFound
  else if p.text.toList.contains '\x00' then .error .nulInPath
  else if pathLimit < p.text.utf8ByteSize then .error .nameTooLong
  else .ok ()

def follow (t : FileTree) (p : Path) (segments : List String) : Except IoError Place := do
  checkText p
  t.walk [] segments

def locate (t : FileTree) (p : Path) : Except IoError (Place × Entry) := do
  let place ← t.follow p p.segments
  match t.entry? place with
  | none => .error .notFound
  | some e => .ok (place, e)

def find (t : FileTree) (p : Path) : Except IoError Entry :=
  (t.locate p).map Prod.snd

/-- Whether the path leads to a file, readable as text or not. -/
def isFile (t : FileTree) (p : Path) : Bool :=
  match t.find p with
  | .ok (.file _) => true
  | _ => false

def isDirectory (t : FileTree) (p : Path) : Bool :=
  match t.find p with
  | .ok .directory => true
  | _ => false

def read (t : FileTree) (p : Path) : Except IoError String :=
  match t.find p with
  | .error e => .error e
  | .ok .directory => .error .isADirectory
  | .ok (.file none) => .error .invalidUtf8
  | .ok (.file (some text)) => .ok text

/-! ### Changing the tree -/

def put (t : FileTree) (place : Place) (e : Entry) : FileTree :=
  ⟨(place, e) :: t.entries.filter (·.1 != place)⟩

/-- The segments of a path up to the last slash that something follows, and what follows it. Of the
root, and of the empty path, that is a dot. -/
def lastStep (p : Path) : List String × String :=
  match p.segments.reverse.dropWhile (· == "") with
  | [] => ([], ".")
  | last :: way => (way.reverse, last)

def slot (t : FileTree) (p : Path) : Except IoError Place :=
  let (way, last) := lastStep p
  t.follow p (way ++ [last])

/-- Make a directory where there is nothing. The directory above it has to be there. -/
def makeDirectory (t : FileTree) (p : Path) : Except IoError FileTree := do
  let place ← t.slot p
  match t.entry? place with
  | some _ => .error .alreadyExists
  | none => .ok (t.put place .directory)

/-- Make the directory at the head of a list unless it is there. If it cannot be made because
something on the way is missing, make the directories in the rest of the list and try again. -/
def makeDirectories (t : FileTree) : List Path → Except IoError FileTree
  | [] => .ok t
  | p :: above =>
    let settle (t : FileTree) (e : IoError) : Except IoError FileTree :=
      if t.isDirectory p then .ok t else .error e
    if p.text == "" then .ok t
    else
      match t.makeDirectory p with
      | .ok t => .ok t
      | .error .notFound => do
        let t ← t.makeDirectories above
        match t.makeDirectory p with
        | .ok t => .ok t
        | .error e => settle t e
      | .error e => settle t e

def writeFile (t : FileTree) (p : Path) (text? : Option String) : Except IoError FileTree := do
  let place ← t.slot p
  match t.entry? place with
  | some .directory => .error .isADirectory
  | _ =>
    if p.segments.getLast? == some "" then .error .isADirectory
    else .ok (t.put place (.file text?))

def write (t : FileTree) (p : Path) (e : Entry) : Except IoError FileTree := do
  let t ← t.makeDirectories p.ancestors
  match e with
  | .directory => t.makeDirectories (p :: p.ancestors)
  | .file text? => t.writeFile p text?

def clear (t : FileTree) (place : Place) : FileTree :=
  ⟨t.entries.filter fun e => e.1 == place || !place.isSuffixOf e.1⟩

/-- The tree without what the path leads to. A directory is emptied first, and then taken away under
the name at the end of the path, which has to lead to it still. So it stays, empty, if there is no
name, or if the path went through something that was in it. -/
def remove (t : FileTree) (p : Path) : FileTree :=
  match t.locate p with
  | .error _ => t
  | .ok (place, _) =>
    let rest := t.clear place
    let named := !Path.isBlank (lastStep p).2 && (lastStep p).2 != ".."
    match named, rest.find p with
    | true, .ok _ => ⟨rest.entries.filter (·.1 != place)⟩
    | _, _ => rest

/-- Whether taking away what the path leads to would take it away: it leads somewhere before, and
nowhere after. -/
def canRemove (t : FileTree) (p : Path) : Bool :=
  match t.find p, (t.remove p).find p with
  | .ok _, .error .notFound => true
  | _, _ => false

def ofList (files : List (Path × Entry)) : Except IoError FileTree :=
  files.foldlM (fun t f => t.write f.1 f.2) empty

end FileTree

end ModuleLoader
