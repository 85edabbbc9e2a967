/-!
Paths as text, and the components that text spells.

A path keeps the text it was built from, because that text is what every
message, every identifier and every log line shows. What a path *means* is its
list of components, and many texts spell the same list: repeated slashes, a
trailing slash and every `.` but a leading one leave no trace. So there are two
views, `Path.text` and `Path.components`, and the operations are split between
them: joining works on the text, since a joined path is shown as it was built,
while comparison, the file name and the extension work on the components.

The parent is the one operation that needs both. It drops the last component
but keeps the text before it untouched, repeated slashes included, so it is
defined on the *segments*, the pieces of text between slashes, of which the
components are the ones that count. `Path.anchored` separates the segments that
can be dropped from the leading mark that cannot: a slash, or a lone dot.
-/

namespace ModuleLoader

structure Path where
  text : String
  deriving DecidableEq, Inhabited, Repr

namespace Path

/-! ### Segments and components -/

/-- The pieces of the text between slashes; the empty text has one, which is empty. -/
def segments (p : Path) : List String :=
  (p.text.toList.splitOnP (· == '/')).map String.ofList

def joined (segments : List String) : String :=
  String.ofList (['/'].intercalate (segments.map String.toList))

/-- What a path begins with: the root, the directory the reader stands in, or neither. -/
inductive Anchor where
  | root
  | here
  | bare
  deriving DecidableEq, Repr

def anchored (p : Path) : Anchor × List String :=
  match p.segments with
  | [""] => (.bare, [])
  | "" :: body => (.root, body)
  | "." :: body => (.here, body)
  | body => (.bare, body)

def ofAnchored : Anchor → List String → Path
  | .root, body => ⟨"/" ++ joined body⟩
  | .here, body => ⟨joined ("." :: body)⟩
  | .bare, body => ⟨joined body⟩

inductive Component where
  | root
  | here
  | up
  | name (text : String)
  deriving DecidableEq, Repr

namespace Component

def text : Component → String
  | root => "/"
  | here => "."
  | up => ".."
  | name t => t

def ofSegment? : String → Option Component
  | "" => none
  | "." => none
  | ".." => some up
  | t => some (name t)

end Component

def components (p : Path) : List Component :=
  let (mark, body) := p.anchored
  let steps := body.filterMap Component.ofSegment?
  match mark with
  | .root => .root :: steps
  | .here => .here :: steps
  | .bare => steps

/-- Two paths that take the same steps. This, and not equality of text, is what decides whether two
paths name one place. -/
def same (p q : Path) : Bool :=
  p.components == q.components

def isAbsolute (p : Path) : Bool :=
  p.text.toList.head? == some '/'

/-! ### Taking a path apart -/

/-- A segment that spells no component, so that nothing is lost where it ends a path. -/
def isBlank (segment : String) : Bool :=
  segment == "" || segment == "."

def trimmed (segments : List String) : List String :=
  (segments.reverse.dropWhile isBlank).reverse

/-- The path without its last component. The root has none to give up, and neither has the empty
path; a lone dot gives up itself. -/
def parent? (p : Path) : Option Path :=
  let (mark, body) := p.anchored
  match mark, trimmed body with
  | .here, [] => some ⟨""⟩
  | _, [] => none
  | mark, steps => some (ofAnchored mark (trimmed steps.dropLast))

/-- The last component, where that is a name and not `..` or a mark. -/
def fileName? (p : Path) : Option String :=
  match p.components.getLast? with
  | some (.name t) => some t
  | _ => none

/-- A name at its last dot: what stands before it, and what stands after. -/
def splitAtDot (name : String) : Option (String × String) :=
  match name.toList.reverse.span (· != '.') with
  | (after, '.' :: before) => some (String.ofList before.reverse, String.ofList after.reverse)
  | _ => none

/-- What follows the last dot of the file name. A dot that opens the name starts no extension. -/
def extension? (p : Path) : Option String :=
  match p.fileName?.bind splitAtDot with
  | some ("", _) => none
  | some (_, ext) => some ext
  | none => none

/-! ### Putting a path together -/

/-- The second path seen from the first. An absolute path is the same from everywhere. -/
def join (p q : Path) : Path :=
  if q.isAbsolute then q
  else if p.text.toList.getLast?.all (· == '/') then ⟨p.text ++ q.text⟩
  else ⟨p.text ++ "/" ++ q.text⟩

def withFileName (p : Path) (name : String) : Path :=
  match p.fileName? with
  | some _ => (p.parent?.getD p).join ⟨name⟩
  | none => p.join ⟨name⟩

def parentOr (p fallback : Path) : Path :=
  p.parent?.getD fallback

/-! ### The directories above a path

A parent's text is shorter than the text it comes from, so the length of the
text is more than enough steps to reach the top. -/

def ancestorsWithin : Nat → Path → List Path
  | 0, _ => []
  | n + 1, p =>
    match p.parent? with
    | none => []
    | some dir => dir :: ancestorsWithin n dir

def ancestors (p : Path) : List Path :=
  ancestorsWithin p.text.length p

end Path

end ModuleLoader
