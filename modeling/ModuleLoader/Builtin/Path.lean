import ModuleLoader.Path.Basic
import ModuleLoader.Value.Literal
/-!
The built-in module `path`.

Scripts take paths apart and put them together as text. Taking apart follows
the components of a path, for which a backslash is a character like any other.
Putting together works on the text alone and takes slash and backslash for the
same, so a normalised text shows no backslash.

Normalising keeps a stack of segments. A segment `..` takes back the one on top
unless that is itself a `..`; with nothing to take back it is kept in a relative
text and dropped in an absolute one. Joining is normalising what comes out when
the parts are written one after the other, each without the slashes it begins
with; whether the result is absolute is for the first part to say.
-/

namespace ModuleLoader

namespace Builtin.Path

/-! ### Taking apart -/

def basename (path : String) (ext? : Option String) : String :=
  let name := ((⟨path⟩ : ModuleLoader.Path).fileName?).getD ""
  match ext? with
  | some ext =>
    if ext.toList.isSuffixOf name.toList && name != ext then
      String.ofList (name.toList.take (name.toList.length - ext.toList.length))
    else name
  | none => name

def dirname (path : String) : String :=
  match (⟨path⟩ : ModuleLoader.Path).parent? with
  | some dir => if dir.text == "" then "." else dir.text
  | none => "."

def extname (path : String) : String :=
  match (⟨path⟩ : ModuleLoader.Path).extension? with
  | some ext => "." ++ ext
  | none => ""

def isAbsolute (path : String) : Bool :=
  (⟨path⟩ : ModuleLoader.Path).isAbsolute

/-! ### Putting together -/

def isSeparator (c : Char) : Bool := c == '/' || c == '\\'

def pushSegment (absolute : Bool) (stack : List String) : String → List String
  | "" => stack
  | "." => stack
  | ".." =>
    match stack with
    | [] => if absolute then [] else [".."]
    | top :: rest => if top != ".." then rest else if absolute then stack else ".." :: stack
  | segment => segment :: stack

def normalize (path : String) : String :=
  let absolute := isAbsolute path
  let segments := (path.toList.splitOnP isSeparator).map String.ofList
  let text := ModuleLoader.Path.joined (segments.foldl (pushSegment absolute) []).reverse
  if absolute then "/" ++ text else if text == "" then "." else text

def join (parts : List String) : String :=
  let bare (part : String) : ModuleLoader.Path :=
    ⟨String.ofList (part.toList.dropWhile isSeparator)⟩
  let text :=
    (parts.foldl (fun (path : ModuleLoader.Path) part => path.join (bare part)) ⟨""⟩).text
  match parts with
  | first :: _ => if isAbsolute first then normalize ("/" ++ text) else normalize text
  | [] => normalize text

/-! ### The module

The functions check what they are given. Arguments that they do not use may be
anything. -/

def textArgument (function : String) (arguments : List Value) (i : Nat) : Except Error String :=
  match arguments[i]? with
  | some (.string s) => .ok s
  | some other =>
    .error (.engine ("TypeError: " ++ function ++ ": argument " ++ toString i ++
      " must be a string, got " ++ other.typeName))
  | none =>
    .error (.engine ("TypeError: " ++ function ++ ": missing argument " ++ toString i))

def onText (function : String) (f : String → Value) : NativeCode := fun arguments =>
  (textArgument function arguments 0).map f

def basenameCode : NativeCode := fun arguments =>
  (textArgument "basename" arguments 0).map fun path =>
    .string (basename path ((arguments[1]?).bind Value.string?))

def joinCode : NativeCode := fun arguments =>
  ((List.range arguments.length).mapM (textArgument "join" arguments)).map fun parts =>
    .string (join parts)

def exports : Literal :=
  .object
    [("sep", .string "/"),
     ("delimiter", .string ":"),
     ("basename", .native "basename" basenameCode),
     ("dirname", .native "dirname" (onText "dirname" fun p => .string (dirname p))),
     ("extname", .native "extname" (onText "extname" fun p => .string (extname p))),
     ("isAbsolute", .native "isAbsolute" (onText "isAbsolute" fun p => .boolean (isAbsolute p))),
     ("join", .native "join" joinCode),
     ("normalize", .native "normalize" (onText "normalize" fun p => .string (normalize p)))]

end Builtin.Path

end ModuleLoader
