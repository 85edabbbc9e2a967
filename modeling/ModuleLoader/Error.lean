import ModuleLoader.FileTree
import ModuleLoader.Record.Status
/-!
What can go wrong, and the sentence that says so.

An error names its cause: the thing that could not be found, the file that
could not be read, the chain of modules that came back to its beginning. The
wording is in `Error.message` alone. A module that failed keeps the sentence and
not the error, because all it ever does with it is to say it again.

Errors raised by a script or its engine carry a message of their own, which is
shown as it stands.
-/

namespace ModuleLoader

inductive Error where
  | invalidReferrer (identity : String)
  | unresolvedPackage (specifier : String) (anchor : Path)
  | moduleNotFound (id : String)
  | sourceRead (path : Path) (cause : IoError)
  | unsupportedFormat (name : String)
  | invalidEntry (entry : Path)
  | unimplemented (what : String)
  | circularImport (chain : List String)
  | invalidStatus (identifier : String) (old new : Status)
  | notLinked (identifier : String)
  | moduleErrored (identifier : String) (reason : String)
  | unknownBuiltin (specifier : String)
  | config (reason : String)
  | engine (message : String)
  | io (cause : IoError)
  | json
  deriving DecidableEq, Repr

namespace Error

def message : Error → String
  | invalidReferrer x =>
      "Invalid referencing module identity '" ++ x ++ "': must be an absolute path"
  | unresolvedPackage s a => "Cannot find package '" ++ s ++ "' from '" ++ a.text ++ "'"
  | moduleNotFound x => "Cannot find module '" ++ x ++ "'"
  | sourceRead p e => "Cannot read module source '" ++ p.text ++ "': " ++ e.message
  | unsupportedFormat x => "Cannot load '" ++ x ++ "': unsupported module format"
  | invalidEntry p => "Invalid entry location '" ++ p.text ++ "': must be an absolute path"
  | unimplemented x => x ++ " is unimplemented"
  | circularImport chain => "Circular import detected: " ++ " -> ".intercalate chain
  | invalidStatus x old new =>
    "Module '" ++ x ++ "' cannot move from " ++ old.text ++ " to " ++ new.text
  | notLinked x => "Module '" ++ x ++ "' must be linked before evaluation"
  | moduleErrored x reason => "Module '" ++ x ++ "' previously failed: " ++ reason
  | unknownBuiltin x => "No such built-in module: '" ++ x ++ "'"
  | config reason => "Invalid configuration: " ++ reason
  | engine text => text
  | io e => "File system error: " ++ e.message
  | json => "JSON parse error"

def kind : Error → String
  | invalidReferrer _ => "InvalidReferencingIdentity"
  | unresolvedPackage .. => "UnresolvedPackage"
  | moduleNotFound _ => "ModuleNotFound"
  | sourceRead .. => "SourceRead"
  | unsupportedFormat _ => "UnsupportedModuleFormat"
  | invalidEntry _ => "InvalidEntryLocation"
  | unimplemented _ => "Unimplemented"
  | circularImport _ => "CircularImport"
  | invalidStatus .. => "InvalidStatus"
  | notLinked _ => "NotLinked"
  | moduleErrored .. => "ModuleErrored"
  | unknownBuiltin _ => "UnknownBuiltin"
  | config _ => "Config"
  | engine _ => "Engine"
  | io _ => "Io"
  | json => "Json"

def cause? : Error → Option String
  | sourceRead _ e => some e.message
  | io e => some e.message
  | _ => none

/-! ### Reports

What exactly is wrong with a document is of no interest to those who are told
that it is none, so a report stops after saying that. -/

def documentFault : List Char := "JSON parse error".toList

/-- The text up to the first remark on a faulty document, that remark without its details. -/
def withoutDetail : List Char → List Char
  | [] => []
  | c :: rest =>
    if (documentFault ++ [':', ' ']).isPrefixOf (c :: rest) then documentFault
    else c :: withoutDetail rest

def reportText (text : String) : String :=
  String.ofList (withoutDetail text.toList)

def report (e : Error) : String :=
  reportText e.message

def brief (e : Error) : String :=
  e.kind ++ ": " ++ e.report

end Error

end ModuleLoader
