import ModuleLoader.Error
import ModuleLoader.Record.Basic
/-!
The trace: what happened, in order.

Two kinds of events are shown to whoever reads the log, the lines that programs
write and the compilation of a module. The others mark the places where control
passes between the loader and code that is not its own, or where the text of a
module is fetched, and in the order of these events lies what a loader promises:
what comes before what, how often, and on whose behalf.

For the files that scripts require the trace is a full account. It has every
change of what is kept for a file, every value that is put into the variable a
script exports from, and every value that a lookup is answered with.
-/

namespace ModuleLoader

inductive Event where
  | note (line : String)
  /-- The text at a path is fetched to become a module or a script. -/
  | read (path : Path)
  /-- A document has been read, and its value is kept. -/
  | parse (path : Path) (value : Value)
  | compile (identifier url : String) (context : ContextId)
  /-- The body of a record is about to run. -/
  | evaluate (record : RecordId) (environment : ModuleEnvironment)
  | provide (name : String)
  /-- A lookup has got through the hooks. -/
  | lookup (call : LookupCall)
  /-- What is kept for a file, or what it has just come to, answers a lookup. -/
  | answer (path : Path) (value : Value)
  /-- The body of a script is about to run, and its variable holds an object to start from. -/
  | enter (script : Path) (context : ContextId) (exports : ExportsRef) (start : Value)
  | leave (script : Path) (outcome : Except Error Value)
  | assign (exports : ExportsRef) (value : Value)
  /-- What is kept for a file is dropped, if anything is. -/
  | evict (path : Path) (dropped : Bool)
  | before (guard : GuardId) (call : LookupCall)
  | after (guard : GuardId) (call : LookupCall)

namespace Event

def line? : Event → Option String
  | note line => some line
  | compile identifier url _ => some ("compile " ++ identifier ++ " " ++ url)
  | _ => none

end Event

abbrev Trace := Array Event

def Trace.lines (t : Trace) : List String := t.toList.filterMap Event.line?

end ModuleLoader
