/-!
The life of a module record.

A record is linked, then evaluated, and each of the two takes a while during
which other code runs. So there are two stages under way between the three at
rest, and one more for a record whose linking or evaluation failed. Failure is
final, and so is having been evaluated.
-/

namespace ModuleLoader

inductive Status where
  | unlinked
  | linking
  | linked
  | evaluating
  | evaluated
  | errored
  deriving DecidableEq, Repr, Inhabited

namespace Status

def all : List Status := [unlinked, linking, linked, evaluating, evaluated, errored]

def text : Status → String
  | unlinked => "unlinked"
  | linking => "linking"
  | linked => "linked"
  | evaluating => "evaluating"
  | evaluated => "evaluated"
  | errored => "errored"

def canMove : Status → Status → Bool
  | unlinked, linking => true
  | linking, linked => true
  | linking, errored => true
  | linked, evaluating => true
  | evaluating, evaluated => true
  | evaluating, errored => true
  | _, _ => false

def isTerminal : Status → Bool
  | evaluated => true
  | errored => true
  | _ => false

end Status

end ModuleLoader
