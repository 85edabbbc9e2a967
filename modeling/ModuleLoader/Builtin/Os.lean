import ModuleLoader.Value.Literal
/-!
The built-in module `os`: four facts about the system that scripts run on.
-/

namespace ModuleLoader

def Builtin.Os.exports : Literal :=
  .object
    [("EOL", .string "\n"),
     ("devNull", .string "/dev/null"),
     ("platform", .string "linux"),
     ("arch", .string "x64")]

end ModuleLoader
