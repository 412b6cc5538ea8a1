import XmlSchema.Configuration.Launch

/-!
The command line: what a server is started with, by the environment and the file `.env` of the working directory.
-/

namespace XmlSchema

/-- The variables of the environment that are fields, in either case. -/
def environment : IO (List (Text × Text)) := do
  let names := Configuration.fieldNames.filterMap Text.toString?
  let found ← (names ++ names.map String.toUpper).mapM fun name => do
    return (← IO.getEnv name).map fun value => (Text.ofString name, Text.ofString value)
  return found.reduceOption

def variableFile : IO Text := do
  try return Text.ofString (← IO.FS.readFile ".env") catch _ => return []

def printText (t : Text) : IO Unit := IO.println (t.toString?.getD "")

def command (args : List String) : IO UInt32 := do
  match args, Launch.ofEnvironment (← environment) (← variableFile) with
  | ["api"], .ok launch => printText launch.apiText; return 0
  | ["tools"], .ok launch => printText launch.toolsText; return 0
  | _, .error .invalidSetting => IO.eprintln "invalid setting"; return 1
  | _, .error .unknownLogLevel => IO.eprintln "unknown log level"; return 1
  | _, _ => IO.eprintln "usage: (api | tools)"; return 2

end XmlSchema

def main (args : List String) : IO UInt32 := XmlSchema.command args
