import XmlSchema.Configuration.Environment

/-!
What the two servers are started with.
-/

namespace XmlSchema

def applicationTitle : Text := "XSD Catalog"

def applicationVersion : Text := "0.3.0"

/-- Where a server listens, and how much it logs. -/
structure Listener where
  host : Text
  port : Int
  logLevel : Text

/-- A tool server on standard input and output needs no listener. -/
structure Launch where
  api : Listener
  transport : Transport
  tools : Option Listener
  catalogRoot : Text

namespace Launch

def logLevels : List Text := ["CRITICAL", "FATAL", "ERROR", "WARN", "WARNING", "INFO", "DEBUG", "NOTSET"]

/-- A letter as a capital, if that is one of ASCII. Two of these have small letters beyond ASCII: a dotless i and a long
s. -/
def capital (c : CodePoint) : CodePoint :=
  if c.val = 0x131 then CodePoint.ofChar 'I' else if c.val = 0x17F then CodePoint.ofChar 'S' else c.toAsciiUpper

inductive Fault where
  | invalidSetting
  | unknownLogLevel

def ofConfiguration (c : Configuration) : Except Fault Launch :=
  let level := Configuration.lowerCase c.logLevel
  if logLevels.contains (level.map capital) then
    .ok {
      api := ⟨c.apiHost, c.effectivePort, level⟩
      transport := c.transport
      tools := if c.transport = .stdio then none else some ⟨c.toolsHost, c.toolsPort, level⟩
      catalogRoot := c.catalogRoot }
  else .error .unknownLogLevel

def ofEnvironment (environment : List (Text × Text)) (file : Text) : Except Fault Launch :=
  match Configuration.ofEnvironment? environment file with
  | some c => ofConfiguration c
  | none => .error .invalidSetting

def listenerText (l : Listener) : Text := l.host ++ ":" ++ Text.ofInt l.port ++ ", log level " ++ l.logLevel

def apiText (l : Launch) : Text := listenerText l.api ++ ", catalog " ++ l.catalogRoot

def toolsText (l : Launch) : Text :=
  let listener : Text := match l.tools with
    | some listener => " on " ++ listenerText listener
    | none => []
  l.transport.name ++ listener ++ ", catalog " ++ l.catalogRoot

end Launch

end XmlSchema
