import XmlSchema.Text
import XmlSchema.Value.Double

/-!
The configuration of the service and of the two servers that offer it.
-/

namespace XmlSchema

/-- How the tool server talks to its client. -/
inductive Transport where
  | stdio
  | http
  | sse
deriving DecidableEq

namespace Transport

def name : Transport → Text
  | stdio => "stdio"
  | http => "http"
  | sse => "sse"

def ofName? (t : Text) : Option Transport := [stdio, http, sse].find? fun transport => transport.name = t

end Transport

/-- A port that the platform assigns comes before the configured one. -/
structure Configuration where
  logLevel : Text := "INFO"
  apiHost : Text := "localhost"
  apiPort : Int := 3005
  assignedPort : Option Int := none
  transport : Transport := .stdio
  toolsHost : Text := "localhost"
  toolsPort : Int := 9000
  catalogRoot : Text := "xsd"
  catalogDepth : Int := 16
  /-- Seconds. -/
  timeout : Double := Double.ofQuotient false 10 1
  maxDocumentSize : Int := 5000000
  maxElementDepth : Int := 256

def Configuration.effectivePort (c : Configuration) : Int := c.assignedPort.getD c.apiPort

end XmlSchema
