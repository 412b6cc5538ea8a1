import XmlSchema.Configuration.Setting

/-!
A configuration from settings by name. Names that are no fields are ignored; a setting that its field does not take
spoils the whole.
-/

namespace XmlSchema.Configuration

def fieldNames : List Text :=
  ["log_level", "api_server_host", "api_server_port", "port", "mcp_transport", "mcp_server_host", "mcp_server_port",
    "catalog_root", "catalog_max_depth", "validation_timeout_seconds", "max_document_size", "max_element_depth"]

def read {α : Type} (given : List (Text × Setting)) (name : Text) (convert : Setting → Option α) (default : α) :
    Option α :=
  match given.lookup name with
  | some setting => convert setting
  | none => some default

def ofSettings? (given : List (Text × Setting)) : Option Configuration := do
  let default : Configuration := {}
  return {
    logLevel := ← read given "log_level" Setting.toText? default.logLevel
    apiHost := ← read given "api_server_host" Setting.toText? default.apiHost
    apiPort := ← read given "api_server_port" Setting.toInt? default.apiPort
    assignedPort := ← read given "port" Setting.toOptionalInt? default.assignedPort
    transport := ← read given "mcp_transport" Setting.toTransport? default.transport
    toolsHost := ← read given "mcp_server_host" Setting.toText? default.toolsHost
    toolsPort := ← read given "mcp_server_port" Setting.toInt? default.toolsPort
    catalogRoot := ← read given "catalog_root" Setting.toPath? default.catalogRoot
    catalogDepth := ← read given "catalog_max_depth" Setting.toInt? default.catalogDepth
    timeout := ← read given "validation_timeout_seconds" Setting.toDouble? default.timeout
    maxDocumentSize := ← read given "max_document_size" Setting.toInt? default.maxDocumentSize
    maxElementDepth := ← read given "max_element_depth" Setting.toInt? default.maxElementDepth }

end XmlSchema.Configuration
