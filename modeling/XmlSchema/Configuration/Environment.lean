import XmlSchema.Configuration.Reader
import XmlSchema.Configuration.VariableFile

/-!
A configuration from the variables of the environment and those of a file. The case of names does not matter, and the
environment comes first.
-/

namespace XmlSchema.Configuration

def lowerCase (t : Text) : Text := t.map CodePoint.toAsciiLower

/-- Variables as settings. Of names that differ in case alone the last counts; a name without a value sets nothing. -/
def settingsOf (entries : List (Text × Option Text)) : List (Text × Setting) :=
  (entries.foldl (fun known (name, value) => VariableFile.set (lowerCase name) value known) []).filterMap
    fun (name, value) => value.map fun value => (name, Setting.text value)

def ofEnvironment? (environment : List (Text × Text)) (file : Text) : Option Configuration :=
  let ofEnvironment := settingsOf (environment.map fun (name, value) => (name, some value))
  ofSettings? (ofEnvironment ++ settingsOf (VariableFile.definitions environment file))

end XmlSchema.Configuration
