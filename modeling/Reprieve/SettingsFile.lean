import Reprieve.FileTree
import Reprieve.Settings
import Reprieve.Toml.Read
import Reprieve.Yaml.Read

/-! Settings files: their format, which the extension gives, and where they lie. -/
namespace Reprieve.Settings

inductive FileFault where
  | unreadable (path : String)
  | badYaml
  | badToml
  | badFile
  deriving DecidableEq, Repr

def FileFault.message : FileFault → String
  | .unreadable p => "Failed to read config file: " ++ p
  | .badYaml => "Failed to parse YAML config"
  | .badToml => "Failed to parse TOML config"
  | .badFile => "Failed to parse config file"

def ofYaml? (text : String) : Option Settings := Yaml.read (read Yaml.document) text

def ofToml? (text : String) : Option Settings := Toml.read (read Toml.document) text

/-- Without an extension that says more, what is not YAML may be TOML. -/
def ofText (extension text : String) : Except FileFault Settings :=
  match extension with
  | "yml" | "yaml" => ((ofYaml? text).elim (.error .badYaml) .ok)
  | "toml" => ((ofToml? text).elim (.error .badToml) .ok)
  | _ => ((ofYaml? text).or (ofToml? text)).elim (.error .badFile) .ok

def load (t : FileTree) (path : String) : Except FileFault Settings :=
  match t.read path with
  | .ok text => ofText (Path.extension path) text
  | .error _ => .error (.unreadable path)

def fileNames : List String :=
  [".memberusage.yml", ".memberusage.yaml", ".memberusage.toml",
    "memberusage.yml", "memberusage.yaml", "memberusage.toml"]

def find (t : FileTree) (root : String) : Except FileFault Settings :=
  match (fileNames.map (Path.join root)).find? t.exists? with
  | some p => load t p
  | none => .ok {}

end Reprieve.Settings
