import Reprieve.Class.Index
import Reprieve.FileTree
import Reprieve.Json.Read
import Reprieve.Yaml.Read

/-! Snapshot files, which are YAML or JSON by their extension, and their index. -/
namespace Reprieve.Snapshot

inductive Fault where
  | unreadable (fault : PathFault)
  | badJson (fault : Json.Fault)
  | badYaml
  | declaredTwice (name : String)
  deriving DecidableEq, Repr

def twiceMessage (name : String) : String :=
  "Class declared twice in metadata snapshot: " ++ name

def ofJson (text : String) : Except Fault Snapshot :=
  (Json.read (read Json.document) text).mapError .badJson

def ofYaml (text : String) : Except Fault Snapshot :=
  (Yaml.read (read Yaml.document) text).elim (.error .badYaml) .ok

def ofText (extension text : String) : Except Fault Snapshot :=
  match extension with
  | "yml" | "yaml" => ofYaml text
  | _ => ofJson text

def load (t : FileTree) (path : String) : Except Fault Snapshot := do
  let text ← (t.read path).mapError .unreadable
  ofText (Path.extension path) text

def index (s : Snapshot) : Except Fault Index := (Index.ofSnapshot s).mapError .declaredTwice

def loadIndex (t : FileTree) (path : String) : Except Fault Index := do index (← load t path)

end Reprieve.Snapshot
