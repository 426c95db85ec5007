import Reprieve.Document

/-! A value as a document: what was read whole is then taken apart by type. -/
namespace Reprieve.Datum

abbrev Field (σ : Type) := String × (Datum → σ → Option σ)

def readRow : List (Field σ) → List Datum → σ → Option σ
  | _, [], s => some s
  | [], _ :: _, _ => none
  | (_, f) :: fs, d :: ds, s => do readRow fs ds (← f d s)

def readFields (fields : List (Field σ)) : List String → List (Datum × Datum) → σ → Option σ
  | _, [], s => some s
  | seen, (.text key, d) :: r, s =>
    match fields.lookup key with
    | none => readFields fields seen r s
    | some f => do
      if seen.contains key then none
      readFields fields (key :: seen) r (← f d s)
  | _, _ :: _, _ => none

def readRecord (fields : List (Field σ)) (s : σ) : Datum → Option σ
  | .list items => readRow fields items s
  | .map entries => readFields fields [] entries s
  | _ => none

def document : Document Option Datum where
  text
    | .text s => some s
    | _ => none
  flag
    | .bool b => some b
    | _ => none
  optional f
    | .null => some none
    | d => some <$> f d
  list f
    | .list items => items.mapM f
    | _ => none
  word words
    | .text s => if words.contains s then some s else none
    | .map [(.text s, .null)] => if words.contains s then some s else none
    | _ => none
  record := readRecord
  datum := some
  mismatch := none

end Reprieve.Datum
