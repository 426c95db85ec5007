import Reprieve.Datum

/-! What a typed document asks of the format that it is written in. A format
answers in a monad of its own, where it keeps its faults and its limits. -/
namespace Reprieve

structure Document (m : Type → Type) (ν : Type) where
  text : ν → m String
  flag : ν → m Bool
  optional {α : Type} : (ν → m α) → ν → m (Option α)
  list {α : Type} : (ν → m α) → ν → m (List α)
  word : List String → ν → m String
  /-- Known fields change the state in document order; no field comes twice,
  and the others are skipped. -/
  record {σ : Type} : List (String × (ν → σ → m σ)) → σ → ν → m σ
  datum : ν → m Datum
  /-- A required field is absent, or a value has a shape that no type takes. -/
  mismatch {α : Type} : m α

namespace Document
variable {m : Type → Type} {ν : Type} [Monad m]

def required (d : Document m ν) : Option α → m α
  | none => d.mismatch
  | some a => pure a

end Document
end Reprieve
