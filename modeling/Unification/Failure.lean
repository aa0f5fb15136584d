import Unification.Layer

namespace Unification

inductive Clash (σ : Type) where
  | occursIn (v : Var) (t : Term σ)
  | mismatch (left right : Layer σ (Term σ))
deriving DecidableEq, Repr

inductive Failure (σ ε : Type) where
  | clash (c : Clash σ)
  | store (e : ε)
deriving DecidableEq, Repr

/-- What an operation comes to. It is `unfinished` when its fuel was too small. -/
inductive Outcome (σ ε α : Type) where
  | ok (a : α)
  | error (e : Failure σ ε)
  | unfinished
deriving DecidableEq, Repr

end Unification
