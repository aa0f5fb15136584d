import Unification.Term.Basic

namespace Unification

variable {σ α : Type}

structure Layer (σ α : Type) where
  symbol : σ
  slots : List α
deriving DecidableEq, Repr

/-- Two slots side by side. Slots that are equal as they stand need no further work. -/
inductive Aligned (α : Type) where
  | same (a : α)
  | differ (left right : α)
deriving DecidableEq, Ord, Repr

def Aligned.of [DecidableEq α] (a b : α) : Aligned α := if a = b then .same a else .differ a b

namespace Layer

def toTerm (l : Layer σ (Term σ)) : Term σ := .node l.symbol l.slots

/-- Lays two layers side by side, one level deep. There is no alignment when they disagree on the
symbol or on the number of slots. -/
def align? [DecidableEq σ] [DecidableEq α] (l r : Layer σ α) : Option (Layer σ (Aligned α)) :=
  if l.symbol = r.symbol ∧ l.slots.length = r.slots.length then
    some ⟨l.symbol, List.zipWith Aligned.of l.slots r.slots⟩
  else none

end Layer

def Term.layer? : Term σ → Option (Layer σ (Term σ))
  | .var _ => none
  | .node s args => some ⟨s, args⟩

end Unification
