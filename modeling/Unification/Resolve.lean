import Unification.Walk

namespace Unification

variable {σ ε : Type}

inductive Progress (α : Type) where
  | started
  | done (a : α)
deriving DecidableEq, Repr

abbrev Memo (σ : Type) := List (Var × Progress (Term σ))

def Layer.mapMemo (f : Memo σ → Term σ → Script σ ε (Term σ × Memo σ)) (memo : Memo σ)
    (layer : Layer σ (Term σ)) : Script σ ε (Term σ × Memo σ) := do
  let (slots, memo) ← Script.mapState f memo layer.slots
  return (.node layer.symbol slots, memo)

/-- Replaces bound variables by what they resolve to. A variable is resolved once, and one that is
met while it is being resolved is bound to a term without end. -/
def resolveWith (fuel : Nat) : Nat → Memo σ → Term σ → Script σ ε (Term σ × Memo σ)
  | 0, _, _ => .unfinished
  | n + 1, memo, t => do
    match ← peek fuel t with
    | .free v => return (.var v, memo)
    | .shape none layer => layer.mapMemo (resolveWith fuel n) memo
    | .shape (some v) layer =>
      match List.lookup v memo with
      | some (.done u) => return (u, memo)
      | some .started => Script.abort (.cyclic v) (.occursIn v layer.toTerm)
      | none =>
        let (u, memo) ← layer.mapMemo (resolveWith fuel n) ((v, .started) :: memo)
        return (u, (v, .done u) :: memo)

def resolve (fuel : Nat) (t : Term σ) : Script σ ε (Term σ) := do
  let (u, _) ← resolveWith fuel fuel [] t
  return u

def resolveAll (fuel : Nat) (ts : List (Term σ)) : Script σ ε (List (Term σ)) := do
  let (us, _) ← Script.mapState (resolveWith fuel fuel) [] ts
  return us

end Unification
