import Unification.Resolve

namespace Unification

variable {σ ε : Type}

/-- Copies a term with fresh variables. The copy of a bound variable is a fresh variable bound to
the copy of its binding, and the copy of a chain is the copy of its last variable. -/
def renameWith (fuel : Nat) : Nat → Memo σ → Term σ → Script σ ε (Term σ × Memo σ)
  | 0, _, _ => .unfinished
  | n + 1, memo, t => do
    match ← find fuel t with
    | .shape none layer => layer.mapMemo (renameWith fuel n) memo
    | .free v =>
      match List.lookup v memo with
      | some (.done u) => return (u, memo)
      | some .started => Script.abort (.cyclic v) (.occursIn v (.var v))
      | none =>
        let copy ← Script.fresh
        finish v copy memo
    | .shape (some v) layer =>
      match List.lookup v memo with
      | some (.done u) => return (u, memo)
      | some .started => Script.abort (.cyclic v) (.occursIn v layer.toTerm)
      | none =>
        let (u, memo) ← layer.mapMemo (renameWith fuel n) ((v, .started) :: memo)
        let copy ← Script.newVar u
        finish v copy memo
where
  finish (v copy : Var) (memo : Memo σ) : Script σ ε (Term σ × Memo σ) := do
    Script.log (.renamed v copy)
    return (.var copy, (v, .done (.var copy)) :: memo)

def renameApart (fuel : Nat) (t : Term σ) : Script σ ε (Term σ) := do
  let (u, _) ← renameWith fuel fuel [] t
  return u

/-- Copies terms so that variables shared between them are shared between the copies. -/
def renameApartAll (fuel : Nat) (ts : List (Term σ)) : Script σ ε (List (Term σ)) := do
  let (us, _) ← Script.mapState (renameWith fuel fuel) [] ts
  return us

end Unification
