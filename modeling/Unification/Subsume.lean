import Unification.Compare

namespace Unification

variable {σ ε : Type} [DecidableEq σ]

def subsumesBelow (fuel : Nat) : Nat → Paths → Term σ → Term σ → Script σ ε Bool
  | 0, _, _, _ => .unfinished
  | n + 1, paths, t, u => do
    let l ← find fuel t
    let r ← find fuel u
    match l, r with
    | .free v, r =>
      Script.when (r ≠ .free v) (Script.assign v r.toTerm)
      return true
    | .shape _ _, .free _ => return false
    | .shape v l, .shape w r =>
      if v.isSome ∧ v = w then return true
      else
        let paths ← paths.stepInto v l w r
        match l.align? r with
        | none => return false
        | some aligned =>
          let matched ← Script.foldWhile (fun () a ↦ match a with
            | .same _ => .pure (some ())
            | .differ t u => do
              let b ← subsumesBelow fuel n paths t u
              return if b then some () else none) () aligned.slots
          return matched.isSome

/-- Whether the left term is at least as general as the right one. The bindings made on the way
stay, whatever the answer. -/
def subsumes (fuel : Nat) (t u : Term σ) : Script σ ε Bool := subsumesBelow fuel fuel {} t u

end Unification
