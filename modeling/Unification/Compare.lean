import Unification.Walk
import Unification.Sorted

namespace Unification

variable {σ ε : Type} [DecidableEq σ]

/-- A one-to-one map between variables, by increasing identifier on the left. -/
abbrev Renaming := List (Var × Var)

def Renaming.link? (ρ : Renaming) (v w : Var) : Option Renaming :=
  match List.lookup v ρ with
  | some x => if x = w then some ρ else none
  | none =>
    if w ∈ ρ.map Prod.snd then none
    else some (insertBy (fun p : Var × Var ↦ p.1.id) (v, w) ρ)

inductive Criterion where
  | identical
  | renamed
deriving DecidableEq, Repr

def Criterion.leaf? (v w : Var) (ρ : Renaming) : Criterion → Option Renaming
  | .identical => if v = w then some ρ else none
  | .renamed => ρ.link? v w

structure Paths where
  left : List Var := []
  right : List Var := []

def Paths.stepInto (p : Paths) (v : Option Var) (l : Layer σ (Term σ)) (w : Option Var)
    (r : Layer σ (Term σ)) : Script σ ε Paths := do
  let left ← Unification.stepInto p.left v l
  let right ← Unification.stepInto p.right w r
  return ⟨left, right⟩

/-- Compares two terms through the bindings. The result is the renaming extended by what the two
terms need, or nothing if they differ. Slots that are equal as they stand still take part in a
renaming. -/
def compareWith (criterion : Criterion) (fuel : Nat) :
    Nat → Paths → Renaming → Term σ → Term σ → Script σ ε (Option Renaming)
  | 0, _, _, _, _ => .unfinished
  | n + 1, paths, ρ, t, u => do
    let l ← peek fuel t
    let r ← peek fuel u
    match l, r with
    | .free v, .free w => return criterion.leaf? v w ρ
    | .free _, .shape _ _ => return none
    | .shape _ _, .free _ => return none
    | .shape v l, .shape w r =>
      if criterion = .identical ∧ v.isSome ∧ v = w then return some ρ
      else
        let paths ← paths.stepInto v l w r
        match l.align? r with
        | none => return none
        | some aligned =>
          Script.foldWhile (fun ρ a ↦ match a with
            | .same t =>
              match criterion with
              | .identical => .pure (some ρ)
              | .renamed => compareWith criterion fuel n paths ρ t t
            | .differ t u => compareWith criterion fuel n paths ρ t u) ρ aligned.slots

def equal (fuel : Nat) (t u : Term σ) : Script σ ε Bool := do
  let ρ ← compareWith .identical fuel fuel {} [] t u
  return ρ.isSome

def variant? (fuel : Nat) (t u : Term σ) : Script σ ε (Option Renaming) :=
  compareWith .renamed fuel fuel {} [] t u

end Unification
