import Unification.Unify

namespace Unification

variable {σ ε : Type} [DecidableEq σ]

/-- Which layers are known to be the same object. An object has one content, but layers of the same
content may well be different objects. -/
structure Sharing (σ : Type) where
  shared : Layer σ (Term σ) → Layer σ (Term σ) → Bool
  eq_of_shared {l r : Layer σ (Term σ)} : shared l r = true → l = r

namespace Sharing

variable (m : Sharing σ)

mutual

def same : Term σ → Term σ → Bool
  | .var v, .var w => v = w
  | .node f ts, .node g us => m.shared ⟨f, ts⟩ ⟨g, us⟩ || (f = g && sameList ts us)
  | _, _ => false

def sameList : List (Term σ) → List (Term σ) → Bool
  | [], [] => true
  | t :: ts, u :: us => same t u && sameList ts us
  | _, _ => false

end

def aligned (t u : Term σ) : Aligned (Term σ) := if m.same t u then .same t else .differ t u

section Step

variable (mode : Mode) (fuel : Nat) (recurse : List Var → Term σ → Term σ → Script σ ε (Term σ))

def unifyHeads (path : List Var) : Head σ → Head σ → Script σ ε (Term σ)
  | .shape none l, .shape none r =>
    if m.shared l r then return l.toTerm
    else Unification.unifyHeads mode fuel recurse path (.shape none l) (.shape none r)
  | l, r => Unification.unifyHeads mode fuel recurse path l r

end Step

def unifyBelow (mode : Mode) (fuel : Nat) :
    Nat → List Var → Term σ → Term σ → Script σ ε (Term σ)
  | 0, _, _, _ => .unfinished
  | n + 1, path, t, u => do
    let l ← find fuel t
    let r ← find fuel u
    m.unifyHeads mode fuel (unifyBelow mode fuel n) path l r

def unify (mode : Mode) (fuel : Nat) (t u : Term σ) : Script σ ε (Term σ) := do
  Script.log (.unifying mode t u)
  m.unifyBelow mode fuel fuel [] t u

end Sharing

end Unification
