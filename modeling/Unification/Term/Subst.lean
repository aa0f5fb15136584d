import Unification.Term.Basic

namespace Unification.Term

variable {σ α ε : Type}

mutual

def vars : Term σ → List Var
  | .var v => [v]
  | .node _ args => varsList args

def varsList : List (Term σ) → List Var
  | [] => []
  | t :: ts => t.vars ++ varsList ts

end

def foldVars (f : α → Var → α) (a : α) (t : Term σ) : α := t.vars.foldl f a

mutual

def isGround : Term σ → Bool
  | .var _ => false
  | .node _ args => isGroundList args

def isGroundList : List (Term σ) → Bool
  | [] => true
  | t :: ts => t.isGround && isGroundList ts

end

mutual

def subst (f : Var → Term σ) : Term σ → Term σ
  | .var v => f v
  | .node s args => .node s (substList f args)

def substList (f : Var → Term σ) : List (Term σ) → List (Term σ)
  | [] => []
  | t :: ts => t.subst f :: substList f ts

end

mutual

def substM {m : Type → Type} [Monad m] (f : Var → m (Term σ)) : Term σ → m (Term σ)
  | .var v => f v
  | .node s args => do
    let args ← substListM f args
    return .node s args

def substListM {m : Type → Type} [Monad m] (f : Var → m (Term σ)) :
    List (Term σ) → m (List (Term σ))
  | [] => pure []
  | t :: ts => do
    let t ← t.substM f
    let ts ← substListM f ts
    return t :: ts

end

/-- Substitution by a function that may refuse a variable. The second component lists the
variables the function was asked for, up to and including the refused one. -/
def trySubst (f : Var → Except ε (Term σ)) (t : Term σ) : Except ε (Term σ) × List Var :=
  let ask (v : Var) : ExceptT ε (StateM (List Var)) (Term σ) := do
    modify (· ++ [v])
    liftExcept (f v)
  (t.substM ask).run.run []
where
  liftExcept : Except ε (Term σ) → ExceptT ε (StateM (List Var)) (Term σ)
    | .ok t => pure t
    | .error e => throw e

end Unification.Term

namespace Unification

variable {σ : Type}

/-- A finite substitution. The last pair for a variable counts. -/
abbrev Substitution (σ : Type) := List (Var × Term σ)

def Substitution.get? (θ : Substitution σ) (v : Var) : Option (Term σ) :=
  List.lookup v θ.reverse

def Substitution.apply (θ : Substitution σ) : Term σ → Term σ :=
  Term.subst fun v ↦ (θ.get? v).getD (.var v)

def Substitution.tryApply (θ : Substitution σ) : Term σ → Except Var (Term σ) × List Var :=
  Term.trySubst fun v ↦ (θ.get? v).elim (.error v) .ok

end Unification
