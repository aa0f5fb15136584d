import Unification.Walk
import Unification.Reach

namespace Unification

variable {σ ε : Type} [DecidableEq σ]

/-- Which of two variables stands for both. On a tie of ranks the left one does, and its rank has
to grow. -/
inductive Choice where
  | left (tie : Bool)
  | right
deriving DecidableEq, Repr

def Strategy.choose (v : Var) (vBound : Bool) (w : Var) (wBound : Bool) :
    Strategy → Script σ ε Choice
  | .plain => return if vBound && !wBound then .left false else .right
  | .ranked => do
    let a ← Script.rank v
    let b ← Script.rank w
    return if a.rank < b.rank then .right else .left (a.rank = b.rank)

def guardOccurs (mode : Mode) (fuel : Nat) (v : Var) (t : Term σ) : Script σ ε Unit :=
  Script.when mode.eager do
    let found ← occurs fuel v t
    Script.when found (Script.abort (.refused v t) (.occursIn v t))

section Step

variable (mode : Mode) (fuel : Nat) (recurse : List Var → Term σ → Term σ → Script σ ε (Term σ))

def unifyLayers (path : List Var) (l r : Layer σ (Term σ)) : Script σ ε (Layer σ (Term σ)) :=
  match l.align? r with
  | none => Script.abort (.mismatch l r) (.mismatch l r)
  | some aligned => do
    let slots ← Script.mapEach (fun
      | .same t => .pure t
      | .differ t u => recurse path t u) aligned.slots
    return ⟨aligned.symbol, slots⟩

def rebind (path : List Var) (v : Var) (bound l r : Layer σ (Term σ)) : Script σ ε (Term σ) := do
  let path ← stepInto path (some v) bound
  let layer ← unifyLayers recurse path l r
  Script.assign v layer.toTerm
  return .var v

/-- Makes one variable stand for another one, which is bound to it. The binding of the pair goes to
the variable that is kept: what both were unified to, or what was bound on the other side. -/
def absorb (kept : Var) (keptBinding : Option (Layer σ (Term σ))) (absorbed : Var)
    (absorbedBinding : Option (Layer σ (Term σ))) (unified : Option (Layer σ (Term σ)))
    (tie : Bool) : Script σ ε (Term σ) := do
  bindKept (unified.or (if keptBinding.isNone then absorbedBinding else none))
  Script.when tie do
    Script.log (.promoting kept)
    Script.promote kept
  Script.when absorbedBinding.isNone (guardOccurs mode fuel absorbed (.var kept))
  Script.log (.linking absorbed kept)
  Script.assign absorbed (.var kept)
  return .var kept
where
  bindKept : Option (Layer σ (Term σ)) → Script σ ε Unit
    | none => .pure ()
    | some layer => do
      Script.when keptBinding.isNone (guardOccurs mode fuel kept layer.toTerm)
      Script.assign kept layer.toTerm

def joinVars (path : List Var) (v : Var) (l : Option (Layer σ (Term σ)))
    (w : Var) (r : Option (Layer σ (Term σ))) : Script σ ε (Term σ) := do
  let choice ← mode.strategy.choose v l.isSome w r.isSome
  let unified ← unifyBindings
  match choice with
  | .left tie => absorb mode fuel v l w r unified tie
  | .right => absorb mode fuel w r v l unified false
where
  unifyBindings : Script σ ε (Option (Layer σ (Term σ))) :=
    match l, r with
    | some l, some r => do
      let path ← stepInto path (some v) l
      let path ← stepInto path (some w) r
      let layer ← unifyLayers recurse path l r
      return some layer
    | _, _ => return none

def bindFree (v : Var) (layer : Layer σ (Term σ)) : Script σ ε (Term σ) := do
  guardOccurs mode fuel v layer.toTerm
  Script.assign v layer.toTerm
  return .var v

def unifyHeads (path : List Var) : Head σ → Head σ → Script σ ε (Term σ)
  | .shape none l, .shape none r => do
    let layer ← unifyLayers recurse path l r
    return layer.toTerm
  | .free v, .shape none r => bindFree mode fuel v r
  | .shape none l, .free w => bindFree mode fuel w l
  | .shape (some v) l, .shape none r => rebind recurse path v l l r
  | .shape none l, .shape (some w) r => rebind recurse path w r l r
  | .free v, .free w => unifyVars v none w none
  | .free v, .shape (some w) r => unifyVars v none w (some r)
  | .shape (some v) l, .free w => unifyVars v (some l) w none
  | .shape (some v) l, .shape (some w) r => unifyVars v (some l) w (some r)
where
  unifyVars (v : Var) (l : Option (Layer σ (Term σ))) (w : Var)
      (r : Option (Layer σ (Term σ))) : Script σ ε (Term σ) :=
    if v = w then return .var w else joinVars mode fuel recurse path v l w r

end Step

/-- Unifies two terms below the bindings on a path. The first fuel bounds every walk and search,
the second one the depth of the recursion. -/
def unifyBelow (mode : Mode) (fuel : Nat) :
    Nat → List Var → Term σ → Term σ → Script σ ε (Term σ)
  | 0, _, _, _ => .unfinished
  | n + 1, path, t, u => do
    let l ← find fuel t
    let r ← find fuel u
    unifyHeads mode fuel (unifyBelow mode fuel n) path l r

def unify (mode : Mode) (fuel : Nat) (t u : Term σ) : Script σ ε (Term σ) := do
  Script.log (.unifying mode t u)
  unifyBelow mode fuel fuel [] t u

end Unification
