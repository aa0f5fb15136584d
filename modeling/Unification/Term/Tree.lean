import Unification.Term.Subst

namespace Unification

variable {σ : Type}

inductive Tree (σ : Type) where
  | node (symbol : σ) (children : List (Tree σ))
deriving Repr

namespace Tree

mutual

def decEq [DecidableEq σ] : (t u : Tree σ) → Decidable (t = u)
  | .node f ts, .node g us =>
    if h : f = g then
      match decEqList ts us with
      | .isTrue e => .isTrue (by rw [h, e])
      | .isFalse e => .isFalse (fun c ↦ e (Tree.node.inj c).2)
    else .isFalse (fun c ↦ h (Tree.node.inj c).1)

def decEqList [DecidableEq σ] : (ts us : List (Tree σ)) → Decidable (ts = us)
  | [], [] => .isTrue rfl
  | [], _ :: _ => .isFalse nofun
  | _ :: _, [] => .isFalse nofun
  | t :: ts, u :: us =>
    match decEq t u with
    | .isTrue h =>
      match decEqList ts us with
      | .isTrue e => .isTrue (by rw [h, e])
      | .isFalse e => .isFalse (fun c ↦ e (List.cons.inj c).2)
    | .isFalse h => .isFalse (fun c ↦ h (List.cons.inj c).1)

end

instance [DecidableEq σ] : DecidableEq (Tree σ) := decEq

mutual

def toTerm : Tree σ → Term σ
  | .node s children => .node s (toTermList children)

def toTermList : List (Tree σ) → List (Term σ)
  | [] => []
  | t :: ts => t.toTerm :: toTermList ts

end

end Tree

namespace Term

mutual

/-- The tree of a ground term. A bound variable is still a variable: resolve it first. -/
def toTree? : Term σ → Option (Tree σ)
  | .var _ => none
  | .node s args => (toTreeList? args).map (.node s)

def toTreeList? : List (Term σ) → Option (List (Tree σ))
  | [] => some []
  | t :: ts =>
    match t.toTree? with
    | none => none
    | some u => (toTreeList? ts).map (u :: ·)

end

end Term

end Unification
