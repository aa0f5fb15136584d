import Unification.Var

namespace Unification

variable {σ : Type}

/-- A first-order term over the symbols `σ`. A symbol carries no fixed arity: two nodes have the
same shape when they agree on the symbol and on the number of arguments. -/
inductive Term (σ : Type) where
  | var (v : Var)
  | node (symbol : σ) (args : List (Term σ))
deriving Repr, Inhabited

namespace Term

mutual

def decEq [DecidableEq σ] : (t u : Term σ) → Decidable (t = u)
  | .var v, .var w =>
    if h : v = w then .isTrue (by rw [h]) else .isFalse (fun e ↦ h (Term.var.inj e))
  | .var _, .node _ _ => .isFalse nofun
  | .node _ _, .var _ => .isFalse nofun
  | .node f ts, .node g us =>
    if h : f = g then
      match decEqList ts us with
      | .isTrue e => .isTrue (by rw [h, e])
      | .isFalse e => .isFalse (fun c ↦ e (Term.node.inj c).2)
    else .isFalse (fun c ↦ h (Term.node.inj c).1)

def decEqList [DecidableEq σ] : (ts us : List (Term σ)) → Decidable (ts = us)
  | [], [] => .isTrue rfl
  | [], _ :: _ => .isFalse nofun
  | _ :: _, [] => .isFalse nofun
  | t :: ts, u :: us =>
    match decEq t u with
    | .isTrue h =>
      match decEqList ts us with
      | .isTrue e => .isTrue (by rw [h, e])
      | .isFalse e => .isFalse (fun c ↦ e (List.cons.inj c).2)
    | .isFalse h => .isFalse (fun c ↦ h (List.cons.inj c).1)

end

instance [DecidableEq σ] : DecidableEq (Term σ) := decEq

mutual

def size : Term σ → Nat
  | .var _ => 1
  | .node _ args => 1 + sizeList args

def sizeList : List (Term σ) → Nat
  | [] => 0
  | t :: ts => t.size + sizeList ts

end

end Term

end Unification
