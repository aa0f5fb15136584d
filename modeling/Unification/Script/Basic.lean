import Unification.Event
import Unification.Failure
import Unification.Store.Basic

namespace Unification

variable {σ ε α β γ : Type}

inductive Request (σ : Type) where
  | lookup (v : Var)
  | fresh
  | bind (v : Var) (t : Term σ)
  | rank (v : Var)
  | promote (v : Var)
deriving DecidableEq, Repr

/-- What a store answers. A rank comes with the binding, in one entry. -/
abbrev Request.Answer : Request σ → Type
  | .lookup _ => Option (Term σ)
  | .fresh => Var
  | .bind _ _ => Unit
  | .rank _ => Entry σ
  | .promote _ => Unit

/-- An operation over an unknown store whose errors are in `ε`: a tree of calls that branches on what
comes back, with the events worth a record in between. A refused call does not end the operation by
itself; what becomes of it is up to the operation. -/
inductive Script (σ ε α : Type) where
  | pure (a : α)
  | fail (e : Failure σ ε)
  | unfinished
  | note (e : Event σ) (next : Script σ ε α)
  | call (r : Request σ) (next : Except ε r.Answer → Script σ ε α)

namespace Script

def bind : Script σ ε α → (α → Script σ ε β) → Script σ ε β
  | .pure a, f => f a
  | .fail e, _ => .fail e
  | .unfinished, _ => .unfinished
  | .note e next, f => .note e (next.bind f)
  | .call r next, f => .call r fun a ↦ (next a).bind f

instance : Monad (Script σ ε) where
  pure := .pure
  bind := .bind

theorem bind_pure (m : Script σ ε α) : m.bind .pure = m := by
  induction m with
  | pure _ | fail _ | unfinished => rfl
  | note e next ih => rw [bind, ih]
  | call r next ih => rw [bind, funext ih]

theorem bind_assoc (m : Script σ ε α) (f : α → Script σ ε β) (g : β → Script σ ε γ) :
    (m.bind f).bind g = m.bind fun a ↦ (f a).bind g := by
  induction m with
  | pure _ | fail _ | unfinished => rfl
  | note e next ih => rw [bind, bind, ih, bind]
  | call r next ih => rw [bind, bind, funext ih, bind]

instance : LawfulMonad (Script σ ε) :=
  LawfulMonad.mk' _ bind_pure (fun _ _ ↦ rfl) bind_assoc

def log (e : Event σ) : Script σ ε Unit := .note e (.pure ())

def abort (e : Event σ) (c : Clash σ) : Script σ ε α := .note e (.fail (.clash c))

def ofAnswer : Except ε α → Script σ ε α
  | .ok a => .pure a
  | .error e => .fail (.store e)

def when (b : Bool) (m : Script σ ε Unit) : Script σ ε Unit := if b then m else .pure ()

def lookup (v : Var) : Script σ ε (Option (Term σ)) := .call (.lookup v) ofAnswer

def fresh : Script σ ε Var := .call .fresh ofAnswer

def assign (v : Var) (t : Term σ) : Script σ ε Unit := .call (.bind v t) ofAnswer

def rank (v : Var) : Script σ ε (Entry σ) := .call (.rank v) ofAnswer

def promote (v : Var) : Script σ ε Unit := .call (.promote v) ofAnswer

def newVar (t : Term σ) : Script σ ε Var := do
  let v ← fresh
  assign v t
  return v

def each (f : α → Script σ ε Unit) : List α → Script σ ε Unit
  | [] => .pure ()
  | a :: l => do
    f a
    each f l

def mapEach (f : α → Script σ ε β) : List α → Script σ ε (List β)
  | [] => .pure []
  | a :: l => do
    let b ← f a
    let l ← mapEach f l
    return b :: l

def mapState (f : γ → α → Script σ ε (β × γ)) : γ → List α → Script σ ε (List β × γ)
  | c, [] => .pure ([], c)
  | c, a :: l => do
    let (b, c) ← f c a
    let (l, c) ← mapState f c l
    return (b :: l, c)

/-- Goes through a list from left to right with a state, up to the first element without one. -/
def foldWhile (f : γ → α → Script σ ε (Option γ)) : γ → List α → Script σ ε (Option γ)
  | c, [] => .pure (some c)
  | c, a :: l => do
    match ← f c a with
    | none => return none
    | some c => foldWhile f c l

end Script

end Unification
