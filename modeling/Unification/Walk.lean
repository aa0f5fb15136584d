import Unification.Script.Basic

namespace Unification

variable {σ ε : Type}

/-- A term seen through the chain of variables that it starts with: it ends at a free variable, or
at a layer together with the last variable of the chain, if there is a chain. -/
inductive Head (σ : Type) where
  | free (v : Var)
  | shape (via : Option Var) (layer : Layer σ (Term σ))
deriving DecidableEq, Repr

def Head.toTerm : Head σ → Term σ
  | .free v => .var v
  | .shape (some v) _ => .var v
  | .shape none layer => layer.toTerm

structure Walk (σ : Type) where
  passed : List Var
  root : Var
  value : Option (Layer σ (Term σ))
deriving DecidableEq, Repr

namespace Walk

def head (w : Walk σ) : Head σ :=
  match w.value with
  | none => .free w.root
  | some layer => .shape (some w.root) layer

/-- Follows the chain that starts at `v`. A variable in `seen` was passed on the way, so a chain
that comes back to one has no end. -/
def chase : Nat → List Var → Var → Script σ ε (Walk σ)
  | 0, _, _ => .unfinished
  | fuel + 1, seen, v => do
    match ← Script.lookup v with
    | none => return ⟨[], v, none⟩
    | some (.node f args) => return ⟨[], v, some ⟨f, args⟩⟩
    | some (.var w) =>
      if w ∈ v :: seen then
        Script.abort (.looped w) (.occursIn w (.var w))
      else
        let rest ← chase fuel (v :: seen) w
        return { rest with passed := v :: rest.passed }

def shorten (w : Walk σ) : Script σ ε Unit :=
  Script.each (fun link ↦ do
    Script.log (.shortened link w.root)
    Script.assign link (.var w.root)) w.passed.dropLast

end Walk

def peek (fuel : Nat) : Term σ → Script σ ε (Head σ)
  | .node f args => return .shape none ⟨f, args⟩
  | .var v => do
    let w ← Walk.chase fuel [] v
    return w.head

def find (fuel : Nat) : Term σ → Script σ ε (Head σ)
  | .node f args => return .shape none ⟨f, args⟩
  | .var v => do
    let w ← Walk.chase fuel [] v
    w.shorten
    return w.head

def representative (fuel : Nat) (t : Term σ) : Script σ ε (Term σ) := do
  let h ← find fuel t
  return h.toTerm

def terminal (fuel : Nat) : Term σ → Script σ ε (Term σ)
  | .node f args => return .node f args
  | .var v => do
    let w ← Walk.chase fuel [] v
    match w.value with
    | none =>
      w.shorten
      return .var w.root
    | some layer =>
      Script.each (fun link ↦ do
        Script.log (.collapsed link)
        Script.assign link layer.toTerm) w.passed
      return layer.toTerm

/-- Steps into a binding. The path holds the variables whose bindings are being walked: one that is
met again is taken to occur in its own binding, and blamed for it. -/
def stepInto (path : List Var) (via : Option Var) (layer : Layer σ (Term σ)) :
    Script σ ε (List Var) :=
  match via with
  | none => return path
  | some v =>
    if v ∈ path then Script.abort (.reentered v) (.occursIn v layer.toTerm)
    else return v :: path

end Unification
