import Unification.Unify
import Unification.RenameApart
import Unification.Subsume
import Unification.Script.Run

namespace Unification

variable {σ ε : Type}

inductive Operation (σ : Type) where
  | representative (t : Term σ)
  | terminal (t : Term σ)
  | unify (mode : Mode) (t u : Term σ)
  | unified (strategy : Strategy) (t u : Term σ)
  | occurs (v : Var) (t : Term σ)
  | freeVars (ts : List (Term σ))
  | resolve (t : Term σ)
  | resolveAll (ts : List (Term σ))
  | renameApart (t : Term σ)
  | renameApartAll (ts : List (Term σ))
  | equal (t u : Term σ)
  | variant (t u : Term σ)
  | subsumes (t u : Term σ)
deriving DecidableEq

inductive Value (σ : Type) where
  | nothing
  | bool (b : Bool)
  | number (n : Nat)
  | var (v : Var)
  | vars (vs : List Var)
  | term (t : Term σ)
  | terms (ts : List (Term σ))
  | entry (e : Entry σ)
  | renaming (ρ : Renaming)
  | summary (s : Store σ)
deriving DecidableEq

namespace Operation

def weight : Operation σ → Nat
  | .representative t | .terminal t | .resolve t | .renameApart t => t.size
  | .unify _ t u | .unified _ t u | .equal t u | .variant t u | .subsumes t u => t.size + u.size
  | .occurs _ t => 1 + t.size
  | .freeVars ts | .resolveAll ts | .renameApartAll ts => Term.sizeList ts

/-- Enough fuel over a store of the given weight. A recursion enters a variable once, and between
two variables it goes no deeper than the terms that are there. A copy may enter variables that it
handed out itself, if they were in use before, but there are at most quadratically many. -/
def fuel (op : Operation σ) (weight : Nat) : Nat :=
  let n := 2 * (weight + op.weight + 1)
  n * n * n

variable [DecidableEq σ]

def script (fuel : Nat) : Operation σ → Script σ ε (Value σ)
  | .representative t => .term <$> Unification.representative fuel t
  | .terminal t => .term <$> Unification.terminal fuel t
  | .unify mode t u => (fun _ ↦ .nothing) <$> Unification.unify mode fuel t u
  | .unified strategy t u => .term <$> Unification.unify { strategy } fuel t u
  | .occurs v t => .bool <$> Unification.occurs fuel v t
  | .freeVars ts => .vars <$> Unification.freeVars fuel ts
  | .resolve t => .term <$> Unification.resolve fuel t
  | .resolveAll ts => .terms <$> Unification.resolveAll fuel ts
  | .renameApart t => .term <$> Unification.renameApart fuel t
  | .renameApartAll ts => .terms <$> Unification.renameApartAll fuel ts
  | .equal t u => .bool <$> Unification.equal fuel t u
  | .variant t u => (fun ρ ↦ ρ.elim .nothing .renaming) <$> Unification.variant? fuel t u
  | .subsumes t u => .bool <$> Unification.subsumes fuel t u

def run (op : Operation σ) (s : Store σ) : Outcome σ Refusal (Value σ) × Store σ :=
  (op.script (op.fuel s.weight)).run s

end Operation

end Unification
