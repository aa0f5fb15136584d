import Unification.Script.Basic
import Unification.Sorted

namespace Unification

variable {σ ε : Type}

/-- Searches the terms on the stack for a variable, through bindings. The bindings of the variables
in `seen` were put on the stack before. -/
def search (v : Var) : Nat → List Var → List (Term σ) → Script σ ε Bool
  | _, _, [] => return false
  | 0, _, _ :: _ => .unfinished
  | fuel + 1, seen, .var w :: stack =>
    if w = v then return true
    else if w ∈ seen then search v fuel seen stack
    else do
      match ← Script.lookup w with
      | none => search v fuel (w :: seen) stack
      | some t => search v fuel (w :: seen) (t :: stack)
  | fuel + 1, seen, .node _ args :: stack => search v fuel seen (args.reverse ++ stack)

def occurs (fuel : Nat) (v : Var) (t : Term σ) : Script σ ε Bool := search v fuel [] [t]

def collectFree : Nat → List Var → List Var → List (Term σ) → Script σ ε (List Var)
  | _, _, free, [] => return free
  | 0, _, _, _ :: _ => .unfinished
  | fuel + 1, seen, free, .var w :: stack =>
    if w ∈ seen then collectFree fuel seen free stack
    else do
      match ← Script.lookup w with
      | none => collectFree fuel (w :: seen) (insertBy Var.id w free) stack
      | some t => collectFree fuel (w :: seen) free (t :: stack)
  | fuel + 1, seen, free, .node _ args :: stack =>
    collectFree fuel seen free (args.reverse ++ stack)

def freeVars (fuel : Nat) (ts : List (Term σ)) : Script σ ε (List Var) :=
  collectFree fuel [] [] ts.reverse

end Unification
