import Unification.Script.Run

namespace Unification

variable {σ ε S : Type}

/-- A store that answers only so many calls. Without a limit it behaves as the store inside. -/
structure Metered (S : Type) where
  store : S
  fuel : Option Nat := none
deriving DecidableEq

inductive Metered.Error (ε : Type) where
  | outOfFuel
  | store (e : ε)
deriving DecidableEq, Repr

namespace Metered

variable [Backend σ ε S]

def forward (r : Request σ) (s : S) (fuel : Option Nat) :
    Except (Error ε) r.Answer × Metered S :=
  match Backend.perform r s with
  | (.ok a, s) => (.ok a, ⟨s, fuel⟩)
  | (.error e, s) => (.error (.store e), ⟨s, fuel⟩)

/-- A call is paid for before it reaches the store inside. -/
instance : Backend σ (Error ε) (Metered S) where
  perform r m :=
    match m.fuel with
    | none => forward r m.store none
    | some 0 => (.error .outOfFuel, m)
    | some (n + 1) => forward r m.store (some n)
  events r m := if m.fuel = some 0 then [] else Backend.events r m.store

end Metered

end Unification
