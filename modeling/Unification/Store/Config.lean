namespace Unification

/-- What a store is created with. Without a limit it hands out as many variables as its
counter can count. -/
structure Config where
  variableLimit : Option Nat := none
deriving DecidableEq, Ord, Repr, Inhabited

inductive Refusal where
  | exhausted (limit : Nat)
  | noTransaction
deriving DecidableEq, Ord, Repr

end Unification
