namespace Unification

inductive Strategy where
  | plain
  | ranked
deriving DecidableEq, Repr

/-- An eager unifier looks for a cycle before it binds a free variable; a lazy one leaves the cycle
to be found by whoever walks into it. -/
structure Mode where
  strategy : Strategy := .plain
  eager : Bool := false
deriving DecidableEq, Repr

end Unification
