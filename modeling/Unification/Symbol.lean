namespace Unification

inductive Symbol where
  | int (n : Int)
  | pair
  | fn (name : String)
deriving DecidableEq, Repr, Inhabited

def Symbol.IsLiteral (n : Int) : Prop := -0x8000000000000000 ≤ n ∧ n < 0x8000000000000000

instance (n : Int) : Decidable (Symbol.IsLiteral n) :=
  inferInstanceAs (Decidable (_ ∧ _))

end Unification
