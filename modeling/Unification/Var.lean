namespace Unification

structure Var where
  id : Nat
deriving DecidableEq, Ord, Repr, Inhabited

theorem Var.eq_of_id_eq {v w : Var} (h : v.id = w.id) : v = w := by
  cases v
  cases w
  exact congrArg Var.mk h

def Var.bound : Nat := 0x10000000000000000

end Unification
