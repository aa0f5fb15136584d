import Unification.Proofs.Unify.Correctness
import Unification.Proofs.Unify.Simulated

namespace Unification

variable {σ : Type} [DecidableEq σ] {eager : Bool} {n fuel : ℕ}

theorem agree_unifyBelow (path path' : List Var) (t u t' u' : Term σ) (s s' : Store σ)
    (h : Facing s s' path path') (ht : s.rooted t = s.rooted t') (hu : s.rooted u = s.rooted u') :
    Agree (Reflected path path' s) ((unifyBelow ⟨.plain, eager⟩ fuel n path t u).run s)
      ((unifyBelow ⟨.plain, eager⟩ fuel n path' u' t').run s') :=
  agree_unifyBelow_of_sheltered path path' t u t' u' s s' h ht hu (.inl rfl)

/-- The order of the terms decides neither if the plain unifiers succeed nor how they fail, over
whatever store. -/
theorem unify_plain_symmetric (eager : Bool) (s : Store σ) (a b : Term σ) :
    (∃ s₁ s₂, (Operation.unify ⟨.plain, eager⟩ a b).run s = (.ok .nothing, s₁) ∧
      (Operation.unify ⟨.plain, eager⟩ b a).run s = (.ok .nothing, s₂)) ∨
    ∃ c s₁ c' s₂, (Operation.unify ⟨.plain, eager⟩ a b).run s = (.error (.clash c), s₁) ∧
      (Operation.unify ⟨.plain, eager⟩ b a).run s = (.error (.clash c'), s₂) ∧
      c.kind = c'.kind := by
  have hfuel : (Operation.unify ⟨.plain, eager⟩ b a).fuel s.weight =
      (Operation.unify ⟨.plain, eager⟩ a b).fuel s.weight := by
    simp only [Operation.fuel, Operation.weight, Nat.add_comm b.size]
  have hagree : Agree (fun _ _ _ _ ↦ True) ((Operation.unify ⟨.plain, eager⟩ a b).run s)
      ((Operation.unify ⟨.plain, eager⟩ b a).run s) := by
    rw [Operation.run, Operation.run, hfuel]
    refine Agree.bind (agree_unifyBelow [] [] a b a b s s (.refl s) rfl rfl) fun _ _ _ _ _ ↦ ?_
    exact .ok trivial
  let k : Unifier := .silent ⟨.plain, eager⟩
  rcases k.run_ends s a b with ⟨r, s₁, hab⟩ | ⟨e, s₁, hab⟩ <;>
    rcases k.run_ends s b a with ⟨r', s₂, hba⟩ | ⟨e', s₂, hba⟩ <;>
    simp only [k, Unifier.operation] at hab hba <;> rw [hab, hba] at hagree
  · exact .inl ⟨s₁, s₂, hab, hba⟩
  · cases hagree
  · cases hagree
  · obtain ⟨c, rfl⟩ := k.run_clash hab
    obtain ⟨c', rfl⟩ := k.run_clash hba
    cases hagree with
    | error hkind => exact .inr ⟨c, s₁, c', s₂, hab, hba, Option.some.inj hkind⟩

end Unification
