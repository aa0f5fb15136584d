import Mathlib.Data.Set.Function
import Unification.Proofs.Unify.Symmetric

namespace Unification

variable {σ : Type} {s s' s₁ s₂ : Store σ} {a b : Term σ} {x y : Value σ} {v : Var}

namespace Store

/-- `ρ` renames the free variables of `s` one by one, and then all terms resolve as in `s'`. -/
structure Renames (ρ : Var → Var) (s s' : Store σ) : Prop where
  bijOn : Set.BijOn ρ {v | s.binding v = none} {v | s'.binding v = none}
  resolved (t : Term σ) : s'.resolved t = (s.resolved t).subst fun v ↦ .var (ρ v)

theorem SolvedBy.exists_partner (hs' : s'.Acyclic) (h : s'.SolvedBy fun v ↦ s.resolved (.var v))
    (hv : s.binding v = none) :
    ∃ w, s'.resolved (.var v) = .var w ∧ s'.binding w = none ∧ s.resolved (.var w) = .var v := by
  have hback := h.subst_resolved (.var v)
  rw [Term.subst_var, resolved_of_free hv] at hback
  cases hr : s'.resolved (.var v) with
  | node f args =>
    rw [hr, Term.subst_node] at hback
    cases hback
  | var w =>
    rw [hr, Term.subst_var] at hback
    refine ⟨w, rfl, free_of_mem_resolved (t := .var v) hs' ?_, hback⟩
    simp [hr]

theorem SolvedBy.exists_renames (hs : s.Acyclic) (hs' : s'.Acyclic)
    (h : s.SolvedBy fun v ↦ s'.resolved (.var v)) (h' : s'.SolvedBy fun v ↦ s.resolved (.var v)) :
    ∃ ρ, s.Renames ρ s' := by
  have hpartner := fun v (hv : s.binding v = none) ↦ h'.exists_partner hs' hv
  choose! ρ hρ hfree hback using hpartner
  refine ⟨ρ, ⟨hfree, ?_, ?_⟩, fun t ↦ ?_⟩
  · intro v hv w hw heq
    have hvw : (.var v : Term σ) = .var w := by rw [← hback v hv, ← hback w hw, heq]
    exact Term.var.inj hvw
  · intro w hw
    obtain ⟨v, -, hv, hwv⟩ := h.exists_partner hs hw
    have hvw : (.var (ρ v) : Term σ) = .var w := by rw [← hρ v hv, hwv]
    exact ⟨v, hv, Term.var.inj hvw⟩
  · calc s'.resolved t
        = t.subst fun v ↦ s'.resolved (.var v) := resolved_eq_subst s' t
      _ = (s.resolved t).subst fun v ↦ s'.resolved (.var v) := (h.subst_resolved t).symm
      _ = (s.resolved t).subst fun v ↦ .var (ρ v) :=
        Term.subst_congr fun v hv ↦ hρ v (free_of_mem_resolved hs hv)

end Store

variable [DecidableEq σ]

namespace Unifier

theorem solvedBy_of_runs (k k' : Unifier) (hs : s.Chained)
    (hrun : (k.operation a b).run s = (.ok x, s₁))
    (hrun' : (k'.operation a b).run s = (.ok y, s₂)) (hs₁ : s₁.Acyclic) :
    s₂.SolvedBy fun v ↦ s₁.resolved (.var v) := by
  obtain ⟨hlead, r, -, hra, hrb⟩ := k.alike_of_run hs hrun
  have hsol : s.SolvedBy fun v ↦ s₁.resolved (.var v) :=
    hlead.solved_before hs hs₁.solvedBy_resolved
  have hunifies : s₁.resolved a = s₁.resolved b :=
    Store.resolved_eq_of_alike hs₁ (hra.symm.trans hrb)
  rw [Store.resolved_eq_subst, Store.resolved_eq_subst s₁ b] at hunifies
  have hlead' := (k'.run_faithful (Θ := (· = fun v ↦ s₁.resolved (.var v))) hs
    (fun _ hθ ↦ hθ ▸ hsol) (fun _ hθ ↦ hθ ▸ hunifies)).1
  rw [hrun'] at hlead'
  exact hlead'.solvedBy hs rfl hsol

theorem exists_renames (k k' : Unifier) (hs : s.Chained)
    (hrun : (k.operation a b).run s = (.ok x, s₁))
    (hrun' : (k'.operation a b).run s = (.ok y, s₂)) (hs₁ : s₁.Acyclic) (hs₂ : s₂.Acyclic) :
    ∃ ρ, s₁.Renames ρ s₂ := by
  have h := k'.solvedBy_of_runs k hs hrun' hrun hs₂
  have h' := k.solvedBy_of_runs k' hs hrun hrun' hs₁
  exact h.exists_renames hs₁ hs₂ h'

end Unifier

theorem agree_unify_flipped (mode : Mode) (a b : Term σ)
    (h : mode.strategy = .plain ∨ mode.eager = true ∧ s.Acyclic) :
    Agree (fun _ _ _ _ ↦ True) ((Operation.unify mode a b).run s)
      ((Operation.unify ⟨.plain, mode.eager⟩ b a).run s) := by
  have hshelter : Sheltered mode s (Enclosed · [] a b) :=
    h.imp_right fun ⟨heager, hs⟩ ↦ ⟨heager, hs, fun _ _ ↦ nofun⟩
  have hfuel : (Operation.unify ⟨.plain, mode.eager⟩ b a).fuel s.weight =
      (Operation.unify mode a b).fuel s.weight := by
    simp only [Operation.fuel, Operation.weight, Nat.add_comm b.size]
  rw [Operation.run, Operation.run, hfuel]
  refine Agree.bind
    (agree_unifyBelow_of_sheltered [] [] a b a b s s (.refl s) rfl rfl hshelter) fun _ _ _ _ _ ↦ ?_
  exact .ok trivial

theorem agree_unify_ranked (hs : s.Acyclic) (a b : Term σ) :
    Agree (fun _ _ _ _ ↦ True) ((Operation.unify ⟨.ranked, true⟩ a b).run s)
      ((Operation.unify ⟨.plain, true⟩ a b).run s) := by
  have hranked := agree_unify_flipped ⟨.ranked, true⟩ a b (.inr ⟨rfl, hs⟩)
  have hplain := agree_unify_flipped (s := s) ⟨.plain, true⟩ b a (.inl rfl)
  refine hranked.trans hplain fun hunfinished ↦ ?_
  rcases (Unifier.silent ⟨.plain, true⟩).run_ends s b a with ⟨r, s', hrun⟩ | ⟨e, s', hrun⟩
  · exact absurd (hunfinished.symm.trans (congrArg Prod.fst hrun)) nofun
  · exact absurd (hunfinished.symm.trans (congrArg Prod.fst hrun)) nofun

/-- Both eager unifiers fail in the same way, or succeed and leave the same bindings up to the names
of free variables. -/
theorem unify_ranked_agrees (hs : s.Acyclic) (a b : Term σ) :
    (∃ r p, (Operation.unify ⟨.ranked, true⟩ a b).run s = (.ok .nothing, r) ∧
      (Operation.unify ⟨.plain, true⟩ a b).run s = (.ok .nothing, p) ∧
      r.Acyclic ∧ p.Acyclic ∧ ∃ ρ, p.Renames ρ r) ∨
    ∃ c r c' p, (Operation.unify ⟨.ranked, true⟩ a b).run s = (.error (.clash c), r) ∧
      (Operation.unify ⟨.plain, true⟩ a b).run s = (.error (.clash c'), p) ∧
      c.kind = c'.kind := by
  let k : Unifier := .silent ⟨.ranked, true⟩
  let k' : Unifier := .silent ⟨.plain, true⟩
  have hagree := agree_unify_ranked hs a b
  rcases k.run_ends s a b with ⟨t, r, hr⟩ | ⟨e, r, hr⟩
  · rcases k'.run_ends s a b with ⟨u, p, hp⟩ | ⟨e', p, hp⟩
    · have hra : r.Acyclic := (k.alike_of_run hs.chained hr).1.acyclic hs
      have hpa : p.Acyclic := (k'.alike_of_run hs.chained hp).1.acyclic hs
      exact .inl ⟨r, p, hr, hp, hra, hpa, k'.exists_renames k hs.chained hp hr hpa hra⟩
    · simp only [k, k', Unifier.operation] at hr hp
      rw [hr, hp] at hagree
      cases hagree
  · obtain ⟨c, rfl⟩ := k.run_clash hr
    simp only [k, Unifier.operation] at hr
    rcases k'.run_ends s a b with ⟨u, p, hp⟩ | ⟨e', p, hp⟩
    · simp only [k', Unifier.operation] at hp
      rw [hr, hp] at hagree
      cases hagree
    · obtain ⟨c', rfl⟩ := k'.run_clash hp
      simp only [k', Unifier.operation] at hp
      rw [hr, hp] at hagree
      cases hagree with
      | error hkind => exact .inr ⟨c, r, c', p, hr, hp, Option.some.inj hkind⟩

theorem unify_ranked_agrees_twin :
    ∃ r p, (Operation.unify ⟨.ranked, true⟩ (.var ⟨1⟩) (.var ⟨2⟩)).run Store.twin =
        (.ok .nothing, r) ∧
      (Operation.unify ⟨.plain, true⟩ (.var ⟨1⟩) (.var ⟨2⟩)).run Store.twin = (.ok .nothing, p) ∧
      r.resolved (.var ⟨0⟩) = .node .pair [.var ⟨1⟩, .var ⟨1⟩] ∧
      p.resolved (.var ⟨0⟩) = .node .pair [.var ⟨2⟩, .var ⟨2⟩] ∧ ∃ ρ, p.Renames ρ r := by
  have hr : (Operation.unify ⟨.ranked, true⟩ (.var ⟨1⟩) (.var ⟨2⟩)).run Store.twin =
      (.ok .nothing, _) := rfl
  have hp : (Operation.unify ⟨.plain, true⟩ (.var ⟨1⟩) (.var ⟨2⟩)).run Store.twin =
      (.ok .nothing, _) := rfl
  rcases unify_ranked_agrees Store.acyclic_twin (.var ⟨1⟩) (.var ⟨2⟩) with
    ⟨r, p, hr', hp', -, -, hρ⟩ | ⟨c, r, c', p, hfail, -, -⟩
  · rw [hr] at hr'
    rw [hp] at hp'
    cases hr'
    cases hp'
    exact ⟨_, _, hr, hp, rfl, rfl, hρ⟩
  · rw [hr] at hfail
    cases hfail

end Unification
