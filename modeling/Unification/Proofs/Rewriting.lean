import Unification.Proofs.Unfolding

namespace Unification.Store

open Relation

variable {σ : Type} {s s' : Store σ} {θ : Var → Term σ} {t u : Term σ} {v w : Var}

/-- What `v` may be bound to so that chains still have an end: a structure, or another variable at
which a chain ends. -/
def Target (s : Store σ) (v : Var) (t : Term σ) : Prop :=
  ∀ w, t = .var w → w ≠ v ∧ ∀ x, ¬ s.Links w x

theorem target_node (s : Store σ) (v : Var) (f : σ) (args : List (Term σ)) :
    s.Target v (.node f args) := nofun

theorem Chained.bind (hs : s.Chained) (ht : s.Target v t) : (s.bind v t).Chained := by
  obtain ⟨μ, hμ, -⟩ := hs.exists_height
  cases t with
  | node f args =>
    refine not_transGen_of_height μ fun x y h ↦ ?_
    unfold Links at h
    rw [binding_bind] at h
    split at h
    · cases h
    · exact hμ x y h
  | var w =>
    obtain ⟨hne, hend⟩ := ht w rfl
    refine not_transGen_of_height (fun x ↦ if x = w then 0 else μ x + 1) fun x y h ↦ ?_
    unfold Links at h
    rw [binding_bind] at h
    split at h
    · rename_i hx
      obtain rfl : w = y := by simpa using h
      have hxw : x ≠ w := fun he ↦ hne (he.symm.trans hx)
      simp [hxw]
    · have hxw : x ≠ w := by
        rintro rfl
        exact hend y h
      have hlt := hμ x y h
      simp only [hxw, if_false]
      split <;> omega

/-- A write keeps all equations if it only decides on a variable that was free, or binds a variable
to a term that denotes the same tree. -/
theorem Alike.bind (hs : s.Chained) (ht : s.Target v t)
    (hv : s.binding v = none ∨ s.Alike (.var v) t) {x y : Term σ} (h : s.Alike x y) :
    (s.bind v t).Alike x y := by
  have hs' := hs.bind ht
  have key : ∀ x, (∀ y, s.chainEnd x = .var y →
        (s.bind v t).chainEnd x = (s.bind v t).chainEnd (.var y)) ∧
      ∀ f ts, s.chainEnd x = .node f ts →
        ∃ us, (s.bind v t).chainEnd x = .node f us ∧ List.Forall₂ s.Alike ts us := by
    intro x
    induction x using hs'.induct with
    | node f args =>
      simp only [chainEnd_node, reduceCtorEq, false_implies, implies_true, true_and]
      rintro g ts ⟨⟩
      exact ⟨args, rfl, List.forall₂_same.mpr fun x _ ↦ .refl s x⟩
    | free x hx =>
      rw [binding_bind] at hx
      split at hx
      · cases hx
      · rw [chainEnd_of_free hx]
        exact ⟨fun y hy ↦ by rw [hy], nofun⟩
    | bound x u hx ih =>
      rw [chainEnd_of_binding hs' hx]
      rw [binding_bind] at hx
      split at hx
      · subst x
        obtain rfl : t = u := by simpa using hx
        -- The chain of `v` is the one that changes: it ends where the chain of `t` ends.
        have hend : (s.bind v t).chainEnd (.var v) = (s.bind v t).chainEnd t :=
          chainEnd_of_binding hs' (by rw [binding_bind, if_pos rfl])
        rcases hv with hv | hv
        · rw [chainEnd_of_free hv]
          refine ⟨fun y hy ↦ ?_, nofun⟩
          rw [← hy, hend]
        · refine ⟨fun y hy ↦ ih.1 y (hv.chainEnd_eq_var hy), fun f ts hf ↦ ?_⟩
          obtain ⟨us, hu, hus⟩ := hv.chainEnd_eq_node hf
          obtain ⟨us', hu', hus'⟩ := ih.2 f us hu
          refine ⟨us', hu', forall₂_alike_iff.mpr fun n ↦ ?_⟩
          exact (forall₂_alike_iff.mp hus n).trans (forall₂_alike_iff.mp hus' n)
      · rw [chainEnd_of_binding hs hx]
        exact ih
  exact h.transfer (fun x ↦ (key x).1) (fun x ↦ (key x).2)

theorem alike_bind_self (hs : s.Chained) (ht : s.Target v t) : (s.bind v t).Alike (.var v) t :=
  alike_of_binding (hs.bind ht) (by rw [binding_bind, if_pos rfl])

theorem SolvedBy.bind (h : s.SolvedBy θ) (he : θ v = t.subst θ) : (s.bind v t).SolvedBy θ := by
  intro x u hx
  rw [binding_bind] at hx
  split at hx
  · subst x
    obtain rfl : t = u := by simpa using hx
    exact he
  · exact h x u hx

theorem SolvedBy.subst_eq_of_alike (h : s.SolvedBy θ) (hs : s.Chained) (ha : s.Alike t u) :
    t.subst θ = u.subst θ := by
  rw [← h.subst_resolved t, resolved_eq_of_alike (h.acyclic hs) ha, h.subst_resolved u]

theorem Acyclic.bind_of_alike (hs : s.Acyclic) (ht : s.Target v t) (hv : s.Alike (.var v) t) :
    (s.bind v t).Acyclic := by
  have hθ := hs.solvedBy .var
  have he := hθ.subst_eq_of_alike hs.chained hv
  exact (hθ.bind he).acyclic (hs.chained.bind ht)

theorem subst_extend_of_not_reaches (u : Term σ) (hr : ¬ s.Reaches t v) :
    t.subst (s.extend fun x ↦ if x = v then u else .var x) = s.resolved t := by
  rw [subst_extend]
  refine (Term.subst_congr fun x hx ↦ ?_).trans (Term.subst_self _)
  rw [if_neg]
  rintro rfl
  exact hr (reaches_of_mem_expand hx)

theorem Acyclic.bind_of_not_reaches (hs : s.Acyclic) (ht : s.Target v t)
    (hv : s.binding v = none) (hr : ¬ s.Reaches t v) : (s.bind v t).Acyclic := by
  have hθ := hs.solvedBy fun x ↦ if x = v then s.resolved t else .var x
  refine (hθ.bind ?_).acyclic (hs.chained.bind ht)
  rw [subst_extend_of_not_reaches _ hr, extend_of_free _ hv, if_pos rfl]

/-- A free variable that stands for less than another one in every solution is inside of it. -/
theorem Acyclic.reaches_of_size_lt (hs : s.Acyclic) (hv : s.binding v = none)
    (h : ∀ θ, s.SolvedBy θ → (θ v).size < (θ w).size) : s.Reaches (.var w) v := by
  by_contra hr
  have hlt := h _ (hs.solvedBy fun x ↦ if x = v then s.resolved (.var w) else .var x)
  have hw := subst_extend_of_not_reaches (s.resolved (.var w)) hr
  rw [Term.subst_var] at hw
  rw [hw, extend_of_free _ hv, if_pos rfl] at hlt
  exact lt_irrefl _ hlt

theorem Chained.promote (hs : s.Chained) : (s.promote v).Chained :=
  hs.of_binding_eq (s.binding_promote v)

theorem Acyclic.promote (hs : s.Acyclic) : (s.promote v).Acyclic := by
  have hp : (s.promote v).PointsTo = s.PointsTo := by
    funext x y
    simp only [PointsTo, binding_promote]
  rwa [Acyclic, hp]

theorem SolvedBy.promote (h : s.SolvedBy θ) : (s.promote v).SolvedBy θ := by
  intro x u hx
  rw [binding_promote] at hx
  exact h x u hx

theorem chainEnd_promote (hs : s.Chained) (x : Term σ) :
    (s.promote v).chainEnd x = s.chainEnd x := by
  induction x using hs.induct with
  | node f args => rw [chainEnd_node, chainEnd_node]
  | free x hx => rw [chainEnd_of_free hx, chainEnd_of_free (by rwa [binding_promote])]
  | bound x u hx ih =>
    rw [chainEnd_of_binding hs hx, ← ih]
    exact chainEnd_of_binding hs.promote (by rwa [binding_promote])

theorem Alike.promote (hs : s.Chained) (h : s.Alike t u) : (s.promote v).Alike t u := by
  have hu : ∀ n x, (s.promote v).unfold n x = s.unfold n x := by
    intro n
    induction n with
    | zero => exact fun x ↦ rfl
    | succ n ih =>
      intro x
      rw [unfold, unfold, chainEnd_promote hs, funext ih]
  intro n
  rw [hu, hu, h n]

end Unification.Store
