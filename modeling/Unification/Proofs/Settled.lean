import Unification.Proofs.Expansion
import Unification.Proofs.Unfolding

namespace Unification.Store

variable {σ : Type} {s : Store σ} {t u r : Term σ} {v : Var}

def Settled (s : Store σ) (t : Term σ) : Prop := ∀ v ∈ t.vars, s.binding v = none

theorem Settled.slot {f : σ} {args : List (Term σ)} (h : s.Settled (.node f args)) (ht : t ∈ args) :
    s.Settled t := fun v hv ↦ h v (Term.mem_vars_node.mpr ⟨t, ht, hv⟩)

theorem Settled.resolved_eq (h : s.Settled t) : s.resolved t = t := expand_of_settled h _

theorem Settled.chainEnd_eq (h : s.Settled t) : s.chainEnd t = t := by
  cases t with
  | var v => exact chainEnd_of_free (h v (Term.mem_vars_var.mpr rfl))
  | node f args => exact chainEnd_node s f args

theorem settled_resolved (hs : s.Acyclic) (t : Term σ) : s.Settled (s.resolved t) :=
  fun _ hv ↦ free_of_mem_resolved hs hv

theorem resolvesTo_resolved (hs : s.Acyclic) (t : Term σ) : s.ResolvesTo t (s.resolved t) :=
  ⟨⟨_, rfl⟩, settled_resolved hs t⟩

theorem free_of_chainEnd (hs : s.Chained) (h : s.chainEnd t = .var v) : s.binding v = none := by
  induction t using hs.induct with
  | node f args =>
    rw [chainEnd_node] at h
    cases h
  | free w hw =>
    rw [chainEnd_of_free hw] at h
    exact Term.var.inj h ▸ hw
  | bound w t hw ih =>
    rw [chainEnd_of_binding hs hw] at h
    exact ih h

theorem forall₂_of_map_eq {α β γ : Type} {f : α → γ} {g : β → γ} {l : List α} {l' : List β}
    (h : l.map f = l'.map g) : List.Forall₂ (fun a b ↦ f a = g b) l l' := by
  rw [← List.forall₂_eq_eq_eq, List.forall₂_map_left_iff, List.forall₂_map_right_iff] at h
  exact h

theorem alike_of_resolved_eq (hs : s.Acyclic) (h : s.resolved t = s.resolved u) : s.Alike t u := by
  intro n
  induction n generalizing t u with
  | zero => rfl
  | succ n ih =>
    rw [← resolved_chainEnd hs t, ← resolved_chainEnd hs u] at h
    rw [unfold, unfold]
    cases ht : s.chainEnd t with
    | var v =>
      rw [ht, resolved_of_free (free_of_chainEnd hs.chained ht)] at h
      cases hu : s.chainEnd u with
      | var w =>
        rw [hu, resolved_of_free (free_of_chainEnd hs.chained hu)] at h
        rw [Term.var.inj h]
      | node g us =>
        rw [hu, resolved_node] at h
        cases h
    | node f ts =>
      rw [ht, resolved_node] at h
      cases hu : s.chainEnd u with
      | var w =>
        rw [hu, resolved_of_free (free_of_chainEnd hs.chained hu)] at h
        cases h
      | node g us =>
        rw [hu, resolved_node] at h
        obtain ⟨rfl, hargs⟩ := Term.node.inj h
        have hslots := (forall₂_of_map_eq hargs).imp fun _ _ h ↦ ih h
        exact congrArg (Unfolding.node f) (map_eq_of_forall₂ hslots)

theorem alike_iff_resolved_eq (hs : s.Acyclic) : s.Alike t u ↔ s.resolved t = s.resolved u :=
  ⟨resolved_eq_of_alike hs, alike_of_resolved_eq hs⟩

theorem alike_resolved (hs : s.Acyclic) (t : Term σ) : s.Alike (s.resolved t) t :=
  alike_of_resolved_eq hs (settled_resolved hs t).resolved_eq

theorem subst_eq_of_alike {θ : Var → Term σ}
    (hθ : ∀ v ∈ t.vars, ∀ x, s.Settled x → s.Alike (.var v) x → θ v = x) (hu : s.Settled u)
    (h : s.Alike t u) : t.subst θ = u := by
  induction t generalizing u with
  | var v => exact hθ v (Term.mem_vars_var.mpr rfl) u hu h
  | node f args ih =>
    obtain ⟨us, hend, hslots⟩ := h.chainEnd_eq_node (chainEnd_node s f args)
    rw [hu.chainEnd_eq] at hend
    subst hend
    rw [Term.subst_node]
    congr 1
    rw [← List.forall₂_eq_eq_eq, List.forall₂_map_left_iff, List.forall₂_iff_zip]
    refine ⟨hslots.length_eq, fun {t x} htx ↦ ?_⟩
    obtain ⟨ht, hx⟩ := List.of_mem_zip htx
    refine ih t ht (fun v hv ↦ ?_) (hu.slot hx) (List.forall₂_zip hslots htx)
    exact hθ v (Term.mem_vars_node.mpr ⟨t, ht, hv⟩)

theorem Settled.eq_of_alike (ht : s.Settled t) (hu : s.Settled u) (h : s.Alike t u) : t = u := by
  rw [← t.subst_self]
  refine subst_eq_of_alike (fun v hv x hx hvx ↦ ?_) hu h
  have hend := hvx.chainEnd_eq_var (chainEnd_of_free (ht v hv))
  rw [hx.chainEnd_eq] at hend
  exact hend.symm

/-- What denotes a finite tree without bound variables can be turned into it by a substitution. -/
theorem exists_subst_of_alike (hu : s.Settled u) (h : s.Alike t u) :
    ∃ θ : Var → Term σ, t.subst θ = u := by
  have hex : ∀ v, ∃ r, ∀ x, s.Settled x → s.Alike (.var v) x → r = x := by
    intro v
    by_cases hv : ∃ r, s.Settled r ∧ s.Alike (.var v) r
    · obtain ⟨r, hr, hvr⟩ := hv
      exact ⟨r, fun x hx hvx ↦ hr.eq_of_alike hx (hvr.symm.trans hvx)⟩
    · exact ⟨.var v, fun x hx hvx ↦ absurd ⟨x, hx, hvx⟩ hv⟩
  choose θ hθ using hex
  exact ⟨θ, subst_eq_of_alike (fun v _ ↦ hθ v) hu h⟩

end Unification.Store
