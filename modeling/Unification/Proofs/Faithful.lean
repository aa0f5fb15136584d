import Unification.Proofs.Contract
import Unification.Proofs.Rewriting

namespace Unification.Contract

open Store

variable {σ : Type} {s s' : Store σ} {t u : Term σ} {v : Var}
  {eager : Bool} {Θ : (Var → Term σ) → Prop} {θ : Var → Term σ}

/-- The runs that only decide on free variables, as the substitutions in `Θ` do, and bind other
variables to terms that denote the same tree. A variable that is decided on eagerly does not occur
in what it is bound to. Such a run fails only if `Θ` is empty. -/
def faithful (eager : Bool) (Θ : (Var → Term σ) → Prop) : Contract σ where
  bind s v t := s.Target v t ∧
    (s.binding v = none ∧ (eager → ¬ s.Reaches t v) ∧ (∀ θ, Θ θ → θ v = t.subst θ) ∨
      s.binding v ≠ none ∧ s.Alike (.var v) t)
  promote _ _ := True
  fresh _ := False
  failed _ _ := ∀ θ, ¬ Θ θ
  unfinished := True

theorem faithful_decide (ht : s.Target v t) (hv : s.binding v = none)
    (hr : eager → ¬ s.Reaches t v) (hθ : ∀ θ, Θ θ → θ v = t.subst θ) :
    (faithful eager Θ).bind s v t := ⟨ht, .inl ⟨hv, hr, hθ⟩⟩

theorem faithful_restate (ht : s.Target v t) (hv : s.binding v ≠ none)
    (ha : s.Alike (.var v) t) : (faithful eager Θ).bind s v t := ⟨ht, .inr ⟨hv, ha⟩⟩

theorem faithful_bind_alike (h : (faithful eager Θ).bind s v t) :
    s.binding v = none ∨ s.Alike (.var v) t := by
  rcases h.2 with ⟨hv, -⟩ | ⟨-, ha⟩
  · exact .inl hv
  · exact .inr ha

theorem Leads.chained (h : (faithful eager Θ).Leads s s') (hs : s.Chained) : s'.Chained := by
  refine h.invariant hs fun r s hs hr ↦ ?_
  cases r with
  | lookup w => exact hs
  | rank w => exact hs
  | fresh => exact hr.elim
  | bind w t => exact hs.bind hr.1
  | promote w => exact hs.promote

theorem Leads.alike (h : (faithful eager Θ).Leads s s') (hs : s.Chained) (ha : s.Alike t u) :
    s'.Alike t u := by
  induction h with
  | refl => exact ha
  | call r hl hr ih =>
    have hs' := hl.chained hs
    cases r with
    | lookup w => exact ih
    | rank w => exact ih
    | fresh => exact hr.elim
    | bind w x => exact ih.bind hs' hr.1 (faithful_bind_alike hr)
    | promote w => exact ih.promote hs'

theorem Leads.solvedBy (h : (faithful eager Θ).Leads s s') (hs : s.Chained) (hθ : Θ θ)
    (hsol : s.SolvedBy θ) : s'.SolvedBy θ := by
  induction h with
  | refl => exact hsol
  | call r hl hr ih =>
    have hs' := hl.chained hs
    cases r with
    | lookup w => exact ih
    | rank w => exact ih
    | fresh => exact hr.elim
    | bind w x =>
      refine ih.bind ?_
      rcases hr.2 with ⟨-, -, hx⟩ | ⟨-, ha⟩
      · exact hx θ hθ
      · exact ih.subst_eq_of_alike hs' ha
    | promote w => exact ih.promote

theorem Leads.solved_before (h : (faithful eager Θ).Leads s s') (hs : s.Chained)
    (hsol : s'.SolvedBy θ) : s.SolvedBy θ := by
  intro v t ht
  have halike := h.alike hs (Store.alike_of_binding hs ht)
  exact hsol.subst_eq_of_alike (h.chained hs) halike

theorem Leads.acyclic (h : (faithful true Θ).Leads s s') (hs : s.Acyclic) : s'.Acyclic := by
  refine h.invariant hs fun r s hs hr ↦ ?_
  cases r with
  | lookup w => exact hs
  | rank w => exact hs
  | fresh => exact hr.elim
  | bind w t =>
    rcases hr.2 with ⟨hv, hocc, -⟩ | ⟨-, ha⟩
    · exact hs.bind_of_not_reaches hr.1 hv (hocc rfl)
    · exact hs.bind_of_alike hr.1 ha
  | promote w => exact hs.promote

end Unification.Contract
