import Unification.Proofs.Roots
import Unification.Proofs.Search
import Unification.Unify

namespace Unification

open Script Contract

variable {σ : Type} {s : Store σ} {K : Contract σ} {mode : Mode} {n fuel : ℕ}
  {path : List Var} {t u : Term σ} {v w : Var} {l r : Layer σ (Term σ)}

theorem meets_guardOccurs (hK : K.unfinished)
    (hfail : mode.eager → s.Reaches t v → K.failed (.clash (.occursIn v t)) s) :
    (guardOccurs mode fuel v t).Meets K
      (fun _ s' ↦ s' = s ∧ (mode.eager → ¬ s.Reaches t v)) s := by
  rw [guardOccurs, meets_when]
  by_cases he : mode.eager
  · rw [if_pos he, meets_bind]
    apply meets_occurs
    · exact hfail he
    · intro hr
      exact ⟨rfl, fun _ ↦ hr⟩
    · exact .inl hK
  · rw [if_neg he]
    exact ⟨rfl, fun he' ↦ absurd he' he⟩

theorem meets_when_guardOccurs {b : Bool} (hK : K.unfinished)
    (hfail : s.Reaches t v → K.failed (.clash (.occursIn v t)) s) :
    (Script.when b (guardOccurs mode fuel v t)).Meets K (fun _ s' ↦ s' = s) s := by
  rw [meets_when]
  split
  · exact (meets_guardOccurs hK fun _ ↦ hfail).mono fun _ _ _ h ↦ h.1
  · exact rfl

def stepInBoth (path : List Var) (v : Var) (l : Layer σ (Term σ)) (w : Var) (r : Layer σ (Term σ)) :
    Script σ Refusal (List Var) := do
  let path ← stepInto path (some v) l
  stepInto path (some w) r

theorem meets_stepInBoth (hne : v ≠ w)
    (hv : v ∈ path → K.failed (.clash (.occursIn v l.toTerm)) s)
    (hw : w ∈ path → K.failed (.clash (.occursIn w r.toTerm)) s) :
    (stepInBoth path v l w r).Meets K
      (fun p s₁ ↦ s₁ = s ∧ p = w :: v :: path ∧ v ∉ path ∧ w ∉ path) s := by
  rw [stepInBoth, meets_bind, meets_stepInto]
  by_cases hv' : v ∈ path
  · rw [if_pos hv']
    exact hv hv'
  rw [if_neg hv', meets_stepInto]
  by_cases hw' : w ∈ v :: path
  · rw [if_pos hw']
    exact hw (List.mem_of_ne_of_mem hne.symm hw')
  · rw [if_neg hw']
    exact ⟨rfl, rfl, hv', fun hmem ↦ hw' (List.mem_cons_of_mem _ hmem)⟩

/-- A term that starts with a chain without an end. -/
def Store.Lost (s : Store σ) (t : Term σ) : Prop := ∃ v, t = .var v ∧ s.Endless v

theorem Head.At.not_lost {h : Head σ} (hh : h.At s t) : ¬ s.Lost t := by
  rintro ⟨v, rfl, hv⟩
  exact hh.not_endless hv

def findBoth (fuel : ℕ) (t u : Term σ) : Script σ Refusal (Head σ × Head σ) := do
  let l ← find fuel t
  let r ← find fuel u
  return (l, r)

theorem meets_findBoth {failed : Failure σ Refusal → Store σ → Prop}
    (hfail : ∀ x s₁, s.Lost t ∨ s.Lost u → failed (.clash (.occursIn x (.var x))) s₁) :
    (findBoth fuel t u).Meets (.blaming failed)
      (fun h s₁ ↦ s.SameRoots s₁ ∧ h.1.At s t ∧ h.2.At s u) s := by
  refine meets_bind.mpr ((meets_find_rooted fuel t ?_).mono fun l s₁ _ ⟨h₁, hl⟩ ↦ ?_)
  · exact fun v x ht hv ↦ hfail x s (.inl ⟨v, ht, hv⟩)
  refine meets_bind.mpr ((meets_find_rooted fuel u ?_).mono fun r s₂ _ ⟨h₂, hr⟩ ↦ ?_)
  · exact fun v x hu hv ↦ hfail x s₁ (.inr ⟨v, hu, h₁.endless_iff.mp hv⟩)
  · exact ⟨h₁.trans h₂, hl, hr.back h₁⟩

variable [DecidableEq σ] {recurse : List Var → Term σ → Term σ → Script σ Refusal (Term σ)}
  {o p : Option (Layer σ (Term σ))}

theorem unifyBindings_eq :
    joinVars.unifyBindings recurse path v (some l) w (some r) =
      stepInBoth path v l w r >>= fun path ↦ some <$> unifyLayers recurse path l r := by
  rw [joinVars.unifyBindings, stepInBoth, LawfulMonad.bind_assoc]
  rfl

theorem unifyHeads_ofVar : unifyHeads mode fuel recurse path (.ofVar v o) (.ofVar w p) =
    unifyHeads.unifyVars mode fuel recurse path v o w p := by
  cases o <;> cases p <;> rfl

theorem unifyBelow_succ (path : List Var) (t u : Term σ) : unifyBelow mode fuel (n + 1) path t u =
    findBoth fuel t u >>= fun h ↦ unifyHeads mode fuel (unifyBelow mode fuel n) path h.1 h.2 := by
  rw [unifyBelow, findBoth, LawfulMonad.bind_assoc]
  simp

end Unification
