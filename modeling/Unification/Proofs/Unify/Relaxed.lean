import Unification.Proofs.Congruence
import Unification.Proofs.Unify.Faithful

namespace Unification

open Script Contract

variable {σ α β : Type}

namespace Script

variable {m m' : Script σ Refusal α}

/-- Wherever the first script succeeds, the second one has the same answer and leaves the same
store. -/
def RelaxesTo (m m' : Script σ Refusal α) : Prop :=
  ∀ (s : Store σ) (a : α) (s' : Store σ), m.run s = (.ok a, s') → m'.run s = (.ok a, s')

theorem RelaxesTo.refl (m : Script σ Refusal α) : m.RelaxesTo m := fun _ _ _ h ↦ h

theorem RelaxesTo.bind {f f' : α → Script σ Refusal β} (h : m.RelaxesTo m')
    (hf : ∀ a, (f a).RelaxesTo (f' a)) : (m >>= f).RelaxesTo (m' >>= f') := by
  intro s b s' hrun
  rw [run_bind] at hrun ⊢
  match hm : m.run s with
  | (.error e, s₁) =>
    rw [hm] at hrun
    cases hrun
  | (.unfinished, s₁) =>
    rw [hm] at hrun
    cases hrun
  | (.ok a, s₁) =>
    rw [hm] at hrun
    rw [h s a s₁ hm]
    exact hf a s₁ b s' hrun

theorem RelaxesTo.congruence : Congruence (σ := σ) fun _ ↦ RelaxesTo where
  pure a := .refl _
  abort e c := .refl _
  log e := .refl _
  call r := .refl _
  unfinished m := by
    intro s a s' hrun
    cases hrun
  bind := .bind

theorem RelaxesTo.map (f : α → β) (h : m.RelaxesTo m') : (f <$> m).RelaxesTo (f <$> m') :=
  RelaxesTo.congruence.map f h

end Script

variable {strategy : Strategy} {fuel : ℕ}

theorem guardOccurs_relaxesTo (v : Var) (t : Term σ) :
    (guardOccurs ⟨strategy, true⟩ fuel v t).RelaxesTo
      (guardOccurs ⟨strategy, false⟩ fuel v t) := by
  intro s a s' hrun
  have hmeets : (guardOccurs ⟨strategy, true⟩ fuel v t).Meets _ _ s :=
    meets_guardOccurs_faithful (Θ := fun _ ↦ False) fun _ (h : False) ↦ h.elim
  have hends := hmeets.run.2
  rw [hrun] at hends
  rw [hends.1]
  rfl

theorem unify_relaxesTo [DecidableEq σ] (t u : Term σ) :
    (unify ⟨strategy, true⟩ fuel t u).RelaxesTo (unify ⟨strategy, false⟩ fuel t u) := by
  have hlog : (log (.unifying ⟨strategy, true⟩ t u)).RelaxesTo
      (log (.unifying ⟨strategy, false⟩ t u)) := fun _ _ _ h ↦ h
  exact .bind hlog fun _ ↦ unifyBelow_congr RelaxesTo.congruence guardOccurs_relaxesTo rfl
    (fun _ ↦ .refl _) le_rfl [] t u

end Unification
