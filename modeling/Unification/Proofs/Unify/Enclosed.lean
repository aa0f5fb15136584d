import Unification.Mode
import Unification.Proofs.Faithful
import Unification.Proofs.Roots

namespace Unification

open Contract

variable {σ : Type} {s s₁ : Store σ} {mode : Mode} {path : List Var} {t t' u u' : Term σ}
  {v w : Var} {l r : Layer σ (Term σ)} {θ : Var → Term σ}

theorem Store.SolvedBy.apply_root (h : s.SolvedBy θ) (v : Var) : θ (s.root v) = θ v := by
  have hchain := s.reflTransGen_root v
  generalize s.root v = w at hchain ⊢
  induction hchain with
  | refl => rfl
  | tail _ hl ih => exact (h _ _ hl).symm.trans ih

theorem Head.At.subst_eq {h : Head σ} (hh : h.At s t) (hθ : s.SolvedBy θ) :
    t.subst θ = h.toTerm.subst θ := by
  cases hh with
  | layer l => rfl
  | var x _ =>
    rw [Head.toTerm_ofVar, Term.subst_var, Term.subst_var]
    exact (hθ.apply_root x).symm

/-- Each variable on the path stands for more than one of two terms. -/
def Enclosed (θ : Var → Term σ) (path : List Var) (t u : Term σ) : Prop :=
  ∀ x ∈ path, (t.subst θ).size < (θ x).size ∨ (u.subst θ).size < (θ x).size

def Around (θ : Var → Term σ) (path : List Var) (l r : Layer σ (Term σ)) : Prop :=
  ∀ x ∈ path, (l.toTerm.subst θ).size ≤ (θ x).size ∨ (r.toTerm.subst θ).size ≤ (θ x).size

theorem Enclosed.congr (h : Enclosed θ path t u) (ht : t.subst θ = t'.subst θ)
    (hu : u.subst θ = u'.subst θ) : Enclosed θ path t' u' := by
  unfold Enclosed
  rwa [← ht, ← hu]

theorem Enclosed.not_mem (h : Enclosed θ path t u) (ht : t.subst θ = θ v) (hu : u.subst θ = θ v) :
    v ∉ path := by
  intro hv
  have hlt := h v hv
  rw [ht, hu, or_self] at hlt
  exact lt_irrefl _ hlt

theorem Enclosed.around (h : Enclosed θ path l.toTerm r.toTerm) : Around θ path l r :=
  fun x hx ↦ (h x hx).imp le_of_lt le_of_lt

theorem Around.cons_left (h : Around θ path l r) (hv : θ v = l.toTerm.subst θ) :
    Around θ (v :: path) l r :=
  List.forall_mem_cons.mpr ⟨.inl (congrArg Term.size hv).ge, h⟩

theorem Around.cons_right (h : Around θ path l r) (hv : θ v = r.toTerm.subst θ) :
    Around θ (v :: path) l r :=
  List.forall_mem_cons.mpr ⟨.inr (congrArg Term.size hv).ge, h⟩

theorem Around.slot [DecidableEq σ] {a : Layer σ (Aligned (Term σ))} {x : Aligned (Term σ)}
    (h : Around θ path l r) (ha : l.align? r = some a) (hx : x ∈ a.slots) :
    Enclosed θ path x.left x.right := by
  intro y hy
  refine (h y hy).imp (fun hl ↦ ?_) fun hr ↦ ?_
  · exact (Layer.size_subst_slot_lt ha hx θ).trans_le hl
  · exact (Layer.size_subst_right_lt ha hx θ).trans_le hr

theorem Enclosed.symm (h : Enclosed θ path t u) : Enclosed θ path u t := fun x hx ↦ (h x hx).symm

section Sheltered

variable {P Q : (Var → Term σ) → Prop}

/-- A run that links variables by the plain rule needs no shelter. Another one is sheltered by the
checks that it makes over a store without a cycle, and by what holds of every solution. -/
def Sheltered (mode : Mode) (s : Store σ) (P : (Var → Term σ) → Prop) : Prop :=
  mode.strategy = .plain ∨ mode.eager = true ∧ s.Acyclic ∧ ∀ θ, s.SolvedBy θ → P θ

theorem Sheltered.imp (h : Sheltered mode s P) (hPQ : ∀ θ, s.SolvedBy θ → P θ → Q θ) :
    Sheltered mode s Q := by
  refine h.imp_right fun ⟨heager, hs, hP⟩ ↦ ⟨heager, hs, fun θ hθ ↦ ?_⟩
  exact hPQ θ hθ (hP θ hθ)

theorem Sheltered.keep (h : Sheltered mode s P)
    (hlead : s.Chained → (faithful mode.eager fun _ ↦ False).Leads s s₁) :
    Sheltered mode s₁ P := by
  refine h.imp_right fun ⟨heager, hs, hP⟩ ↦ ?_
  have hlead := hlead hs.chained
  rw [heager] at hlead
  exact ⟨heager, hlead.acyclic hs, fun θ hθ ↦ hP θ (hlead.solved_before hs.chained hθ)⟩

theorem Sheltered.not_mem (h : Sheltered mode s (Enclosed · path (.var v) (.var w)))
    (hmode : mode.strategy ≠ .plain) (hv : s.binding v = none)
    (hr : mode.eager → ¬ s.Reaches (.var w) v) : w ∉ path := by
  obtain ⟨heager, hs, henclosed⟩ := h.resolve_left hmode
  intro hmem
  refine hr heager (hs.reaches_of_size_lt hv fun θ hθ ↦ ?_)
  exact (henclosed θ hθ w hmem).resolve_right (lt_irrefl _)

end Sheltered

end Unification
