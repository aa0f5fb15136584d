import Mathlib.Data.List.Forall2
import Unification.Proofs.Roots

namespace Unification

variable {σ ε α β γ δ : Type}

inductive Clash.Kind where
  | occursIn
  | mismatch
deriving DecidableEq, Repr

def Clash.kind : Clash σ → Clash.Kind
  | .occursIn _ _ => .occursIn
  | .mismatch _ _ => .mismatch

def Failure.kind : Failure σ ε → Option Clash.Kind
  | .clash c => some c.kind
  | .store _ => none

def Contract.telling (Q : Prop) : Contract σ :=
  .blaming fun e _ ↦ e.kind = some .occursIn ∧ Q

/-- Two runs that end alike: both with answers that are related, or both with a failure of one kind.
Nothing is asked of them if one ran out of fuel. -/
inductive Agree (post : α → Store σ → β → Store σ → Prop) :
    Outcome σ Refusal α × Store σ → Outcome σ Refusal β × Store σ → Prop
  | ok {a : α} {b : β} {s s' : Store σ} : post a s b s' → Agree post (.ok a, s) (.ok b, s')
  | error {e e' : Failure σ Refusal} {s s' : Store σ} : e.kind = e'.kind →
      Agree post (.error e, s) (.error e', s')
  | unfinishedLeft {s : Store σ} (y : Outcome σ Refusal β × Store σ) : Agree post (.unfinished, s) y
  | unfinishedRight (x : Outcome σ Refusal α × Store σ) {s' : Store σ} :
      Agree post x (.unfinished, s')

namespace Agree

open Script

variable {post : α → Store σ → β → Store σ → Prop} {s s' : Store σ}
  {x : Outcome σ Refusal α × Store σ} {y : Outcome σ Refusal β × Store σ}

theorem mono {post' : α → Store σ → β → Store σ → Prop} (h : Agree post x y)
    (hp : ∀ a s b s', post a s b s' → post' a s b s') : Agree post' x y := by
  cases h with
  | ok h => exact .ok (hp _ _ _ _ h)
  | error h => exact .error h
  | unfinishedLeft y => exact .unfinishedLeft y
  | unfinishedRight x => exact .unfinishedRight x

theorem and_left {P : Store σ → Prop} (h : Agree post x y) (hP : P x.2) :
    Agree (fun a s b s' ↦ post a s b s' ∧ P s) x y := by
  cases h with
  | ok h => exact .ok ⟨h, hP⟩
  | error h => exact .error h
  | unfinishedLeft y => exact .unfinishedLeft y
  | unfinishedRight x => exact .unfinishedRight x

theorem trans {post' : β → Store σ → γ → Store σ → Prop} {z : Outcome σ Refusal γ × Store σ}
    (h : Agree post x y) (h' : Agree post' y z) (hy : y.1 ≠ .unfinished) :
    Agree (fun _ _ _ _ ↦ True) x z := by
  cases h with
  | ok _ =>
    cases h' with
    | ok _ => exact .ok trivial
    | unfinishedRight _ => exact .unfinishedRight _
  | error hkind =>
    cases h' with
    | error hkind' => exact .error (hkind.trans hkind')
    | unfinishedRight _ => exact .unfinishedRight _
  | unfinishedLeft y => exact .unfinishedLeft z
  | unfinishedRight x => exact absurd rfl hy

theorem bind {post' : γ → Store σ → δ → Store σ → Prop} {m : Script σ Refusal α} {m' : Script σ Refusal β}
    {f : α → Script σ Refusal γ} {f' : β → Script σ Refusal δ} (h : Agree post (m.run s) (m'.run s'))
    (hf : ∀ a s b s', post a s b s' → Agree post' ((f a).run s) ((f' b).run s')) :
    Agree post' ((m >>= f).run s) ((m' >>= f').run s') := by
  rw [run_bind, run_bind]
  generalize m.run s = x at h
  generalize m'.run s' = y at h
  cases h with
  | ok h => exact hf _ _ _ _ h
  | error h => exact .error h
  | unfinishedLeft y => exact .unfinishedLeft _
  | unfinishedRight x => exact .unfinishedRight _

theorem of_meets {Q Q' : Prop} {p : α → Store σ → Prop} {p' : β → Store σ → Prop}
    {m : Script σ Refusal α} {m' : Script σ Refusal β} (h : m.Meets (.telling Q) p s)
    (h' : m'.Meets (.telling Q') p' s') (hok : ∀ a s b s', p a s → p' b s' → post a s b s')
    (hleft : ∀ a s, p a s → ¬ Q') (hright : ∀ b s', p' b s' → ¬ Q) :
    Agree post (m.run s) (m'.run s') := by
  have hends := h.run.2
  have hends' := h'.run.2
  generalize m.run s = x at hends ⊢
  generalize m'.run s' = y at hends' ⊢
  match x, y with
  | (.unfinished, s), y => exact .unfinishedLeft y
  | x, (.unfinished, s') => exact .unfinishedRight x
  | (.ok a, s), (.ok b, s') => exact .ok (hok a s b s' hends hends')
  | (.error e, s), (.error e', s') => exact .error (hends.1.trans hends'.1.symm)
  | (.ok a, s), (.error e', s') => exact absurd hends'.2 (hleft a s hends)
  | (.error e, s), (.ok b, s') => exact absurd hends.2 (hright b s' hends')

theorem mapEach {I : Store σ → Store σ → Prop} {J : Store σ → Store σ → Prop}
    {P : α → β → Prop} {Q : Store σ → γ → δ → Prop} {f : α → Script σ Refusal γ} {f' : β → Script σ Refusal δ}
    {l : List α} {l' : List β} (hl : List.Forall₂ P l l')
    (hf : ∀ a b s s', P a b → I s s' →
      Agree (fun c s₁ d s₁' ↦ I s₁ s₁' ∧ J s s₁ ∧ Q s₁ c d) ((f a).run s) ((f' b).run s'))
    (hrefl : ∀ s, J s s) (htrans : ∀ s₁ s₂ s₃, J s₁ s₂ → J s₂ s₃ → J s₁ s₃)
    (hQ : ∀ s₁ s₂ c d, J s₁ s₂ → Q s₁ c d → Q s₂ c d) (hs : I s s') :
    Agree (fun cs s₁ ds s₁' ↦ I s₁ s₁' ∧ J s s₁ ∧ List.Forall₂ (Q s₁) cs ds)
      ((Script.mapEach f l).run s) ((Script.mapEach f' l').run s') := by
  induction hl generalizing s s' with
  | nil => exact .ok ⟨hs, hrefl s, .nil⟩
  | @cons a b l l' hab _ ih =>
    refine bind (hf a b s s' hab hs) fun c s₁ d s₁' ⟨h₁, hstep, hcd⟩ ↦ ?_
    refine bind (ih h₁) fun cs s₂ ds s₂' ⟨h₂, hstep', hrest⟩ ↦ ?_
    exact .ok ⟨h₂, htrans _ _ _ hstep hstep', .cons (hQ _ _ _ _ hstep' hcd) hrest⟩

end Agree

end Unification
