import Unification.Proofs.Contract

namespace Unification

open Script Contract

variable {σ α β : Type} {s s' : Store σ} {K : Contract σ} {A : Store σ → Prop} {t : Term σ}
  {v : Var}

namespace Contract

def passing (A : Store σ → Prop) : Contract σ where
  bind s v t := A (s.bind v t)
  promote s v := A (s.promote v)
  fresh s := A s.fresh.2
  failed _ _ := True
  unfinished := True

theorem Leads.passing (h : (Contract.passing A).Leads s s') (hs : A s) : A s' := by
  refine h.invariant hs fun r s hs hr ↦ ?_
  cases r with
  | lookup v => exact hs
  | rank v => exact hs
  | fresh => exact hr
  | bind v t => exact hr
  | promote v => exact hr

end Contract

namespace Script

variable {post post' : α → Store σ → Prop} {m : Script σ Refusal α}

theorem Meets.conj {K' : Contract σ} (h : m.Meets K post s) (h' : m.Meets K' post' s) :
    m.Meets K (fun a s' ↦ post a s' ∧ K'.Leads s s' ∧ post' a s') s := by
  induction m generalizing s with
  | pure a => exact ⟨h, .refl, h'⟩
  | fail e => exact h
  | unfinished => exact h
  | note e next ih => exact ih h h'
  | call r next ih =>
    obtain ⟨hr, hnext⟩ := meets_call.mp h
    obtain ⟨hr', hnext'⟩ := meets_call.mp h'
    refine meets_call.mpr ⟨hr, (ih _ hnext hnext').mono fun b s₂ _ hb ↦ ?_⟩
    exact ⟨hb.1, (Leads.one r hr').trans hb.2.1, hb.2.2⟩

/-- If a run that meets a contract ends in `A`, and `A` could not have been entered on the way, the
run has been in `A` all along. -/
theorem Meets.passes (h : m.Meets K post s)
    (hback : ∀ s₁ s₂, K.Leads s s₁ → K.Leads s₁ s₂ → A s₂ → A s₁) (hA : A (m.run s).2) :
    m.Meets (passing A) (fun _ _ ↦ True) s := by
  induction m generalizing s with
  | pure a => exact trivial
  | fail e => exact trivial
  | unfinished => exact trivial
  | note e next ih => exact ih h hback hA
  | call r next ih =>
    obtain ⟨hr, hnext⟩ := meets_call.mp h
    have hlead := Leads.one r hr
    have hpermits : A (Store.perform r s).2 → (passing A).Permits s r := by
      intro h
      cases r with
      | lookup v | rank v => exact trivial
      | fresh | bind v t | promote v => exact h
    refine meets_call.mpr ⟨hpermits (hback _ _ hlead hnext.run.1 hA), ?_⟩
    exact ih _ hnext (fun s₂ s₃ h₂ ↦ hback s₂ s₃ (hlead.trans h₂)) hA

def MeetsAmong (A : Store σ → Prop) (K : Contract σ) (post : α → Store σ → Prop) (m : Script σ Refusal α)
    (s : Store σ) : Prop :=
  m.Meets (passing A) (fun _ _ ↦ True) s → m.Meets K post s

theorem Meets.among (h : m.Meets K post s) : m.MeetsAmong A K post s := fun _ ↦ h

theorem MeetsAmong.mono (h : m.MeetsAmong A K post s)
    (hp : ∀ a s', K.Leads s s' → post a s' → post' a s') : m.MeetsAmong A K post' s :=
  fun hA ↦ (h hA).mono hp

theorem MeetsAmong.bind {post' : β → Store σ → Prop} {f : α → Script σ Refusal β}
    (h : m.MeetsAmong A K post s) (hs : A s)
    (hf : ∀ a s', A s' → K.Leads s s' → post a s' → (f a).MeetsAmong A K post' s') :
    (m >>= f).MeetsAmong A K post' s := by
  intro hA
  rw [meets_bind] at hA ⊢
  have hm := h (hA.mono fun _ _ _ _ ↦ trivial)
  exact (hm.conj hA).mono fun a s' hlead ⟨ha, hpass, hrest⟩ ↦
    hf a s' (hpass.passing hs) hlead ha hrest

theorem MeetsAmong.log {m : Script σ Refusal α} (h : m.MeetsAmong A K post s) (e : Event σ) :
    (Script.log e >>= fun _ ↦ m).MeetsAmong A K post s := h

theorem meetsAmong_assign {post : Unit → Store σ → Prop}
    (h : A (s.bind v t) → K.bind s v t ∧ post () (s.bind v t)) :
    (assign v t).MeetsAmong A K post s :=
  fun hA ↦ meets_assign.mpr (h (meets_assign.mp hA).1)

theorem meetsAmong_promote {post : Unit → Store σ → Prop}
    (h : A (s.promote v) → K.promote s v ∧ post () (s.promote v)) :
    (promote v).MeetsAmong A K post s :=
  fun hA ↦ meets_promote.mpr (h (meets_promote.mp hA).1)

theorem meetsAmong_mapEach {I : Store σ → Prop} {f : α → Script σ Refusal β} {l : List α} (hs : A s)
    (hI : I s) (hf : ∀ a ∈ l, ∀ s, A s → I s → (f a).MeetsAmong A K (fun _ s' ↦ I s') s) :
    (mapEach f l).MeetsAmong A K (fun _ s' ↦ I s') s := by
  induction l generalizing s with
  | nil => exact Meets.among hI
  | cons a l ih =>
    refine (hf a List.mem_cons_self s hs hI).bind hs fun b s₁ hs₁ _ h₁ ↦ ?_
    refine (ih hs₁ h₁ fun c hc ↦ hf c (List.mem_cons_of_mem a hc)).bind hs₁ fun bs s₂ _ _ h₂ ↦ ?_
    exact Meets.among h₂

end Script

end Unification
