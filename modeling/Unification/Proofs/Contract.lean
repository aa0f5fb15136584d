import Mathlib.Data.List.Forall2
import Unification.Proofs.Dependency
import Unification.Script.Run

namespace Unification

variable {σ α β : Type}

/-- What is asked of a run over a store: which writes it may make, and what has to hold when it
fails or runs out of fuel. -/
structure Contract (σ : Type) where
  bind : Store σ → Var → Term σ → Prop
  promote : Store σ → Var → Prop
  fresh : Store σ → Prop
  failed : Failure σ Refusal → Store σ → Prop
  unfinished : Prop

namespace Contract

def Permits (K : Contract σ) (s : Store σ) : Request σ → Prop
  | .lookup _ | .rank _ => True
  | .fresh => K.fresh s
  | .bind v t => K.bind s v t
  | .promote v => K.promote s v

inductive Leads (K : Contract σ) (s : Store σ) : Store σ → Prop
  | refl : Leads K s s
  | call {s' : Store σ} (r : Request σ) :
      Leads K s s' → K.Permits s' r → Leads K s (Store.perform r s').2

def Ends (K : Contract σ) (post : α → Store σ → Prop) : Outcome σ Refusal α × Store σ → Prop
  | (.ok a, s) => post a s
  | (.error e, s) => K.failed e s
  | (.unfinished, _) => K.unfinished

variable {K : Contract σ} {s s' s'' : Store σ}

theorem Leads.trans (h : K.Leads s s') (h' : K.Leads s' s'') : K.Leads s s'' := by
  induction h' with
  | refl => exact h
  | call r _ hr ih => exact .call r ih hr

theorem Leads.one (r : Request σ) (h : K.Permits s r) : K.Leads s (Store.perform r s).2 :=
  .call r .refl h

theorem Leads.invariant {I : Store σ → Prop} (h : K.Leads s s') (hs : I s)
    (hI : ∀ r s, I s → K.Permits s r → I (Store.perform r s).2) : I s' := by
  induction h with
  | refl => exact hs
  | call r _ hr ih => exact hI r _ ih hr

end Contract

/-- How many variables a store can hand out: as many as the limit allows, but no more than the
counter can count. -/
def Config.capacity (c : Config) : ℕ := c.variableLimit.elim Store.maxCounter (min Store.maxCounter)

theorem Config.capacity_le_maxCounter (c : Config) : c.capacity ≤ Store.maxCounter := by
  rw [capacity]
  cases c.variableLimit with
  | none => exact le_rfl
  | some l => exact min_le_left _ l

theorem Config.capacity_le_limit {c : Config} {l : ℕ} (h : c.variableLimit = some l) :
    c.capacity ≤ l := by
  rw [capacity, h]
  exact min_le_right _ l

namespace Store

variable {s : Store σ} {l : ℕ}

theorem exhausted?_eq_none : s.exhausted? = none ↔ s.next < s.config.capacity := by
  rw [exhausted?, reachedLimit?, Config.capacity]
  cases s.config.variableLimit with
  | none => simp
  | some l => simp [and_comm]

theorem exhausted?_eq_some (h : s.exhausted? = some l) :
    s.config.capacity ≤ l ∧ l ≤ s.next := by
  rw [exhausted?, reachedLimit?] at h
  rw [Config.capacity]
  cases hlimit : s.config.variableLimit with
  | none => grind
  | some l => grind

end Store

namespace Script

open Contract

/-- Every call of the script is permitted by the contract, and the end of its run is as asked. -/
def Meets (K : Contract σ) (post : α → Store σ → Prop) : Script σ Refusal α → Store σ → Prop
  | .pure a, s => post a s
  | .fail e, s => K.failed e s
  | .unfinished, _ => K.unfinished
  | .note _ next, s => next.Meets K post s
  | .call r next, s =>
    K.Permits s r ∧ (next (Store.perform r s).1).Meets K post (Store.perform r s).2

variable {K : Contract σ} {s : Store σ} {m : Script σ Refusal α} {post post' : α → Store σ → Prop}

theorem meets_call {r : Request σ} {next : Except Refusal r.Answer → Script σ Refusal α} :
    (call r next).Meets K post s ↔
      K.Permits s r ∧ (next (Store.perform r s).1).Meets K post (Store.perform r s).2 := Iff.rfl

theorem run_call (r : Request σ) (next : Except Refusal r.Answer → Script σ Refusal α)
    (s : Store σ) :
    (call r next).run s = (next (Store.perform r s).1).run (Store.perform r s).2 := rfl

theorem Meets.mono (h : m.Meets K post s)
    (hp : ∀ a s', K.Leads s s' → post a s' → post' a s') : m.Meets K post' s := by
  induction m generalizing s with
  | pure a => exact hp a s .refl h
  | fail e => exact h
  | unfinished => exact h
  | note e next ih => exact ih h hp
  | call r next ih =>
    obtain ⟨hr, hnext⟩ := meets_call.mp h
    exact meets_call.mpr ⟨hr, ih _ hnext fun b s' hs' hb ↦ hp b s' ((Leads.one r hr).trans hs') hb⟩

theorem Meets.run (h : m.Meets K post s) : K.Leads s (m.run s).2 ∧ K.Ends post (m.run s) := by
  induction m generalizing s with
  | pure a => exact ⟨.refl, h⟩
  | fail e => exact ⟨.refl, h⟩
  | unfinished => exact ⟨.refl, h⟩
  | note e next ih => exact ih h
  | call r next ih =>
    obtain ⟨hr, hnext⟩ := meets_call.mp h
    rw [run_call]
    exact ⟨(Leads.one r hr).trans (ih _ hnext).1, (ih _ hnext).2⟩

theorem Meets.ends (h : m.Meets K post s) (hfinished : (m.run s).1 ≠ .unfinished) :
    (∃ a s', m.run s = (.ok a, s') ∧ post a s') ∨
      ∃ e s', m.run s = (.error e, s') ∧ K.failed e s' := by
  have hends := h.run.2
  match hrun : m.run s with
  | (.ok a, s') =>
    rw [hrun] at hends
    exact .inl ⟨a, s', rfl, hends⟩
  | (.error e, s') =>
    rw [hrun] at hends
    exact .inr ⟨e, s', rfl, hends⟩
  | (.unfinished, s') =>
    rw [hrun] at hfinished
    exact absurd rfl hfinished

theorem Meets.finished (h : m.Meets K post s) (hK : ¬ K.unfinished) :
    (m.run s).1 ≠ .unfinished := by
  have hends := h.run.2
  intro hrun
  match hm : m.run s with
  | (.ok a, s') => rw [hm] at hrun; cases hrun
  | (.error e, s') => rw [hm] at hrun; cases hrun
  | (.unfinished, s') =>
    rw [hm] at hends
    exact hK hends

@[simp]
theorem meets_pure {a : α} : (Pure.pure a : Script σ Refusal α).Meets K post s ↔ post a s := Iff.rfl

@[simp]
theorem meets_bind {post : β → Store σ → Prop} {f : α → Script σ Refusal β} :
    (m >>= f).Meets K post s ↔ m.Meets K (fun a s' ↦ (f a).Meets K post s') s := by
  change (m.bind f).Meets K post s ↔ _
  induction m generalizing s with
  | pure a => exact Iff.rfl
  | fail e => exact Iff.rfl
  | unfinished => exact Iff.rfl
  | note e next ih => exact ih
  | call r next ih =>
    rw [bind, meets_call, meets_call]
    simp only [ih]

@[simp]
theorem meets_map {post : β → Store σ → Prop} {f : α → β} :
    (f <$> m).Meets K post s ↔ m.Meets K (fun a ↦ post (f a)) s := by
  rw [map_eq_pure_bind, meets_bind]
  rfl

theorem Meets.map (h : m.Meets K post s) (f : α → β) :
    (f <$> m).Meets K (fun _ _ ↦ True) s :=
  meets_map.mpr (h.mono fun _ _ _ _ ↦ trivial)

@[simp]
theorem meets_unfinished : (unfinished : Script σ Refusal α).Meets K post s ↔ K.unfinished := Iff.rfl

@[simp]
theorem meets_abort {e : Event σ} {c : Clash σ} :
    (abort e c : Script σ Refusal α).Meets K post s ↔ K.failed (.clash c) s := Iff.rfl

@[simp]
theorem meets_log {e : Event σ} {post : Unit → Store σ → Prop} :
    (log e).Meets K post s ↔ post () s := Iff.rfl

@[simp]
theorem meets_when {b : Bool} {m : Script σ Refusal Unit} {post : Unit → Store σ → Prop} :
    (when b m).Meets K post s ↔ if b then m.Meets K post s else post () s := by
  cases b <;> rfl

@[simp]
theorem meets_lookup {v : Var} {post : Option (Term σ) → Store σ → Prop} :
    (lookup v).Meets K post s ↔ post (s.binding v) s :=
  and_iff_right trivial

@[simp]
theorem meets_rank {v : Var} {post : Entry σ → Store σ → Prop} :
    (rank v).Meets K post s ↔ post (s.entry v) s :=
  and_iff_right trivial

@[simp]
theorem meets_assign {v : Var} {t : Term σ} {post : Unit → Store σ → Prop} :
    (assign v t).Meets K post s ↔ K.bind s v t ∧ post () (s.bind v t) := Iff.rfl

@[simp]
theorem meets_promote {v : Var} {post : Unit → Store σ → Prop} :
    (promote v).Meets K post s ↔ K.promote s v ∧ post () (s.promote v) := Iff.rfl

theorem meets_fresh {post : Var → Store σ → Prop} (hs : K.fresh s)
    (hfail : ∀ l, s.exhausted? = some l → K.failed (.store (.exhausted l)) s)
    (hpost : s.exhausted? = none → post ⟨s.next⟩ { s with next := s.next + 1 }) :
    fresh.Meets K post s := by
  refine meets_call.mpr ⟨hs, ?_⟩
  change (ofAnswer s.fresh.1).Meets K post s.fresh.2
  unfold Store.fresh
  cases hlimit : s.exhausted? with
  | none => exact hpost hlimit
  | some l => exact hfail l hlimit

theorem meets_each {I : Store σ → Prop} {f : α → Script σ Refusal Unit} {l : List α}
    (hf : ∀ a ∈ l, ∀ s, I s → (f a).Meets K (fun _ s' ↦ I s') s) (hs : I s) :
    (each f l).Meets K (fun _ s' ↦ I s') s := by
  induction l generalizing s with
  | nil => exact hs
  | cons a l ih =>
    refine meets_bind.mpr ((hf a List.mem_cons_self s hs).mono fun _ s' _ hs' ↦ ?_)
    exact ih (fun b hb ↦ hf b (List.mem_cons_of_mem a hb)) hs'

theorem meets_mapEach {I : Store σ → Prop} {R : Store σ → α → β → Prop} {f : α → Script σ Refusal β}
    {l : List α} (hf : ∀ a ∈ l, ∀ s, I s → (f a).Meets K (fun b s' ↦ I s' ∧ R s' a b) s)
    (hR : ∀ a b s s', I s → K.Leads s s' → R s a b → R s' a b) (hs : I s) :
    (mapEach f l).Meets K (fun bs s' ↦ I s' ∧ List.Forall₂ (R s') l bs) s := by
  induction l generalizing s with
  | nil => exact ⟨hs, .nil⟩
  | cons a l ih =>
    refine meets_bind.mpr ((hf a List.mem_cons_self s hs).mono fun b s₁ _ h₁ ↦ ?_)
    have hl := ih (fun b hb ↦ hf b (List.mem_cons_of_mem a hb)) h₁.1
    refine meets_bind.mpr (hl.mono fun bs s₂ hlead h₂ ↦ ?_)
    exact ⟨h₂.1, .cons (hR a b s₁ s₂ h₁.1 hlead h₁.2) h₂.2⟩

theorem meets_mapState_forall {γ : Type} {I : γ → Store σ → Prop} {R : Store σ → β → Prop}
    {f : γ → α → Script σ Refusal (β × γ)} {l : List α} {c : γ}
    (hf : ∀ a ∈ l, ∀ c s, I c s → (f c a).Meets K (fun r s' ↦ I r.2 s' ∧ R s' r.1) s)
    (hR : ∀ b s s', K.Leads s s' → R s b → R s' b) (hs : I c s) :
    (mapState f c l).Meets K (fun r s' ↦ I r.2 s' ∧ ∀ b ∈ r.1, R s' b) s := by
  induction l generalizing c s with
  | nil => exact ⟨hs, nofun⟩
  | cons a l ih =>
    refine meets_bind.mpr ((hf a List.mem_cons_self c s hs).mono fun r s₁ _ h₁ ↦ ?_)
    have hl := ih (fun b hb ↦ hf b (List.mem_cons_of_mem a hb)) h₁.1
    refine meets_bind.mpr (hl.mono fun rs s₂ hlead h₂ ↦ ⟨h₂.1, ?_⟩)
    exact List.forall_mem_cons.mpr ⟨hR _ _ _ hlead h₁.2, h₂.2⟩

theorem meets_mapState {γ : Type} {I : γ → Store σ → Prop} {f : γ → α → Script σ Refusal (β × γ)}
    {l : List α} {c : γ} (hf : ∀ a ∈ l, ∀ c s, I c s → (f c a).Meets K (fun r s' ↦ I r.2 s') s)
    (hs : I c s) : (mapState f c l).Meets K (fun r s' ↦ I r.2 s') s := by
  refine (meets_mapState_forall (R := fun _ _ ↦ True) (fun a ha c s hc ↦ ?_)
    (fun _ _ _ _ h ↦ h) hs).mono fun _ _ _ h ↦ h.1
  exact (hf a ha c s hc).mono fun _ _ _ h ↦ ⟨h, trivial⟩

/-- The invariant of a fold may tell of the elements that are done, and `P` of what is left when one
of them has no state to go on with. -/
theorem meets_foldWhile_done {γ : Type} {I : List α → γ → Store σ → Prop} {P : Store σ → Prop}
    {f : γ → α → Script σ Refusal (Option γ)} {l : List α} {c : γ}
    (hf : ∀ done a rest, l = done ++ a :: rest → ∀ c s, I done c s →
      (f c a).Meets K (fun o s' ↦ o.elim (P s') fun c ↦ I (done ++ [a]) c s') s)
    (hs : I [] c s) : (foldWhile f c l).Meets K (fun o s' ↦ o.elim (P s') fun c ↦ I l c s') s := by
  suffices h : ∀ rest done c s, l = done ++ rest → I done c s →
      (foldWhile f c rest).Meets K (fun o s' ↦ o.elim (P s') fun c ↦ I l c s') s from
    h l [] c s rfl hs
  intro rest
  induction rest with
  | nil =>
    rintro done c s rfl hs
    rw [List.append_nil]
    exact hs
  | cons a rest ih =>
    intro done c s hl hs
    refine meets_bind.mpr ((hf done a rest hl c s hs).mono fun o s₁ _ h₁ ↦ ?_)
    cases o with
    | none => exact h₁
    | some c => exact ih (done ++ [a]) c s₁ (by rw [hl, List.append_cons]) h₁

theorem meets_foldWhile {γ : Type} {I : Store σ → Prop} {f : γ → α → Script σ Refusal (Option γ)}
    {l : List α} {c : γ} (hf : ∀ a ∈ l, ∀ c s, I s → (f c a).Meets K (fun _ s' ↦ I s') s)
    (hs : I s) : (foldWhile f c l).Meets K (fun _ s' ↦ I s') s := by
  refine (meets_foldWhile_done (I := fun _ _ ↦ I) (P := I) (fun done a rest hl c s hs ↦ ?_)
    hs).mono fun o s' _ h ↦ by cases o <;> exact h
  refine (hf a (by simp [hl]) c s hs).mono fun o s' _ h ↦ ?_
  cases o <;> exact h

theorem Meets.weaken_of_invariant {K' : Contract σ} {I : Store σ → Prop} (h : m.Meets K post s)
    (hs : I s) (hI : ∀ r s, I s → K.Permits s r → I (Store.perform r s).2)
    (hpermits : ∀ s r, I s → K.Permits s r → K'.Permits s r)
    (hfailed : ∀ e s, K.failed e s → K'.failed e s) (hunfinished : K.unfinished → K'.unfinished) :
    m.Meets K' post s := by
  induction m generalizing s with
  | pure a => exact h
  | fail e => exact hfailed _ _ h
  | unfinished => exact hunfinished h
  | note e next ih => exact ih h hs
  | call r next ih =>
    obtain ⟨hr, hnext⟩ := meets_call.mp h
    exact meets_call.mpr ⟨hpermits s r hs hr, ih _ hnext (hI r s hs hr)⟩

theorem Meets.weaken {K' : Contract σ} (h : m.Meets K post s)
    (hpermits : ∀ s r, K.Permits s r → K'.Permits s r)
    (hfailed : ∀ e s, K.failed e s → K'.failed e s) (hunfinished : K.unfinished → K'.unfinished) :
    m.Meets K' post s :=
  h.weaken_of_invariant (I := fun _ ↦ True) trivial (fun _ _ _ _ ↦ trivial)
    (fun s r _ ↦ hpermits s r) hfailed hunfinished

end Script

namespace Contract

theorem Leads.bound {K : Contract σ} {s s' : Store σ} {v : Var} (h : K.Leads s s')
    (hv : s.binding v ≠ none) : s'.binding v ≠ none := by
  refine h.invariant (I := fun s ↦ s.binding v ≠ none) hv fun r s hs _ ↦ ?_
  cases r with
  | lookup w => exact hs
  | rank w => exact hs
  | fresh =>
    change s.fresh.2.binding v ≠ none
    unfold Store.fresh
    split <;> exact hs
  | bind w t =>
    change (s.bind w t).binding v ≠ none
    rw [Store.binding_bind]
    split
    · exact Option.some_ne_none t
    · exact hs
  | promote w =>
    change (s.promote w).binding v ≠ none
    rwa [Store.binding_promote]

end Contract

end Unification
