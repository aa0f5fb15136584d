import Unification.Proofs.Dependency

namespace Unification.Store

open Relation

variable {σ : Type} {s : Store σ} {θ : Var → Term σ} {t : Term σ} {v w : Var}

def expand (s : Store σ) : ℕ → Term σ → Term σ
  | 0, t => t
  | n + 1, t => t.subst fun v ↦ (s.binding v).elim (.var v) (s.expand n)

/-- The term with every bound variable replaced by its binding, over and over. Without a cycle, no
way through bindings is longer than the number of entries. -/
def resolved (s : Store σ) (t : Term σ) : Term σ := s.expand s.entries.size t

theorem expand_eq_subst (s : Store σ) (n : ℕ) (t : Term σ) :
    s.expand n t = t.subst fun v ↦ s.expand n (.var v) := by
  cases n with
  | zero => exact t.subst_self.symm
  | succ n => rfl

theorem expand_of_free (n : ℕ) (h : s.binding v = none) : s.expand n (.var v) = .var v := by
  cases n with
  | zero => rfl
  | succ n => simp only [expand, Term.subst_var, h, Option.elim_none]

theorem expand_eq_of_height {μ : Var → ℕ} (hμ : s.Descends μ)
    (hpos : ∀ v t, s.binding v = some t → 0 < μ v) (n m : ℕ) (t : Term σ)
    (ht : ∀ w ∈ t.vars, μ w ≤ n) (hm : n ≤ m) : s.expand m t = s.expand n t := by
  induction n generalizing m t with
  | zero =>
    have hfree : ∀ w ∈ t.vars, s.expand m (.var w) = .var w := by
      intro w hw
      apply expand_of_free
      cases hb : s.binding w with
      | none => rfl
      | some u =>
        have h₁ := hpos w u hb
        have h₂ := ht w hw
        omega
    rw [expand_eq_subst, Term.subst_congr hfree]
    exact t.subst_self
  | succ n ih =>
    obtain ⟨m, rfl⟩ : ∃ k, m = k + 1 := ⟨m - 1, by omega⟩
    rw [expand, expand]
    refine Term.subst_congr fun w hw ↦ ?_
    cases hb : s.binding w with
    | none => rfl
    | some u =>
      refine ih m u (fun x hx ↦ ?_) (by omega)
      have h₁ := hμ w x ⟨u, hb, hx⟩
      have h₂ := ht w hw
      omega

theorem resolved_eq_subst (s : Store σ) (t : Term σ) :
    s.resolved t = t.subst fun v ↦ s.resolved (.var v) := expand_eq_subst s _ t

@[simp]
theorem resolved_node (s : Store σ) (f : σ) (args : List (Term σ)) :
    s.resolved (.node f args) = .node f (args.map s.resolved) := by
  rw [resolved_eq_subst, Term.subst_node]
  congr 1
  exact List.map_congr_left fun t _ ↦ (resolved_eq_subst s t).symm

theorem resolved_of_free (h : s.binding v = none) : s.resolved (.var v) = .var v :=
  expand_of_free _ h

theorem resolved_of_binding (hs : s.Acyclic) (h : s.binding v = some t) :
    s.resolved (.var v) = s.resolved t := by
  obtain ⟨μ, hμ, hle, hpos⟩ := hs.exists_height
  obtain ⟨n, hn⟩ : ∃ n, s.entries.size = n + 1 := by
    have h₁ := hpos v t h
    have h₂ := hle v
    exact ⟨s.entries.size - 1, by omega⟩
  have hvars : ∀ w ∈ t.vars, μ w ≤ n := by
    intro w hw
    have h₁ := hμ v w ⟨t, h, hw⟩
    have h₂ := hle v
    omega
  rw [resolved, resolved, hn, expand_eq_of_height hμ hpos n (n + 1) t hvars n.le_succ]
  simp only [expand, Term.subst_var, h, Option.elim_some]

theorem free_of_mem_resolved (hs : s.Acyclic) (h : w ∈ (s.resolved t).vars) :
    s.binding w = none := by
  induction t using hs.induct with
  | node f args ih =>
    rw [resolved_node] at h
    obtain ⟨_, hu, hw⟩ := Term.mem_vars_node.mp h
    obtain ⟨t, ht, rfl⟩ := List.mem_map.mp hu
    exact ih t ht hw
  | free v hv =>
    rw [resolved_of_free hv] at h
    rwa [Term.mem_vars_var.mp h]
  | bound v t hv ih =>
    rw [resolved_of_binding hs hv] at h
    exact ih h

theorem reaches_of_mem_expand {n : ℕ} (h : w ∈ (s.expand n t).vars) : s.Reaches t w := by
  induction n generalizing t with
  | zero => exact ⟨w, h, .refl⟩
  | succ n ih =>
    obtain ⟨v, hv, hw⟩ := Term.mem_vars_subst.mp h
    cases hb : s.binding v with
    | none =>
      simp only [hb, Option.elim_none, Term.mem_vars_var] at hw
      exact ⟨v, hv, hw ▸ .refl⟩
    | some u =>
      simp only [hb, Option.elim_some] at hw
      obtain ⟨x, hx, hxw⟩ := ih hw
      exact ⟨v, hv, .head ⟨u, hb, hx⟩ hxw⟩

def SolvedBy (s : Store σ) (θ : Var → Term σ) : Prop :=
  ∀ v t, s.binding v = some t → θ v = t.subst θ

theorem SolvedBy.subst_expand (h : s.SolvedBy θ) (n : ℕ) (t : Term σ) :
    (s.expand n t).subst θ = t.subst θ := by
  induction n generalizing t with
  | zero => rfl
  | succ n ih =>
    rw [expand, Term.subst_subst]
    refine Term.subst_congr fun v _ ↦ ?_
    cases hb : s.binding v with
    | none => rfl
    | some u => exact (ih u).trans (h v u hb).symm

theorem SolvedBy.subst_resolved (h : s.SolvedBy θ) (t : Term σ) :
    (s.resolved t).subst θ = t.subst θ := h.subst_expand _ t

def extend (s : Store σ) (θ : Var → Term σ) (v : Var) : Term σ := (s.resolved (.var v)).subst θ

theorem subst_extend (s : Store σ) (θ : Var → Term σ) (t : Term σ) :
    t.subst (s.extend θ) = (s.resolved t).subst θ := by
  rw [resolved_eq_subst, Term.subst_subst]
  rfl

theorem extend_of_free (θ : Var → Term σ) (h : s.binding v = none) : s.extend θ v = θ v := by
  rw [extend, resolved_of_free h, Term.subst_var]

theorem Acyclic.solvedBy (hs : s.Acyclic) (θ : Var → Term σ) : s.SolvedBy (s.extend θ) := by
  intro v t h
  rw [extend, resolved_of_binding hs h, subst_extend]

theorem Acyclic.solvedBy_resolved (hs : s.Acyclic) : s.SolvedBy fun v ↦ s.resolved (.var v) := by
  intro v t ht
  rw [← resolved_eq_subst]
  exact resolved_of_binding hs ht

theorem SolvedBy.size_lt_or_links (h : s.SolvedBy θ) (hp : s.PointsTo v w) :
    (θ w).size < (θ v).size ∨ θ w = θ v ∧ s.Links v w := by
  obtain ⟨t, ht, hw⟩ := hp
  cases t with
  | var x =>
    obtain rfl := Term.mem_vars_var.mp hw
    exact .inr ⟨(h v _ ht).symm, ht⟩
  | node f args =>
    rw [h v _ ht]
    exact .inl (Term.size_lt_size_subst_node hw)

/-- On the way through a binding to a variable, a solution gets smaller at every structure. -/
theorem SolvedBy.size_lt_or_chain (h : s.SolvedBy θ) (hp : ReflTransGen s.PointsTo v w) :
    (θ w).size < (θ v).size ∨ θ w = θ v ∧ ReflTransGen s.Links v w := by
  induction hp with
  | refl => exact .inr ⟨rfl, .refl⟩
  | tail _ hp ih =>
    rcases ih with ih | ⟨ih, hl⟩ <;> rcases h.size_lt_or_links hp with hlt | ⟨he, hl'⟩
    · exact .inl (hlt.trans ih)
    · exact .inl (he ▸ ih)
    · exact .inl (ih ▸ hlt)
    · exact .inr ⟨he.trans ih, hl.tail hl'⟩

/-- A store whose chains end is acyclic if its equations have a solution in finite terms. -/
theorem SolvedBy.acyclic (h : s.SolvedBy θ) (hc : s.Chained) : s.Acyclic := by
  intro v hv
  obtain ⟨w, hvw, hwv⟩ := TransGen.head'_iff.mp hv
  rcases h.size_lt_or_links hvw with h₁ | ⟨h₁, hl₁⟩ <;>
    rcases h.size_lt_or_chain hwv with h₂ | ⟨h₂, hl₂⟩
  · omega
  · exact absurd h₁ (by rw [h₂]; exact lt_irrefl _)
  · exact absurd h₂ (by rw [h₁]; exact lt_irrefl _)
  · exact hc v (TransGen.head' hl₁ hl₂)

theorem SolvedBy.not_reaches_node (h : s.SolvedBy θ) {f : σ} {args : List (Term σ)}
    (he : θ v = (Term.node f args).subst θ) : ¬ s.Reaches (.node f args) v := by
  rintro ⟨w, hw, hwv⟩
  have hlt := Term.size_lt_size_subst_node (θ := θ) hw
  rw [← he] at hlt
  rcases h.size_lt_or_chain hwv with h' | ⟨h', -⟩
  · omega
  · exact absurd hlt (by rw [h']; exact lt_irrefl _)

theorem SolvedBy.not_reaches_var (h : s.SolvedBy θ) (he : θ v = θ w) (hne : w ≠ v)
    (hw : ∀ x, ¬ s.Links w x) : ¬ s.Reaches (.var w) v := by
  rintro ⟨x, hx, hxv⟩
  obtain rfl := Term.mem_vars_var.mp hx
  rcases h.size_lt_or_chain hxv with h' | ⟨-, hl⟩
  · exact absurd h' (by rw [he]; exact lt_irrefl _)
  · rcases hl.cases_head with rfl | ⟨y, hy, -⟩
    · exact hne rfl
    · exact hw y hy

end Unification.Store
