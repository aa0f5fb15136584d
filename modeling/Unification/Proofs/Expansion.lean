import Mathlib.Data.List.Forall2
import Mathlib.Logic.Function.Iterate
import Unification.Proofs.Resolved

namespace Unification.Store

open Relation

variable {σ : Type} {s : Store σ} {t u r r' : Term σ} {v w : Var}

def substitute (s : Store σ) (t : Term σ) : Term σ :=
  t.subst fun v ↦ (s.binding v).getD (.var v)

theorem iterate_substitute (s : Store σ) (n : ℕ) (t : Term σ) :
    s.substitute^[n] t = s.expand n t := by
  induction n generalizing t with
  | zero => rfl
  | succ n ih =>
    rw [Function.iterate_succ_apply, ih, expand_eq_subst, substitute, Term.subst_subst, expand]
    refine Term.subst_congr fun v _ ↦ ?_
    cases hb : s.binding v with
    | none => exact expand_of_free n hb
    | some u => exact (expand_eq_subst s n u).symm

theorem expand_expand (s : Store σ) (m n : ℕ) (t : Term σ) :
    s.expand m (s.expand n t) = s.expand (m + n) t := by
  simp only [← iterate_substitute, Function.iterate_add_apply]

theorem expand_of_settled (h : ∀ v ∈ t.vars, s.binding v = none) (n : ℕ) : s.expand n t = t := by
  rw [expand_eq_subst, Term.subst_congr fun v hv ↦ expand_of_free n (h v hv)]
  exact t.subst_self

theorem expand_node (s : Store σ) (n : ℕ) (f : σ) (args : List (Term σ)) :
    s.expand n (.node f args) = .node f (args.map (s.expand n)) := by
  rw [expand_eq_subst, Term.subst_node]
  congr 1
  exact List.map_congr_left fun t _ ↦ (expand_eq_subst s n t).symm

theorem expand_of_binding (h : s.binding v = some t) (n : ℕ) :
    s.expand (n + 1) (.var v) = s.expand n t := by
  simp only [expand, Term.subst_var, h, Option.elim_some]

/-- Putting bindings into the first term comes to an end with the second one. -/
def ResolvesTo (s : Store σ) (t r : Term σ) : Prop :=
  (∃ n, s.expand n t = r) ∧ ∀ v ∈ r.vars, s.binding v = none

namespace ResolvesTo

theorem eventually (h : s.ResolvesTo t r) : ∃ N, ∀ n ≥ N, s.expand n t = r := by
  obtain ⟨⟨N, hN⟩, hr⟩ := h
  refine ⟨N, fun n hn ↦ ?_⟩
  rw [← Nat.sub_add_cancel hn, ← expand_expand, hN]
  exact expand_of_settled hr _

theorem unique (h : s.ResolvesTo t r) (h' : s.ResolvesTo t r') : r = r' := by
  obtain ⟨N, hN⟩ := h.eventually
  obtain ⟨M, hM⟩ := h'.eventually
  rw [← hN (max N M) (le_max_left N M), hM (max N M) (le_max_right N M)]

theorem settled (h : ∀ v ∈ t.vars, s.binding v = none) : s.ResolvesTo t t := ⟨⟨0, rfl⟩, h⟩

theorem self (h : s.ResolvesTo t r) : s.ResolvesTo r r := settled h.2

theorem free (h : s.binding v = none) : s.ResolvesTo (.var v) (.var v) :=
  settled fun _ hw ↦ Term.mem_vars_var.mp hw ▸ h

theorem bound (hv : s.binding v = some t) (h : s.ResolvesTo t r) : s.ResolvesTo (.var v) r := by
  obtain ⟨⟨n, hn⟩, hr⟩ := h
  exact ⟨⟨n + 1, (expand_of_binding hv n).trans hn⟩, hr⟩

theorem of_bound (hv : s.binding v = some t) (h : s.ResolvesTo (.var v) r) : s.ResolvesTo t r := by
  obtain ⟨N, hN⟩ := h.eventually
  exact ⟨⟨N, (expand_of_binding hv N).symm.trans (hN (N + 1) N.le_succ)⟩, h.2⟩

theorem chain (hvw : ReflTransGen s.Links v w) (h : s.ResolvesTo (.var w) r) :
    s.ResolvesTo (.var v) r := by
  induction hvw using ReflTransGen.head_induction_on with
  | refl => exact h
  | head hl _ ih => exact ih.bound hl

theorem map_expand {ts rs : List (Term σ)} (h : List.Forall₂ s.ResolvesTo ts rs) :
    ∃ N, ∀ n ≥ N, ts.map (s.expand n) = rs := by
  induction h with
  | nil => exact ⟨0, fun _ _ ↦ rfl⟩
  | cons ht _ ih =>
    obtain ⟨N, hN⟩ := ht.eventually
    obtain ⟨M, hM⟩ := ih
    refine ⟨max N M, fun n hn ↦ ?_⟩
    rw [List.map_cons, hN n (le_of_max_le_left hn), hM n (le_of_max_le_right hn)]

theorem of_mem_right {ts rs : List (Term σ)} (h : List.Forall₂ s.ResolvesTo ts rs) (hr : r ∈ rs) :
    s.ResolvesTo r r := by
  induction h with
  | nil => cases hr
  | cons ht _ ih =>
    rcases List.mem_cons.mp hr with rfl | hr
    · exact ht.self
    · exact ih hr

theorem node {f : σ} {ts rs : List (Term σ)} (h : List.Forall₂ s.ResolvesTo ts rs) :
    s.ResolvesTo (.node f ts) (.node f rs) := by
  obtain ⟨N, hN⟩ := map_expand h
  refine ⟨⟨N, by rw [expand_node, hN N le_rfl]⟩, fun v hv ↦ ?_⟩
  obtain ⟨r, hr, hv⟩ := Term.mem_vars_node.mp hv
  exact (of_mem_right h hr).2 v hv

theorem exists_subst (h : s.ResolvesTo t r) :
    ∃ θ : Var → Term σ, (∀ v ∈ t.vars, s.ResolvesTo (.var v) (θ v)) ∧ r = t.subst θ := by
  obtain ⟨⟨n, hn⟩, hr⟩ := h
  rw [expand_eq_subst] at hn
  refine ⟨fun v ↦ s.expand n (.var v), fun v hv ↦ ⟨⟨n, rfl⟩, fun w hw ↦ hr w ?_⟩, hn.symm⟩
  rw [← hn]
  exact Term.mem_vars_subst.mpr ⟨v, hv, hw⟩

theorem mem_vars_iff (h : s.ResolvesTo t r) : w ∈ r.vars ↔ s.binding w = none ∧ s.Reaches t w := by
  constructor
  · intro hw
    obtain ⟨⟨n, rfl⟩, hfree⟩ := h
    exact ⟨hfree w hw, reaches_of_mem_expand hw⟩
  · rintro ⟨hw, v, hv, hvw⟩
    obtain ⟨θ, hθ, rfl⟩ := h.exists_subst
    refine Term.mem_vars_subst.mpr ⟨v, hv, ?_⟩
    replace hθ := hθ v hv
    generalize θ v = r at hθ
    clear hv
    induction hvw using ReflTransGen.head_induction_on generalizing r with
    | refl => exact (free hw).unique hθ ▸ Term.mem_vars_var.mpr rfl
    | @head v x hp _ ih =>
      obtain ⟨u, hu, hx⟩ := hp
      obtain ⟨η, hη, rfl⟩ := (hθ.of_bound hu).exists_subst
      exact Term.mem_vars_subst.mpr ⟨x, hx, ih _ (hη x hx)⟩

end ResolvesTo

/-- A cycle of bindings can be reached from the term. -/
def Tangled (s : Store σ) (t : Term σ) : Prop := ∃ v, s.Reaches t v ∧ TransGen s.PointsTo v v

namespace Tangled

theorem of_binding (hv : s.binding v = some t) (h : s.Tangled t) : s.Tangled (.var v) := by
  obtain ⟨x, ⟨w, hw, hwx⟩, hx⟩ := h
  exact ⟨x, ⟨v, Term.mem_vars_var.mpr rfl, .head ⟨t, hv, hw⟩ hwx⟩, hx⟩

theorem of_chain (hvw : ReflTransGen s.Links v w) (h : s.Tangled (.var w)) :
    s.Tangled (.var v) := by
  induction hvw using ReflTransGen.head_induction_on with
  | refl => exact h
  | head hl _ ih => exact ih.of_binding hl

theorem of_slot {f : σ} {ts : List (Term σ)} (ht : t ∈ ts) (h : s.Tangled t) :
    s.Tangled (.node f ts) := by
  obtain ⟨x, ⟨w, hw, hwx⟩, hx⟩ := h
  exact ⟨x, ⟨w, Term.mem_vars_node.mpr ⟨t, ht, hw⟩, hwx⟩, hx⟩

/-- On the way to a cycle, and around it, there is always one more binding to put in. -/
theorem exists_bound (h : s.Tangled t) :
    ∃ v ∈ t.vars, ∃ u, s.binding v = some u ∧ s.Tangled u := by
  obtain ⟨x, ⟨v, hv, hvx⟩, hx⟩ := h
  rcases hvx.cases_head with rfl | ⟨w, ⟨u, hu, hw⟩, hwx⟩
  · obtain ⟨w, ⟨u, hu, hw⟩, hwv⟩ := TransGen.head'_iff.mp hx
    exact ⟨v, hv, u, hu, v, ⟨w, hw, hwv⟩, hx⟩
  · exact ⟨v, hv, u, hu, x, ⟨w, hw, hwx⟩, hx⟩

theorem expand (h : s.Tangled t) (n : ℕ) : s.Tangled (s.expand n t) := by
  induction n generalizing t with
  | zero => exact h
  | succ n ih =>
    obtain ⟨v, hv, u, hu, htangled⟩ := h.exists_bound
    obtain ⟨x, ⟨w, hw, hwx⟩, hx⟩ := ih htangled
    refine ⟨x, ⟨w, Term.mem_vars_subst.mpr ⟨v, hv, ?_⟩, hwx⟩, hx⟩
    rwa [hu, Option.elim_some]

end Tangled

theorem ResolvesTo.not_tangled (h : s.ResolvesTo t r) : ¬ s.Tangled t := by
  intro htangled
  obtain ⟨⟨n, hn⟩, hr⟩ := h
  obtain ⟨v, hv, u, hu, -⟩ := (htangled.expand n).exists_bound
  rw [hr v (hn ▸ hv)] at hu
  cases hu

end Unification.Store
