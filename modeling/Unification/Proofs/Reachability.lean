import Mathlib.Data.List.Dedup
import Unification.Proofs.Variant

namespace Unification

variable {σ : Type} {s : Store σ} {t r : Term σ} {ts ts' : List (Term σ)} {v : Var} {vs : List Var}

namespace Operation

variable [DecidableEq σ]

theorem mem_iff_of_run_freeVars (hrun : (freeVars ts).run s = (.ok (.vars vs), s)) :
    v ∈ vs ↔ s.binding v = none ∧ ∃ t ∈ ts, s.Reaches t v := by
  obtain ⟨ws, hrun', -, hmem⟩ := run_freeVars ts s
  cases hrun.symm.trans hrun'
  exact hmem v

theorem run_freeVars_congr (h : ∀ t, t ∈ ts ↔ t ∈ ts') :
    (freeVars ts).run s = (freeVars ts').run s := by
  obtain ⟨vs, hrun, hsorted, hmem⟩ := run_freeVars ts s
  obtain ⟨vs', hrun', hsorted', hmem'⟩ := run_freeVars ts' s
  have hsame : ∀ v, v ∈ vs ↔ v ∈ vs' := by
    intro v
    simp only [hmem, hmem', h]
  rw [hrun, hrun', Var.eq_of_sorted hsorted hsorted' hsame]

theorem run_freeVars_of_resolvesTo (h : s.ResolvesTo t r) :
    (freeVars [t]).run s =
      (.ok (.vars (r.vars.dedup.mergeSort fun v w ↦ v.id ≤ w.id)), s) := by
  obtain ⟨vs, hrun, hsorted, hmem⟩ := run_freeVars [t] s
  rw [hrun, Var.mergeSort_eq r.vars.nodup_dedup hsorted fun v ↦ ?_]
  rw [List.mem_dedup, h.mem_vars_iff, hmem]
  simp only [List.mem_singleton, exists_eq_left]

/-- Over whatever store, with cycles or without, both searches find just what can be reached through
slots and bindings: the list of free variables holds each of those once and in order, whatever the
order of the terms, and a variable occurs in a term just if it is reached from there. Where the term
can be resolved, its free variables are those that are left in it. -/
theorem searches_exact (s : Store σ) :
    (∀ ts : List (Term σ), ∃ vs, (freeVars ts).run s = (.ok (.vars vs), s) ∧
      (vs.Pairwise fun v w ↦ v.id < w.id) ∧
      (∀ v, v ∈ vs ↔ s.binding v = none ∧ ∃ t ∈ ts, s.Reaches t v) ∧
      ∀ ts', ts.Perm ts' → (freeVars ts').run s = (.ok (.vars vs), s)) ∧
    (∀ (v : Var) (t : Term σ), ∃ found, (occurs v t).run s = (.ok (.bool found), s) ∧
      (found = true ↔ s.Reaches t v) ∧
      (s.binding v = none → ∀ vs, (freeVars [t]).run s = (.ok (.vars vs), s) →
        (found = true ↔ v ∈ vs))) ∧
    ∀ (t r : Term σ) (s' : Store σ), (resolve t).run s = (.ok (.term r), s') →
      (freeVars [t]).run s =
        (.ok (.vars (r.vars.dedup.mergeSort fun v w ↦ v.id ≤ w.id)), s) := by
  refine ⟨fun ts ↦ ?_, fun v t ↦ ?_, fun t r s' hrun ↦ ?_⟩
  · obtain ⟨vs, hrun, hsorted, hmem⟩ := run_freeVars ts s
    refine ⟨vs, hrun, hsorted, hmem, fun ts' hperm ↦ ?_⟩
    rw [← hrun]
    exact run_freeVars_congr fun t ↦ hperm.symm.mem_iff
  · obtain ⟨found, hrun, hfound⟩ := run_occurs v t s
    refine ⟨found, hrun, hfound, fun hv vs hvs ↦ ?_⟩
    rw [hfound, mem_iff_of_run_freeVars hvs, and_iff_right hv]
    simp only [List.mem_singleton, exists_eq_left]
  · rcases run_resolve t s with ⟨r', hrun', hr'⟩ | ⟨c, hrun', -⟩
    · cases hrun.symm.trans hrun'
      exact run_freeVars_of_resolvesTo hr'
    · cases hrun.symm.trans hrun'

theorem searches_exact_knotted :
    (freeVars [.var ⟨3⟩, .var ⟨0⟩, .var ⟨5⟩]).run Store.knotted =
        (.ok (.vars [⟨2⟩, ⟨5⟩]), Store.knotted) ∧
      (∀ v : Var, v ∈ [⟨2⟩, (⟨5⟩ : Var)] ↔ Store.knotted.binding v = none ∧
        ∃ t ∈ [.var ⟨5⟩, .var ⟨0⟩, .var ⟨3⟩], Store.knotted.Reaches t v) ∧
      (∃ found, (occurs ⟨2⟩ (.var ⟨0⟩)).run Store.knotted = (.ok (.bool found), Store.knotted) ∧
        (found = true ↔ (⟨2⟩ : Var) ∈ [(⟨2⟩ : Var)])) ∧
      (freeVars [.var ⟨0⟩]).run Store.knotted =
        (.ok (.vars ([⟨2⟩, (⟨2⟩ : Var)].dedup.mergeSort fun v w ↦ v.id ≤ w.id)),
          Store.knotted) := by
  obtain ⟨hfree, hoccurs, hresolved⟩ := searches_exact Store.knotted
  obtain ⟨vs, hrun, -, hmem, hperm⟩ := hfree [.var ⟨5⟩, .var ⟨0⟩, .var ⟨3⟩]
  obtain ⟨found, hfound, -, hagrees⟩ := hoccurs ⟨2⟩ (.var ⟨0⟩)
  have hvs : (freeVars [.var ⟨5⟩, .var ⟨0⟩, .var ⟨3⟩]).run Store.knotted =
      (.ok (.vars [⟨2⟩, ⟨5⟩]), Store.knotted) := rfl
  cases hrun.symm.trans hvs
  have hlisted := hresolved (.var ⟨0⟩)
    (.node .pair [.node (.fn "f") [.var ⟨2⟩], .node (.fn "f") [.var ⟨2⟩]]) Store.knotted rfl
  exact ⟨hperm _ (by decide), hmem, ⟨found, hfound, hagrees rfl _ rfl⟩, hlisted⟩

end Operation

end Unification
