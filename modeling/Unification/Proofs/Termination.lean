import Unification.Proofs.Compare
import Unification.Proofs.Fuel
import Unification.Proofs.Memo
import Unification.Proofs.Search
import Unification.Proofs.Unify.Confined
import Unification.Symbol

namespace Unification

open Relation Script Contract

variable {σ : Type} {s : Store σ} {V : Finset Var} {D fuel : ℕ}

/-- What can be met from some terms is closed under bindings, and there is no more of it than the
store and the terms hold. -/
theorem Store.exists_within (s : Store σ) (ts : List (Term σ)) :
    ∃ V : Finset Var, V.card ≤ s.weight + Term.sizeList ts ∧
      s.Within V (s.weight + Term.sizeList ts) ∧
      (∀ t ∈ ts, t.Within V (s.weight + Term.sizeList ts)) ∧
      ∀ v ∈ V, ∃ t ∈ ts, s.Reaches t v := by
  classical
  refine ⟨{v ∈ s.scope ts | ∃ t ∈ ts, s.Reaches t v}, ?_, ?_, ?_, ?_⟩
  · exact (Finset.card_filter_le _ _).trans (s.card_scope_le ts)
  · intro v hv t ht
    obtain ⟨hscope, u, hu, x, hx, hxv⟩ := Finset.mem_filter.mp hv
    have hwithin := s.within_scope ts v hscope t ht
    refine ⟨fun w hw ↦ Finset.mem_filter.mpr ⟨hwithin.1 w hw, u, hu, x, hx, ?_⟩, hwithin.2⟩
    exact hxv.tail ⟨t, ht, hw⟩
  · intro t ht
    have hwithin := s.within_scope_of_mem ht
    exact ⟨fun w hw ↦ Finset.mem_filter.mpr ⟨hwithin.1 w hw, t, ht, w, hw, .refl⟩, hwithin.2⟩
  · exact fun v hv ↦ (Finset.mem_filter.mp hv).2

namespace Operation

def terms : Operation σ → List (Term σ)
  | .representative t | .terminal t | .resolve t | .renameApart t => [t]
  | .unify _ t u | .unified _ t u | .equal t u | .variant t u | .subsumes t u => [t, u]
  | .occurs v t => [.var v, t]
  | .freeVars ts | .resolveAll ts | .renameApartAll ts => ts

def allocates : Operation σ → Bool
  | .renameApart _ | .renameApartAll _ => true
  | _ => false

theorem card_lt_of_fuel (h : D + 2 * (V.card * (D + 1)) < fuel) : V.card < fuel := by
  have hle : V.card ≤ V.card * (D + 1) := Nat.le_mul_of_pos_right _ D.succ_pos
  omega

theorem sizeList_terms (op : Operation σ) : Term.sizeList op.terms = op.weight := by
  cases op <;> simp [terms, weight, Term.sizeList_eq_sum, Term.size]

variable [DecidableEq σ]

theorem meets_script_confined {op : Operation σ} (hop : op.allocates = false) (hs : s.Within V D)
    (ht : ∀ t ∈ op.terms, t.Within V D) (hsize : op.weight ≤ D)
    (hfuel : D + 2 * (V.card * (D + 1)) < fuel) :
    (op.script fuel).Meets (confined V D) (fun _ _ ↦ True) s := by
  have hwalk := card_lt_of_fuel hfuel
  have hdepth : D + V.card * (D + 1) ≤ fuel := by omega
  cases op with
  | representative t =>
    exact (meets_representative_confined hs (ht t List.mem_cons_self) hwalk).map _
  | terminal t => exact (meets_terminal_confined hs (ht t List.mem_cons_self) hwalk).map _
  | unify mode t u =>
    obtain ⟨ht, hu⟩ : t.Within V D ∧ u.Within V D := by simpa [terms] using ht
    exact Meets.map (meets_unify_confined hdepth hs ht hu) _
  | unified strategy t u =>
    obtain ⟨ht, hu⟩ : t.Within V D ∧ u.Within V D := by simpa [terms] using ht
    exact Meets.map (meets_unify_confined hdepth hs ht hu) _
  | occurs v t =>
    have hocc : (Unification.occurs fuel v t).Meets (confined V D) (fun _ _ ↦ True) s :=
      meets_occurs (fun _ ↦ trivial) (fun _ ↦ trivial)
        (.inr ⟨V, D, hs, ht t (List.mem_cons_of_mem _ List.mem_cons_self), hdepth⟩)
    exact hocc.map _
  | freeVars ts =>
    have hfree : (Unification.freeVars fuel ts).Meets (confined V D) (fun _ _ ↦ True) s :=
      meets_freeVars (fun _ _ _ ↦ trivial)
        (.inr ⟨V, D, hs, ht, (Nat.add_le_add_right hsize _).trans hdepth⟩)
    exact hfree.map _
  | resolve t => exact (meets_resolve hwalk hdepth hs (ht t List.mem_cons_self)).map _
  | resolveAll ts => exact (meets_resolveAll hwalk hdepth hs ht).map _
  | renameApart t => cases hop
  | renameApartAll ts => cases hop
  | equal t u =>
    obtain ⟨ht, hu⟩ : t.Within V D ∧ u.Within V D := by simpa [terms] using ht
    have hequal : (Unification.equal fuel t u).Meets (confined V D) (fun _ _ ↦ True) s :=
      meets_bind.mpr ((meets_compareWith hwalk hs (.top ht hu hfuel.le)).mono
        fun _ _ _ _ ↦ trivial)
    exact hequal.map _
  | variant t u =>
    obtain ⟨ht, hu⟩ : t.Within V D ∧ u.Within V D := by simpa [terms] using ht
    exact Meets.map (meets_compareWith hwalk hs (.top ht hu hfuel.le)) _
  | subsumes t u =>
    obtain ⟨ht, hu⟩ : t.Within V D ∧ u.Within V D := by simpa [terms] using ht
    exact (meets_subsumesBelow hwalk hs (.top ht hu hfuel.le)).map _

theorem meets_script_apart {op : Operation σ} (hop : op.allocates) (hs : s.Sealed V D)
    (ht : ∀ t ∈ op.terms, t.Within V D) (hfuel : D + 2 * (V.card * (D + 1)) < fuel) :
    (op.script fuel).Meets (apart V D) (fun _ _ ↦ True) s := by
  have hwalk := card_lt_of_fuel hfuel
  have hdepth : D + V.card * (D + 1) ≤ fuel := by omega
  cases op with
  | renameApart t => exact (meets_renameApart hwalk hdepth hs (ht t List.mem_cons_self)).map _
  | renameApartAll ts => exact (meets_renameApartAll hwalk hdepth hs ht).map _
  | _ => cases hop

theorem run_ne_unfinished (op : Operation σ) (s : Store σ)
    (h : op.allocates → ∀ t ∈ op.terms, ∀ v, s.Reaches t v → v.id < s.next) :
    (op.run s).1 ≠ .unfinished := by
  obtain ⟨V, hcard, hs, ht, hreach⟩ := s.exists_within op.terms
  rw [sizeList_terms] at hcard hs ht
  have hfuel := op.lt_fuel le_rfl hcard
  cases hop : op.allocates with
  | false => exact (meets_script_confined hop hs ht (Nat.le_add_left _ _) hfuel).finished id
  | true =>
    have hsealed : s.Sealed V (s.weight + op.weight) := by
      refine ⟨hs, fun v hv ↦ ?_⟩
      obtain ⟨t, htmem, htv⟩ := hreach v hv
      exact h hop t htmem v htv
    exact (meets_script_apart hop hsealed ht hfuel).finished id

theorem run_ends {op : Operation σ} {K : Contract σ} {post : Value σ → Store σ → Prop}
    (hop : op.allocates = false) (h : (op.script (op.fuel s.weight)).Meets K post s) :
    (∃ x s', op.run s = (.ok x, s') ∧ post x s') ∨
      ∃ e s', op.run s = (.error e, s') ∧ K.failed e s' :=
  h.ends (op.run_ne_unfinished s (by simp [hop]))

/-- Over whatever store, with cycles or without, every operation ends with an answer or an error,
and more fuel than what is computed for it changes nothing. Copies need that the variables which can
be met from their terms are allocated. -/
theorem run_finished (op : Operation σ) (s : Store σ)
    (h : op.allocates → ∀ t ∈ op.terms, ∀ v, s.Reaches t v → v.id < s.next) :
    ((∃ x s', op.run s = (.ok x, s')) ∨ ∃ e s', op.run s = (.error e, s')) ∧
      ∀ fuel, op.fuel s.weight ≤ fuel → (op.script fuel).run s = op.run s := by
  have hends := op.run_ne_unfinished s h
  refine ⟨?_, fun fuel hfuel ↦ (op.script_approximates hfuel).run_eq hends⟩
  match hrun : op.run s with
  | (.ok x, s') => exact .inl ⟨x, s', rfl⟩
  | (.error e, s') => exact .inr ⟨e, s', rfl⟩
  | (.unfinished, s') =>
    rw [hrun] at hends
    exact absurd rfl hends

end Operation

def Store.ring : Store Symbol :=
  (({ next := 2 } : Store Symbol).bind ⟨0⟩ (.node (.fn "f") [.var ⟨1⟩])).bind ⟨1⟩ (.var ⟨0⟩)

theorem Store.lt_of_pointsTo_ring {v w : Var} (h : ring.PointsTo v w) : w.id < 2 := by
  obtain ⟨t, ht, hw⟩ := h
  simp only [ring, binding_bind] at ht
  split at ht
  · obtain rfl : .var ⟨0⟩ = t := by simpa using ht
    obtain rfl : w = ⟨0⟩ := by simpa using hw
    decide
  · split at ht
    · obtain rfl : .node (.fn "f") [.var ⟨1⟩] = t := by simpa using ht
      obtain rfl : w = ⟨1⟩ := by simpa using hw
      decide
    · simp [binding, entry] at ht

theorem Operation.run_finished_ring :
    (renameApart (.var ⟨0⟩)).run Store.ring =
        (.error (.clash (.occursIn ⟨0⟩ (.node (.fn "f") [.var ⟨1⟩]))), Store.ring) ∧
      ∀ fuel, (renameApart (.var ⟨0⟩) : Operation Symbol).fuel Store.ring.weight ≤ fuel →
        ((renameApart (.var ⟨0⟩)).script fuel).run Store.ring =
          (renameApart (.var ⟨0⟩)).run Store.ring := by
  refine ⟨rfl, (run_finished (renameApart (.var ⟨0⟩)) Store.ring fun _ t ht v hv ↦ ?_).2⟩
  obtain rfl : t = .var ⟨0⟩ := by simpa [terms] using ht
  obtain ⟨w, hw, hwv⟩ := hv
  rcases hwv.cases_tail with rfl | ⟨x, -, hxv⟩
  · obtain rfl : v = ⟨0⟩ := by simpa using hw
    decide
  · exact Store.lt_of_pointsTo_ring hxv

end Unification
