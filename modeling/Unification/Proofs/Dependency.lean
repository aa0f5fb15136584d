import Mathlib.Data.Finset.Card
import Mathlib.Logic.Relation
import Unification.Proofs.Term
import Unification.Store.Basic

namespace Unification

open Relation

variable {σ : Type}

namespace Store

@[simp]
theorem binding_bind (s : Store σ) (v w : Var) (t : Term σ) :
    (s.bind v t).binding w = if w = v then some t else s.binding w := by
  rw [binding, bind, entry_update]
  split <;> rfl

@[simp]
theorem binding_promote (s : Store σ) (v w : Var) : (s.promote v).binding w = s.binding w := by
  rw [binding, promote, entry_update]
  split
  · rename_i h
    subst h
    rfl
  · rfl

def Links (s : Store σ) (v w : Var) : Prop := s.binding v = some (.var w)

def PointsTo (s : Store σ) (v w : Var) : Prop := ∃ t, s.binding v = some t ∧ w ∈ t.vars

/-- The store has no cycle of variables that are bound to variables, so every chain has an end. -/
def Chained (s : Store σ) : Prop := ∀ v, ¬ TransGen s.Links v v

/-- No variable reaches itself through one or more bindings. -/
def Acyclic (s : Store σ) : Prop := ∀ v, ¬ TransGen s.PointsTo v v

theorem links_eq_of_binding_eq {s s' : Store σ} (h : ∀ v, s'.binding v = s.binding v) :
    s'.Links = s.Links := by
  funext v w
  rw [Links, Links, h]

theorem Chained.of_binding_eq {s s' : Store σ} (hs : s.Chained)
    (h : ∀ v, s'.binding v = s.binding v) : s'.Chained := by
  rwa [Chained, links_eq_of_binding_eq h]

def Reaches (s : Store σ) (t : Term σ) (v : Var) : Prop :=
  ∃ w ∈ t.vars, ReflTransGen s.PointsTo w v

theorem Links.pointsTo {s : Store σ} {v w : Var} (h : s.Links v w) : s.PointsTo v w :=
  ⟨_, h, Term.mem_vars_var.mpr rfl⟩

theorem Acyclic.chained {s : Store σ} (hs : s.Acyclic) : s.Chained :=
  fun v h ↦ hs v (TransGen.mono (fun _ _ h ↦ h.pointsTo) v v h)

theorem not_transGen_of_height {R : Var → Var → Prop} (μ : Var → ℕ)
    (h : ∀ v w, R v w → μ w < μ v) (v : Var) : ¬ TransGen R v v := by
  have hlt : ∀ w, TransGen R v w → μ w < μ v := by
    intro w hw
    induction hw with
    | single hr => exact h _ _ hr
    | tail _ hr ih => exact (h _ _ hr).trans ih
  exact fun hv ↦ Nat.lt_irrefl _ (hlt v hv)

def Descends (μ : Var → ℕ) (s : Store σ) : Prop := ∀ v w, s.PointsTo v w → μ w < μ v

theorem Descends.acyclic {μ : Var → ℕ} {s : Store σ} (h : s.Descends μ) : s.Acyclic :=
  not_transGen_of_height μ h

theorem Descends.bind {μ : Var → ℕ} {s : Store σ} {v : Var} {t : Term σ} (h : s.Descends μ)
    (ht : ∀ w ∈ t.vars, μ w < μ v) : (s.bind v t).Descends μ := by
  rintro x w ⟨u, hu, hw⟩
  rw [binding_bind] at hu
  split at hu
  · rename_i hx
    cases hu
    exact hx ▸ ht w hw
  · exact h x w ⟨u, hu, hw⟩

theorem Descends.promote {μ : Var → ℕ} {s : Store σ} (h : s.Descends μ) (v : Var) :
    (s.promote v).Descends μ := by
  rintro x w ⟨u, hu, hw⟩
  rw [binding_promote] at hu
  exact h x w ⟨u, hu, hw⟩

theorem entry_of_entries_empty {s : Store σ} (h : s.entries = ∅) (v : Var) : s.entry v = {} := by
  rw [entry, h]
  rfl

theorem binding_of_entries_empty {s : Store σ} (h : s.entries = ∅) (v : Var) :
    s.binding v = none := by
  rw [binding, entry_of_entries_empty h]

theorem descends_of_entries_empty {s : Store σ} (h : s.entries = ∅) (μ : Var → ℕ) :
    s.Descends μ := by
  rintro v w ⟨t, ht, -⟩
  cases (binding_of_entries_empty h v).symm.trans ht

/-- Without a cycle there is a height: the number of variables of `K` that can be reached from a
variable decreases along every step, if all steps start in `K`. -/
theorem exists_height {R : Var → Var → Prop} {K : Finset Var} (hK : ∀ v w, R v w → v ∈ K)
    (hR : ∀ v, ¬ TransGen R v v) :
    ∃ μ : Var → ℕ, (∀ v w, R v w → μ w < μ v) ∧ (∀ v, μ v ≤ K.card) ∧ ∀ v ∈ K, 0 < μ v := by
  classical
  refine ⟨fun v ↦ {w ∈ K | ReflTransGen R v w}.card, fun v w h ↦ ?_, fun v ↦ ?_, fun v hv ↦ ?_⟩
  · apply Finset.card_lt_card
    refine ⟨fun x hx ↦ ?_, fun hsub ↦ ?_⟩
    · obtain ⟨hxK, hwx⟩ := Finset.mem_filter.mp hx
      exact Finset.mem_filter.mpr ⟨hxK, .head h hwx⟩
    · have hv := hsub (Finset.mem_filter.mpr ⟨hK v w h, .refl⟩)
      exact hR v (TransGen.head' h (Finset.mem_filter.mp hv).2)
  · exact Finset.card_filter_le _ _
  · exact Finset.card_pos.mpr ⟨v, Finset.mem_filter.mpr ⟨hv, .refl⟩⟩

def known (s : Store σ) : Finset Var := (s.entries.keys.map Var.mk).toFinset

theorem card_known_le (s : Store σ) : s.known.card ≤ s.entries.size := by
  refine (List.toFinset_card_le _).trans_eq ?_
  rw [List.length_map, Std.ExtTreeMap.length_keys]

theorem entry_eq_of_binding {s : Store σ} {v : Var} {t : Term σ} (h : s.binding v = some t) :
    ∃ e, s.entries[v.id]? = some e ∧ e.binding = some t := by
  unfold binding entry at h
  cases he : s.entries[v.id]? with
  | none => rw [he] at h; cases h
  | some e => exact ⟨e, rfl, by simpa only [he, Option.getD_some] using h⟩

theorem mem_known_of_binding {s : Store σ} {v : Var} {t : Term σ} (h : s.binding v = some t) :
    v ∈ s.known := by
  obtain ⟨e, he, -⟩ := entry_eq_of_binding h
  have hm : v.id ∈ s.entries := Std.ExtTreeMap.mem_iff_isSome_getElem?.mpr (by rw [he]; rfl)
  exact List.mem_toFinset.mpr (List.mem_map.mpr ⟨v.id, Std.ExtTreeMap.mem_keys.mpr hm, rfl⟩)

theorem Chained.exists_height {s : Store σ} (hs : s.Chained) :
    ∃ μ : Var → ℕ, (∀ v w, s.Links v w → μ w < μ v) ∧ (∀ v, μ v ≤ s.entries.size) ∧
      ∀ v t, s.binding v = some t → 0 < μ v := by
  obtain ⟨μ, hμ, hle, hpos⟩ := Store.exists_height (fun _ _ h ↦ mem_known_of_binding h) hs
  exact ⟨μ, hμ, fun v ↦ (hle v).trans s.card_known_le, fun v t h ↦ hpos v (mem_known_of_binding h)⟩

theorem Acyclic.exists_height {s : Store σ} (hs : s.Acyclic) :
    ∃ μ : Var → ℕ, s.Descends μ ∧ (∀ v, μ v ≤ s.entries.size) ∧
      ∀ v t, s.binding v = some t → 0 < μ v := by
  obtain ⟨μ, hμ, hle, hpos⟩ :=
    Store.exists_height (fun _ _ ⟨_, h, _⟩ ↦ mem_known_of_binding h) hs
  exact ⟨μ, hμ, fun v ↦ (hle v).trans s.card_known_le, fun v t h ↦ hpos v (mem_known_of_binding h)⟩

theorem Chained.induct {s : Store σ} (hs : s.Chained) {motive : Term σ → Prop}
    (node : ∀ f args, motive (.node f args))
    (free : ∀ v, s.binding v = none → motive (.var v))
    (bound : ∀ v t, s.binding v = some t → motive t → motive (.var v)) (t : Term σ) :
    motive t := by
  obtain ⟨μ, hμ, -⟩ := hs.exists_height
  have hvar : ∀ n v, μ v < n → motive (.var v) := by
    intro n
    induction n with
    | zero => exact fun v hv ↦ absurd hv (Nat.not_lt_zero _)
    | succ n ih =>
      intro v hv
      cases hb : s.binding v with
      | none => exact free v hb
      | some t =>
        refine bound v t hb ?_
        cases t with
        | var w => exact ih w (by have := hμ v w hb; omega)
        | node f args => exact node f args
  cases t with
  | var v => exact hvar _ v (Nat.lt_succ_self _)
  | node f args => exact node f args

theorem Acyclic.induct {s : Store σ} (hs : s.Acyclic) {motive : Term σ → Prop}
    (node : ∀ f args, (∀ t ∈ args, motive t) → motive (.node f args))
    (free : ∀ v, s.binding v = none → motive (.var v))
    (bound : ∀ v t, s.binding v = some t → motive t → motive (.var v)) (t : Term σ) :
    motive t := by
  obtain ⟨μ, hμ, -⟩ := hs.exists_height
  have hterm : ∀ t : Term σ, (∀ w ∈ t.vars, motive (.var w)) → motive t := by
    intro t h
    induction t with
    | var v => exact h v (Term.mem_vars_var.mpr rfl)
    | node f args ih =>
      exact node f args fun t ht ↦ ih t ht fun w hw ↦ h w (Term.mem_vars_node.mpr ⟨t, ht, hw⟩)
  have hvar : ∀ n v, μ v < n → motive (.var v) := by
    intro n
    induction n with
    | zero => exact fun v hv ↦ absurd hv (Nat.not_lt_zero _)
    | succ n ih =>
      intro v hv
      cases hb : s.binding v with
      | none => exact free v hb
      | some t =>
        refine bound v t hb (hterm t fun w hw ↦ ih w ?_)
        have := hμ v w ⟨t, hb, hw⟩
        omega
  exact hterm t fun w _ ↦ hvar _ w (Nat.lt_succ_self _)

end Store

end Unification
