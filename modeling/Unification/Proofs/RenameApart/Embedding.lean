import Unification.Proofs.Chains
import Unification.Proofs.Settled

namespace Unification

open Relation

variable {σ : Type}

namespace Term

variable {f g : Var → Var} {t : Term σ} {w : Var}

def rename (f : Var → Var) (t : Term σ) : Term σ := t.subst fun v ↦ .var (f v)

@[simp]
theorem rename_node (f : Var → Var) (c : σ) (args : List (Term σ)) :
    (node c args).rename f = .node c (args.map (rename f)) := subst_node _ c args

@[simp]
theorem rename_id (t : Term σ) : t.rename id = t := t.subst_self

theorem rename_congr (h : ∀ v ∈ t.vars, f v = g v) : t.rename f = t.rename g :=
  subst_congr fun v hv ↦ congrArg var (h v hv)

theorem mem_vars_rename : w ∈ (t.rename f).vars ↔ ∃ v ∈ t.vars, w = f v := by
  simp only [rename, mem_vars_subst, mem_vars_var]

end Term

namespace Store

variable {s s' : Store σ} {t r : Term σ} {v w : Var} {X : Set Var} {f g : Var → Var}

theorem Chained.root_eq_of_links (hs : s.Chained) (hl : s.Links v w) : s.root v = s.root w := by
  obtain ⟨x, hx⟩ := hs.exists_ends v
  rw [hx.root_eq, (hx.of_links hl).root_eq]

theorem Chained.not_links_root (hs : s.Chained) (v x : Var) : ¬ s.Links (s.root v) x := by
  obtain ⟨w, hw⟩ := hs.exists_ends v
  rw [hw.root_eq]
  exact hw.2 x

theorem ResolvesTo.of_chain (hvw : ReflTransGen s.Links v w) (h : s.ResolvesTo (.var v) r) :
    s.ResolvesTo (.var w) r := by
  induction hvw with
  | refl => exact h
  | tail _ hl ih => exact ih.of_bound hl

theorem ResolvesTo.of_root_eq (he : s.root v = s.root w) (h : s.ResolvesTo (.var w) r) :
    s.ResolvesTo (.var v) r := by
  have hroot := h.of_chain (s.reflTransGen_root w)
  rw [← he] at hroot
  exact hroot.chain (s.reflTransGen_root v)

theorem not_links_of_rename (hv : ∀ x, ¬ s.Links v x)
    (h : s'.binding w = (s.binding v).map (Term.rename g)) (x : Var) : ¬ s'.Links w x := by
  intro hx
  rw [Links, h] at hx
  cases hb : s.binding v with
  | none =>
    rw [hb] at hx
    cases hx
  | some t =>
    rw [hb] at hx
    cases t with
    | var y => exact hv y hb
    | node c args => cases hx

/-- The part of one store that lies in `X` is found again in another store, where `g` gives the
variables their names and `f` gives them to the ends of chains. -/
structure Embeds (s s' : Store σ) (X : Set Var) (g f : Var → Var) : Prop where
  closed : ∀ v ∈ X, ∀ w, s.PointsTo v w → w ∈ X
  root : ∀ v ∈ X, s'.root (g v) = f (s.root v)
  binding : ∀ v ∈ X, s'.binding (f (s.root v)) = (s.binding (s.root v)).map (Term.rename g)

namespace Embeds

theorem at_end (h : s.Embeds s' X g f) (hvX : v ∈ X) (hv : ∀ x, ¬ s.Links v x) :
    s'.binding (f v) = (s.binding v).map (Term.rename g) ∧ s'.root (g v) = s'.root (f v) := by
  have hroot := h.root v hvX
  have hbinding := h.binding v hvX
  rw [root_of_ends hv] at hroot hbinding
  exact ⟨hbinding, hroot.trans (root_of_ends (not_links_of_rename hv hbinding)).symm⟩

theorem resolvesTo (h : s.Embeds s' X g f) (hs : s.Acyclic) (ht : ∀ v ∈ t.vars, v ∈ X) :
    s'.ResolvesTo (t.rename g) ((s.resolved t).rename f) := by
  induction t using hs.induct with
  | node c args ih =>
    rw [resolved_node, Term.rename_node, Term.rename_node]
    refine .node ?_
    rw [List.forall₂_map_left_iff, List.forall₂_map_right_iff, List.forall₂_map_right_iff,
      List.forall₂_same]
    exact fun t htmem ↦ ih t htmem fun v hv ↦ ht v (Term.mem_vars_node.mpr ⟨t, htmem, hv⟩)
  | free v hv =>
    obtain ⟨hbinding, hroot⟩ := h.at_end (ht v (Term.mem_vars_var.mpr rfl))
      (not_links_of_binding (o := none) hv)
    rw [hv] at hbinding
    rw [resolved_of_free hv]
    exact .of_root_eq hroot (.free hbinding)
  | bound v u hv ih =>
    have hvX := ht v (Term.mem_vars_var.mpr rfl)
    have huX : ∀ w ∈ u.vars, w ∈ X := fun w hw ↦ h.closed v hvX w ⟨u, hv, hw⟩
    replace ih := ih huX
    rw [resolved_of_binding hs hv]
    cases u with
    | var w =>
      refine ih.of_root_eq ?_
      rw [h.root v hvX, h.root w (huX w (Term.mem_vars_var.mpr rfl)),
        hs.chained.root_eq_of_links hv]
    | node c args =>
      obtain ⟨hbinding, hroot⟩ := h.at_end hvX
        (not_links_of_binding (o := some ⟨c, args⟩) hv)
      rw [hv] at hbinding
      exact .of_root_eq hroot (.bound hbinding ih)

end Embeds

end Store

end Unification
