import Mathlib.Data.List.Infix
import Mathlib.Data.List.Nodup
import Unification.Proofs.Among
import Unification.Proofs.RenameApart.Embedding
import Unification.Proofs.Transaction.Closed

namespace Unification

open Relation Script Contract

variable {σ : Type} {s s₁ s₂ : Store σ} {V : Finset Var} {path path' vs ws : List Var}
  {memo : Memo σ} {t u : Term σ} {ts us : List (Term σ)} {v w : Var} {fuel n : ℕ}

namespace Store

/-- A set of allocated ends of chains, with the ends of everything that stands in their bindings. -/
structure Basin (s : Store σ) (V : Finset Var) : Prop where
  ends : ∀ v ∈ V, ∀ w, ¬ s.Links v w
  allocated : ∀ v ∈ V, v.id < s.next
  closed : ∀ v ∈ V, ∀ w, s.PointsTo v w → s.root w ∈ V

/-- The name of the copy of a variable, if those in the list are copied one after the other. All
variables of a chain have the copy of its end. -/
noncomputable def copyName (s : Store σ) (vs : List Var) (v : Var) : Var :=
  ⟨s.next + vs.idxOf (s.root v)⟩

def EndsIn (s : Store σ) (vs : List Var) (t : Term σ) : Prop := ∀ v ∈ t.vars, s.root v ∈ vs

theorem copyName_root (s : Store σ) (vs : List Var) (v : Var) :
    s.copyName vs (s.root v) = s.copyName vs v := by
  rw [copyName, copyName, root_root]

theorem copyName_of_mem (h : vs <+: ws) (hv : s.root v ∈ vs) :
    s.copyName ws v = s.copyName vs v := by
  obtain ⟨rest, rfl⟩ := h
  rw [copyName, copyName, List.idxOf_append_of_mem hv]

theorem EndsIn.mono (ht : s.EndsIn vs t) (h : vs <+: ws) : s.EndsIn ws t :=
  fun v hv ↦ h.subset (ht v hv)

theorem EndsIn.rename_eq (ht : s.EndsIn vs t) (h : vs <+: ws) :
    t.rename (s.copyName ws) = t.rename (s.copyName vs) :=
  Term.rename_congr fun v hv ↦ copyName_of_mem h (ht v hv)

theorem map_rename_copyName (h : vs <+: ws) (hclosed : ∀ w, s.PointsTo v w → s.root w ∈ vs) :
    (s.binding v).map (Term.rename (s.copyName ws)) =
      (s.binding v).map (Term.rename (s.copyName vs)) :=
  Option.map_congr fun _ ht ↦ EndsIn.rename_eq (fun w hw ↦ hclosed w ⟨_, ht, hw⟩) h

theorem copyName_append_self (hends : ∀ w, ¬ s.Links v w) (hnew : v ∉ vs) :
    s.copyName (vs ++ [v]) v = ⟨s.next + vs.length⟩ := by
  rw [copyName, root_of_ends hends, List.idxOf_append_of_notMem hnew, List.idxOf_cons_self,
    Nat.add_zero]

theorem copyName_inj (hv : s.root v ∈ vs) (he : s.copyName vs v = s.copyName vs w) :
    s.root v = s.root w := by
  have hidx := Nat.add_left_cancel (congrArg Var.id he)
  exact (List.idxOf_inj hv).mp hidx

/-- Different variables of `V`, with the ends of everything that stands in their bindings. -/
structure Batch (s : Store σ) (V : Finset Var) (vs : List Var) : Prop where
  nodup : vs.Nodup
  within : ∀ v ∈ vs, v ∈ V
  closed : ∀ v ∈ vs, ∀ w, s.PointsTo v w → s.root w ∈ vs

namespace Batch

theorem nil (s : Store σ) (V : Finset Var) : s.Batch V [] := ⟨.nil, nofun, nofun⟩

theorem append (h : s.Batch V vs) (hv : v ∈ V) (hnew : v ∉ vs)
    (hclosed : ∀ w, s.PointsTo v w → s.root w ∈ vs) : s.Batch V (vs ++ [v]) := by
  have hall : ∀ P : Var → Prop, (∀ x ∈ vs, P x) → P v → ∀ x ∈ vs ++ [v], P x :=
    fun P hvs hv ↦ List.forall_mem_append.mpr ⟨hvs, List.forall_mem_singleton.mpr hv⟩
  refine ⟨?_, hall _ h.within hv, hall _ (fun x hx w hw ↦ ?_) fun w hw ↦ ?_⟩
  · rw [List.nodup_append_comm, List.singleton_append]
    exact List.nodup_cons.mpr ⟨hnew, h.nodup⟩
  · exact List.mem_append_left _ (h.closed x hx w hw)
  · exact List.mem_append_left _ (hclosed w hw)

theorem length_lt (h : s.Batch V vs) (hv : v ∈ V) (hnew : v ∉ vs) : vs.length < V.card :=
  length_le_card (List.nodup_cons.mpr ⟨hnew, h.nodup⟩) (List.forall_mem_cons.mpr ⟨hv, h.within⟩)

end Batch

theorem Batch.root_mem (h : s.Batch V vs) (hs : s.Chained) (hv : s.root v ∈ vs)
    (hp : s.PointsTo v w) : s.root w ∈ vs := by
  by_cases hl : ∃ x, s.Links v x
  · obtain ⟨x, hx⟩ := hl
    obtain ⟨t, ht, hw⟩ := hp
    obtain rfl := Option.some.inj (hx.symm.trans ht)
    rwa [Term.mem_vars_var.mp hw, ← hs.root_eq_of_links hx]
  · rw [root_of_ends fun x hx ↦ hl ⟨x, hx⟩] at hv
    exact h.closed v hv w hp

/-- The second store is the first one with a copy of every variable of the list. The copies come
after what was there, in the order of the list, and what was there means what it did before. -/
structure CopiedTo (s : Store σ) (V : Finset Var) (vs : List Var) (s' : Store σ) : Prop where
  batch : s.Batch V vs
  config : s'.config = s.config
  next : s'.next = s.next + vs.length
  limit : s.next ≤ s.config.capacity → s'.next ≤ s.config.capacity
  root : s'.root = s.root
  kept : ∀ v, v.id < s.next → (∀ w, ¬ s.Links v w) → s'.binding v = s.binding v
  copies : ∀ v ∈ vs, s'.binding (s.copyName vs v) =
    (s.binding v).map (Term.rename (s.copyName vs))
  vacant : ∀ v, s'.next ≤ v.id → s'.binding v = none

namespace CopiedTo

theorem nil (hs : s.Contained) (V : Finset Var) : s.CopiedTo V [] s where
  batch := .nil s V
  config := rfl
  next := rfl
  limit hl := hl
  root := rfl
  kept _ _ _ := rfl
  copies := nofun
  vacant _ := hs.free_of_le

theorem id_lt (h : s.CopiedTo V vs s₁) (hv : s.root v ∈ vs) : (s.copyName vs v).id < s₁.next := by
  rw [h.next, copyName]
  exact Nat.add_lt_add_left (List.idxOf_lt_length_iff.mpr hv) _

theorem same (h : s.CopiedTo V vs s₁) (hV : s.Basin V) (hsame : s₁.SameRoots s₂)
    (hconfig : s₂.config = s₁.config) (hnext : s₂.next = s₁.next) : s.CopiedTo V vs s₂ := by
  have hends : ∀ x, (∀ y, ¬ s₁.Links x y) → s₂.binding x = s₁.binding x := by
    intro x hx
    rw [← root_of_ends hx, hsame.binding]
  refine ⟨h.batch, hconfig.trans h.config, hnext.trans h.next, hnext ▸ h.limit,
    hsame.root.trans h.root, fun v hv hlast ↦ ?_, fun v hv ↦ ?_, fun v hv ↦ ?_⟩
  · have hkept := h.kept v hv hlast
    rw [hends v fun y hy ↦ hlast y ?_, hkept]
    rwa [Links, hkept] at hy
  · have hcopy := h.copies v hv
    rw [hends _ (not_links_of_rename (hV.ends v (h.batch.within v hv)) hcopy), hcopy]
  · have hfree := h.vacant v (hnext ▸ hv)
    rw [hends v (not_links_of_binding (o := none) hfree), hfree]

/-- One more variable is copied when the ends of all that its binding points to have been. -/
theorem append (h : s.CopiedTo V vs s₁) (hV : s.Basin V) (hv : v ∈ V) (hnew : v ∉ vs)
    (hclosed : ∀ w, s.PointsTo v w → s.root w ∈ vs) (hfresh : s₁.exhausted? = none)
    (hconfig : s₂.config = s₁.config) (hnext : s₂.next = s₁.next + 1)
    (hroot : s₂.root = s₁.root)
    (hbinding : ∀ x, s₂.binding x = if x = ⟨s₁.next⟩ then
      (s.binding v).map (Term.rename (s.copyName vs)) else s₁.binding x) :
    s.CopiedTo V (vs ++ [v]) s₂ := by
  have hbatch := h.batch.append hv hnew hclosed
  have hpre : vs <+: vs ++ [v] := List.prefix_append vs [v]
  refine ⟨hbatch, hconfig.trans h.config, ?_, fun _ ↦ ?_, hroot.trans h.root,
    fun x hx hlast ↦ ?_, fun x hx ↦ ?_, fun x hx ↦ ?_⟩
  · rw [hnext, h.next, List.length_append, List.length_singleton, Nat.add_assoc]
  · rw [hnext, ← h.config]
    exact exhausted?_eq_none.mp hfresh
  · rw [hbinding, if_neg, h.kept x hx hlast]
    rintro rfl
    exact absurd hx (Nat.not_lt.mpr (h.next ▸ Nat.le_add_right _ _))
  · rcases List.mem_append.mp hx with hx | hx
    · have hxr : s.root x ∈ vs := by rwa [root_of_ends (hV.ends x (h.batch.within x hx))]
      have hne : s.copyName vs x ≠ ⟨s₁.next⟩ :=
        fun he ↦ absurd (congrArg Var.id he) (h.id_lt hxr).ne
      rw [map_rename_copyName hpre (h.batch.closed x hx), hbinding, copyName_of_mem hpre hxr,
        if_neg hne, h.copies x hx]
    · obtain rfl := List.mem_singleton.mp hx
      rw [map_rename_copyName hpre hclosed, hbinding, copyName_append_self (hV.ends x hv) hnew,
        h.next, if_pos rfl]
  · have hlt : s₁.next < x.id := by rwa [hnext, Nat.succ_le_iff] at hx
    rw [hbinding, if_neg, h.vacant x hlt.le]
    rintro rfl
    exact absurd hlt (Nat.lt_irrefl _)

theorem binding_copyName (h : s.CopiedTo V vs s₁) (hv : s.root v ∈ vs) :
    s₁.binding (s.copyName vs v) = (s.binding (s.root v)).map (Term.rename (s.copyName vs)) := by
  rw [← copyName_root]
  exact h.copies _ hv

theorem embeds_old (h : s.CopiedTo V vs s₁) (hs : s.Acyclic) (hc : s.Contained) :
    s.Embeds s₁ {v | v.id < s.next} id id where
  closed _ _ w := fun ⟨_, ht, hw⟩ ↦ hc.below_of_binding ht w hw
  root v _ := congrFun h.root v
  binding v hv := by
    have hold := hc.id_lt_of_reflTransGen hv (s.reflTransGen_pointsTo_root v)
    rw [id, h.kept _ hold (hs.chained.not_links_root v), funext Term.rename_id, Option.map_id']

theorem embeds_copies (h : s.CopiedTo V vs s₁) (hs : s.Acyclic) :
    s.Embeds s₁ {v | s.root v ∈ vs} (s.copyName vs) (s.copyName vs) where
  closed _ hv _ hp := h.batch.root_mem hs.chained hv hp
  root v hv := by
    rw [copyName_root]
    exact root_of_ends (not_links_of_rename (hs.chained.not_links_root v) (h.binding_copyName hv))
  binding v hv := by
    rw [copyName_root]
    exact h.binding_copyName hv

theorem resolvesTo_old (h : s.CopiedTo V vs s₁) (hs : s.Acyclic) (hc : s.Contained)
    (ht : t.Below s.next) : s₁.ResolvesTo t (s.resolved t) := by
  have hold := (h.embeds_old hs hc).resolvesTo hs ht
  rwa [Term.rename_id, Term.rename_id] at hold

theorem resolvesTo_copy (h : s.CopiedTo V vs s₁) (hs : s.Acyclic) (ht : s.EndsIn vs t) :
    s₁.ResolvesTo (t.rename (s.copyName vs)) ((s.resolved t).rename (s.copyName vs)) :=
  (h.embeds_copies hs).resolvesTo hs ht

theorem le_of_reaches_copy (h : s.CopiedTo V vs s₁) (ht : s.EndsIn vs t)
    (hx : s₁.Reaches (t.rename (s.copyName vs)) w) : s.next ≤ w.id := by
  have hcopy : ∃ v, s.root v ∈ vs ∧ w = s.copyName vs v := by
    obtain ⟨y, hy, hyw⟩ := hx
    induction hyw with
    | refl =>
      obtain ⟨v, hv, rfl⟩ := Term.mem_vars_rename.mp hy
      exact ⟨v, ht v hv, rfl⟩
    | tail _ hp ih =>
      obtain ⟨v, hv, rfl⟩ := ih
      obtain ⟨u, hu, hz⟩ := hp
      rw [h.binding_copyName hv] at hu
      obtain ⟨t, ht, rfl⟩ := Option.map_eq_some_iff.mp hu
      obtain ⟨x, hx, rfl⟩ := Term.mem_vars_rename.mp hz
      exact ⟨x, h.batch.closed _ hv x ⟨t, ht, hx⟩, rfl⟩
  obtain ⟨v, -, rfl⟩ := hcopy
  exact Nat.le_add_right _ _

end CopiedTo

end Store

end Unification
