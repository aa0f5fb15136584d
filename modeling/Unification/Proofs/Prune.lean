import Unification.Proofs.Walk

namespace Unification

open Script Contract

variable {σ : Type} {s : Store σ} {v : Var} {t : Term σ} {fuel : ℕ}

section Faithful

variable {eager : Bool} {Θ : (Var → Term σ) → Prop}

theorem meets_representative_faithful (hs : s.Chained) :
    (representative fuel t).Meets (faithful eager Θ) (fun x s' ↦ s'.Alike t x) s := by
  refine meets_bind.mpr ((meets_find_faithful hs fuel t).mono fun h s' _ ⟨hh, _⟩ ↦ ?_)
  match h with
  | .free v => exact hh.2
  | .shape none layer =>
    obtain rfl : t = layer.toTerm := hh
    exact .refl s' _
  | .shape (some v) layer => exact hh.2

theorem Walk.meets_collapse_faithful {w : Walk σ} {layer : Layer σ (Term σ)} (hs : s.Chained)
    (hw : w.Follows s v) (hl : w.value = some layer) :
    (Script.each (fun link ↦ do
      Script.log (.collapsed link)
      Script.assign link layer.toTerm) w.passed).Meets (faithful eager Θ)
      (fun _ s' ↦ (faithful eager Θ).Leads s s') s := by
  refine meets_each (fun p hp s' hlead ↦ ?_) .refl
  have hchain := hw.passed p hp
  obtain ⟨x, hpx, -⟩ := Relation.TransGen.head'_iff.mp hchain
  have hroot : s.binding w.root = some layer.toTerm := by
    rw [hw.binding_root, hl, Option.map_some]
  have halike : s.Alike (.var p) layer.toTerm :=
    (Store.alike_of_chain hs hchain.to_reflTransGen).trans (Store.alike_of_binding hs hroot)
  have hbound : s.binding p ≠ none := by
    rw [hpx]
    exact Option.some_ne_none _
  have hbind : (faithful eager Θ).bind s' p layer.toTerm :=
    faithful_restate (Store.target_node s' p _ _) (hlead.bound hbound) (hlead.alike hs halike)
  exact meets_bind.mpr (meets_log.mpr (meets_assign.mpr
    ⟨hbind, .call (.bind p layer.toTerm) hlead hbind⟩))

theorem meets_terminal_faithful (hs : s.Chained) :
    (terminal fuel t).Meets (faithful eager Θ) (fun x s' ↦ s'.Alike t x) s := by
  cases t with
  | node f args => exact .refl s _
  | var v =>
    refine meets_bind.mpr (Walk.meets_chase (fun w hw ↦ ?_) (fun x _ hx ↦ absurd hx (hs x)) nofun
      (.inl trivial))
    have hroot := Store.alike_of_chain hs hw.chain
    cases hl : w.value with
    | none =>
      refine meets_bind.mpr ((Walk.meets_shorten_faithful hs hw).mono fun _ s' hlead _ ↦ ?_)
      exact hlead.alike hs hroot
    | some layer =>
      refine meets_bind.mpr ((Walk.meets_collapse_faithful hs hw hl).mono fun _ s' hlead _ ↦ ?_)
      have hlayer : s.Alike (.var w.root) layer.toTerm := by
        refine Store.alike_of_binding hs ?_
        rw [hw.binding_root, hl, Option.map_some]
      exact hlead.alike hs (hroot.trans hlayer)

end Faithful

section Confined

variable {V : Finset Var} {D : ℕ}

theorem Head.within_toTerm {h : Head σ} (hh : h.Within V D t) (ht : t.Within V D) :
    h.toTerm.Within V D := by
  have hD : 0 < D := t.size_pos.trans_le ht.2
  match h with
  | .free v => exact Term.within_var hh hD
  | .shape none layer =>
    obtain rfl : t = layer.toTerm := hh
    exact ht
  | .shape (some v) layer => exact Term.within_var hh.1 hD

theorem meets_representative_confined (hs : s.Within V D) (ht : t.Within V D)
    (hfuel : V.card < fuel) :
    (representative fuel t).Meets (confined V D) (fun x _ ↦ x.Within V D) s := by
  refine meets_bind.mpr ((meets_find_confined hs ht hfuel).mono fun h _ _ hh ↦ ?_)
  exact Head.within_toTerm hh ht

theorem meets_terminal_confined (hs : s.Within V D) (ht : t.Within V D) (hfuel : V.card < fuel) :
    (terminal fuel t).Meets (confined V D) (fun x _ ↦ x.Within V D) s := by
  cases t with
  | node f args => exact ht
  | var v =>
    refine meets_bind.mpr (Walk.meets_chase_confined hs ht.mem hfuel fun w hw ↦ ?_)
    obtain ⟨hroot, hpassed⟩ := hw.within hs ht.mem
    cases hl : w.value with
    | none =>
      refine meets_bind.mpr ((Walk.meets_shorten_confined hw hs ht.mem ht.2).mono fun _ _ _ _ ↦ ?_)
      exact Term.within_var hroot ht.2
    | some layer =>
      have hlayer : layer.toTerm.Within V D := by
        refine hs w.root hroot _ ?_
        rw [hw.binding_root, hl, Option.map_some]
      refine meets_bind.mpr ((meets_each (I := fun _ ↦ True) (fun p hp s' _ ↦ ?_) trivial).mono
        fun _ _ _ _ ↦ hlayer)
      exact meets_bind.mpr (meets_log.mpr (meets_assign.mpr ⟨⟨hpassed p hp, hlayer⟩, trivial⟩))

end Confined

end Unification
