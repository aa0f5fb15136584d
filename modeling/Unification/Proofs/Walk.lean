import Unification.Proofs.Confined
import Unification.Proofs.Faithful
import Unification.Walk

namespace Unification

open Relation Script Contract

variable {σ : Type} {s s' : Store σ} {K : Contract σ} {V : Finset Var} {D : ℕ} {v : Var}

theorem Store.not_links_of_binding {o : Option (Layer σ (Term σ))}
    (h : s.binding v = o.map Layer.toTerm) (x : Var) : ¬ s.Links v x := by
  intro hx
  rw [Links, h] at hx
  cases o with
  | none => cases hx
  | some layer => cases hx

namespace Walk

variable {w : Walk σ}

inductive Follows (s : Store σ) : Var → Walk σ → Prop
  | free {v : Var} : s.binding v = none → Follows s v ⟨[], v, none⟩
  | layer {v : Var} {f : σ} {args : List (Term σ)} :
      s.binding v = some (.node f args) → Follows s v ⟨[], v, some ⟨f, args⟩⟩
  | link {v x : Var} {w : Walk σ} :
      s.Links v x → Follows s x w → Follows s v { w with passed := v :: w.passed }

theorem Follows.binding_root (h : Follows s v w) :
    s.binding w.root = w.value.map Layer.toTerm := by
  induction h with
  | free hb => exact hb
  | layer hb => exact hb
  | link _ _ ih => exact ih

theorem Follows.root_ends (h : Follows s v w) (x : Var) : ¬ s.Links w.root x :=
  Store.not_links_of_binding h.binding_root x

theorem Follows.chain (h : Follows s v w) : ReflTransGen s.Links v w.root := by
  induction h with
  | free hb => exact .refl
  | layer hb => exact .refl
  | link hl _ ih => exact .head hl ih

theorem Follows.passed (h : Follows s v w) : ∀ p ∈ w.passed, TransGen s.Links p w.root := by
  induction h with
  | free hb => exact nofun
  | layer hb => exact nofun
  | link hl h ih =>
    intro p hp
    rcases List.mem_cons.mp hp with rfl | hp
    · exact TransGen.head' hl h.chain
    · exact ih p hp

theorem Follows.stays {P : Var → Prop} (h : Follows s v w) (hP : ∀ x y, P x → s.Links x y → P y)
    (hv : P v) : P w.root ∧ ∀ p ∈ w.passed, P p := by
  induction h with
  | free hb => exact ⟨hv, nofun⟩
  | layer hb => exact ⟨hv, nofun⟩
  | link hl _ ih =>
    obtain ⟨hroot, hpassed⟩ := ih (hP _ _ hv hl)
    exact ⟨hroot, List.forall_mem_cons.mpr ⟨hv, hpassed⟩⟩

/-- A chain either has an end or comes back to a variable. Fuel for all variables of `V` is enough,
because none of them is passed twice. -/
theorem meets_chase {fuel : ℕ} {seen : List Var} {post : Walk σ → Store σ → Prop}
    (hpost : ∀ w, Follows s v w → post w s)
    (hloop : ∀ x, ReflTransGen s.Links v x → TransGen s.Links x x →
      K.failed (.clash (.occursIn x (.var x))) s)
    (hseen : ∀ x ∈ seen, TransGen s.Links x v)
    (hfuel : K.unfinished ∨ ∃ V D, s.Within V D ∧ (v :: seen).Nodup ∧ (∀ x ∈ v :: seen, x ∈ V) ∧
      V.card < fuel + seen.length) :
    (chase fuel seen v).Meets K post s := by
  induction fuel generalizing seen v post with
  | zero =>
    rcases hfuel with hfuel | ⟨V, D, -, hnodup, hmem, hcard⟩
    · exact hfuel
    · have hle := length_le_card hnodup hmem
      rw [List.length_cons] at hle
      omega
  | succ fuel ih =>
    rw [chase, meets_bind, meets_lookup]
    cases hb : s.binding v with
    | none => exact hpost _ (.free hb)
    | some t =>
      cases t with
      | node f args => exact hpost _ (.layer hb)
      | var x =>
        have hseen' : ∀ y ∈ v :: seen, TransGen s.Links y x := by
          intro y hy
          rcases List.mem_cons.mp hy with rfl | hy
          · exact .single hb
          · exact (hseen y hy).tail hb
        dsimp only
        by_cases hx : x ∈ v :: seen
        · rw [if_pos hx]
          exact hloop x (.single hb) (hseen' x hx)
        · rw [if_neg hx]
          have hloop' := fun y (hy : ReflTransGen s.Links x y) ↦ hloop y (.head hb hy)
          refine meets_bind.mpr (ih (fun w hw ↦ hpost _ (.link hb hw)) hloop' hseen' ?_)
          refine hfuel.imp_right fun ⟨V, D, hs, hnodup, hmem, hcard⟩ ↦ ?_
          have hxV : x ∈ V := (hs v (hmem v List.mem_cons_self) _ hb).mem
          refine ⟨V, D, hs, List.nodup_cons.mpr ⟨hx, hnodup⟩, ?_, ?_⟩
          · intro y hy
            rcases List.mem_cons.mp hy with rfl | hy
            · exact hxV
            · exact hmem y hy
          · rw [List.length_cons]
            omega

end Walk

def Store.KeepsEnds (s s' : Store σ) : Prop :=
  ∀ x, (∀ y, ¬ s.Links x y) → s'.binding x = s.binding x

theorem Store.alike_of_chain (hs : s.Chained) {x y : Var} (h : ReflTransGen s.Links x y) :
    s.Alike (.var x) (.var y) := by
  induction h with
  | refl => exact .refl s _
  | tail _ hl ih => exact ih.trans (alike_of_binding hs hl)

/-- The head is what the chain that a term starts with ends at. -/
def Head.Shows (s : Store σ) (t : Term σ) : Head σ → Prop
  | .free v => s.binding v = none ∧ s.Alike t (.var v)
  | .shape none layer => t = layer.toTerm
  | .shape (some v) layer => s.binding v = some layer.toTerm ∧ s.Alike t (.var v)

def Head.tip : Head σ → Term σ
  | .free v => .var v
  | .shape _ layer => layer.toTerm

theorem Head.Shows.alike {h : Head σ} {t : Term σ} (hh : h.Shows s t) : s.Alike t h.toTerm := by
  match h with
  | .free v => exact hh.2
  | .shape none layer =>
    obtain rfl : t = layer.toTerm := hh
    exact .refl s _
  | .shape (some v) layer => exact hh.2

theorem Head.Shows.alike_tip {h : Head σ} {t : Term σ} (hh : h.Shows s t) (hs : s.Chained) :
    s.Alike t h.tip := by
  match h with
  | .free v => exact hh.2
  | .shape none layer => exact hh.alike
  | .shape (some v) layer => exact hh.2.trans (Store.alike_of_binding hs hh.1)

theorem Head.Shows.target {h : Head σ} {t : Term σ} (hh : h.Shows s t) (hv : s.binding v = none)
    (hne : h ≠ .free v) : s.Target v h.toTerm := by
  match h with
  | .free w =>
    rintro _ ⟨⟩
    refine ⟨?_, Store.not_links_of_binding (o := none) hh.1⟩
    rintro rfl
    exact hne rfl
  | .shape none layer => exact Store.target_node s v _ _
  | .shape (some w) layer =>
    rintro _ ⟨⟩
    refine ⟨?_, Store.not_links_of_binding (o := some layer) hh.1⟩
    rintro rfl
    exact absurd (hv.symm.trans hh.1) (Option.some_ne_none _).symm

def Head.Within (V : Finset Var) (D : ℕ) (t : Term σ) : Head σ → Prop
  | .free v => v ∈ V
  | .shape none layer => t = layer.toTerm
  | .shape (some v) layer => v ∈ V ∧ layer.toTerm.Within V D

theorem meets_stepInto {path : List Var} {layer : Layer σ (Term σ)}
    {post : List Var → Store σ → Prop} :
    (stepInto path (some v) layer).Meets K post s ↔
      if v ∈ path then K.failed (.clash (.occursIn v layer.toTerm)) s else post (v :: path) s := by
  rw [stepInto]
  split <;> rfl

section Faithful

variable {eager : Bool} {Θ : (Var → Term σ) → Prop}

theorem Walk.meets_shorten_faithful {w : Walk σ} (hs : s.Chained) (hw : w.Follows s v) :
    w.shorten.Meets (faithful eager Θ) (fun _ s' ↦ s.KeepsEnds s') s := by
  have hI : w.shorten.Meets (faithful eager Θ)
      (fun _ s' ↦ (faithful eager Θ).Leads s s' ∧ s.KeepsEnds s') s := by
    refine meets_each (fun p hp s' ⟨hlead, hkeep⟩ ↦ ?_) ⟨.refl, fun _ _ ↦ rfl⟩
    have hchain := hw.passed p (List.dropLast_subset _ hp)
    obtain ⟨x, hpx, -⟩ := TransGen.head'_iff.mp hchain
    have hne : w.root ≠ p := by
      intro he
      exact hs p (he ▸ hchain)
    have hends : ∀ y, ¬ s'.Links w.root y := by
      intro y hy
      unfold Store.Links at hy
      rw [hkeep w.root hw.root_ends] at hy
      exact hw.root_ends y hy
    have hbind : (faithful eager Θ).bind s' p (.var w.root) := by
      refine faithful_restate ?_ (hlead.bound ?_) (hlead.alike hs ?_)
      · rintro _ ⟨⟩
        exact ⟨hne, hends⟩
      · rw [hpx]
        exact Option.some_ne_none _
      · exact Store.alike_of_chain hs hchain.to_reflTransGen
    refine meets_bind.mpr (meets_log.mpr (meets_assign.mpr ⟨hbind, ?_, ?_⟩))
    · exact .call (.bind p (.var w.root)) hlead hbind
    · intro y hy
      have hyp : y ≠ p := by
        rintro rfl
        exact hy x hpx
      rw [Store.binding_bind, if_neg hyp]
      exact hkeep y hy
  exact hI.mono fun _ s' _ h ↦ h.2

theorem meets_find_faithful (hs : s.Chained) (fuel : ℕ) (t : Term σ) :
    (find fuel t).Meets (faithful eager Θ) (fun h s' ↦ h.Shows s' t ∧ s.KeepsEnds s') s := by
  cases t with
  | node f args => exact ⟨rfl, fun _ _ ↦ rfl⟩
  | var v =>
    refine meets_bind.mpr (Walk.meets_chase (fun w hw ↦ ?_) ?_ nofun (.inl trivial))
    · refine meets_bind.mpr ((Walk.meets_shorten_faithful hs hw).mono fun _ s' hlead hkeep ↦ ?_)
      have halike := hlead.alike hs (Store.alike_of_chain hs hw.chain)
      have hroot := (hkeep w.root hw.root_ends).trans hw.binding_root
      refine ⟨?_, hkeep⟩
      unfold Walk.head
      cases hv : w.value with
      | none => exact ⟨by rw [hroot, hv, Option.map_none], halike⟩
      | some layer => exact ⟨by rw [hroot, hv, Option.map_some], halike⟩
    · exact fun x _ hx ↦ absurd hx (hs x)

theorem Head.Shows.keep {h : Head σ} {t : Term σ} (hh : h.Shows s t) (hs : s.Chained)
    (hlead : (faithful eager Θ).Leads s s') (hkeep : s.KeepsEnds s') : h.Shows s' t := by
  match h with
  | .free v =>
    have hv := hkeep v (Store.not_links_of_binding (o := none) hh.1)
    exact ⟨hv.trans hh.1, hlead.alike hs hh.2⟩
  | .shape none layer => exact hh
  | .shape (some v) layer =>
    have hv := hkeep v (Store.not_links_of_binding (o := some layer) hh.1)
    exact ⟨hv.trans hh.1, hlead.alike hs hh.2⟩

end Faithful

section Confined

theorem Walk.Follows.within {w : Walk σ} (hw : w.Follows s v) (hs : s.Within V D) (hv : v ∈ V) :
    w.root ∈ V ∧ ∀ p ∈ w.passed, p ∈ V :=
  hw.stays (fun x _ hx hxy ↦ (hs x hx _ hxy).mem) hv

theorem Walk.Follows.head_within {w : Walk σ} (hw : w.Follows s v) (hs : s.Within V D)
    (hv : v ∈ V) : w.head.Within V D (.var v) := by
  obtain ⟨hroot, -⟩ := hw.within hs hv
  unfold Walk.head
  cases hl : w.value with
  | none => exact hroot
  | some layer =>
    refine ⟨hroot, hs w.root hroot _ ?_⟩
    rw [hw.binding_root, hl, Option.map_some]

theorem Walk.meets_chase_confined {fuel : ℕ} {post : Walk σ → Store σ → Prop} (hs : s.Within V D)
    (hv : v ∈ V) (hfuel : V.card < fuel) (hpost : ∀ w, Follows s v w → post w s) :
    (chase fuel [] v).Meets (confined V D) post s := by
  refine meets_chase hpost (fun _ _ _ ↦ trivial) nofun
    (.inr ⟨V, D, hs, List.nodup_singleton v, fun x hx ↦ ?_, hfuel⟩)
  rwa [List.mem_singleton.mp hx]

theorem Walk.meets_shorten_confined {w : Walk σ} (hw : w.Follows s v) (hs : s.Within V D)
    (hv : v ∈ V) (hD : 0 < D) : w.shorten.Meets (confined V D) (fun _ _ ↦ True) s := by
  obtain ⟨hroot, hpassed⟩ := hw.within hs hv
  refine meets_each (fun p hp s' _ ↦ ?_) trivial
  refine meets_bind.mpr (meets_log.mpr (meets_assign.mpr ⟨⟨?_, ?_⟩, trivial⟩))
  · exact hpassed p (List.dropLast_subset _ hp)
  · exact Term.within_var hroot hD

theorem meets_find_confined {fuel : ℕ} {t : Term σ} (hs : s.Within V D) (ht : t.Within V D)
    (hfuel : V.card < fuel) :
    (find fuel t).Meets (confined V D) (fun h _ ↦ h.Within V D t) s := by
  cases t with
  | node f args => exact rfl
  | var v =>
    refine meets_bind.mpr (Walk.meets_chase_confined hs ht.mem hfuel fun w hw ↦ ?_)
    refine meets_bind.mpr ((Walk.meets_shorten_confined hw hs ht.mem ht.2).mono fun _ _ _ _ ↦ ?_)
    exact hw.head_within hs ht.mem

theorem meets_peek_confined {fuel : ℕ} {t : Term σ} (hs : s.Within V D) (ht : t.Within V D)
    (hfuel : V.card < fuel) :
    (peek fuel t).Meets (confined V D) (fun h _ ↦ h.Within V D t) s := by
  cases t with
  | node f args => exact rfl
  | var v =>
    exact meets_bind.mpr (Walk.meets_chase_confined hs ht.mem hfuel fun w hw ↦
      hw.head_within hs ht.mem)

end Confined

end Unification
