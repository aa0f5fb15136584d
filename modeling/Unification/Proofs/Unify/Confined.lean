import Unification.Proofs.Unify.Faithful

namespace Unification

open Script Contract

variable {σ : Type} {V : Finset Var} {D n fuel : ℕ} {s : Store σ} {mode : Mode} {path : List Var}
  {t u : Term σ} {v w : Var}

theorem Term.Within.mono {E : ℕ} (h : t.Within V D) (hD : D ≤ E) : t.Within V E :=
  ⟨h.1, h.2.trans hD⟩

theorem Term.within_node {f : σ} {ts bs : List (Term σ)}
    (h : List.Forall₂ (fun t b ↦ b.Within V t.size) ts bs) :
    (node f bs).Within V (node f ts).size := by
  induction h with
  | nil => exact ⟨fun w hw ↦ by simp at hw, le_rfl⟩
  | @cons t b ts bs hb _ ih =>
    constructor
    · intro w hw
      obtain ⟨c, hc, hwc⟩ := mem_vars_node.mp hw
      rcases List.mem_cons.mp hc with rfl | hc
      · exact hb.1 w hwc
      · exact ih.1 w (mem_vars_node.mpr ⟨c, hc, hwc⟩)
    · have hsize := ih.2
      have hsize' := hb.2
      simp only [size_node, List.map_cons, List.sum_cons] at hsize ⊢
      omega

/-- A pair of terms that can be unified within the recursion depth `n`. Every variable of `V` is
entered at most once, and between two of them the depth is at most the size of a term. -/
structure Fits (V : Finset Var) (D n : ℕ) (path : List Var) (t u : Term σ) : Prop where
  left : t.Within V D
  right : u.Within V D
  nodup : path.Nodup
  inside : ∀ x ∈ path, x ∈ V
  depth : (V.card - path.length) * (D + 1) + t.size ≤ n

theorem Fits.enter {t' u' : Term σ} (h : Fits V D n path t u) (hv : v ∈ V) (hnot : v ∉ path)
    (ht : t'.Within V D) (hu : u'.Within V D) : Fits V D n (v :: path) t' u' := by
  have hnodup : (v :: path).Nodup := List.nodup_cons.mpr ⟨hnot, h.nodup⟩
  have hinside : ∀ x ∈ v :: path, x ∈ V := by
    intro x hx
    rcases List.mem_cons.mp hx with rfl | hx
    · exact hv
    · exact h.inside x hx
  refine ⟨ht, hu, hnodup, hinside, ?_⟩
  have hlen := length_le_card hnodup hinside
  have hdepth := h.depth
  have hsize := ht.2
  rw [List.length_cons] at hlen ⊢
  obtain ⟨k, hk⟩ : ∃ k, V.card - path.length = k + 1 := ⟨V.card - path.length - 1, by omega⟩
  have hk' : V.card - (path.length + 1) = k := by omega
  rw [hk, Nat.add_mul] at hdepth
  rw [hk']
  omega

theorem Fits.slot {l r : Layer σ (Term σ)} (h : Fits V D (n + 1) path l.toTerm r.toTerm)
    (ht : t ∈ l.slots) (hu : u ∈ r.slots) : Fits V D n path t u := by
  refine ⟨h.left.slot ht, h.right.slot hu, h.nodup, h.inside, ?_⟩
  have hdepth := h.depth
  have hlt : t.size < l.toTerm.size := Term.size_lt_of_mem l.symbol ht
  omega

section Bind

variable (hfuel : D + V.card * (D + 1) ≤ fuel)

include hfuel

theorem meets_guardOccurs_confined (hs : s.Within V D) (ht : t.Within V D) :
    (guardOccurs mode fuel v t).Meets (confined V D) (fun _ _ ↦ True) s := by
  rw [guardOccurs, meets_when]
  split
  · exact meets_bind.mpr (meets_occurs (fun _ ↦ trivial) (fun _ ↦ trivial)
      (.inr ⟨V, D, hs, ht, hfuel⟩))
  · exact trivial

theorem meets_bindFree_confined {layer : Layer σ (Term σ)} (hs : s.Within V D) (hv : v ∈ V)
    (hl : layer.toTerm.Within V D) :
    (bindFree mode fuel v layer).Meets (confined V D) (fun x _ ↦ x.Within V 1) s := by
  rw [bindFree, meets_bind]
  refine (meets_guardOccurs_confined hfuel hs hl).mono fun _ _ _ _ ↦ ?_
  exact meets_bind.mpr (meets_assign.mpr ⟨⟨hv, hl⟩, Term.within_var hv Nat.one_pos⟩)

theorem meets_absorb_confined {kept absorbed : Var} {kb ab unified : Option (Layer σ (Term σ))}
    {tie : Bool} (hD : 0 < D) (hs : s.Within V D) (hk : kept ∈ V) (ha : absorbed ∈ V)
    (hab : ∀ a ∈ ab, a.toTerm.Within V D) (hm : ∀ m ∈ unified, m.toTerm.Within V D) :
    (absorb mode fuel kept kb absorbed ab unified tie).Meets (confined V D)
      (fun x _ ↦ x.Within V 1) s := by
  have hkept : (Term.var kept : Term σ).Within V D := Term.within_var hk hD
  have hset : ∀ o : Option (Layer σ (Term σ)), (∀ m ∈ o, m.toTerm.Within V D) →
      (absorb.bindKept mode fuel kept kb o).Meets (confined V D) (fun _ _ ↦ True) s := by
    intro o ho
    cases o with
    | none => exact trivial
    | some m =>
      have hm := ho m rfl
      rw [absorb.bindKept, meets_bind, meets_when]
      split
      · refine (meets_guardOccurs_confined hfuel hs hm).mono fun _ _ _ _ ↦ ?_
        exact meets_assign.mpr ⟨⟨hk, hm⟩, trivial⟩
      · exact meets_assign.mpr ⟨⟨hk, hm⟩, trivial⟩
  rw [absorb, meets_bind]
  refine (hset _ fun m hm' ↦ ?_).mono fun _ s₁ h₁ _ ↦ meets_bind.mpr ?_
  · rcases Option.or_eq_some_iff.mp hm' with hm' | ⟨-, hm'⟩
    · exact hm m hm'
    · split at hm'
      · exact hab m hm'
      · cases hm'
  have hpromote : (Script.when tie do
      Script.log (.promoting kept)
      Script.promote kept).Meets (confined V D) (fun _ _ ↦ True) s₁ := by
    rw [meets_when]
    split
    · exact ⟨hk, trivial⟩
    · exact trivial
  refine hpromote.mono fun _ s₂ h₂ _ ↦ meets_bind.mpr ?_
  have hguard : (Script.when ab.isNone (guardOccurs mode fuel absorbed (.var kept))).Meets
      (confined V D) (fun _ _ ↦ True) s₂ := by
    rw [meets_when]
    split
    · exact meets_guardOccurs_confined hfuel (h₂.within (h₁.within hs)) hkept
    · exact trivial
  refine hguard.mono fun _ _ _ _ ↦ meets_bind.mpr (meets_log.mpr (meets_bind.mpr ?_))
  exact meets_assign.mpr ⟨⟨ha, hkept⟩, Term.within_var hk Nat.one_pos⟩

end Bind

section Step

variable [DecidableEq σ] {recurse : List Var → Term σ → Term σ → Script σ Refusal (Term σ)}
  (hrec : ∀ path t u s, s.Within V D → Fits V D n path t u →
    (recurse path t u).Meets (confined V D) (fun x _ ↦ x.Within V t.size) s)
  {l r : Layer σ (Term σ)}

include hrec

theorem meets_unifyLayers_confined (hs : s.Within V D)
    (h : Fits V D (n + 1) path l.toTerm r.toTerm) :
    (unifyLayers recurse path l r).Meets (confined V D)
      (fun m _ ↦ m.toTerm.Within V l.toTerm.size) s := by
  unfold unifyLayers
  cases ha : l.align? r with
  | none => exact trivial
  | some a =>
    obtain ⟨hl, -, hleft, -⟩ := Layer.align?_eq_some ha
    refine meets_bind.mpr ((meets_mapEach (I := Store.Within V D)
      (R := fun _ x b ↦ b.Within V x.left.size) ?_ (fun _ _ _ _ _ _ hb ↦ hb) hs).mono
      fun bs s' _ ⟨_, hbs⟩ ↦ ?_)
    · intro x hx s₁ hs₁
      have hfit : Fits V D n path x.left x.right :=
        h.slot (Layer.left_mem ha hx) (Layer.right_mem ha hx)
      cases x with
      | same t => exact ⟨hs₁, hfit.left.1, le_rfl⟩
      | differ t u =>
        exact (hrec path t u s₁ hs₁ hfit).mono fun b s₂ h₂ hb ↦ ⟨h₂.within hs₁, hb⟩
    · change (Term.node a.symbol bs).Within V (Term.node l.symbol l.slots).size
      rw [hl, ← hleft]
      exact Term.within_node (List.forall₂_map_left_iff.mpr hbs)

theorem meets_rebind_confined {bound : Layer σ (Term σ)} (hs : s.Within V D) (hv : v ∈ V)
    (h : Fits V D (n + 1) path t u) (hl : l.toTerm.Within V D) (hr : r.toTerm.Within V D) :
    (rebind recurse path v bound l r).Meets (confined V D) (fun x _ ↦ x.Within V 1) s := by
  rw [rebind, meets_bind, meets_stepInto]
  by_cases hmem : v ∈ path
  · rw [if_pos hmem]
    exact trivial
  rw [if_neg hmem]
  refine meets_bind.mpr ((meets_unifyLayers_confined hrec hs (h.enter hv hmem hl hr)).mono
    fun m s₁ _ hm ↦ ?_)
  exact meets_bind.mpr (meets_assign.mpr ⟨⟨hv, hm.mono hl.2⟩, Term.within_var hv Nat.one_pos⟩)

theorem meets_unifyBindings_confined {l r : Option (Layer σ (Term σ))} (hs : s.Within V D)
    (hv : v ∈ V) (hw : w ∈ V) (h : Fits V D (n + 1) path t u)
    (hl : ∀ l' ∈ l, l'.toTerm.Within V D) (hr : ∀ r' ∈ r, r'.toTerm.Within V D) :
    (joinVars.unifyBindings recurse path v l w r).Meets (confined V D)
      (fun m _ ↦ ∀ m' ∈ m, m'.toTerm.Within V D) s := by
  match l, r with
  | none, none => exact nofun
  | none, some r => exact nofun
  | some l, none => exact nofun
  | some l, some r =>
    have hl := hl l rfl
    have hr := hr r rfl
    rw [joinVars.unifyBindings, meets_bind, meets_stepInto]
    by_cases hv' : v ∈ path
    · rw [if_pos hv']
      exact trivial
    rw [if_neg hv', meets_bind, meets_stepInto]
    by_cases hw' : w ∈ v :: path
    · rw [if_pos hw']
      exact trivial
    rw [if_neg hw']
    have hfit := (h.enter hv hv' hl hr).enter hw hw' hl hr
    refine meets_bind.mpr ((meets_unifyLayers_confined hrec hs hfit).mono fun m s₁ _ hm ↦ ?_)
    rintro m' ⟨⟩
    exact hm.mono hl.2

theorem meets_unifyVars_confined {l r : Option (Layer σ (Term σ))}
    (hfuel : D + V.card * (D + 1) ≤ fuel) (hs : s.Within V D) (hv : v ∈ V) (hw : w ∈ V)
    (h : Fits V D (n + 1) path t u)
    (hl : ∀ l' ∈ l, l'.toTerm.Within V D) (hr : ∀ r' ∈ r, r'.toTerm.Within V D) :
    (unifyHeads.unifyVars mode fuel recurse path v l w r).Meets (confined V D)
      (fun x _ ↦ x.Within V 1) s := by
  have hD : 0 < D := t.size_pos.trans_le h.left.2
  rw [unifyHeads.unifyVars]
  by_cases he : v = w
  · rw [if_pos he]
    exact Term.within_var hw Nat.one_pos
  rw [if_neg he, joinVars, meets_bind]
  refine meets_choose fun choice ↦ meets_bind.mpr ?_
  refine (meets_unifyBindings_confined hrec hs hv hw h hl hr).mono fun m s₁ h₁ hm ↦ ?_
  have hs₁ := h₁.within hs
  cases choice with
  | left tie => exact meets_absorb_confined hfuel hD hs₁ hv hw hr hm
  | right => exact meets_absorb_confined hfuel hD hs₁ hw hv hl hm

theorem meets_unifyHeads_confined {l r : Head σ} (hfuel : D + V.card * (D + 1) ≤ fuel)
    (hs : s.Within V D) (h : Fits V D (n + 1) path t u) (hl : l.Within V D t)
    (hr : r.Within V D u) :
    (unifyHeads mode fuel recurse path l r).Meets (confined V D) (fun x _ ↦ x.Within V t.size) s := by
  have hvar : ∀ {m : Script σ Refusal (Term σ)}, m.Meets (confined V D) (fun x _ ↦ x.Within V 1) s →
      m.Meets (confined V D) (fun x _ ↦ x.Within V t.size) s :=
    fun hm ↦ hm.mono fun x _ _ hx ↦ hx.mono t.size_pos
  have hsome : ∀ {layer : Layer σ (Term σ)}, layer.toTerm.Within V D →
      ∀ l' ∈ some layer, l'.toTerm.Within V D := by
    rintro layer hlayer _ ⟨⟩
    exact hlayer
  match l, r with
  | .free v, .free w => exact hvar (meets_unifyVars_confined hrec hfuel hs hl hr h nofun nofun)
  | .free v, .shape (some w) r =>
    exact hvar (meets_unifyVars_confined hrec hfuel hs hl hr.1 h nofun (hsome hr.2))
  | .shape (some v) l, .free w =>
    exact hvar (meets_unifyVars_confined hrec hfuel hs hl.1 hr h (hsome hl.2) nofun)
  | .shape (some v) l, .shape (some w) r =>
    exact hvar (meets_unifyVars_confined hrec hfuel hs hl.1 hr.1 h (hsome hl.2) (hsome hr.2))
  | .free v, .shape none r =>
    obtain rfl : u = r.toTerm := hr
    exact hvar (meets_bindFree_confined hfuel hs hl h.right)
  | .shape none l, .free w =>
    obtain rfl : t = l.toTerm := hl
    exact hvar (meets_bindFree_confined hfuel hs hr h.left)
  | .shape (some v) l, .shape none r =>
    obtain rfl : u = r.toTerm := hr
    exact hvar (meets_rebind_confined hrec hs hl.1 h hl.2 h.right)
  | .shape none l, .shape (some w) r =>
    obtain rfl : t = l.toTerm := hl
    exact hvar (meets_rebind_confined hrec hs hr.1 h h.left hr.2)
  | .shape none l, .shape none r =>
    obtain rfl : t = l.toTerm := hl
    obtain rfl : u = r.toTerm := hr
    exact meets_bind.mpr (meets_unifyLayers_confined hrec hs h)

end Step

variable [DecidableEq σ]

theorem meets_unifyBelow_confined (hfuel : D + V.card * (D + 1) ≤ fuel) (hs : s.Within V D)
    (h : Fits V D n path t u) :
    (unifyBelow mode fuel n path t u).Meets (confined V D) (fun x _ ↦ x.Within V t.size) s := by
  induction n generalizing path t u s with
  | zero =>
    have hsize := t.size_pos
    have hdepth := h.depth
    omega
  | succ n ih =>
    have hcard : V.card < fuel := by
      have hD : 0 < D := t.size_pos.trans_le h.left.2
      have hle : V.card ≤ V.card * (D + 1) := Nat.le_mul_of_pos_right _ D.succ_pos
      omega
    rw [unifyBelow, meets_bind]
    refine (meets_find_confined hs h.left hcard).mono fun l s₁ h₁ hl ↦ meets_bind.mpr ?_
    have hs₁ := h₁.within hs
    refine (meets_find_confined hs₁ h.right hcard).mono fun r s₂ h₂ hr ↦ ?_
    exact meets_unifyHeads_confined (fun path t u s hs h ↦ ih hs h) hfuel (h₂.within hs₁) h hl hr

theorem meets_unify_confined (hfuel : D + V.card * (D + 1) ≤ fuel) (hs : s.Within V D)
    (ht : t.Within V D) (hu : u.Within V D) :
    (unify mode fuel t u).Meets (confined V D) (fun x _ ↦ x.Within V t.size) s := by
  have hdepth : (V.card - ([] : List Var).length) * (D + 1) + t.size ≤ fuel := by
    have hsize := ht.2
    rw [List.length_nil, Nat.sub_zero]
    omega
  rw [unify, meets_bind, meets_log]
  refine meets_unifyBelow_confined hfuel hs ⟨ht, hu, List.nodup_nil, ?_, hdepth⟩
  exact fun x hx ↦ absurd hx List.not_mem_nil

end Unification
