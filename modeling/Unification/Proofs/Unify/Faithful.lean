import Unification.Proofs.Unify.Heads

namespace Unification

open Script Contract

variable {σ : Type} {s s' : Store σ} {mode : Mode} {fuel : ℕ}
  {Θ : (Var → Term σ) → Prop} {path : List Var} {t u : Term σ} {v w : Var}

/-- The substitutions of `Θ` solve the store and make two terms equal. Below a path, the terms
stand for less than the variables on the path, because they are inside their bindings. -/
structure Posed (Θ : (Var → Term σ) → Prop) (s : Store σ) (path : List Var) (t u : Term σ) :
    Prop where
  chained : s.Chained
  solved : ∀ θ, Θ θ → s.SolvedBy θ
  equal : ∀ θ, Θ θ → t.subst θ = u.subst θ
  below : ∀ θ, Θ θ → ∀ x ∈ path, (t.subst θ).size < (θ x).size

theorem Posed.after (h : Posed Θ s path t u) (hlead : (faithful mode.eager Θ).Leads s s') :
    Posed Θ s' path t u :=
  ⟨hlead.chained h.chained, fun θ hθ ↦ hlead.solvedBy h.chained hθ (h.solved θ hθ), h.equal,
    h.below⟩

theorem Posed.congr {t' u' : Term σ} (h : Posed Θ s path t u) (ht : s.Alike t t')
    (hu : s.Alike u u') : Posed Θ s path t' u' := by
  have hsub : ∀ θ, Θ θ → t.subst θ = t'.subst θ ∧ u.subst θ = u'.subst θ := fun θ hθ ↦
    ⟨(h.solved θ hθ).subst_eq_of_alike h.chained ht, (h.solved θ hθ).subst_eq_of_alike h.chained hu⟩
  refine ⟨h.chained, h.solved, fun θ hθ ↦ ?_, fun θ hθ x hx ↦ ?_⟩
  · rw [← (hsub θ hθ).1, ← (hsub θ hθ).2, h.equal θ hθ]
  · rw [← (hsub θ hθ).1]
    exact h.below θ hθ x hx

theorem Posed.symm (h : Posed Θ s path t u) : Posed Θ s path u t :=
  ⟨h.chained, h.solved, fun θ hθ ↦ (h.equal θ hθ).symm, fun θ hθ x hx ↦
    h.equal θ hθ ▸ h.below θ hθ x hx⟩

theorem Posed.top (h : Posed Θ s path t u) : Posed Θ s [] t u :=
  ⟨h.chained, h.solved, h.equal, fun _ _ _ hx ↦ absurd hx List.not_mem_nil⟩

theorem Posed.not_mem (h : Posed Θ s path t u) (hv : ∀ θ, Θ θ → θ v = t.subst θ)
    (hmem : v ∈ path) : ∀ θ, ¬ Θ θ := by
  intro θ hθ
  have hlt := h.below θ hθ v hmem
  rw [hv θ hθ] at hlt
  exact lt_irrefl _ hlt

theorem Posed.meets_congr {t' u' : Term σ} {m : Script σ Refusal (Term σ)} (h : Posed Θ s path t u)
    (ht : s.Alike t t') (hu : s.Alike u u')
    (hm : Posed Θ s path t' u' →
      m.Meets (faithful mode.eager Θ) (fun x s' ↦ s'.Alike x t' ∧ s'.Alike x u') s) :
    m.Meets (faithful mode.eager Θ) (fun x s' ↦ s'.Alike x t ∧ s'.Alike x u) s := by
  refine (hm (h.congr ht hu)).mono fun x s' hlead hx ↦ ?_
  have ht' := hlead.alike h.chained ht
  have hu' := hlead.alike h.chained hu
  exact ⟨hx.1.trans ht'.symm, hx.2.trans hu'.symm⟩

theorem meets_guardOccurs_faithful (h : ∀ θ, Θ θ → ¬ s.Reaches t v) :
    (guardOccurs mode fuel v t).Meets (faithful mode.eager Θ)
      (fun _ s' ↦ s' = s ∧ (mode.eager → ¬ s.Reaches t v)) s :=
  meets_guardOccurs trivial fun _ hr θ hθ ↦ h θ hθ hr

theorem meets_assign_faithful (hs : s.Chained) (h : (faithful mode.eager Θ).bind s v t) :
    (assign v t).Meets (faithful mode.eager Θ)
      (fun _ s' ↦ s' = s.bind v t ∧ s'.Alike (.var v) t) s :=
  meets_assign.mpr ⟨h, rfl, Store.alike_bind_self hs h.1⟩

theorem meets_bindFree_faithful {layer : Layer σ (Term σ)}
    (h : Posed Θ s path (.var v) layer.toTerm) (hv : s.binding v = none) :
    (bindFree mode fuel v layer).Meets (faithful mode.eager Θ)
      (fun x s' ↦ s'.Alike x (.var v) ∧ s'.Alike x layer.toTerm) s := by
  have hno : ∀ θ, Θ θ → ¬ s.Reaches layer.toTerm v := fun θ hθ ↦
    (h.solved θ hθ).not_reaches_node (h.equal θ hθ)
  rw [bindFree, meets_bind]
  refine (meets_guardOccurs_faithful hno).mono fun _ s₀ _ ⟨hs₀, hocc⟩ ↦ meets_bind.mpr ?_
  subst hs₀
  have hbind : (faithful mode.eager Θ).bind s₀ v layer.toTerm :=
    faithful_decide (Store.target_node s₀ v _ _) hv hocc h.equal
  refine (meets_assign_faithful h.chained hbind).mono fun _ s₁ _ ⟨_, hv₁⟩ ↦ ?_
  exact ⟨.refl s₁ _, hv₁⟩

theorem meets_choose {K : Contract σ} {strategy : Strategy} {a b : Bool}
    {post : Choice → Store σ → Prop} (h : ∀ c, post c s) :
    (strategy.choose v a w b).Meets K post s := by
  cases strategy with
  | plain => exact h _
  | ranked => exact meets_bind.mpr (meets_rank.mpr (meets_bind.mpr (meets_rank.mpr (h _))))

/-- Two variables before one of them is made to stand for both, with what they were bound to when
they were found. If both were bound, their bindings have been unified since. -/
inductive Pairing (s : Store σ) (kept absorbed : Var) :
    Option (Layer σ (Term σ)) → Option (Layer σ (Term σ)) → Option (Layer σ (Term σ)) → Prop
  | both {k a m : Layer σ (Term σ)} : s.binding kept ≠ none → s.binding absorbed ≠ none →
      s.Alike (.var kept) m.toTerm → s.Alike (.var absorbed) m.toTerm →
      Pairing s kept absorbed (some k) (some a) (some m)
  | kept {k : Layer σ (Term σ)} : s.binding kept = some k.toTerm → s.binding absorbed = none →
      Pairing s kept absorbed (some k) none none
  | absorbed {a : Layer σ (Term σ)} : s.binding kept = none →
      s.binding absorbed = some a.toTerm → Pairing s kept absorbed none (some a) none
  | neither : s.binding kept = none → s.binding absorbed = none →
      Pairing s kept absorbed none none none

theorem Pairing.symm {l r m : Option (Layer σ (Term σ))} (h : Pairing s v w l r m) :
    Pairing s w v r l m := by
  cases h with
  | both h₁ h₂ h₃ h₄ => exact .both h₂ h₁ h₄ h₃
  | kept h₁ h₂ => exact .absorbed h₂ h₁
  | absorbed h₁ h₂ => exact .kept h₂ h₁
  | neither h₁ h₂ => exact .neither h₂ h₁

section Absorb

variable {kept absorbed : Var} {kb ab unified : Option (Layer σ (Term σ))} {tie : Bool}

/-- The kept variable is at the end of its chain, and the absorbed one was found free and still is,
or it was found bound and denotes the same as the kept one by now. -/
structure Linkable (s : Store σ) (kept absorbed : Var) (ab : Option (Layer σ (Term σ))) :
    Prop where
  ends : ∀ x, ¬ s.Links kept x
  absorbed : ab = none ∧ s.binding absorbed = none ∨
    ab ≠ none ∧ s.binding absorbed ≠ none ∧ s.Alike (.var absorbed) (.var kept)

theorem Linkable.promote (h : Linkable s kept absorbed ab) (hs : s.Chained) :
    Linkable (s.promote v) kept absorbed ab := by
  constructor
  · intro x
    rw [Store.Links, Store.binding_promote]
    exact h.ends x
  · rw [Store.binding_promote]
    rcases h.absorbed with hfree | ⟨hab, hbound, halike⟩
    · exact .inl hfree
    · exact .inr ⟨hab, hbound, halike.promote hs⟩

theorem meets_bindKept_faithful (h : Posed Θ s [] (.var absorbed) (.var kept))
    (hne : kept ≠ absorbed) (hp : Pairing s kept absorbed kb ab unified) :
    (absorb.bindKept mode fuel kept kb (unified.or (if kb.isNone then ab else none))).Meets
      (faithful mode.eager Θ) (fun _ s' ↦ Linkable s' kept absorbed ab) s := by
  have hends : ∀ (m : Layer σ (Term σ)) (x : Var), ¬ (s.bind kept m.toTerm).Links kept x := by
    intro m
    apply Store.not_links_of_binding (o := some m)
    rw [Store.binding_bind, if_pos rfl, Option.map_some]
  cases hp with
  | @both k a m hk ha hkm ham =>
    have hbind : (faithful mode.eager Θ).bind s kept m.toTerm :=
      faithful_restate (Store.target_node s kept _ _) hk hkm
    refine meets_bind.mpr ((meets_assign_faithful h.chained hbind).mono fun _ s₁ h₁ ⟨hs₁, hk₁⟩ ↦ ?_)
    refine ⟨hs₁ ▸ hends m, .inr ⟨nofun, h₁.bound ha, ?_⟩⟩
    exact (h₁.alike h.chained ham).trans hk₁.symm
  | @kept k hk ha => exact ⟨Store.not_links_of_binding (o := some k) hk, .inl ⟨rfl, ha⟩⟩
  | @absorbed a hk ha =>
    have hval : ∀ θ, Θ θ → θ kept = a.toTerm.subst θ := fun θ hθ ↦
      (h.equal θ hθ).symm.trans (h.solved θ hθ absorbed _ ha)
    have hno : ∀ θ, Θ θ → ¬ s.Reaches a.toTerm kept := fun θ hθ ↦
      (h.solved θ hθ).not_reaches_node (hval θ hθ)
    refine meets_bind.mpr ((meets_guardOccurs_faithful hno).mono fun _ s₀ _ ⟨hs₀, hocc⟩ ↦ ?_)
    subst hs₀
    have hbind : (faithful mode.eager Θ).bind s₀ kept a.toTerm :=
      faithful_decide (Store.target_node s₀ kept _ _) hk hocc hval
    refine (meets_assign_faithful h.chained hbind).mono fun _ s₁ h₁ ⟨hs₁, hk₁⟩ ↦ ?_
    have ha₁ : s₁.binding absorbed = some a.toTerm := by
      rw [hs₁, Store.binding_bind, if_neg hne.symm, ha]
    refine ⟨hs₁ ▸ hends a, .inr ⟨nofun, ?_, ?_⟩⟩
    · rw [ha₁]
      exact Option.some_ne_none _
    · exact (Store.alike_of_binding (h₁.chained h.chained) ha₁).trans hk₁.symm
  | neither hk ha => exact ⟨Store.not_links_of_binding (o := none) hk, .inl ⟨rfl, ha⟩⟩

theorem meets_guardAbsorbed_faithful (h : Posed Θ s [] (.var absorbed) (.var kept))
    (hne : kept ≠ absorbed) (hlink : Linkable s kept absorbed ab) :
    (Script.when ab.isNone (guardOccurs mode fuel absorbed (.var kept))).Meets
      (faithful mode.eager Θ)
      (fun _ s' ↦ s' = s ∧ (faithful mode.eager Θ).bind s absorbed (.var kept)) s := by
  have htarget : s.Target absorbed (.var kept) := by
    rintro _ ⟨⟩
    exact ⟨hne, hlink.ends⟩
  rw [meets_when]
  rcases hlink.absorbed with ⟨rfl, hfree⟩ | ⟨hab, hbound, halike⟩
  · have hno : ∀ θ, Θ θ → ¬ s.Reaches (.var kept) absorbed := fun θ hθ ↦
      (h.solved θ hθ).not_reaches_var (h.equal θ hθ) hne hlink.ends
    refine (meets_guardOccurs_faithful hno).mono fun _ s₁ _ ⟨hs₁, hocc⟩ ↦ ⟨hs₁, ?_⟩
    exact faithful_decide htarget hfree hocc h.equal
  · rw [if_neg (by simpa using hab)]
    exact ⟨rfl, faithful_restate htarget hbound halike⟩

theorem meets_absorb_faithful (h : Posed Θ s [] (.var absorbed) (.var kept))
    (hne : kept ≠ absorbed) (hp : Pairing s kept absorbed kb ab unified) :
    (absorb mode fuel kept kb absorbed ab unified tie).Meets (faithful mode.eager Θ)
      (fun x s' ↦ x = .var kept ∧ s'.Alike (.var absorbed) (.var kept)) s := by
  rw [absorb, meets_bind]
  refine (meets_bindKept_faithful h hne hp).mono fun _ s₁ h₁ hlink ↦ meets_bind.mpr ?_
  have hposed := h.after h₁
  have hpromote : (Script.when tie do
      Script.log (.promoting kept)
      Script.promote kept).Meets (faithful mode.eager Θ)
      (fun _ s₂ ↦ Linkable s₂ kept absorbed ab) s₁ := by
    rw [meets_when]
    by_cases htie : tie
    · rw [if_pos htie]
      exact ⟨trivial, hlink.promote hposed.chained⟩
    · rw [if_neg htie]
      exact hlink
  refine hpromote.mono fun _ s₂ h₂ hlink ↦ meets_bind.mpr ?_
  have hposed := hposed.after h₂
  refine (meets_guardAbsorbed_faithful hposed hne hlink).mono fun _ s₃ _ ⟨hs₃, hbind⟩ ↦ ?_
  subst hs₃
  simp only [meets_bind, meets_log]
  exact (meets_assign_faithful hposed.chained hbind).mono fun _ s' _ hx ↦ ⟨rfl, hx.2⟩

end Absorb

section Step

variable [DecidableEq σ] {recurse : List Var → Term σ → Term σ → Script σ Refusal (Term σ)}
  (hrec : ∀ path t u s, Posed Θ s path t u → (recurse path t u).Meets (faithful mode.eager Θ)
    (fun r s' ↦ s'.Alike r t ∧ s'.Alike r u) s)
  {l r : Layer σ (Term σ)}

include hrec

theorem meets_unifyLayers_faithful (hs : s.Chained) (hsol : ∀ θ, Θ θ → s.SolvedBy θ)
    (heq : ∀ θ, Θ θ → l.toTerm.subst θ = r.toTerm.subst θ)
    (hle : ∀ θ, Θ θ → ∀ x ∈ path, (l.toTerm.subst θ).size ≤ (θ x).size) :
    (unifyLayers recurse path l r).Meets (faithful mode.eager Θ)
      (fun m s' ↦ s'.Alike m.toTerm l.toTerm ∧ s'.Alike m.toTerm r.toTerm) s := by
  unfold unifyLayers
  cases ha : l.align? r with
  | none =>
    intro θ hθ
    exact Layer.align?_ne_none_of_subst_eq (heq θ hθ) ha
  | some a =>
    have hpair : ∀ x ∈ a.slots, ∀ s', (faithful mode.eager Θ).Leads s s' →
        Posed Θ s' path x.left x.right := by
      intro x hx s' hlead
      refine ⟨hlead.chained hs, fun θ hθ ↦ hlead.solvedBy hs hθ (hsol θ hθ), ?_, ?_⟩
      · intro θ hθ
        exact Layer.subst_slot_eq ha hx (heq θ hθ)
      · intro θ hθ y hy
        exact (Layer.size_subst_slot_lt ha hx θ).trans_le (hle θ hθ y hy)
    obtain ⟨hl, hr, hleft, hright⟩ := Layer.align?_eq_some ha
    refine meets_bind.mpr ((meets_mapEach (I := fun s' ↦ (faithful mode.eager Θ).Leads s s')
      (R := fun s' x b ↦ s'.Alike b x.left ∧ s'.Alike b x.right) ?_ ?_ .refl).mono
      fun bs s' _ ⟨_, hbs⟩ ↦ ?_)
    · intro x hx s₁ h₁
      cases x with
      | same t => exact ⟨h₁, .refl _ t, .refl _ t⟩
      | differ t u =>
        exact (hrec path t u s₁ (hpair _ hx s₁ h₁)).mono fun b s₂ h₂ hb ↦ ⟨h₁.trans h₂, hb⟩
    · intro x b s₁ s₂ h₁ h₂ hb
      have hs₁ := h₁.chained hs
      exact ⟨h₂.alike hs₁ hb.1, h₂.alike hs₁ hb.2⟩
    · constructor
      · rw [Layer.toTerm, Layer.toTerm, hl, ← hleft]
        refine Store.alike_node (List.forall₂_map_right_iff.mpr (List.Forall₂.flip ?_))
        exact hbs.imp fun _ _ h ↦ h.1
      · rw [Layer.toTerm, Layer.toTerm, hr, ← hright]
        refine Store.alike_node (List.forall₂_map_right_iff.mpr (List.Forall₂.flip ?_))
        exact hbs.imp fun _ _ h ↦ h.2

theorem meets_rebind_faithful {bound : Layer σ (Term σ)} (h : Posed Θ s path l.toTerm r.toTerm)
    (hv : s.binding v = some bound.toTerm) (hb : bound = l ∨ bound = r) :
    (rebind recurse path v bound l r).Meets (faithful mode.eager Θ)
      (fun x s' ↦ s'.Alike x l.toTerm ∧ s'.Alike x r.toTerm) s := by
  have hval : ∀ θ, Θ θ → θ v = l.toTerm.subst θ := by
    intro θ hθ
    rw [h.solved θ hθ v _ hv]
    rcases hb with rfl | rfl
    · rfl
    · exact (h.equal θ hθ).symm
  rw [rebind, meets_bind, meets_stepInto]
  by_cases hmem : v ∈ path
  · rw [if_pos hmem]
    exact h.not_mem hval hmem
  rw [if_neg hmem]
  have hle : ∀ θ, Θ θ → ∀ x ∈ v :: path, (l.toTerm.subst θ).size ≤ (θ x).size := by
    intro θ hθ
    have hv := (congrArg Term.size (hval θ hθ)).ge
    exact List.forall_mem_cons.mpr ⟨hv, fun x hx ↦ (h.below θ hθ x hx).le⟩
  refine meets_bind.mpr
    ((meets_unifyLayers_faithful hrec h.chained h.solved h.equal hle).mono fun m s₁ h₁ hm ↦ ?_)
  have hs₁ := h₁.chained h.chained
  have hbound : s₁.binding v ≠ none := h₁.bound (by rw [hv]; exact Option.some_ne_none _)
  -- The recursion may have given `v` another binding, but not another meaning.
  have halike : s₁.Alike (.var v) m.toTerm := by
    have hva := h₁.alike h.chained (Store.alike_of_binding h.chained hv)
    rcases hb with rfl | rfl
    · exact hva.trans hm.1.symm
    · exact hva.trans hm.2.symm
  have hbind : (faithful mode.eager Θ).bind s₁ v m.toTerm :=
    faithful_restate (Store.target_node s₁ v _ _) hbound halike
  refine meets_bind.mpr ((meets_assign_faithful hs₁ hbind).mono fun _ s₂ h₂ ⟨_, hv₂⟩ ↦ ?_)
  exact ⟨hv₂.trans (h₂.alike hs₁ hm.1), hv₂.trans (h₂.alike hs₁ hm.2)⟩

theorem meets_unifyBindings_faithful {l r : Option (Layer σ (Term σ))}
    (h : Posed Θ s path (.var v) (.var w)) (hne : v ≠ w)
    (hv : s.binding v = l.map Layer.toTerm) (hw : s.binding w = r.map Layer.toTerm) :
    (joinVars.unifyBindings recurse path v l w r).Meets (faithful mode.eager Θ)
      (fun m s' ↦ Pairing s' v w l r m) s := by
  cases l with
  | none =>
    cases r with
    | none => exact .neither hv hw
    | some r => exact .absorbed hv hw
  | some l =>
    cases r with
    | none => exact .kept hv hw
    | some r =>
      have hv' : s.Alike (.var v) l.toTerm := Store.alike_of_binding h.chained hv
      have hw' : s.Alike (.var w) r.toTerm := Store.alike_of_binding h.chained hw
      have hl : ∀ θ, Θ θ → θ v = l.toTerm.subst θ := fun θ hθ ↦ h.solved θ hθ v _ hv
      have hr : ∀ θ, Θ θ → θ w = r.toTerm.subst θ := fun θ hθ ↦ h.solved θ hθ w _ hw
      rw [joinVars.unifyBindings, meets_bind, meets_stepInto]
      by_cases hmem : v ∈ path
      · rw [if_pos hmem]
        exact h.not_mem (fun _ _ ↦ rfl) hmem
      rw [if_neg hmem, meets_bind, meets_stepInto]
      by_cases hmem' : w ∈ v :: path
      · rw [if_pos hmem']
        have hmem := List.mem_of_ne_of_mem hne.symm hmem'
        exact h.symm.not_mem (fun _ _ ↦ rfl) hmem
      have heq : ∀ θ, Θ θ → l.toTerm.subst θ = r.toTerm.subst θ := by
        intro θ hθ
        rw [← hl θ hθ, ← hr θ hθ]
        exact h.equal θ hθ
      have hle : ∀ θ, Θ θ → ∀ x ∈ w :: v :: path, (l.toTerm.subst θ).size ≤ (θ x).size := by
        intro θ hθ
        have hv := (congrArg Term.size (hl θ hθ)).ge
        have hw := (congrArg Term.size ((h.equal θ hθ).symm.trans (hl θ hθ))).ge
        have hpath : ∀ x ∈ path, (l.toTerm.subst θ).size ≤ (θ x).size := by
          intro x hx
          rw [← hl θ hθ]
          exact (h.below θ hθ x hx).le
        exact List.forall_mem_cons.mpr ⟨hw, List.forall_mem_cons.mpr ⟨hv, hpath⟩⟩
      rw [if_neg hmem', meets_bind]
      refine (meets_unifyLayers_faithful hrec h.chained h.solved heq hle).mono
        fun m s₁ h₁ hm ↦ .both (h₁.bound ?_) (h₁.bound ?_) ?_ ?_
      · rw [hv]
        exact Option.some_ne_none _
      · rw [hw]
        exact Option.some_ne_none _
      · exact (h₁.alike h.chained hv').trans hm.1.symm
      · exact (h₁.alike h.chained hw').trans hm.2.symm

theorem meets_joinVars_faithful {l r : Option (Layer σ (Term σ))}
    (h : Posed Θ s path (.var v) (.var w)) (hne : v ≠ w)
    (hv : s.binding v = l.map Layer.toTerm) (hw : s.binding w = r.map Layer.toTerm) :
    (joinVars mode fuel recurse path v l w r).Meets (faithful mode.eager Θ)
      (fun x s' ↦ s'.Alike x (.var v) ∧ s'.Alike x (.var w)) s := by
  rw [joinVars, meets_bind]
  refine meets_choose fun choice ↦ meets_bind.mpr ?_
  refine (meets_unifyBindings_faithful hrec h hne hv hw).mono fun m s₁ h₁ hp ↦ ?_
  have hposed := (h.after h₁).top
  cases choice with
  | left tie =>
    refine (meets_absorb_faithful hposed.symm hne hp).mono fun x s₂ _ ⟨hx, ha⟩ ↦ ?_
    subst hx
    exact ⟨.refl s₂ _, ha.symm⟩
  | right =>
    refine (meets_absorb_faithful hposed hne.symm hp.symm).mono fun x s₂ _ ⟨hx, ha⟩ ↦ ?_
    subst hx
    exact ⟨ha.symm, .refl s₂ _⟩

theorem meets_unifyVars_faithful {l r : Option (Layer σ (Term σ))}
    (h : Posed Θ s path (.var v) (.var w))
    (hv : s.binding v = l.map Layer.toTerm) (hw : s.binding w = r.map Layer.toTerm) :
    (unifyHeads.unifyVars mode fuel recurse path v l w r).Meets (faithful mode.eager Θ)
      (fun x s' ↦ s'.Alike x (.var v) ∧ s'.Alike x (.var w)) s := by
  rw [unifyHeads.unifyVars]
  by_cases he : v = w
  · subst he
    rw [if_pos rfl]
    exact ⟨.refl s _, .refl s _⟩
  · rw [if_neg he]
    exact meets_joinVars_faithful hrec h he hv hw

theorem meets_unifyHeads_faithful {l r : Head σ} (h : Posed Θ s path t u) (hl : l.Shows s t)
    (hr : r.Shows s u) :
    (unifyHeads mode fuel recurse path l r).Meets (faithful mode.eager Θ)
      (fun x s' ↦ s'.Alike x t ∧ s'.Alike x u) s := by
  match l, r with
  | .free v, .free w =>
    exact h.meets_congr hl.2 hr.2 fun h ↦ meets_unifyVars_faithful hrec h hl.1 hr.1
  | .free v, .shape (some w) r =>
    exact h.meets_congr hl.2 hr.2 fun h ↦ meets_unifyVars_faithful hrec h hl.1 hr.1
  | .shape (some v) l, .free w =>
    exact h.meets_congr hl.2 hr.2 fun h ↦ meets_unifyVars_faithful hrec h hl.1 hr.1
  | .shape (some v) l, .shape (some w) r =>
    exact h.meets_congr hl.2 hr.2 fun h ↦ meets_unifyVars_faithful hrec h hl.1 hr.1
  | .free v, .shape none r =>
    obtain rfl : u = r.toTerm := hr
    exact h.meets_congr hl.2 (.refl s _) fun h ↦ meets_bindFree_faithful h hl.1
  | .shape none l, .free w =>
    obtain rfl : t = l.toTerm := hl
    refine h.meets_congr (.refl s _) hr.2 fun h ↦ ?_
    exact (meets_bindFree_faithful h.symm hr.1).mono fun x s' _ hx ↦ hx.symm
  | .shape (some v) l, .shape none r =>
    obtain rfl : u = r.toTerm := hr
    have hv := Store.alike_of_binding h.chained hl.1
    exact h.meets_congr (hl.2.trans hv) (.refl s _) fun h ↦
      meets_rebind_faithful hrec h hl.1 (.inl rfl)
  | .shape none l, .shape (some w) r =>
    obtain rfl : t = l.toTerm := hl
    have hw := Store.alike_of_binding h.chained hr.1
    exact h.meets_congr (.refl s _) (hr.2.trans hw) fun h ↦
      meets_rebind_faithful hrec h hr.1 (.inr rfl)
  | .shape none l, .shape none r =>
    obtain rfl : t = l.toTerm := hl
    obtain rfl : u = r.toTerm := hr
    have hle : ∀ θ, Θ θ → ∀ x ∈ path, (l.toTerm.subst θ).size ≤ (θ x).size :=
      fun θ hθ x hx ↦ (h.below θ hθ x hx).le
    exact meets_bind.mpr (meets_unifyLayers_faithful hrec h.chained h.solved h.equal hle)

end Step

theorem meets_findBoth_faithful {eager : Bool} (hs : s.Chained) :
    (findBoth fuel t u).Meets (faithful eager Θ)
      (fun h s' ↦ h.1.Shows s' t ∧ h.2.Shows s' u) s := by
  refine meets_bind.mpr ((meets_find_faithful hs fuel t).mono fun l s₁ h₁ hl ↦ meets_bind.mpr ?_)
  have hs₁ := h₁.chained hs
  exact (meets_find_faithful hs₁ fuel u).mono fun r s₂ h₂ hr ↦ ⟨hl.1.keep hs₁ h₂ hr.2, hr.1⟩

variable [DecidableEq σ]

theorem meets_unifyBelow_faithful {n : ℕ} (h : Posed Θ s path t u) :
    (unifyBelow mode fuel n path t u).Meets (faithful mode.eager Θ)
      (fun x s' ↦ s'.Alike x t ∧ s'.Alike x u) s := by
  induction n generalizing path t u s with
  | zero => exact trivial
  | succ n ih =>
    rw [unifyBelow_succ, meets_bind]
    refine (meets_findBoth_faithful h.chained).mono fun heads s₁ h₁ ⟨hl, hr⟩ ↦ ?_
    exact meets_unifyHeads_faithful (fun path t u s h ↦ ih h) (h.after h₁) hl hr

/-- A faithful unifier makes its terms alike, unless there are no solutions to respect. -/
theorem meets_unify_faithful (hs : s.Chained) (hsol : ∀ θ, Θ θ → s.SolvedBy θ)
    (heq : ∀ θ, Θ θ → t.subst θ = u.subst θ) :
    (unify mode fuel t u).Meets (faithful mode.eager Θ)
      (fun x s' ↦ s'.Alike x t ∧ s'.Alike x u) s := by
  rw [unify, meets_bind, meets_log]
  exact meets_unifyBelow_faithful ⟨hs, hsol, heq, fun _ _ _ hx ↦ absurd hx List.not_mem_nil⟩

end Unification
