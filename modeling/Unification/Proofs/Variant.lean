import Unification.Proofs.Equality

namespace Unification

open Relation Script Contract

variable {σ : Type} {s : Store σ} {t u a b : Term σ} {θ η : Var → Term σ} {f g : Var → Var}
  {v w : Var} {vs ws : List Var} {ρ : Renaming}

theorem Var.nodup_of_sorted (hvs : vs.Pairwise fun v w ↦ v.id < w.id) : vs.Nodup :=
  hvs.imp fun hlt he ↦ hlt.ne (congrArg Var.id he)

theorem Var.eq_of_sorted (hvs : vs.Pairwise fun v w ↦ v.id < w.id)
    (hws : ws.Pairwise fun v w ↦ v.id < w.id) (h : ∀ v, v ∈ vs ↔ v ∈ ws) : vs = ws := by
  refine List.Perm.eq_of_pairwise (fun v w _ _ hvw hwv ↦ absurd hvw hwv.not_gt) hvs hws ?_
  exact (List.perm_ext_iff_of_nodup (nodup_of_sorted hvs) (nodup_of_sorted hws)).mpr h

theorem Var.mergeSort_eq (hvs : vs.Nodup) (hws : ws.Pairwise fun v w ↦ v.id < w.id)
    (h : ∀ v, v ∈ vs ↔ v ∈ ws) : vs.mergeSort (fun v w ↦ v.id ≤ w.id) = ws := by
  have hsorted : (vs.mergeSort fun v w ↦ v.id ≤ w.id).Pairwise fun v w ↦ v.id ≤ w.id := by
    refine (List.pairwise_mergeSort (fun u v w huv hvw ↦ ?_) (fun v w ↦ ?_) vs).imp
      of_decide_eq_true
    · exact decide_eq_true ((of_decide_eq_true huv).trans (of_decide_eq_true hvw))
    · simpa using Nat.le_total v.id w.id
  have hperm := (List.perm_ext_iff_of_nodup hvs (nodup_of_sorted hws)).mpr h
  refine List.Perm.eq_of_pairwise (fun v w _ _ hvw hwv ↦ ?_) hsorted (hws.imp Nat.le_of_lt)
    ((List.mergeSort_perm vs _).trans hperm)
  exact Var.eq_of_id_eq (Nat.le_antisymm hvw hwv)

theorem mem_map_graph : (v, w) ∈ vs.map (fun v ↦ (v, f v)) ↔ v ∈ vs ∧ f v = w := by
  simp only [List.mem_map, Prod.mk.injEq]
  exact ⟨fun ⟨_, hv, he, hw⟩ ↦ he ▸ ⟨hv, hw⟩, fun ⟨hv, hw⟩ ↦ ⟨v, hv, rfl, hw⟩⟩

namespace Term

theorem eq_of_subst_eq (h : t.subst θ = t.subst η) (hv : v ∈ t.vars) : θ v = η v := by
  induction t with
  | var w => rwa [mem_vars_var.mp hv]
  | node f args ih =>
    rw [subst_node, subst_node] at h
    obtain ⟨t, ht, hv⟩ := mem_vars_node.mp hv
    exact ih t ht (List.map_inj_left.mp (node.inj h).2 t ht) hv

structure ListedBy (t : Term σ) (vs : List Var) : Prop where
  sorted : vs.Pairwise fun v w ↦ v.id < w.id
  mem_iff : ∀ v, v ∈ vs ↔ v ∈ t.vars

/-- A one-to-one map from the variables of one term to those of another, which it turns the first
term into. -/
def RenamesTo (f : Var → Var) (t u : Term σ) : Prop :=
  Set.BijOn f {v | v ∈ t.vars} {w | w ∈ u.vars} ∧ t.subst (fun v ↦ .var (f v)) = u

theorem RenamesTo.of_injOn (hf : Set.InjOn f {v | v ∈ t.vars})
    (h : t.subst (fun v ↦ .var (f v)) = u) : RenamesTo f t u := by
  have hvars : ∀ w, w ∈ u.vars ↔ ∃ v ∈ t.vars, w = f v := by
    intro w
    rw [← h, mem_vars_subst]
    simp only [mem_vars_var]
  refine ⟨⟨fun v hv ↦ (hvars _).mpr ⟨v, hv, rfl⟩, hf, fun w hw ↦ ?_⟩, h⟩
  obtain ⟨v, hv, rfl⟩ := (hvars w).mp hw
  exact ⟨v, hv, rfl⟩

theorem RenamesTo.map_eq (h : RenamesTo f t u) (h' : RenamesTo g t u) (hvs : t.ListedBy vs) :
    (vs.map fun v ↦ (v, f v)) = vs.map fun v ↦ (v, g v) := by
  refine List.map_congr_left fun v hv ↦ ?_
  have hsame := eq_of_subst_eq (h.2.trans h'.2.symm) ((hvs.mem_iff v).mp hv)
  rw [Term.var.inj hsame]

theorem RenamesTo.sort_map (h : RenamesTo f t u) (hvs : t.ListedBy vs) (hws : u.ListedBy ws) :
    (vs.map f).mergeSort (fun v w ↦ v.id ≤ w.id) = ws := by
  refine Var.mergeSort_eq ?_ hws.sorted fun w ↦ ?_
  · refine (Var.nodup_of_sorted hvs.sorted).map_on fun v hv w hw ↦ ?_
    exact h.1.injOn ((hvs.mem_iff v).mp hv) ((hvs.mem_iff w).mp hw)
  · rw [List.mem_map, hws.mem_iff]
    constructor
    · rintro ⟨v, hv, rfl⟩
      exact h.1.mapsTo ((hvs.mem_iff v).mp hv)
    · intro hw
      obtain ⟨v, hv, he⟩ := h.1.surjOn hw
      exact ⟨v, (hvs.mem_iff v).mpr hv, he⟩

theorem RenamesTo.exists_inverse (h : RenamesTo f t u) :
    ∃ g, RenamesTo g u t ∧ ∀ v w, w ∈ u.vars ∧ g w = v ↔ v ∈ t.vars ∧ f v = w := by
  obtain ⟨hbij, rfl⟩ := h
  have hinv := hbij.invOn_invFunOn
  refine ⟨_, ⟨hbij.symm hinv.symm, ?_⟩, fun v w ↦ ⟨?_, ?_⟩⟩
  · rw [subst_subst]
    refine (subst_congr fun v hv ↦ ?_).trans t.subst_self
    rw [subst_var, hinv.1 hv]
  · rintro ⟨hw, rfl⟩
    exact ⟨(hbij.symm hinv.symm).mapsTo hw, hinv.2 hw⟩
  · rintro ⟨hv, rfl⟩
    exact ⟨hbij.mapsTo hv, hinv.1 hv⟩

end Term

namespace Store

theorem mem_vars_resolved_iff (hs : s.Acyclic) :
    w ∈ (s.resolved t).vars ↔ s.binding w = none ∧ s.Reaches t w :=
  (resolvesTo_resolved hs t).mem_vars_iff

/-- Without cycles a comparison up to the names of variables finds out which maps turn the resolved
terms into each other. -/
theorem Acyclic.testsFor_renaming (hs : s.Acyclic) : Criterion.renamed.TestsFor s
    fun f t u ↦ (s.resolved t).subst (fun v ↦ .var (f v)) = s.resolved u where
  ends f _ t u := by
    rw [← resolved_chainEnd hs t, ← resolved_chainEnd hs u]
    cases ht : s.chainEnd t with
    | var v =>
      rw [resolved_of_free (free_of_chainEnd hs.chained ht), Term.subst_var]
      cases hu : s.chainEnd u with
      | var w =>
        rw [resolved_of_free (free_of_chainEnd hs.chained hu)]
        constructor
        · rintro ⟨⟩
          exact .var v
        · rintro ⟨⟩
          rfl
      | node g us =>
        rw [resolved_node]
        constructor <;> rintro ⟨⟩
    | node g ts =>
      rw [resolved_node, Term.subst_node]
      cases hu : s.chainEnd u with
      | var w =>
        rw [resolved_of_free (free_of_chainEnd hs.chained hu)]
        constructor <;> rintro ⟨⟩
      | node g' us =>
        rw [resolved_node, List.map_map, Term.node.injEq]
        constructor
        · rintro ⟨rfl, h⟩
          exact .node g (forall₂_of_map_eq h)
        · rintro ⟨⟩
          rename_i h
          exact ⟨rfl, map_eq_of_forall₂ h⟩
  refl := nofun

end Store

theorem mem_keys_of_agrees (h : ∀ f, ρ.Agrees f ↔ t.subst (fun v ↦ .var (f v)) = u)
    (hρ : ∃ f, ρ.Agrees f) (hv : v ∈ t.vars) : v ∈ ρ.map Prod.fst := by
  by_contra hno
  obtain ⟨f, hf⟩ := hρ
  -- The map could send the variable anywhere else.
  have hupdate : ρ.Agrees (Function.update f v ⟨(f v).id + 1⟩) := by
    intro p hp
    have hne : p.1 ≠ v := fun he ↦ hno (List.mem_map.mpr ⟨p, hp, he⟩)
    rw [Function.update_of_ne hne]
    exact hf p hp
  have hsame := Term.eq_of_subst_eq (((h _).mp hupdate).trans ((h f).mp hf).symm) hv
  rw [Function.update_self] at hsame
  exact absurd (congrArg Var.id (Term.var.inj hsame)) (Nat.succ_ne_self _)

namespace Criterion.Admits

theorem keys_eq (hρ : Criterion.renamed.Admits {v | v ∈ t.vars} ρ) (hvs : t.ListedBy vs)
    (h : ∀ f, ρ.Agrees f ↔ t.subst (fun v ↦ .var (f v)) = u) : ρ.map Prod.fst = vs := by
  refine Var.eq_of_sorted (List.pairwise_map.mpr hρ.sorted) hvs.sorted fun v ↦ ?_
  rw [hvs.mem_iff]
  constructor
  · intro hv
    obtain ⟨p, hp, rfl⟩ := List.mem_map.mp hv
    exact hρ.keys p hp
  · obtain ⟨f, -, hf⟩ := hρ.agrees
    exact mem_keys_of_agrees h ⟨f, hf⟩

theorem eq_map (hρ : Criterion.renamed.Admits {v | v ∈ t.vars} ρ) (hvs : t.ListedBy vs)
    (h : ∀ f, ρ.Agrees f ↔ t.subst (fun v ↦ .var (f v)) = u) (hf : ρ.Agrees f) :
    ρ = vs.map fun v ↦ (v, f v) := by
  rw [← hρ.keys_eq hvs h, List.map_map]
  exact (List.map_id ρ).symm.trans (List.map_congr_left fun p hp ↦ Prod.ext rfl (hf p hp).symm)

theorem renamesTo (hρ : Criterion.renamed.Admits {v | v ∈ t.vars} ρ)
    (h : ∀ f, ρ.Agrees f ↔ t.subst (fun v ↦ .var (f v)) = u) (hf : ρ.Agrees f) :
    t.RenamesTo f u := by
  refine .of_injOn (fun v hv w hw he ↦ ?_) ((h f).mp hf)
  obtain ⟨p, hp, rfl⟩ := List.mem_map.mp (mem_keys_of_agrees h ⟨f, hf⟩ hv)
  obtain ⟨q, hq, rfl⟩ := List.mem_map.mp (mem_keys_of_agrees h ⟨f, hf⟩ hw)
  rw [hf p hp, hf q hq] at he
  rw [List.inj_on_of_nodup_map hρ.nodup hp hq he]

end Criterion.Admits

namespace Operation

variable [DecidableEq σ]

theorem run_freeVars (ts : List (Term σ)) (s : Store σ) :
    ∃ vs, (freeVars ts).run s = (.ok (.vars vs), s) ∧ (vs.Pairwise fun v w ↦ v.id < w.id) ∧
      ∀ v, v ∈ vs ↔ s.binding v = none ∧ ∃ t ∈ ts, s.Reaches t v := by
  have hmeets : ((freeVars ts).script ((freeVars ts).fuel s.weight)).Meets
      (.blaming fun _ _ ↦ False) (fun x s' ↦ s' = s ∧ ∃ vs, x = .vars vs ∧
        (vs.Pairwise fun v w ↦ v.id < w.id) ∧
        ∀ v, v ∈ vs ↔ s.binding v = none ∧ ∃ t ∈ ts, s.Reaches t v) s :=
    meets_map.mpr (meets_freeVars (fun vs hsorted hmem ↦ ⟨rfl, vs, rfl, hsorted, hmem⟩)
      (.inl trivial))
  rcases run_ends rfl hmeets with ⟨_, s', hrun, rfl, vs, rfl, hvs⟩ | ⟨_, _, _, h⟩
  · exact ⟨vs, hrun, hvs⟩
  · exact h.elim

theorem run_freeVars_listed (hs : s.Acyclic) (t : Term σ) :
    ∃ vs, (freeVars [t]).run s = (.ok (.vars vs), s) ∧ (s.resolved t).ListedBy vs := by
  obtain ⟨vs, hrun, hsorted, hmem⟩ := run_freeVars [t] s
  refine ⟨vs, hrun, hsorted, fun v ↦ ?_⟩
  rw [hmem, Store.mem_vars_resolved_iff hs]
  simp

theorem run_variant (hs : s.Acyclic) (hvs : (s.resolved a).ListedBy vs) :
    (∃ f, (s.resolved a).RenamesTo f (s.resolved b) ∧
      (variant a b).run s = (.ok (.renaming (vs.map fun v ↦ (v, f v))), s)) ∨
    (¬ ∃ f, (s.resolved a).RenamesTo f (s.resolved b)) ∧
      (variant a b).run s = (.ok .nothing, s) := by
  have hmeets : ((variant a b).script ((variant a b).fuel s.weight)).Meets
      (.blaming fun _ _ ↦ False) (fun x s' ↦ s' = s ∧
        ((∃ f, (s.resolved a).RenamesTo f (s.resolved b) ∧
          x = .renaming (vs.map fun v ↦ (v, f v))) ∨
        (¬ ∃ f, (s.resolved a).RenamesTo f (s.resolved b)) ∧ x = .nothing)) s := by
    refine meets_map.mpr ((meets_compareWith_decides hs.chained hs.testsFor_renaming
      ⟨s.above_nil a, s.above_nil b,
        fun v hv hb ↦ (Store.mem_vars_resolved_iff hs).mpr ⟨hb, hv⟩,
        fun v x _ hb ⟨y, hy, hyv⟩ ↦ hs v (.head' ⟨x, hb, hy⟩ hyv)⟩ (.nil _ _)).mono ?_)
    rintro (_ | ρ) s' - ⟨rfl, h⟩
    · exact ⟨rfl, .inr ⟨fun ⟨f, hf⟩ ↦ h f nofun hf.1.injOn nofun hf.2, rfl⟩⟩
    · obtain ⟨hρ, hiff⟩ := h
      have hagrees : ∀ f, ρ.Agrees f ↔
          (s'.resolved a).subst (fun v ↦ .var (f v)) = s'.resolved b :=
        fun f ↦ (hiff f nofun).trans (and_iff_right nofun)
      obtain ⟨f, -, hf⟩ := hρ.agrees
      refine ⟨rfl, .inl ⟨f, hρ.renamesTo hagrees hf, ?_⟩⟩
      exact congrArg Value.renaming (hρ.eq_map hvs hagrees hf)
  rcases run_ends rfl hmeets with ⟨x, s', hrun, rfl, h⟩ | ⟨_, _, _, h⟩
  · refine h.imp (fun ⟨f, hf, hx⟩ ↦ ⟨f, hf, ?_⟩) fun ⟨hno, hx⟩ ↦ ⟨hno, ?_⟩
    · rw [hrun, hx]
    · rw [hrun, hx]
  · exact h.elim

theorem run_variant_eq_iff (hs : s.Acyclic) (hvs : (s.resolved a).ListedBy vs) :
    (variant a b).run s = (.ok (.renaming ρ), s) ↔
      ∃ f, (s.resolved a).RenamesTo f (s.resolved b) ∧ ρ = vs.map fun v ↦ (v, f v) := by
  rcases run_variant (b := b) hs hvs with ⟨f, hf, hrun⟩ | ⟨hno, hrun⟩
  · rw [hrun]
    constructor
    · rintro ⟨⟩
      exact ⟨f, hf, rfl⟩
    · rintro ⟨g, hg, rfl⟩
      rw [hf.map_eq hg hvs]
  · rw [hrun]
    constructor
    · rintro ⟨⟩
    · exact fun ⟨f, hf, _⟩ ↦ absurd ⟨f, hf⟩ hno

/-- The comparison up to the names of variables decides whether one resolved term can be turned into
the other one by a one-to-one map of variables, and gives this map. With the terms in the other
order it gives the inverse map. -/
theorem variant_exact (hs : s.Acyclic) (a b : Term σ) :
    ∃ ra rb vs ws, (resolve a).run s = (.ok (.term ra), s) ∧
      (resolve b).run s = (.ok (.term rb), s) ∧ (freeVars [a]).run s = (.ok (.vars vs), s) ∧
      (freeVars [b]).run s = (.ok (.vars ws), s) ∧
      (∀ ρ, (variant a b).run s = (.ok (.renaming ρ), s) ↔
        ∃ f, ra.RenamesTo f rb ∧ ρ = vs.map fun v ↦ (v, f v)) ∧
      ((¬ ∃ f, ra.RenamesTo f rb) → (variant a b).run s = (.ok .nothing, s)) ∧
      ∀ ρ, (variant a b).run s = (.ok (.renaming ρ), s) →
        ρ.map Prod.fst = vs ∧ (ρ.map Prod.snd).mergeSort (fun v w ↦ v.id ≤ w.id) = ws ∧
        ∃ ρ', (variant b a).run s = (.ok (.renaming ρ'), s) ∧
          ∀ v w, (w, v) ∈ ρ' ↔ (v, w) ∈ ρ := by
  obtain ⟨vs, hrunvs, hvs⟩ := run_freeVars_listed hs a
  obtain ⟨ws, hrunws, hws⟩ := run_freeVars_listed hs b
  refine ⟨s.resolved a, s.resolved b, vs, ws, run_resolve_of_acyclic hs a,
    run_resolve_of_acyclic hs b, hrunvs, hrunws, fun ρ ↦ run_variant_eq_iff hs hvs,
    fun hno ↦ ?_, fun ρ hrun ↦ ?_⟩
  · exact ((run_variant hs hvs).resolve_left fun ⟨f, hf, _⟩ ↦ hno ⟨f, hf⟩).2
  · obtain ⟨f, hf, rfl⟩ := (run_variant_eq_iff hs hvs).mp hrun
    obtain ⟨g, hg, hinv⟩ := hf.exists_inverse
    refine ⟨?_, ?_, ws.map fun w ↦ (w, g w), (run_variant_eq_iff hs hws).mpr ⟨g, hg, rfl⟩, ?_⟩
    · rw [List.map_map]
      exact vs.map_id
    · rw [List.map_map]
      exact hf.sort_map hvs hws
    · intro v w
      rw [mem_map_graph, mem_map_graph, hvs.mem_iff, hws.mem_iff, hinv]

theorem variant_exact_nested :
    Store.nested.Acyclic ∧
      (∃ f, Term.RenamesTo f
        (.node .pair [.var ⟨1⟩, .node .pair [.var ⟨2⟩, .var ⟨3⟩]] : Term Symbol)
        (.node .pair [.var ⟨2⟩, .node .pair [.var ⟨3⟩, .var ⟨1⟩]])) ∧
      (variant (.var ⟨0⟩) (.node .pair [.var ⟨2⟩, .node .pair [.var ⟨3⟩, .var ⟨1⟩]])).run
        Store.nested = (.ok (.renaming [(⟨1⟩, ⟨2⟩), (⟨2⟩, ⟨3⟩), (⟨3⟩, ⟨1⟩)]), Store.nested) ∧
      ∃ ρ, (variant (.node .pair [.var ⟨2⟩, .node .pair [.var ⟨3⟩, .var ⟨1⟩]]) (.var ⟨0⟩)).run
          Store.nested = (.ok (.renaming ρ), Store.nested) ∧
        ∀ v w, (w, v) ∈ ρ ↔ (v, w) ∈ ([(⟨1⟩, ⟨2⟩), (⟨2⟩, ⟨3⟩), (⟨3⟩, ⟨1⟩)] : Renaming) := by
  have hrun : (variant (.var ⟨0⟩)
      (.node .pair [.var ⟨2⟩, .node .pair [.var ⟨3⟩, .var ⟨1⟩]])).run Store.nested =
        (.ok (.renaming [(⟨1⟩, ⟨2⟩), (⟨2⟩, ⟨3⟩), (⟨3⟩, ⟨1⟩)]), Store.nested) := rfl
  obtain ⟨ra, rb, vs, ws, hra, hrb, -, -, hiff, -, hinverse⟩ :=
    variant_exact Store.acyclic_nested (.var ⟨0⟩)
      (.node .pair [.var ⟨2⟩, .node .pair [.var ⟨3⟩, .var ⟨1⟩]])
  refine ⟨Store.acyclic_nested, ?_, hrun, (hinverse _ hrun).2.2⟩
  obtain ⟨f, hf, -⟩ := (hiff _).mp hrun
  cases hra
  cases hrb
  exact ⟨f, hf⟩

end Operation

end Unification
