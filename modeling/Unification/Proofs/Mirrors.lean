import Unification.Proofs.Roots

namespace Unification.Store

open Relation

variable {σ : Type} {s s' s'' : Store σ} {t t' : Term σ} {v w x y : Var} {l l' : Layer σ (Term σ)}

/-- Two stores that differ in nothing but the choice of a variable to stand for each class: they put
the same variables together, and bind them to the same up to that choice. -/
structure Mirrors (s s' : Store σ) : Prop where
  root : ∀ x y, s.root x = s.root y ↔ s'.root x = s'.root y
  binding : ∀ x, (s.binding (s.root x)).map s.rooted = (s'.binding (s'.root x)).map s.rooted

namespace Mirrors

theorem refl (s : Store σ) : s.Mirrors s := ⟨fun _ _ ↦ Iff.rfl, fun _ ↦ rfl⟩

theorem merges (h : s.Mirrors s') : s.Merges s' := fun x y ↦ (h.root x y).mp

theorem merges_symm (h : s.Mirrors s') : s'.Merges s := fun x y ↦ (h.root x y).mpr

theorem rooted_eq_iff (h : s.Mirrors s') : s.rooted t = s.rooted t' ↔ s'.rooted t = s'.rooted t' :=
  ⟨h.merges.rooted_eq, h.merges_symm.rooted_eq⟩

theorem map_rooted (h : s.Merges s') {o o' : Option (Term σ)}
    (ho : o.map s.rooted = o'.map s.rooted) : o.map s'.rooted = o'.map s'.rooted := by
  have hcomp : ∀ o : Option (Term σ), (o.map s.rooted).map s'.rooted = o.map s'.rooted := by
    intro o
    rw [Option.map_map]
    exact congrArg (Option.map · o) (funext h.rooted_rooted)
  rw [← hcomp o, ho, hcomp o']

theorem symm (h : s.Mirrors s') : s'.Mirrors s :=
  ⟨fun x y ↦ (h.root x y).symm, fun x ↦ (map_rooted h.merges (h.binding x)).symm⟩

theorem trans (h : s.Mirrors s') (h' : s'.Mirrors s'') : s.Mirrors s'' :=
  ⟨fun x y ↦ (h.root x y).trans (h'.root x y),
    fun x ↦ (h.binding x).trans (map_rooted h.merges_symm (h'.binding x))⟩

theorem of_sameRoots (h : s.SameRoots s') : s.Mirrors s' := by
  refine ⟨fun x y ↦ by rw [h.root], fun x ↦ ?_⟩
  rw [h.root, h.binding]

theorem endless_of_endless (h : s.Mirrors s') (hx : s.Endless x) : s'.Endless x := by
  obtain ⟨y, hy⟩ := hx
  have hb := h.binding x
  rw [hy] at hb
  obtain ⟨u, hu, hvar⟩ := Option.map_eq_some_iff.mp hb.symm
  obtain ⟨z, rfl, -⟩ := rooted_var_eq hvar.symm
  exact ⟨z, hu⟩

theorem endless_iff (h : s.Mirrors s') : s.Endless x ↔ s'.Endless x :=
  ⟨h.endless_of_endless, h.symm.endless_of_endless⟩

theorem mem_vars_of_rooted_eq (h : s.rooted t = s.rooted t') (hx : x ∈ t.vars) :
    ∃ y ∈ t'.vars, s.root x = s.root y := by
  have hroot : s.root x ∈ (s.rooted t).vars :=
    Term.mem_vars_subst.mpr ⟨x, hx, Term.mem_vars_var.mpr rfl⟩
  rw [h] at hroot
  obtain ⟨y, hy, he⟩ := Term.mem_vars_subst.mp hroot
  exact ⟨y, hy, Term.mem_vars_var.mp he⟩

theorem pointsTo_root (s : Store σ) (x : Var) : ReflTransGen s.PointsTo x (s.root x) :=
  ReflTransGen.mono (fun _ _ hl ↦ hl.pointsTo) _ _ (s.reflTransGen_root x)

theorem pointsTo_of_pointsTo (h : s.Mirrors s') (hxy : ReflTransGen s.PointsTo x y)
    (hx : s.root v = s.root x) : ReflTransGen s'.PointsTo v (s'.root y) := by
  induction hxy using ReflTransGen.head_induction_on generalizing v with
  | refl =>
    rw [← (h.root v y).mp hx]
    exact pointsTo_root s' v
  | @head a b hab _ ih =>
    obtain ⟨t, ht, hb⟩ := hab
    by_cases ha : s.root a = a
    · have hbind := h.binding a
      rw [ha, ht] at hbind
      obtain ⟨u, hu, htu⟩ := Option.map_eq_some_iff.mp hbind.symm
      obtain ⟨c, hc, hbc⟩ := mem_vars_of_rooted_eq htu.symm hb
      rw [← (h.root v a).mp hx] at hu
      exact (pointsTo_root s' v).trans (.head ⟨u, hu, hc⟩ (ih hbc.symm))
    · -- A link leads to a variable of the same class.
      obtain ⟨z, hz⟩ := exists_links_of_root_ne ha
      rw [hz] at ht
      obtain rfl := Option.some.inj ht
      obtain rfl := Term.mem_vars_var.mp hb
      exact ih (hx.trans (root_eq_of_links hz ha).symm)

theorem reaches_of_reaches (h : s.Mirrors s') (htt : s.rooted t = s.rooted t')
    (hr : s.Reaches t v) : s'.Reaches t' (s'.root v) := by
  obtain ⟨x, hx, hxv⟩ := hr
  obtain ⟨y, hy, hxy⟩ := mem_vars_of_rooted_eq htt hx
  exact ⟨y, hy, h.pointsTo_of_pointsTo hxv hxy.symm⟩

theorem reaches_iff (h : s.Mirrors s') (htt : s.rooted t = s.rooted t') :
    s.Reaches t (s.root x) ↔ s'.Reaches t' (s'.root x) := by
  have hmirror : s'.root (s.root x) = s'.root x := h.merges _ _ (s.root_root x)
  have hmirror' : s.root (s'.root x) = s.root x := h.merges_symm _ _ (s'.root_root x)
  constructor
  · intro hr
    exact hmirror ▸ h.reaches_of_reaches htt hr
  · intro hr
    exact hmirror' ▸ h.symm.reaches_of_reaches (h.rooted_eq_iff.mp htt).symm hr

theorem bind_layer (h : s.Mirrors s') (hx : ¬ s.Endless x)
    (hl : s.rooted l.toTerm = s.rooted l'.toTerm) :
    (s.bind (s.root x) l.toTerm).Mirrors (s'.bind (s'.root x) l'.toTerm) := by
  have hs : (s.bind (s.root x) l.toTerm).root = s.root :=
    funext (root_bind_node (ends_root hx).2)
  have hs' : (s'.bind (s'.root x) l'.toTerm).root = s'.root :=
    funext (root_bind_node (ends_root (h.endless_iff.not.mp hx)).2)
  refine ⟨fun y z ↦ by rw [hs, hs', h.root], fun y ↦ ?_⟩
  have hrooted : (s.bind (s.root x) l.toTerm).rooted = s.rooted := by
    unfold rooted
    rw [hs]
  rw [hs, hs', hrooted, binding_bind, binding_bind]
  by_cases hy : s.root y = s.root x
  · rw [if_pos hy, if_pos ((h.root y x).mp hy)]
    exact congrArg some hl
  · rw [if_neg hy, if_neg ((h.root y x).not.mp hy)]
    exact h.binding y

theorem merges_bind_var (hv : ∀ x, ¬ s.Links v x) (hw : ∀ x, ¬ s.Links w x) (hne : v ≠ w) :
    s.Merges (s.bind v (.var w)) := by
  intro x y hxy
  rw [root_bind_var hv hw hne, root_bind_var hv hw hne, hxy]

theorem binding_root_bind_var (hv : ∀ x, ¬ s.Links v x) (hw : ∀ x, ¬ s.Links w x) (hne : v ≠ w)
    (x : Var) : (s.bind v (.var w)).binding ((s.bind v (.var w)).root x) =
      if s.root x = v then s.binding w else s.binding (s.root x) := by
  rw [root_bind_var hv hw hne, binding_bind]
  split
  · rw [if_neg hne.symm]
  · rfl

theorem bind_var (h : s.Mirrors s') (hx : ¬ s.Endless x) (hy : ¬ s.Endless y)
    (hne : s.root x ≠ s.root y) :
    (s.bind (s.root x) (.var (s.root y))).Mirrors (s'.bind (s'.root x) (.var (s'.root y))) := by
  have hends := (ends_root hx).2
  have hends' := (ends_root (h.endless_iff.not.mp hx)).2
  have hendsy := (ends_root hy).2
  have hendsy' := (ends_root (h.endless_iff.not.mp hy)).2
  have hne' : s'.root x ≠ s'.root y := (h.root x y).not.mp hne
  constructor
  · intro a b
    rw [root_bind_var hends hendsy hne, root_bind_var hends hendsy hne,
      root_bind_var hends' hendsy' hne', root_bind_var hends' hendsy' hne']
    simp only [h.root a x, h.root b x]
    split <;> split
    · simp
    · exact h.root y b
    · exact h.root a y
    · exact h.root a b
  · intro a
    rw [binding_root_bind_var hends hendsy hne, binding_root_bind_var hends' hendsy' hne']
    refine map_rooted (merges_bind_var hends hendsy hne) ?_
    by_cases ha : s.root a = s.root x
    · rw [if_pos ha, if_pos ((h.root a x).mp ha)]
      exact h.binding y
    · rw [if_neg ha, if_neg ((h.root a x).not.mp ha)]
      exact h.binding a

theorem flip (hv : ∀ x, ¬ s.Links v x) (hw : ∀ x, ¬ s.Links w x) (hne : v ≠ w)
    (hb : s.binding v = s.binding w) :
    (s.bind v (.var w)).Mirrors (s.bind w (.var v)) := by
  have hrootv := root_of_ends hv
  have hrootw := root_of_ends hw
  constructor
  · intro a b
    rw [root_bind_var hv hw hne, root_bind_var hv hw hne, root_bind_var hw hv hne.symm,
      root_bind_var hw hv hne.symm]
    split_ifs <;> grind
  · intro a
    rw [binding_root_bind_var hv hw hne, binding_root_bind_var hw hv hne.symm]
    split_ifs <;> grind

theorem of_binding_eq (h : ∀ x, s.binding x = s'.binding x) : s.Mirrors s' :=
  of_sameRoots (.of_binding_eq fun x ↦ (h x).symm)

theorem flip_layer (hne : v ≠ w) :
    ((s.bind w l.toTerm).bind v (.var w)).Mirrors ((s.bind v l.toTerm).bind w (.var v)) := by
  let both := (s.bind w l.toTerm).bind v l.toTerm
  have hboth : ∀ x, both.binding x =
      if x = v then some l.toTerm else if x = w then some l.toTerm else s.binding x := by
    intro x
    simp only [both, binding_bind]
  have hbv : both.binding v = some l.toTerm := by rw [hboth, if_pos rfl]
  have hbw : both.binding w = some l.toTerm := by rw [hboth, if_neg hne.symm, if_pos rfl]
  have hflip : (both.bind v (.var w)).Mirrors (both.bind w (.var v)) :=
    flip (not_links_of_binding (o := some l) hbv) (not_links_of_binding (o := some l) hbw) hne
      (hbv.trans hbw.symm)
  refine ((of_binding_eq fun x ↦ ?_).trans hflip).trans (of_binding_eq fun x ↦ ?_)
  · simp only [binding_bind, hboth]
    split_ifs <;> rfl
  · simp only [binding_bind, hboth]
    split_ifs <;> rfl

/-- A free variable may take over the binding of another one instead of being linked to it. -/
theorem take_over (hne : v ≠ w) (hw : s.binding w = some l.toTerm) :
    (s.bind v (.var w)).Mirrors ((s.bind v l.toTerm).bind w (.var v)) := by
  have hrebound : ∀ x, (s.bind v (.var w)).binding x =
      ((s.bind w l.toTerm).bind v (.var w)).binding x := by
    intro x
    simp only [binding_bind]
    split_ifs with hv hw'
    · rfl
    · rw [hw', hw]
    · rfl
  exact (of_binding_eq hrebound).trans (flip_layer hne)

end Mirrors

end Unification.Store
