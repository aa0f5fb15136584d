import Unification.Proofs.Agreement
import Unification.Proofs.Unify.Facing
import Unification.Proofs.Unify.Heads

namespace Unification

open Script Contract

variable {σ : Type} {s s' s₁ s₁' : Store σ} {mode : Mode} {fuel : ℕ} {path path' : List Var}
  {t t' : Term σ} {v w x y kept absorbed : Var} {l l' r r' : Layer σ (Term σ)} {tie : Bool}
  {kb : Option (Layer σ (Term σ))}

section Guard

theorem meets_guardOccurs_telling : (guardOccurs mode fuel v t).Meets
    (.telling (mode.eager ∧ s.Reaches t v))
    (fun _ s₁ ↦ s₁ = s ∧ (mode.eager → ¬ s.Reaches t v)) s :=
  meets_guardOccurs trivial fun he hr ↦ ⟨rfl, he, hr⟩

theorem agree_guardOccurs (h : s.Mirrors s') (ht : s.rooted t = s.rooted t') :
    Agree (fun _ s₁ _ s₁' ↦ s₁ = s ∧ s₁' = s') ((guardOccurs mode fuel (s.root x) t).run s)
      ((guardOccurs mode fuel (s'.root x) t').run s') := by
  refine .of_meets meets_guardOccurs_telling meets_guardOccurs_telling
    (fun _ _ _ _ hok hok' ↦ ⟨hok.1, hok'.1⟩) ?_ ?_
  · exact fun _ _ hok hq ↦ hok.2 hq.1 ((h.reaches_iff ht).mpr hq.2)
  · exact fun _ _ hok hq ↦ hok.2 hq.1 ((h.reaches_iff ht).mp hq.2)

theorem agree_bindFree (h : Facing s s' path path') (hx : ¬ s.Endless x)
    (hl : s.rooted l.toTerm = s.rooted l'.toTerm) :
    Agree (Reflected path path' s) ((bindFree mode fuel (s.root x) l).run s)
      ((bindFree mode fuel (s'.root x) l').run s') := by
  refine .bind (agree_guardOccurs h.mirrors hl) fun _ s₁ _ s₁' ⟨h₁, h₁'⟩ ↦ ?_
  subst h₁ h₁'
  obtain ⟨hfacing, hmerges⟩ := h.bind_layer hx hl
  exact .ok ⟨hfacing, hmerges, rooted_root_eq h.mirrors hmerges x⟩

theorem agree_guardOccurs_bound (h : s.Mirrors s') (hy : s.binding (s.root y) = some r.toTerm)
    (hne : s.root x ≠ s.root y) :
    Agree (fun _ s₁ _ s₁' ↦ (s₁ = s ∧ s₁' = s') ∧
        (mode.eager → ¬ s.Reaches (.var (s.root y)) (s.root x)))
      ((guardOccurs mode fuel (s.root x) r.toTerm).run s)
      ((guardOccurs mode fuel (s'.root x) (.var (s'.root y))).run s') := by
  have hreach : s.Reaches r.toTerm (s.root x) ↔ s'.Reaches (.var (s'.root y)) (s'.root x) := by
    rw [← Store.reaches_iff_of_binding hy hne.symm]
    exact h.reaches_iff (rooted_root_eq h (.refl s) y)
  refine .of_meets meets_guardOccurs_telling meets_guardOccurs_telling
    (fun _ _ _ _ hok hok' ↦ ⟨⟨hok.1, hok'.1⟩, fun he hr ↦ ?_⟩) ?_ ?_
  · exact hok.2 he ((Store.reaches_iff_of_binding hy hne.symm).mp hr)
  · exact fun _ _ hok hq ↦ hok.2 hq.1 (hreach.mpr hq.2)
  · exact fun _ _ hok hq ↦ hok.2 hq.1 (hreach.mp hq.2)

end Guard

section Attach

def attach (mode : Mode) (fuel : ℕ) (v w : Var) : Script σ Refusal (Term σ) := do
  guardOccurs mode fuel v (.var w)
  log (.linking v w)
  assign v (.var w)
  return .var w

theorem agree_attach (h : Facing s s' path path') (hx : ¬ s.Endless x) (hy : ¬ s.Endless y)
    (hne : s.root x ≠ s.root y) (hmem : s.root x ∉ path) :
    Agree (Reflected path path' s) ((attach mode fuel (s.root x) (s.root y)).run s)
      ((attach mode fuel (s'.root x) (s'.root y)).run s') := by
  have hy' := rooted_root_eq h.mirrors (.refl s) y
  refine .bind (agree_guardOccurs h.mirrors hy') fun _ s₁ _ s₁' ⟨h₁, h₁'⟩ ↦ ?_
  subst h₁ h₁'
  obtain ⟨hfacing, hmerges⟩ := h.bind_var hx hy hne hmem
  exact .ok ⟨hfacing, hmerges, rooted_root_eq h.mirrors hmerges y⟩

theorem not_reaches_free (hw : s.binding w = none) (hne : v ≠ w) : ¬ s.Reaches (.var w) v := by
  rintro ⟨x, hx, hxv⟩
  obtain rfl := Term.mem_vars_var.mp hx
  rcases hxv.cases_head with rfl | ⟨y, ⟨t, ht, -⟩, -⟩
  · exact hne rfl
  · rw [hw] at ht
    cases ht

theorem meets_attach_free (hw : s.binding w = none) (hne : v ≠ w) :
    (attach mode fuel v w).Meets (.telling False)
      (fun a s₁ ↦ a = .var w ∧ s₁ = s.bind v (.var w)) s := by
  have hguard : (guardOccurs mode fuel v (.var w)).Meets (.telling False)
      (fun _ s₁ ↦ s₁ = s ∧ (mode.eager → ¬ s.Reaches (.var w) v)) s :=
    meets_guardOccurs trivial fun _ hr ↦ absurd hr (not_reaches_free hw hne)
  refine meets_bind.mpr (hguard.mono fun _ s₁ _ ⟨h₁, _⟩ ↦ ?_)
  subst h₁
  exact meets_bind.mpr (meets_log.mpr (meets_bind.mpr (meets_assign.mpr ⟨trivial, rfl, rfl⟩)))

/-- Of two free variables, each run may keep the other one. -/
theorem agree_attach_free (h : Facing s s' path path') (hx : s.binding (s.root x) = none)
    (hx' : s'.binding (s'.root x) = none) (hy : s.binding (s.root y) = none)
    (hy' : s'.binding (s'.root y) = none) (hne : s.root x ≠ s.root y) :
    Agree (Reflected path path' s) ((attach mode fuel (s.root x) (s.root y)).run s)
      ((attach mode fuel (s'.root y) (s'.root x)).run s') := by
  have hne' : s'.root x ≠ s'.root y := (h.mirrors.root x y).not.mp hne
  have hendx : ¬ s.Endless x := (Held.free hx hx').not_endless
  have hendy : ¬ s.Endless y := (Held.free hy hy').not_endless
  refine .of_meets (meets_attach_free hy hne) (meets_attach_free hx' hne'.symm) ?_
    (fun _ _ _ h ↦ h) (fun _ _ _ h ↦ h)
  rintro _ _ _ _ ⟨rfl, rfl⟩ ⟨rfl, rfl⟩
  obtain ⟨hfacing, hmerges⟩ := h.bind_var hendx hendy hne (h.left.not_mem hx)
  have hflip : (s'.bind (s'.root x) (.var (s'.root y))).Mirrors
      (s'.bind (s'.root y) (.var (s'.root x))) :=
    .flip (Store.not_links_of_binding (o := none) hx') (Store.not_links_of_binding (o := none) hy')
      hne' (hx'.trans hy'.symm)
  refine ⟨h.next (hfacing.mirrors.trans hflip) hmerges hfacing.left ?_, hmerges, ?_⟩
  · exact h.right.bind_of_not_mem (h.right.not_mem hy')
  · rw [← rooted_root_eq h.mirrors hmerges x]
    have hself := Store.root_bind_var_self (Store.ends_root hendx).2 (Store.ends_root hendy).2 hne
    exact congrArg Term.var hself.symm

end Attach

def Store.raise (tie : Bool) (v : Var) (s : Store σ) : Store σ := if tie then s.promote v else s

theorem Store.binding_raise (tie : Bool) (v : Var) (s : Store σ) (x : Var) :
    (s.raise tie v).binding x = s.binding x := by
  cases tie with
  | false => rfl
  | true => exact s.binding_promote v x

theorem Store.sameRoots_raise (tie : Bool) (v : Var) (s : Store σ) : s.SameRoots (s.raise tie v) :=
  .of_binding_eq (s.binding_raise tie v)

section Absorb

theorem run_absorb_free : (absorb mode fuel kept kb absorbed none none tie).run s =
    (attach mode fuel absorbed kept).run (s.raise tie kept) := by
  cases kb <;> cases tie <;> rfl

theorem run_absorb_both {m : Layer σ (Term σ)} :
    (absorb mode fuel kept (some l) absorbed (some r) (some m) tie).run s =
      (.ok (.var kept), ((s.bind kept m.toTerm).raise tie kept).bind absorbed (.var kept)) := by
  cases tie <;> rfl

def takeOver (kept absorbed : Var) (r : Layer σ (Term σ)) (tie : Bool) : Script σ Refusal (Term σ) := do
  assign kept r.toTerm
  when tie do
    log (.promoting kept)
    promote kept
  log (.linking absorbed kept)
  assign absorbed (.var kept)
  return .var kept

theorem run_takeOver : (takeOver kept absorbed r tie).run s =
    (.ok (.var kept), ((s.bind kept r.toTerm).raise tie kept).bind absorbed (.var kept)) := by
  cases tie <;> rfl

theorem absorb_bound : absorb mode fuel kept none absorbed (some r) none tie =
    guardOccurs mode fuel kept r.toTerm >>= fun _ ↦ takeOver kept absorbed r tie := by
  rw [absorb]
  change (guardOccurs mode fuel kept r.toTerm >>= fun _ ↦ assign kept r.toTerm) >>= _ = _
  rw [LawfulMonad.bind_assoc]
  cases tie <;> rfl

theorem agree_absorb_free (h : Facing s s' path path') (hx : ¬ s.Endless x) (hy : ¬ s.Endless y)
    (hne : s.root x ≠ s.root y) (hmem : s.root x ∉ path) :
    Agree (Reflected path path' s)
      ((absorb mode fuel (s.root y) kb (s.root x) none none tie).run s)
      ((attach mode fuel (s'.root x) (s'.root y)).run s') := by
  rw [run_absorb_free]
  have hsame := s.sameRoots_raise tie (s.root y)
  generalize s.raise tie (s.root y) = s₁ at hsame ⊢
  have h₁ := h.keep hsame (.refl s')
  rw [← hsame.root] at hne hmem ⊢
  rw [← hsame.endless_iff] at hx hy
  exact (agree_attach h₁ hx hy hne hmem).mono fun _ _ _ _ hab ↦ hab.after hsame.merges

theorem agree_absorb_free_flip (h : Facing s s' path path') (hx : s.binding (s.root x) = none)
    (hx' : s'.binding (s'.root x) = none) (hy : s.binding (s.root y) = none)
    (hy' : s'.binding (s'.root y) = none) (hne : s.root x ≠ s.root y) :
    Agree (Reflected path path' s)
      ((absorb mode fuel (s.root y) kb (s.root x) none none tie).run s)
      ((attach mode fuel (s'.root y) (s'.root x)).run s') := by
  rw [run_absorb_free]
  have hsame := s.sameRoots_raise tie (s.root y)
  generalize s.raise tie (s.root y) = s₁ at hsame ⊢
  have h₁ := h.keep hsame (.refl s')
  rw [← hsame.binding] at hx hy
  rw [← hsame.root] at hx hy hne ⊢
  exact (agree_attach_free h₁ hx hx' hy hy' hne).mono fun _ _ _ _ hab ↦ hab.after hsame.merges

/-- One run lets a free variable take over a binding, where the other one makes it stand for the
bound variable. -/
theorem agree_absorb_bound (h : Facing s s' path path') (hx : s.binding (s.root x) = none)
    (hy : s.binding (s.root y) = some r.toTerm) (hne : s.root x ≠ s.root y)
    (hout : (mode.eager → ¬ s.Reaches (.var (s.root y)) (s.root x)) → s.root y ∉ path) :
    Agree (Reflected path path' s)
      ((absorb mode fuel (s.root x) none (s.root y) (some r) none tie).run s)
      ((attach mode fuel (s'.root x) (s'.root y)).run s') := by
  have hlinksx : ∀ z, ¬ s.Links (s.root x) z := Store.not_links_of_binding (o := none) hx
  have hlinksy : ∀ z, ¬ s.Links (s.root y) z := Store.not_links_of_binding (o := some r) hy
  rw [absorb_bound, attach]
  refine .bind (agree_guardOccurs_bound h.mirrors hy hne) fun _ s₁ _ s₁' ⟨⟨h₁, h₁'⟩, hr⟩ ↦ ?_
  rw [h₁, h₁', run_takeOver]
  obtain ⟨hfacing, hmerges⟩ := h.bind_var (fun ⟨z, hz⟩ ↦ hlinksx z hz) (fun ⟨z, hz⟩ ↦ hlinksy z hz)
    hne (h.left.not_mem hx)
  have hself := Store.root_bind_var_self hlinksx hlinksy hne
  -- The left run is followed as if it had left the binding where it was.
  have hmirrors : (s.bind (s.root x) (.var (s.root y))).Mirrors
      (((s.bind (s.root x) r.toTerm).raise tie (s.root x)).bind (s.root y) (.var (s.root x))) := by
    refine (Store.Mirrors.take_over hne hy).trans (.of_binding_eq fun z ↦ ?_)
    simp only [Store.binding_bind, Store.binding_raise]
  have hmerges := hmerges.trans hmirrors.merges
  refine .ok ⟨h.next (hmirrors.symm.trans hfacing.mirrors) hmerges ?_ hfacing.right, hmerges, ?_⟩
  · refine Store.Walks.bind_of_not_mem (fun p hp ↦ ?_) (hout hr)
    rw [Store.binding_raise]
    exact h.left.bind_layer p hp
  · rw [← rooted_root_eq h.mirrors hmerges y]
    exact congrArg Term.var (hmirrors.merges _ _ hself)

/-- After both bindings were unified, one of the two variables is bound to the result and the other
one is linked to it. -/
theorem reflected_link {m m' : Layer σ (Term σ)} (tie : Bool) (h : Facing s s' path path')
    (hne : s.root x ≠ s.root y) (hx : s.root x ∉ path)
    (h₁ : Reflected (s.root y :: s.root x :: path) (s'.root y :: s'.root x :: path') s m.toTerm s₁
      m'.toTerm s₁') :
    let s₂ := ((s₁.bind (s.root y) m.toTerm).raise tie (s.root y)).bind (s.root x)
      (.var (s.root y))
    Reflected path path' s (.var (s.root y)) s₂ (.var (s'.root y))
        ((s₁'.bind (s'.root y) m'.toTerm).bind (s'.root x) (.var (s'.root y))) ∧
      s₂.root (s.root x) = s₂.root (s.root y) := by
  obtain ⟨h₁, hmerges, hm⟩ := h₁
  have hsub : path ⊆ s.root y :: s.root x :: path := fun p hp ↦ by simp [hp]
  have hsub' : path' ⊆ s'.root y :: s'.root x :: path' := fun p hp ↦ by simp [hp]
  obtain ⟨hy₁, hy₁'⟩ := h.root_eq h₁ hmerges (x := y) (by simp) (by simp)
  have hendy₁ : ¬ s₁.Endless y := h₁.left.not_endless (by simp [hy₁])
  obtain ⟨h₂, hmerges₂⟩ := h₁.bind_layer hendy₁ hm
  rw [hy₁, hy₁'] at h₂
  rw [hy₁] at hmerges₂
  have hsame := (s₁.bind (s.root y) m.toTerm).sameRoots_raise tie (s.root y)
  generalize (s₁.bind (s.root y) m.toTerm).raise tie (s.root y) = s₂ at hsame ⊢
  have h₂ := h₂.keep hsame (.refl _)
  have hmerges₂ := (hmerges.trans hmerges₂).trans hsame.merges
  obtain ⟨hx₂, hx₂'⟩ := h.root_eq h₂ hmerges₂ (x := x) (by simp) (by simp)
  obtain ⟨hy₂, hy₂'⟩ := h.root_eq h₂ hmerges₂ (x := y) (by simp) (by simp)
  have hendx : ¬ s₂.Endless x := h₂.left.not_endless (by simp [hx₂])
  have hendy : ¬ s₂.Endless y := h₂.left.not_endless (by simp [hy₂])
  have hne₂ : s₂.root x ≠ s₂.root y := by rwa [hx₂, hy₂]
  obtain ⟨h₃, hmerges₃⟩ := (h.back_to h₂ hmerges₂ hsub hsub').bind_var hendx hendy hne₂
    (by rwa [hx₂])
  have hself := Store.root_bind_var_self (Store.ends_root hendx).2 (Store.ends_root hendy).2 hne₂
  rw [hx₂, hy₂, hx₂', hy₂'] at h₃
  rw [hx₂, hy₂] at hmerges₃ hself
  have hmerges₃ := hmerges₂.trans hmerges₃
  exact ⟨⟨h₃, hmerges₃, rooted_root_eq h.mirrors hmerges₃ y⟩, hself⟩

theorem agree_absorb_both {m m' : Layer σ (Term σ)} (h : Facing s s' path path')
    (hne : s.root x ≠ s.root y) (hx : s.root x ∉ path)
    (h₁ : Reflected (s.root y :: s.root x :: path) (s'.root y :: s'.root x :: path') s m.toTerm s₁
      m'.toTerm s₁') :
    Agree (Reflected path path' s)
      ((absorb mode fuel (s.root y) (some r) (s.root x) (some l) (some m) tie).run s₁)
      ((absorb mode fuel (s'.root y) (some r') (s'.root x) (some l') (some m') false).run s₁') := by
  rw [run_absorb_both, run_absorb_both]
  exact .ok (reflected_link tie h hne hx h₁).1

theorem agree_absorb_both_flip {m m' : Layer σ (Term σ)} (h : Facing s s' path path')
    (hne : s.root x ≠ s.root y) (hx : s.root x ∉ path) (hy : s.root y ∉ path)
    (h₁ : Reflected (s.root y :: s.root x :: path) (s'.root y :: s'.root x :: path') s m.toTerm s₁
      m'.toTerm s₁') :
    Agree (Reflected path path' s)
      ((absorb mode fuel (s.root y) (some r) (s.root x) (some l) (some m) tie).run s₁)
      ((absorb mode fuel (s'.root x) (some l') (s'.root y) (some r') (some m') false).run s₁') := by
  have hne' : s'.root x ≠ s'.root y := (h.mirrors.root x y).not.mp hne
  obtain ⟨⟨h₂, hmerges, -⟩, hself⟩ := reflected_link tie h hne hx h₁
  rw [run_absorb_both, run_absorb_both]
  refine .ok ⟨h.next (h₂.mirrors.trans (.flip_layer hne')) hmerges h₂.left ?_, hmerges, ?_⟩
  · have hright : s₁'.Walks path' := fun q hq ↦ h₁.1.right q (by simp [hq])
    exact hright.bind_layer.bind_of_not_mem (h.mem_iff.not.mp hy)
  · rw [← rooted_root_eq h.mirrors hmerges x]
    exact congrArg Term.var hself.symm

end Absorb

end Unification
