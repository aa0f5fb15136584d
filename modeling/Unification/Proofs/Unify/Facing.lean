import Unification.Proofs.Mirrors

namespace Unification

variable {σ : Type} {s s' s₁ s₁' : Store σ} {path path' : List Var} {t t' u u' : Term σ}
  {v w x y : Var} {l l' : Layer σ (Term σ)}

section Facing

def Store.Walks (s : Store σ) (path : List Var) : Prop :=
  ∀ p ∈ path, ∃ layer : Layer σ (Term σ), s.binding p = some layer.toTerm

theorem Store.Walks.root_eq (h : s.Walks path) (hv : v ∈ path) : s.root v = v := by
  obtain ⟨layer, hl⟩ := h v hv
  exact root_of_ends (not_links_of_binding (o := some layer) hl)

theorem Store.Walks.not_mem (h : s.Walks path) (hv : s.binding v = none) : v ∉ path := by
  intro hmem
  obtain ⟨l, hl⟩ := h v hmem
  rw [hv] at hl
  cases hl

theorem Store.Walks.not_endless (h : s.Walks path) (hx : s.root x ∈ path) : ¬ s.Endless x := by
  rintro ⟨y, hy⟩
  obtain ⟨layer, hl⟩ := h _ hx
  exact not_links_of_binding (o := some layer) hl y hy

theorem Store.Walks.keep (h : s.Walks path) (hs : s.SameRoots s₁) : s₁.Walks path := by
  intro p hp
  have hb := hs.binding p
  rw [h.root_eq hp] at hb
  rw [hb]
  exact h p hp

theorem Store.Walks.bind_layer (h : s.Walks path) : (s.bind v l.toTerm).Walks path := by
  intro p hp
  rw [binding_bind]
  split
  · exact ⟨l, rfl⟩
  · exact h p hp

theorem Store.Walks.bind_of_not_mem (h : s.Walks path) (hv : v ∉ path) :
    (s.bind v t).Walks path := by
  intro p hp
  rw [binding_bind, if_neg]
  · exact h p hp
  · rintro rfl
    exact hv hp

/-- Two runs below paths through the same classes, over stores that mirror each other. -/
structure Facing (s s' : Store σ) (path path' : List Var) : Prop where
  mirrors : s.Mirrors s'
  left : s.Walks path
  right : s'.Walks path'
  across : ∀ p ∈ path, ∃ q ∈ path', s.root p = s.root q
  back : ∀ q ∈ path', ∃ p ∈ path, s.root p = s.root q

namespace Facing

theorem refl (s : Store σ) : Facing s s [] [] :=
  ⟨.refl s, nofun, nofun, nofun, nofun⟩

theorem symm (h : Facing s s' path path') : Facing s' s path' path := by
  refine ⟨h.mirrors.symm, h.right, h.left, fun q hq ↦ ?_, fun p hp ↦ ?_⟩
  · obtain ⟨p, hp, he⟩ := h.back q hq
    exact ⟨p, hp, ((h.mirrors.root p q).mp he).symm⟩
  · obtain ⟨q, hq, he⟩ := h.across p hp
    exact ⟨q, hq, ((h.mirrors.root p q).mp he).symm⟩

theorem mem_of_mem (h : Facing s s' path path') (hx : s.root x ∈ path) : s'.root x ∈ path' := by
  obtain ⟨q, hq, he⟩ := h.across _ hx
  rw [s.root_root] at he
  rw [(h.mirrors.root x q).mp he, h.right.root_eq hq]
  exact hq

theorem mem_iff (h : Facing s s' path path') : s.root x ∈ path ↔ s'.root x ∈ path' :=
  ⟨h.mem_of_mem, h.symm.mem_of_mem⟩

theorem next (h : Facing s s' path path') (hmirrors : s₁.Mirrors s₁') (hmerges : s.Merges s₁)
    (hleft : s₁.Walks path) (hright : s₁'.Walks path') : Facing s₁ s₁' path path' := by
  refine ⟨hmirrors, hleft, hright, fun p hp ↦ ?_, fun q hq ↦ ?_⟩
  · obtain ⟨q, hq, he⟩ := h.across p hp
    exact ⟨q, hq, hmerges p q he⟩
  · obtain ⟨p, hp, he⟩ := h.back q hq
    exact ⟨p, hp, hmerges p q he⟩

theorem keep (h : Facing s s' path path') (hs : s.SameRoots s₁) (hs' : s'.SameRoots s₁') :
    Facing s₁ s₁' path path' :=
  h.next (((Store.Mirrors.of_sameRoots hs).symm.trans h.mirrors).trans (.of_sameRoots hs'))
    hs.merges (h.left.keep hs) (h.right.keep hs')

theorem cons (h : Facing s s' path path') (hl : s.binding (s.root x) = some l.toTerm)
    (hl' : s'.binding (s'.root x) = some l'.toTerm) :
    Facing s s' (s.root x :: path) (s'.root x :: path') := by
  have hx : s.root (s.root x) = s.root (s'.root x) :=
    (s.root_root x).trans (h.mirrors.merges_symm _ _ (s'.root_root x)).symm
  refine ⟨h.mirrors, ?_, ?_, ?_, ?_⟩
  · exact List.forall_mem_cons.mpr ⟨⟨l, hl⟩, h.left⟩
  · exact List.forall_mem_cons.mpr ⟨⟨l', hl'⟩, h.right⟩
  · refine List.forall_mem_cons.mpr ⟨⟨_, List.mem_cons_self, hx⟩, fun p hp ↦ ?_⟩
    obtain ⟨q, hq, he⟩ := h.across p hp
    exact ⟨q, List.mem_cons_of_mem _ hq, he⟩
  · refine List.forall_mem_cons.mpr ⟨⟨_, List.mem_cons_self, hx⟩, fun q hq ↦ ?_⟩
    obtain ⟨p, hp, he⟩ := h.back q hq
    exact ⟨p, List.mem_cons_of_mem _ hp, he⟩

theorem swap (h : Facing s s' path (v :: w :: path')) : Facing s s' path (w :: v :: path') := by
  have hmem : ∀ q, q ∈ w :: v :: path' ↔ q ∈ v :: w :: path' :=
    fun q ↦ (List.Perm.swap v w path').mem_iff
  refine ⟨h.mirrors, h.left, fun q hq ↦ h.right q ((hmem q).mp hq), fun p hp ↦ ?_,
    fun q hq ↦ h.back q ((hmem q).mp hq)⟩
  obtain ⟨q, hq, he⟩ := h.across p hp
  exact ⟨q, (hmem q).mpr hq, he⟩

theorem root_eq {path₁ path₁' : List Var} (h : Facing s s' path path')
    (h₁ : Facing s₁ s₁' path₁ path₁') (hmerges : s.Merges s₁) (hx : s.root x ∈ path₁)
    (hx' : s'.root x ∈ path₁') : s₁.root x = s.root x ∧ s₁'.root x = s'.root x := by
  have hmerges' : s'.Merges s₁' := fun a b hab ↦
    h₁.mirrors.merges _ _ (hmerges _ _ (h.mirrors.merges_symm _ _ hab))
  rw [← hmerges _ _ (s.root_root x), ← hmerges' _ _ (s'.root_root x)]
  exact ⟨h₁.left.root_eq hx, h₁.right.root_eq hx'⟩

theorem back_to {path₁ path₁' : List Var} (h : Facing s s' path path')
    (h₁ : Facing s₁ s₁' path₁ path₁') (hmerges : s.Merges s₁) (hpath : path ⊆ path₁)
    (hpath' : path' ⊆ path₁') : Facing s₁ s₁' path path' :=
  h.next h₁.mirrors hmerges (fun p hp ↦ h₁.left p (hpath hp)) fun p hp ↦ h₁.right p (hpath' hp)

theorem bind_layer (h : Facing s s' path path') (hx : ¬ s.Endless x)
    (hl : s.rooted l.toTerm = s.rooted l'.toTerm) :
    Facing (s.bind (s.root x) l.toTerm) (s'.bind (s'.root x) l'.toTerm) path path' ∧
      s.Merges (s.bind (s.root x) l.toTerm) := by
  have hmerges : s.Merges (s.bind (s.root x) l.toTerm) := by
    intro a b hab
    have hroot : ∀ a, (s.bind (s.root x) l.toTerm).root a = s.root a :=
      Store.root_bind_node (Store.ends_root hx).2
    rw [hroot, hroot, hab]
  exact ⟨h.next (h.mirrors.bind_layer hx hl) hmerges h.left.bind_layer h.right.bind_layer, hmerges⟩

theorem bind_var (h : Facing s s' path path') (hx : ¬ s.Endless x) (hy : ¬ s.Endless y)
    (hne : s.root x ≠ s.root y) (hmem : s.root x ∉ path) :
    Facing (s.bind (s.root x) (.var (s.root y))) (s'.bind (s'.root x) (.var (s'.root y)))
        path path' ∧
      s.Merges (s.bind (s.root x) (.var (s.root y))) := by
  have hmerges := Store.Mirrors.merges_bind_var (Store.ends_root hx).2 (Store.ends_root hy).2 hne
  refine ⟨h.next (h.mirrors.bind_var hx hy hne) hmerges ?_ ?_, hmerges⟩
  · exact h.left.bind_of_not_mem hmem
  · exact h.right.bind_of_not_mem (h.mem_iff.not.mp hmem)

end Facing

end Facing

/-- The answers of two runs from `s` and a store that mirrors it. -/
def Reflected (path path' : List Var) (s : Store σ) (a : Term σ) (s₁ : Store σ) (b : Term σ)
    (s₁' : Store σ) : Prop :=
  Facing s₁ s₁' path path' ∧ s.Merges s₁ ∧ s₁.rooted a = s₁.rooted b

theorem Reflected.swap {a b : Term σ}
    (h : Reflected (v :: w :: path) (x :: y :: path') s a s₁ b s₁') :
    Reflected (w :: v :: path) (y :: x :: path') s a s₁ b s₁' :=
  ⟨h.1.swap.symm.swap.symm, h.2⟩

theorem Reflected.after {a b : Term σ} {s₂ s₂' : Store σ} (h : Reflected path path' s₁ a s₂ b s₂')
    (hmerges : s.Merges s₁) : Reflected path path' s a s₂ b s₂' :=
  ⟨h.1, hmerges.trans h.2.1, h.2.2⟩

theorem rooted_root_eq (h : s.Mirrors s') (hmerges : s.Merges s₁) (x : Var) :
    s₁.rooted (.var (s.root x)) = s₁.rooted (.var (s'.root x)) := by
  refine hmerges.rooted_eq (congrArg Term.var ?_)
  exact (s.root_root x).trans (h.merges_symm _ _ (s'.root_root x)).symm

section Heads

/-- What two stores that mirror each other hold for a class. -/
inductive Held (s s' : Store σ) (x : Var) :
    Option (Layer σ (Term σ)) → Option (Layer σ (Term σ)) → Prop
  | free : s.binding (s.root x) = none → s'.binding (s'.root x) = none → Held s s' x none none
  | bound {l l' : Layer σ (Term σ)} : s.binding (s.root x) = some l.toTerm →
      s'.binding (s'.root x) = some l'.toTerm → s.rooted l.toTerm = s.rooted l'.toTerm →
      Held s s' x (some l) (some l')

theorem Held.not_endless {o o' : Option (Layer σ (Term σ))} (h : Held s s' x o o') :
    ¬ s.Endless x := by
  rintro ⟨y, hy⟩
  cases h with
  | free hb _ => exact Store.not_links_of_binding (o := none) hb y hy
  | @bound l l' hb _ _ => exact Store.not_links_of_binding (o := some l) hb y hy

inductive Head.Matches (s s' : Store σ) : Head σ → Head σ → Prop
  | layer {l l' : Layer σ (Term σ)} : s.rooted l.toTerm = s.rooted l'.toTerm →
      Matches s s' (.shape none l) (.shape none l')
  | var (x : Var) {o o' : Option (Layer σ (Term σ))} : Held s s' x o o' →
      Matches s s' (.ofVar (s.root x) o) (.ofVar (s'.root x) o')

theorem Store.Mirrors.held {o o' : Option (Layer σ (Term σ))} (h : s.Mirrors s')
    (ho : s.binding (s.root x) = o.map Layer.toTerm)
    (ho' : s'.binding (s'.root x) = o'.map Layer.toTerm) : Held s s' x o o' := by
  have hb := h.binding x
  rw [ho, ho'] at hb
  cases o with
  | none =>
    cases o' with
    | none => exact .free ho ho'
    | some l' => cases hb
  | some l =>
    cases o' with
    | none => cases hb
    | some l' => exact .bound ho ho' (Option.some.inj hb)

theorem Head.At.matches {h h' : Head σ} (hh : h.At s t) (hh' : h'.At s' t')
    (hs : s.Mirrors s') (ht : s.rooted t = s.rooted t') : Head.Matches s s' h h' := by
  cases hh with
  | layer l =>
    cases hh' with
    | layer l' => exact .layer ht
    | var x hb =>
      obtain ⟨args, harg, -⟩ := Store.rooted_node_eq ht
      cases harg
  | @var x o hb =>
    cases hh' with
    | layer l' =>
      obtain ⟨y, hy, -⟩ := Store.rooted_var_eq ht
      cases hy
    | @var y o' hb' =>
      have hxy : s'.root x = s'.root y := (hs.root x y).mp (Term.var.inj ht)
      rw [← hxy] at hb' ⊢
      exact .var x (hs.held hb hb')

end Heads

end Unification
