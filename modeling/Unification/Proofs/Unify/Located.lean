import Unification.Proofs.Unify.Correctness
import Unification.Proofs.Unify.Facing
import Unification.Proofs.Unify.Heads

namespace Unification

open Relation Script Contract

variable {σ : Type} {s s' s'' : Store σ} {mode : Mode} {n fuel : ℕ} {path path' : List Var}
  {t u : Term σ} {v w x : Var} {l r l' r' bound : Layer σ (Term σ)} {is : List ℕ} {i : ℕ}

namespace Store

/-- The layer that is come to from a term when the bindings of variables are followed and, at each
layer but the last, the next slot of a list. -/
inductive Locates (s : Store σ) : Term σ → List ℕ → Layer σ (Term σ) → Prop
  | here (l : Layer σ (Term σ)) : Locates s l.toTerm [] l
  | slot {l l' : Layer σ (Term σ)} {i : ℕ} {t : Term σ} {is : List ℕ} :
      l.slots[i]? = some t → Locates s t is l' → Locates s l.toTerm (i :: is) l'
  | bound {v : Var} {t : Term σ} {is : List ℕ} {l : Layer σ (Term σ)} :
      s.binding v = some t → Locates s t is l → Locates s (.var v) is l

theorem Locates.chain (h : ReflTransGen s.Links v w) (hw : s.Locates (.var w) is l) :
    s.Locates (.var v) is l := by
  induction h using ReflTransGen.head_induction_on with
  | refl => exact hw
  | head hl _ ih => exact .bound hl ih

def Disagrees [DecidableEq σ] (s : Store σ) (t u : Term σ) (l r : Layer σ (Term σ)) : Prop :=
  l.align? r = none ∧ ∃ is, s.Locates t is l ∧ s.Locates u is r

/-- The chains that end on a path still do so, and the variables of the path have kept their
bindings. -/
def Guards (s : Store σ) (path : List Var) (s' : Store σ) : Prop :=
  ∀ x, s.root x ∈ path → s'.root x = s.root x ∧ s'.binding (s.root x) = s.binding (s.root x)

namespace Guards

theorem refl (s : Store σ) (path : List Var) : s.Guards path s := fun _ _ ↦ ⟨rfl, rfl⟩

theorem trans (h : s.Guards path s') (h' : s'.Guards path s'') : s.Guards path s'' := by
  intro x hx
  obtain ⟨hroot, hb⟩ := h x hx
  obtain ⟨hroot', hb'⟩ := h' x (hroot.symm ▸ hx)
  rw [hroot] at hroot' hb'
  exact ⟨hroot', hb'.trans hb⟩

theorem mono (h : s.Guards path' s') (hpath : path ⊆ path') : s.Guards path s' :=
  fun x hx ↦ h x (hpath hx)

theorem of_sameRoots (h : s.SameRoots s') : s.Guards path s' :=
  fun x _ ↦ ⟨congrFun h.root x, h.binding x⟩

theorem binding_eq (h : s.Guards path s') (hs : s.Walks path) (hv : v ∈ path) :
    s'.binding v = s.binding v := by
  have hroot := hs.root_eq hv
  have hb := (h v (hroot.symm ▸ hv)).2
  rwa [hroot] at hb

theorem walks (h : s.Guards path s') (hs : s.Walks path) : s'.Walks path := by
  intro p hp
  rw [h.binding_eq hs hp]
  exact hs p hp

theorem bind_layer (hv : ∀ y, ¬ s.Links v y) (hmem : v ∉ path) :
    s.Guards path (s.bind v l.toTerm) := by
  intro x hx
  have hxv : s.root x ≠ v := fun he ↦ hmem (he ▸ hx)
  exact ⟨root_bind_node hv x, by rw [binding_bind, if_neg hxv]⟩

theorem bind_var (hv : ∀ y, ¬ s.Links v y) (hw : ∀ y, ¬ s.Links w y) (hne : v ≠ w)
    (hmem : v ∉ path) : s.Guards path (s.bind v (.var w)) := by
  intro x hx
  have hxv : s.root x ≠ v := fun he ↦ hmem (he ▸ hx)
  exact ⟨by rw [root_bind_var hv hw hne, if_neg hxv], by rw [binding_bind, if_neg hxv]⟩

theorem locates (h : s.Guards path s') (hx : s.root x ∈ path)
    (hb : s.binding (s.root x) = some l.toTerm) (hl : s'.Locates l.toTerm is l') :
    s'.Locates (.var x) is l' := by
  obtain ⟨hroot, hb'⟩ := h x hx
  refine .chain (w := s.root x) (hroot ▸ s'.reflTransGen_root x) (.bound (hb'.trans hb) hl)

end Guards

end Store

/-- The failures that a run may end with report every disagreement below two terms, in whatever
store guards the path. -/
def Reports [DecidableEq σ] (failed : Failure σ Refusal → Store σ → Prop) (s : Store σ)
    (path : List Var) (t u : Term σ) : Prop :=
  ∀ l r s', s.Guards path s' → s'.Disagrees t u l r → failed (.clash (.mismatch l r)) s'

namespace Reports

variable [DecidableEq σ] {failed : Failure σ Refusal → Store σ → Prop}

theorem after (h : Reports failed s path t u) (hg : s.Guards path s') :
    Reports failed s' path t u :=
  fun l r s'' hg' ↦ h l r s'' (hg.trans hg')

theorem slot (h : Reports failed s path l.toTerm r.toTerm) (hl : l.slots[i]? = some t)
    (hr : r.slots[i]? = some u) : Reports failed s path t u := by
  rintro l' r' s' hg ⟨halign, is, ht, hu⟩
  exact h l' r' s' hg ⟨halign, i :: is, .slot hl ht, .slot hr hu⟩

theorem left (h : Reports failed s path (.var x) u)
    (hb : s.binding (s.root x) = some l.toTerm) :
    Reports failed s (s.root x :: path) l.toTerm u := by
  rintro l' r' s' hg ⟨halign, is, hl, hu⟩
  exact h l' r' s' (hg.mono (List.subset_cons_self _ _))
    ⟨halign, is, hg.locates List.mem_cons_self hb hl, hu⟩

theorem right (h : Reports failed s path t (.var x))
    (hb : s.binding (s.root x) = some r.toTerm) :
    Reports failed s (s.root x :: path) t r.toTerm := by
  rintro l' r' s' hg ⟨halign, is, ht, hr⟩
  exact h l' r' s' (hg.mono (List.subset_cons_self _ _))
    ⟨halign, is, ht, hg.locates List.mem_cons_self hb hr⟩

end Reports

section Plain

variable {failed : Failure σ Refusal → Store σ → Prop}
  (hocc : ∀ v t s, failed (.clash (.occursIn v t)) s)

include hocc

theorem meets_bindFree_guards (hv : s.binding v = none) (hmem : v ∉ path) :
    (bindFree mode fuel v l).Meets (.blaming failed) (fun _ s' ↦ s.Guards path s') s := by
  refine meets_bind.mpr ((meets_guardOccurs trivial fun _ _ ↦ hocc _ _ _).mono ?_)
  rintro _ s' - ⟨rfl, -⟩
  refine meets_bind.mpr (meets_assign.mpr ⟨trivial, ?_⟩)
  exact .bind_layer (Store.not_links_of_binding (o := none) hv) hmem

theorem meets_absorb_guards {kept absorbed : Var} {kb ab unified : Option (Layer σ (Term σ))}
    (hkept : ∀ y, ¬ s.Links kept y) (habsorbed : ∀ y, ¬ s.Links absorbed y)
    (hne : absorbed ≠ kept) (ha : absorbed ∉ path)
    (hk : unified.or (if kb.isNone then ab else none) = none ∨ kept ∉ path) :
    (absorb mode fuel kept kb absorbed ab unified false).Meets (.blaming failed)
      (fun _ s' ↦ s.Guards path s') s := by
  have hguard : ∀ {b : Bool} {v : Var} {t : Term σ} {s : Store σ},
      (Script.when b (guardOccurs mode fuel v t)).Meets (.blaming failed) (fun _ s' ↦ s' = s) s :=
    meets_when_guardOccurs trivial fun _ ↦ hocc _ _ _
  have hbind : ∀ o, o = none ∨ kept ∉ path →
      (absorb.bindKept mode fuel kept kb o).Meets (.blaming failed) (fun _ s' ↦
        s.Guards path s' ∧ (∀ y, ¬ s'.Links kept y) ∧ ∀ y, ¬ s'.Links absorbed y) s := by
    intro o ho
    cases o with
    | none => exact ⟨.refl s path, hkept, habsorbed⟩
    | some layer =>
      refine meets_bind.mpr (hguard.mono ?_)
      rintro _ s₁ - rfl
      refine meets_assign.mpr ⟨trivial, .bind_layer hkept (ho.resolve_left (by simp)), ?_, ?_⟩
      · have hlayer : (s₁.bind kept layer.toTerm).binding kept = some layer.toTerm := by
          rw [Store.binding_bind, if_pos rfl]
        exact Store.not_links_of_binding (o := some layer) hlayer
      · exact fun y hy ↦ habsorbed y ((Store.links_bind_of_ne hne).mp hy)
  refine meets_bind.mpr ((hbind _ hk).mono fun _ s₁ _ ⟨hg, hkept', habsorbed'⟩ ↦ ?_)
  refine meets_bind.mpr (meets_bind.mpr (hguard.mono ?_))
  rintro _ s₂ - rfl
  refine meets_bind.mpr (meets_log.mpr (meets_bind.mpr (meets_assign.mpr ⟨trivial, ?_⟩)))
  exact hg.trans (.bind_var habsorbed' hkept' hne ha)

section Step

variable [DecidableEq σ] {recurse : List Var → Term σ → Term σ → Script σ Refusal (Term σ)}
  (hrec : ∀ path t u s, s.Walks path → Reports failed s path t u →
    (recurse path t u).Meets (.blaming failed) (fun _ s' ↦ s.Guards path s') s)

include hrec

omit hocc in
theorem meets_unifyLayers_guards (hs : s.Walks path)
    (hfail : Reports failed s path l.toTerm r.toTerm) :
    (unifyLayers recurse path l r).Meets (.blaming failed) (fun _ s' ↦ s.Guards path s') s := by
  unfold unifyLayers
  cases halign : l.align? r with
  | none => exact hfail l r s (.refl s path) ⟨halign, [], .here l, .here r⟩
  | some aligned =>
    refine meets_bind.mpr ((meets_mapEach (I := fun s' ↦ s.Guards path s')
      (R := fun _ _ _ ↦ True) (fun x hx s₁ hg ↦ ?_) (fun _ _ _ _ _ _ _ ↦ trivial)
      (.refl s path)).mono fun _ _ _ h ↦ h.1)
    cases x with
    | same t => exact ⟨hg, trivial⟩
    | differ t u =>
      obtain ⟨i, hi⟩ := List.mem_iff_getElem?.mp (Layer.mem_zip_slots halign hx)
      obtain ⟨hl, hr⟩ := List.getElem?_zip_eq_some.mp hi
      exact (hrec path t u s₁ (hg.walks hs) ((hfail.slot hl hr).after hg)).mono
        fun _ _ _ h ↦ ⟨hg.trans h, trivial⟩

theorem meets_rebind_guards (hs : s.Walks path) (hv : s.binding v = some bound.toTerm)
    (hfail : Reports failed s (v :: path) l.toTerm r.toTerm) :
    (rebind recurse path v bound l r).Meets (.blaming failed) (fun _ s' ↦ s.Guards path s') s := by
  rw [rebind, meets_bind, meets_stepInto]
  split
  · exact hocc _ _ _
  rename_i hmem
  have hs' : s.Walks (v :: path) := List.forall_mem_cons.mpr ⟨⟨bound, hv⟩, hs⟩
  refine meets_bind.mpr ((meets_unifyLayers_guards hrec hs' hfail).mono fun layer s₁ _ hg ↦ ?_)
  have hv₁ := (hg.binding_eq hs' List.mem_cons_self).trans hv
  have hg' : s.Guards path s₁ := hg.mono (List.subset_cons_self v path)
  refine meets_bind.mpr (meets_assign.mpr ⟨trivial, hg'.trans ?_⟩)
  exact .bind_layer (Store.not_links_of_binding (o := some bound) hv₁) hmem

theorem meets_unifyVars_guards (hplain : mode.strategy = .plain) (hs : s.Walks path)
    {o p : Option (Layer σ (Term σ))} (hv : s.binding v = o.map Layer.toTerm)
    (hw : s.binding w = p.map Layer.toTerm)
    (hfail : ∀ l r, o = some l → p = some r →
      Reports failed s (w :: v :: path) l.toTerm r.toTerm) :
    (unifyHeads.unifyVars mode fuel recurse path v o w p).Meets (.blaming failed)
      (fun _ s' ↦ s.Guards path s') s := by
  rw [unifyHeads.unifyVars]
  by_cases hne : v = w
  · rw [if_pos hne]
    exact .refl s path
  rw [if_neg hne, joinVars, hplain, Strategy.choose, meets_bind, meets_pure, meets_bind]
  have hvl := Store.not_links_of_binding hv
  have hwl := Store.not_links_of_binding hw
  cases o with
  | none => cases p <;> exact meets_absorb_guards hocc hwl hvl hne (hs.not_mem hv) (.inl rfl)
  | some l =>
    cases p with
    | none => exact meets_absorb_guards hocc hvl hwl (Ne.symm hne) (hs.not_mem hw) (.inl rfl)
    | some r =>
      rw [unifyBindings_eq, meets_bind]
      refine (meets_stepInBoth hne (fun _ ↦ hocc _ _ _) fun _ ↦ hocc _ _ _).mono ?_
      rintro _ s - ⟨rfl, rfl, hvmem, hwmem⟩
      have hs' : s.Walks (w :: v :: path) :=
        List.forall_mem_cons.mpr ⟨⟨r, hw⟩, List.forall_mem_cons.mpr ⟨⟨l, hv⟩, hs⟩⟩
      refine meets_map.mpr ((meets_unifyLayers_guards hrec hs' (hfail l r rfl rfl)).mono
        fun layer s₁ _ hg ↦ ?_)
      have hw₁ := (hg.binding_eq hs' List.mem_cons_self).trans hw
      have hv₁ := (hg.binding_eq hs' (List.mem_cons_of_mem w List.mem_cons_self)).trans hv
      refine (meets_absorb_guards hocc (Store.not_links_of_binding hw₁)
        (Store.not_links_of_binding hv₁) hne hvmem (.inr hwmem)).mono fun _ s₂ _ hg' ↦ ?_
      exact (hg.mono fun _ hx ↦ List.mem_cons_of_mem w (List.mem_cons_of_mem v hx)).trans hg'

theorem meets_unifyHeads_guards (hplain : mode.strategy = .plain) (hs : s.Walks path)
    {h h' : Head σ} (hl : h.At s t) (hr : h'.At s u) (hfail : Reports failed s path t u) :
    (unifyHeads mode fuel recurse path h h').Meets (.blaming failed)
      (fun _ s' ↦ s.Guards path s') s := by
  cases hl with
  | layer l =>
    cases hr with
    | layer r => exact meets_map.mpr (meets_unifyLayers_guards hrec hs hfail)
    | @var y o hy =>
      cases o with
      | none => exact meets_bindFree_guards hocc hy (hs.not_mem hy)
      | some r => exact meets_rebind_guards hocc hrec hs hy (hfail.right hy)
  | @var x o hx =>
    cases hr with
    | layer r =>
      cases o with
      | none => exact meets_bindFree_guards hocc hx (hs.not_mem hx)
      | some l => exact meets_rebind_guards hocc hrec hs hx (hfail.left hx)
    | @var y p hy =>
      rw [unifyHeads_ofVar]
      refine meets_unifyVars_guards hocc hrec hplain hs hx hy ?_
      rintro l r rfl rfl
      exact (hfail.left hx).right hy

end Step

variable [DecidableEq σ]

theorem meets_unifyBelow_guards (hplain : mode.strategy = .plain) (hs : s.Walks path)
    (hfail : Reports failed s path t u) :
    (unifyBelow mode fuel n path t u).Meets (.blaming failed) (fun _ s' ↦ s.Guards path s') s := by
  induction n generalizing path t u s with
  | zero => exact trivial
  | succ n ih =>
    rw [unifyBelow_succ, meets_bind]
    refine (meets_findBoth fun x s₁ _ ↦ hocc _ _ _).mono fun h s₁ _ ⟨h₁, hl, hr⟩ ↦ ?_
    have hg : s.Guards path s₁ := .of_sameRoots h₁
    exact (meets_unifyHeads_guards hocc (fun _ _ _ _ ↦ ih) hplain (hs.keep h₁) (hl.keep h₁)
      (hr.keep h₁) (hfail.after hg)).mono fun _ _ _ h ↦ hg.trans h

end Plain

/-- Where a unifier that links by what is bound reports a mismatch, the two layers cannot be laid
side by side, and one list of slots leads to them from the two terms, in the store that is left. -/
theorem Unifier.mismatch_located [DecidableEq σ] (k : Unifier) (hk : k.mode.strategy = .plain)
    {a b : Term σ} (hrun : (k.operation a b).run s = (.error (.clash (.mismatch l r)), s')) :
    l.align? r = none ∧ ∃ is, s'.Locates a is l ∧ s'.Locates b is r := by
  have hmeets : (unify k.mode ((k.operation a b).fuel s.weight) a b).Meets
      (.blaming fun e s' ↦ ∀ l r, e = .clash (.mismatch l r) → s'.Disagrees a b l r)
      (fun _ _ ↦ True) s := by
    have hs : s.Walks [] := nofun
    refine meets_bind.mpr (meets_log.mpr ((meets_unifyBelow_guards (fun _ _ _ ↦ nofun) hk hs
      ?_).mono fun _ _ _ _ ↦ trivial))
    rintro l r s' - h _ _ ⟨⟩
    exact h
  have hends := (k.meets_script hmeets).run.2
  rw [← Operation.run, hrun] at hends
  exact hends l r rfl

def Store.forked : Store Symbol :=
  ((({ next := 4 } : Store Symbol).bind ⟨0⟩ (.var ⟨1⟩)).bind ⟨1⟩
    (.node .pair [.var ⟨2⟩, .var ⟨3⟩])).bind ⟨3⟩ (.node (.fn "f") [.var ⟨2⟩])

theorem Unifier.mismatch_located_forked :
    ∃ s', ((Unifier.silent {}).operation (.var ⟨0⟩)
        (.node .pair [.node (.int 1) [], .node (.fn "f") [.node (.int 2) []]])).run Store.forked =
          (.error (.clash (.mismatch ⟨.int 1, []⟩ ⟨.int 2, []⟩)), s') ∧
      ∃ is, s'.Locates (.var ⟨0⟩) is ⟨.int 1, []⟩ ∧
        s'.Locates (.node .pair [.node (.int 1) [], .node (.fn "f") [.node (.int 2) []]]) is
          ⟨.int 2, []⟩ := by
  have hrun : ((Unifier.silent {}).operation (.var ⟨0⟩)
      (.node .pair [.node (.int 1) [], .node (.fn "f") [.node (.int 2) []]])).run Store.forked =
        (.error (.clash (.mismatch ⟨.int 1, []⟩ ⟨.int 2, []⟩)), _) := rfl
  exact ⟨_, hrun, (Unifier.mismatch_located _ rfl hrun).2⟩

end Unification
