import Unification.Proofs.Walk

namespace Unification

open Relation Script

namespace Store

variable {σ : Type} {s s' : Store σ} {t u : Term σ} {v w x y : Var}

def Ends (s : Store σ) (v w : Var) : Prop := ReflTransGen s.Links v w ∧ ∀ x, ¬ s.Links w x

theorem Links.unique (h : s.Links v w) (h' : s.Links v x) : w = x := by
  rw [Links, h] at h'
  exact Term.var.inj (Option.some.inj h')

theorem Ends.refl (h : ∀ x, ¬ s.Links v x) : s.Ends v v := ⟨.refl, h⟩

theorem Ends.head (h : s.Links v w) (h' : s.Ends w x) : s.Ends v x := ⟨.head h h'.1, h'.2⟩

theorem Ends.of_links (h : s.Ends v x) (hl : s.Links v w) : s.Ends w x := by
  rcases h.1.cases_head with rfl | ⟨y, hy, hyx⟩
  · exact absurd hl (h.2 w)
  · rw [hl.unique hy]
    exact ⟨hyx, h.2⟩

theorem Ends.unique (h : s.Ends v w) (h' : s.Ends v x) : w = x := by
  obtain ⟨hvw, hw⟩ := h
  induction hvw using ReflTransGen.head_induction_on with
  | refl =>
    rcases h'.1.cases_head with rfl | ⟨y, hy, -⟩
    · rfl
    · exact absurd hy (hw y)
  | head hl _ ih => exact ih (h'.of_links hl)

open Classical in
/-- The end of the chain that starts at a variable, which stands for all variables of the chain. A
variable whose chain has no end stands for itself. -/
noncomputable def root (s : Store σ) (v : Var) : Var :=
  if h : ∃ w, s.Ends v w then h.choose else v

theorem Ends.root_eq (h : s.Ends v w) : s.root v = w := by
  have hex : ∃ w, s.Ends v w := ⟨w, h⟩
  rw [root, dif_pos hex]
  exact hex.choose_spec.unique h

theorem root_of_endless (h : ¬ ∃ w, s.Ends v w) : s.root v = v := dif_neg h

theorem root_of_ends (h : ∀ x, ¬ s.Links v x) : s.root v = v := (Ends.refl h).root_eq

@[simp]
theorem root_root (s : Store σ) (v : Var) : s.root (s.root v) = s.root v := by
  by_cases h : ∃ w, s.Ends v w
  · obtain ⟨w, hw⟩ := h
    rw [hw.root_eq, root_of_ends hw.2]
  · rw [root_of_endless h, root_of_endless h]

theorem reflTransGen_root (s : Store σ) (v : Var) : ReflTransGen s.Links v (s.root v) := by
  by_cases h : ∃ w, s.Ends v w
  · obtain ⟨w, hw⟩ := h
    rw [hw.root_eq]
    exact hw.1
  · rw [root_of_endless h]

def Endless (s : Store σ) (v : Var) : Prop := ∃ x, s.Links (s.root v) x

theorem ends_root (h : ¬ s.Endless v) : s.Ends v (s.root v) :=
  ⟨s.reflTransGen_root v, fun x hx ↦ h ⟨x, hx⟩⟩

theorem Ends.not_endless (h : s.Ends v w) : ¬ s.Endless v := by
  rintro ⟨x, hx⟩
  rw [h.root_eq] at hx
  exact h.2 x hx

theorem ends_root_of_ne (h : s.root v ≠ v) : s.Ends v (s.root v) := by
  by_cases hv : ∃ w, s.Ends v w
  · obtain ⟨w, hw⟩ := hv
    rw [hw.root_eq]
    exact hw
  · exact absurd (root_of_endless hv) h

theorem Endless.root_eq (h : s.Endless v) : s.root v = v := by
  by_contra hne
  exact (ends_root_of_ne hne).not_endless h

theorem exists_links_of_root_ne (h : s.root v ≠ v) : ∃ x, s.Links v x := by
  by_contra hno
  exact h (root_of_ends fun x hx ↦ hno ⟨x, hx⟩)

theorem root_eq_of_links (hl : s.Links v w) (h : s.root v ≠ v) : s.root w = s.root v :=
  ((ends_root_of_ne h).of_links hl).root_eq

section Bind

theorem links_bind_of_ne (h : x ≠ v) : (s.bind v t).Links x y ↔ s.Links x y := by
  rw [Links, Links, binding_bind, if_neg h]

theorem exists_ends_of_bind (hv : ∃ w, s.Ends v w) (h : (s.bind v t).Ends x y) :
    ∃ w, s.Ends x w := by
  obtain ⟨hxy, hy⟩ := h
  induction hxy using ReflTransGen.head_induction_on with
  | refl =>
    by_cases he : y = v
    · exact he ▸ hv
    · exact ⟨y, .refl fun z hz ↦ hy z ((links_bind_of_ne he).mpr hz)⟩
  | @head a b hl _ ih =>
    by_cases he : a = v
    · exact he ▸ hv
    · obtain ⟨w, hw⟩ := ih
      exact ⟨w, hw.head ((links_bind_of_ne he).mp hl)⟩

theorem root_bind {ρ : Var → Var} (hv : ∃ w, s.Ends v w)
    (hends : ∀ x w, s.Ends x w → (s.bind v t).Ends x (ρ x))
    (hrest : ∀ x, (¬ ∃ w, s.Ends x w) → ρ x = x) (x : Var) : (s.bind v t).root x = ρ x := by
  by_cases h : ∃ w, s.Ends x w
  · obtain ⟨w, hw⟩ := h
    exact (hends x w hw).root_eq
  · rw [hrest x h]
    exact root_of_endless fun ⟨y, hy⟩ ↦ h (exists_ends_of_bind hv hy)

theorem root_bind_node {layer : Layer σ (Term σ)} (hv : ∀ x, ¬ s.Links v x) (x : Var) :
    (s.bind v layer.toTerm).root x = s.root x := by
  refine root_bind ⟨v, .refl hv⟩ (fun x w h ↦ ?_) (fun x hx ↦ root_of_endless hx) x
  rw [h.root_eq]
  obtain ⟨hxw, hw⟩ := h
  induction hxw using ReflTransGen.head_induction_on with
  | refl =>
    refine .refl fun y hy ↦ ?_
    by_cases he : w = v
    · rw [he, Links, binding_bind, if_pos rfl] at hy
      cases hy
    · exact hw y ((links_bind_of_ne he).mp hy)
  | @head a b hl _ ih =>
    have hne : a ≠ v := by
      rintro rfl
      exact hv b hl
    exact ih.head ((links_bind_of_ne hne).mpr hl)

/-- When the end of a chain is bound to the end of another one, that is the end of both. -/
theorem root_bind_var (hv : ∀ x, ¬ s.Links v x) (hw : ∀ x, ¬ s.Links w x) (hne : v ≠ w)
    (x : Var) : (s.bind v (.var w)).root x = if s.root x = v then w else s.root x := by
  refine root_bind (ρ := fun x ↦ if s.root x = v then w else s.root x) ⟨v, .refl hv⟩
    (fun x y h ↦ ?_) (fun x hx ↦ ?_) x
  · rw [h.root_eq]
    obtain ⟨hxy, hy⟩ := h
    have hend : (s.bind v (.var w)).Ends w w :=
      .refl fun z hz ↦ hw z ((links_bind_of_ne hne.symm).mp hz)
    have hvw : (s.bind v (.var w)).Links v w := by rw [Links, binding_bind, if_pos rfl]
    induction hxy using ReflTransGen.head_induction_on with
    | refl =>
      split
      · rename_i he
        subst he
        exact hend.head hvw
      · rename_i he
        exact .refl fun z hz ↦ hy z ((links_bind_of_ne he).mp hz)
    | @head a b hl _ ih =>
      have hav : a ≠ v := by
        rintro rfl
        exact hv b hl
      exact ih.head ((links_bind_of_ne hav).mpr hl)
  · rw [root_of_endless hx, if_neg]
    rintro rfl
    exact hx ⟨x, .refl hv⟩

theorem root_bind_var_self (hv : ∀ x, ¬ s.Links v x) (hw : ∀ x, ¬ s.Links w x) (hne : v ≠ w) :
    (s.bind v (.var w)).root v = (s.bind v (.var w)).root w := by
  rw [root_bind_var hv hw hne, root_bind_var hv hw hne, root_of_ends hv, root_of_ends hw,
    if_pos rfl, if_neg hne.symm]

theorem root_bind_root (h : s.root v ≠ v) (x : Var) :
    (s.bind v (.var (s.root v))).root x = s.root x := by
  have hv := ends_root_of_ne h
  refine root_bind ⟨_, hv⟩ (fun x y hx ↦ ?_) (fun x hx ↦ root_of_endless hx) x
  rw [hx.root_eq]
  obtain ⟨hxy, hy⟩ := hx
  have hlink : (s.bind v (.var (s.root v))).Links v (s.root v) := by
    rw [Links, binding_bind, if_pos rfl]
  induction hxy using ReflTransGen.head_induction_on with
  | refl =>
    refine .refl fun z hz ↦ hy z ?_
    refine (links_bind_of_ne ?_).mp hz
    rintro rfl
    obtain ⟨z, hz⟩ := exists_links_of_root_ne h
    exact hy z hz
  | @head a b hl hby ih =>
    by_cases he : a = v
    · subst he
      -- The rest of the chain is skipped, and what it led to is where the new link goes.
      have hend : s.root a = y := Ends.root_eq ⟨.head hl hby, hy⟩
      have hroot : (s.bind a (.var (s.root a))).Ends y y := ⟨.refl, ih.2⟩
      exact hroot.head (hend ▸ hlink)
    · exact ih.head ((links_bind_of_ne he).mpr hl)

end Bind

noncomputable def rooted (s : Store σ) (t : Term σ) : Term σ := t.subst fun v ↦ .var (s.root v)

@[simp]
theorem rooted_node (s : Store σ) (f : σ) (args : List (Term σ)) :
    s.rooted (.node f args) = .node f (args.map s.rooted) := Term.subst_node _ f args

theorem rooted_var_eq (h : s.rooted (.var v) = s.rooted t) :
    ∃ w, t = .var w ∧ s.root v = s.root w := by
  cases t with
  | var w => exact ⟨w, rfl, Term.var.inj h⟩
  | node f args =>
    rw [rooted_node] at h
    cases h

theorem rooted_node_eq {f : σ} {args : List (Term σ)} (h : s.rooted (.node f args) = s.rooted t) :
    ∃ args', t = .node f args' ∧ args.map s.rooted = args'.map s.rooted := by
  cases t with
  | var w =>
    rw [rooted_node] at h
    cases h
  | node g args' =>
    rw [rooted_node, rooted_node] at h
    obtain ⟨rfl, hargs⟩ := Term.node.inj h
    exact ⟨args', rfl, hargs⟩

def Merges (s s' : Store σ) : Prop := ∀ x y, s.root x = s.root y → s'.root x = s'.root y

theorem Merges.refl (s : Store σ) : s.Merges s := fun _ _ h ↦ h

theorem Merges.trans {s'' : Store σ} (h : s.Merges s') (h' : s'.Merges s'') : s.Merges s'' :=
  fun x y hxy ↦ h' x y (h x y hxy)

theorem Merges.rooted_rooted (h : s.Merges s') (t : Term σ) :
    s'.rooted (s.rooted t) = s'.rooted t := by
  rw [rooted, rooted, Term.subst_subst]
  refine Term.subst_congr fun v _ ↦ ?_
  rw [Term.subst_var, h (s.root v) v (s.root_root v)]

theorem Merges.rooted_eq (h : s.Merges s') (htu : s.rooted t = s.rooted u) :
    s'.rooted t = s'.rooted u := by
  rw [← h.rooted_rooted t, htu, h.rooted_rooted u]

/-- Two stores with the same ends of chains, and the same bindings there. -/
structure SameRoots (s s' : Store σ) : Prop where
  root : s'.root = s.root
  binding : ∀ x, s'.binding (s.root x) = s.binding (s.root x)

theorem SameRoots.refl (s : Store σ) : s.SameRoots s := ⟨rfl, fun _ ↦ rfl⟩

theorem SameRoots.symm (h : s.SameRoots s') : s'.SameRoots s := by
  refine ⟨h.root.symm, fun x ↦ ?_⟩
  rw [h.root, h.binding]

theorem SameRoots.trans {s'' : Store σ} (h : s.SameRoots s') (h' : s'.SameRoots s'') :
    s.SameRoots s'' := by
  refine ⟨h'.root.trans h.root, fun x ↦ ?_⟩
  have hx := h'.binding x
  rw [h.root] at hx
  exact hx.trans (h.binding x)

theorem SameRoots.rooted (h : s.SameRoots s') (t : Term σ) : s'.rooted t = s.rooted t := by
  rw [Store.rooted, Store.rooted, h.root]

theorem SameRoots.binding_of_root (h : s.SameRoots s') (hv : s.root v = v) :
    s'.binding v = s.binding v := by
  have hb := h.binding v
  rwa [hv] at hb

theorem SameRoots.merges (h : s.SameRoots s') : s.Merges s' := by
  intro x y hxy
  rw [h.root, hxy]

theorem SameRoots.endless_iff (h : s.SameRoots s') : s'.Endless v ↔ s.Endless v := by
  simp only [Endless, Links, h.root, h.binding]

theorem SameRoots.of_binding_eq (h : ∀ x, s'.binding x = s.binding x) : s.SameRoots s' := by
  refine ⟨funext fun x ↦ ?_, fun x ↦ h _⟩
  unfold Store.root Ends
  rw [links_eq_of_binding_eq h]

/-- A link may be bound to the end of its chain at once. -/
theorem SameRoots.shorten (h : s.SameRoots s') (hv : s.root v ≠ v) :
    s.SameRoots (s'.bind v (.var (s.root v))) := by
  refine h.trans ⟨funext fun x ↦ ?_, fun x ↦ ?_⟩
  · rw [← h.root] at hv ⊢
    exact root_bind_root hv x
  · rw [binding_bind, if_neg]
    rintro rfl
    rw [← h.root] at hv
    exact hv (s'.root_root x)

theorem Ends.not_loops (h : s.Ends v w) : ¬ TransGen s.Links v v := by
  obtain ⟨hvw, hw⟩ := h
  induction hvw using ReflTransGen.head_induction_on with
  | refl =>
    intro hloop
    obtain ⟨x, hx, -⟩ := TransGen.head'_iff.mp hloop
    exact hw x hx
  | head hl _ ih =>
    intro hloop
    obtain ⟨x, hx, hback⟩ := TransGen.head'_iff.mp hloop
    obtain rfl := hl.unique hx
    exact ih (TransGen.tail' hback hl)

theorem endless_of_loops (h : ReflTransGen s.Links v w) (hw : TransGen s.Links w w) :
    s.Endless v := by
  by_contra hno
  have hend := ends_root hno
  induction h using ReflTransGen.head_induction_on with
  | refl => exact hend.not_loops hw
  | head hl _ ih =>
    have hend' := hend.of_links hl
    exact ih hend'.not_endless (hend'.root_eq.symm ▸ hend')

end Store

variable {σ : Type} {s s' : Store σ} {t : Term σ} {v : Var}

theorem Walk.Follows.ends {w : Walk σ} (h : w.Follows s v) : s.Ends v w.root :=
  ⟨h.chain, h.root_ends⟩

theorem Walk.Follows.root_passed {w : Walk σ} (h : w.Follows s v) :
    ∀ p ∈ w.passed, s.root p = w.root ∧ w.root ≠ p := by
  intro p hp
  have hchain := h.passed p hp
  refine ⟨Store.Ends.root_eq ⟨hchain.to_reflTransGen, h.root_ends⟩, ?_⟩
  rintro rfl
  obtain ⟨x, hx, -⟩ := TransGen.head'_iff.mp hchain
  exact h.root_ends x hx

def Head.ofVar (v : Var) : Option (Layer σ (Term σ)) → Head σ
  | none => .free v
  | some layer => .shape (some v) layer

@[simp]
theorem Head.toTerm_ofVar (v : Var) (o : Option (Layer σ (Term σ))) :
    (Head.ofVar v o).toTerm = .var v := by
  cases o <;> rfl

theorem Walk.head_eq (w : Walk σ) : w.head = .ofVar w.root w.value := by
  unfold Walk.head
  cases w.value <;> rfl

/-- The head of a term is the term itself or what stands at the end of its chain. -/
inductive Head.At (s : Store σ) : Term σ → Head σ → Prop
  | layer (l : Layer σ (Term σ)) : At s l.toTerm (.shape none l)
  | var (x : Var) {o : Option (Layer σ (Term σ))} :
      s.binding (s.root x) = o.map Layer.toTerm → At s (.var x) (.ofVar (s.root x) o)

theorem Head.At.keep {h : Head σ} (hh : h.At s t) (hs : s.SameRoots s') : h.At s' t := by
  cases hh with
  | layer l => exact .layer l
  | @var x o hb =>
    rw [← hs.binding, ← hs.root] at hb
    rw [← hs.root]
    exact .var x hb

theorem Head.At.back {h : Head σ} (hh : h.At s' t) (hs : s.SameRoots s') : h.At s t := by
  cases hh with
  | layer l => exact .layer l
  | @var x o hb =>
    rw [hs.root, hs.binding] at hb
    rw [hs.root]
    exact .var x hb

theorem Head.At.unique {h h' : Head σ} (hh : h.At s t) (hh' : h'.At s t) : h = h' := by
  cases hh with
  | layer l =>
    generalize ht : l.toTerm = t at hh'
    cases hh' with
    | layer l' => rw [Layer.toTerm_injective ht]
    | var x _ => cases ht
  | @var x o hb =>
    generalize ht : (.var x : Term σ) = t at hh'
    cases hh' with
    | layer l => cases ht
    | var y hb' =>
      obtain rfl := Term.var.inj ht
      rw [Option.map_injective Layer.toTerm_injective (hb.symm.trans hb')]

theorem Head.At.not_endless {h : Head σ} {x : Var} (hh : h.At s (.var x)) : ¬ s.Endless x := by
  rintro ⟨y, hy⟩
  generalize ht : (.var x : Term σ) = t at hh
  cases hh with
  | layer l => cases ht
  | var z hb =>
    obtain rfl := Term.var.inj ht
    exact Store.not_links_of_binding hb y hy

def Contract.blaming (failed : Failure σ Refusal → Store σ → Prop) : Contract σ where
  bind _ _ _ := True
  promote _ _ := True
  fresh _ := True
  failed := failed
  unfinished := True

section Blaming

variable {failed : Failure σ Refusal → Store σ → Prop}

theorem Walk.meets_shorten_rooted {w : Walk σ} (hw : w.Follows s v) :
    w.shorten.Meets (.blaming failed) (fun _ s' ↦ s.SameRoots s') s := by
  refine meets_each (fun p hp s' hs' ↦ ?_) (.refl s)
  obtain ⟨hroot, hne⟩ := hw.root_passed p (List.dropLast_subset _ hp)
  refine meets_bind.mpr (meets_log.mpr (meets_assign.mpr ⟨trivial, ?_⟩))
  rw [← hroot] at hne ⊢
  exact hs'.shorten hne

theorem meets_find_rooted (fuel : ℕ) (t : Term σ)
    (hfail : ∀ v x, t = .var v → s.Endless v → failed (.clash (.occursIn x (.var x))) s) :
    (find fuel t).Meets (.blaming failed) (fun h s' ↦ s.SameRoots s' ∧ h.At s t) s := by
  cases t with
  | node f args => exact ⟨.refl s, .layer ⟨f, args⟩⟩
  | var v =>
    refine meets_bind.mpr (Walk.meets_chase (fun w hw ↦ ?_)
      (fun x hx hloop ↦ hfail v x rfl (Store.endless_of_loops hx hloop)) nofun (.inl trivial))
    refine meets_bind.mpr ((Walk.meets_shorten_rooted hw).mono fun _ s' _ hs' ↦ ⟨hs', ?_⟩)
    have hb := hw.binding_root
    rw [w.head_eq, ← hw.ends.root_eq]
    rw [← hw.ends.root_eq] at hb
    exact .var v hb

end Blaming

end Unification
