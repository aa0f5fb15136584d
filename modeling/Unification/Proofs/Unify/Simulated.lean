import Unification.Proofs.Unify.Enclosed
import Unification.Proofs.Unify.Faithful
import Unification.Proofs.Unify.Linking

namespace Unification

open Script Contract

variable {σ : Type} {s s' s₁ s₁' : Store σ} {mode : Mode} {n fuel : ℕ} {path path' : List Var}
  {t t' u u' : Term σ} {v w x y : Var} {l l' r r' : Layer σ (Term σ)}

section Join

variable [DecidableEq σ] {recurse : List Var → Term σ → Term σ → Script σ Refusal (Term σ)}
  {o p : Option (Layer σ (Term σ))}

def joinAs (mode : Mode) (fuel : ℕ) (recurse : List Var → Term σ → Term σ → Script σ Refusal (Term σ))
    (path : List Var) (v : Var) (l : Option (Layer σ (Term σ))) (w : Var)
    (r : Option (Layer σ (Term σ))) (choice : Choice) : Script σ Refusal (Term σ) := do
  let unified ← joinVars.unifyBindings recurse path v l w r
  match choice with
  | .left tie => absorb mode fuel v l w r unified tie
  | .right => absorb mode fuel w r v l unified false

theorem agree_joinVars {post : Term σ → Store σ → Term σ → Store σ → Prop}
    {other : Outcome σ Refusal (Term σ) × Store σ}
    (h : ∀ choice : Choice,
      (mode.strategy = .plain → choice = if o.isSome && !p.isSome then .left false else .right) →
        Agree post ((joinAs mode fuel recurse path v o w p choice).run s) other) :
    Agree post ((joinVars mode fuel recurse path v o w p).run s) other := by
  obtain ⟨strategy, eager⟩ := mode
  cases strategy with
  | plain => exact h _ fun _ ↦ rfl
  | ranked => exact h _ nofun

theorem joinVars_free : joinVars ⟨.plain, mode.eager⟩ fuel recurse path v none w p =
    attach mode fuel v w := by
  cases p <;> rfl

theorem joinVars_bound_free : joinVars ⟨.plain, mode.eager⟩ fuel recurse path v (some l) w none =
    attach mode fuel w v := rfl

theorem joinVars_bound : joinVars ⟨.plain, mode.eager⟩ fuel recurse path v (some l) w (some r) =
    joinVars.unifyBindings recurse path v (some l) w (some r) >>= fun unified ↦
      absorb mode fuel w (some r) v (some l) unified false := rfl

end Join

section Step

variable [DecidableEq σ]

def unifySlot (recurse : List Var → Term σ → Term σ → Script σ Refusal (Term σ)) (path : List Var) :
    Aligned (Term σ) → Script σ Refusal (Term σ)
  | .same t => .pure t
  | .differ t u => recurse path t u

theorem unifySlot_of (recurse : List Var → Term σ → Term σ → Script σ Refusal (Term σ)) (path : List Var)
    (t u : Term σ) :
    unifySlot recurse path (.of t u) = if t = u then .pure t else recurse path t u := by
  unfold Aligned.of
  split <;> rfl

def Crossed (s : Store σ) (a b : Aligned (Term σ)) : Prop :=
  ∃ t u t' u', a = .of t u ∧ b = .of u' t' ∧ s.rooted t = s.rooted t' ∧ s.rooted u = s.rooted u'

theorem forall₂_crossed {ts ts' us us' : List (Term σ)} (ht : ts.map s.rooted = ts'.map s.rooted)
    (hu : us.map s.rooted = us'.map s.rooted) :
    List.Forall₂ (Crossed s) (List.zipWith .of ts us) (List.zipWith .of us' ts') := by
  induction ts generalizing ts' us us' with
  | nil =>
    obtain rfl := List.map_eq_nil_iff.mp ht.symm
    rw [List.zipWith_nil_left, List.zipWith_nil_right]
    exact .nil
  | cons t ts ih =>
    obtain ⟨t', ts', rfl, ht', hts⟩ := List.map_eq_cons_iff.mp ht.symm
    cases us with
    | nil =>
      obtain rfl := List.map_eq_nil_iff.mp hu.symm
      exact .nil
    | cons u us =>
      obtain ⟨u', us', rfl, hu', hus⟩ := List.map_eq_cons_iff.mp hu.symm
      exact .cons ⟨t, u, t', u', rfl, rfl, ht'.symm, hu'.symm⟩ (ih hts.symm hus.symm)

theorem ne_of_differ_mem {a : Layer σ (Aligned (Term σ))} (ha : l.align? r = some a)
    (h : .differ t u ∈ a.slots) : t ≠ u := by
  unfold Layer.align? at ha
  split at ha
  · obtain rfl := Option.some.inj ha
    obtain ⟨i, hi, hget⟩ := List.mem_iff_getElem.mp h
    rw [List.getElem_zipWith, Aligned.of] at hget
    split at hget
    · cases hget
    · rename_i hne
      cases hget
      exact hne
  · cases ha

section Settled

variable {recurse : List Var → Term σ → Term σ → Script σ Refusal (Term σ)}
  (hsettled : ∀ path t u s, t ≠ u → s.rooted t = s.rooted u →
    (recurse path t u).Meets (.telling False)
      (fun a s₁ ↦ s.SameRoots s₁ ∧ s.rooted a = s.rooted t) s)

include hsettled

/-- Unifying terms that are the same already, up to the choice of variables, is no more than looking
for the ends of chains. -/
theorem meets_unifyLayers_settled (hl : s.rooted l.toTerm = s.rooted r.toTerm) :
    (unifyLayers recurse path l r).Meets (.telling False)
      (fun m s₁ ↦ s.SameRoots s₁ ∧ s.rooted m.toTerm = s.rooted l.toTerm) s := by
  unfold unifyLayers
  cases ha : l.align? r with
  | none => exact absurd ha (Layer.align?_ne_none_of_subst_eq hl)
  | some a =>
    obtain ⟨hsym, -, hleft, -⟩ := Layer.align?_eq_some ha
    refine meets_bind.mpr ((meets_mapEach (I := s.SameRoots)
      (R := fun _ x b ↦ s.rooted x.left = s.rooted b) ?_ ?_ (.refl s)).mono
      fun bs s₁ _ ⟨h₁, hbs⟩ ↦ ⟨h₁, ?_⟩)
    · intro x hx s₁ h₁
      cases x with
      | same t => exact ⟨h₁, rfl⟩
      | differ t u =>
        have heq : s.rooted t = s.rooted u := Layer.subst_slot_eq ha hx hl
        have heq₁ : s₁.rooted t = s₁.rooted u := h₁.merges.rooted_eq heq
        refine (hsettled path t u s₁ (ne_of_differ_mem ha hx) heq₁).mono fun b s₂ _ ⟨h₂, hb⟩ ↦ ?_
        rw [h₁.rooted, h₁.rooted] at hb
        exact ⟨h₁.trans h₂, hb.symm⟩
    · exact fun _ _ _ _ _ _ h ↦ h
    · rw [Layer.toTerm, Layer.toTerm, Store.rooted_node, Store.rooted_node, hsym, ← hleft,
        List.map_map]
      exact congrArg (Term.node a.symbol) (Store.map_eq_of_forall₂ hbs).symm

end Settled

-- The left run unifies in some mode, and the right one by the plain rule and in opposite order.
variable {recurse recurse' : List Var → Term σ → Term σ → Script σ Refusal (Term σ)}
  (hsettled : ∀ path t u s, t ≠ u → s.rooted t = s.rooted u →
    (recurse path t u).Meets (.telling False)
      (fun a s₁ ↦ s.SameRoots s₁ ∧ s.rooted a = s.rooted t) s)
  (hsettled' : ∀ path t u s, t ≠ u → s.rooted t = s.rooted u →
    (recurse' path t u).Meets (.telling False)
      (fun a s₁ ↦ s.SameRoots s₁ ∧ s.rooted a = s.rooted t) s)
  (hfaithful : ∀ path t u s, s.Chained →
    (recurse path t u).Meets (faithful mode.eager fun _ ↦ False) (fun _ _ ↦ True) s)
  (hrec : ∀ path path' t u t' u' s s', Facing s s' path path' → s.rooted t = s.rooted t' →
    s.rooted u = s.rooted u' → Sheltered mode s (Enclosed · path t u) →
    Agree (Reflected path path' s) ((recurse path t u).run s) ((recurse' path' u' t').run s'))

include hsettled hsettled' hrec

theorem agree_slot {s₀ : Store σ} {a b : Aligned (Term σ)} (hab : Crossed s₀ a b)
    (h : Facing s s' path path') (hmerges : s₀.Merges s)
    (hshelter : Sheltered mode s (Enclosed · path a.left a.right)) :
    Agree (Reflected path path' s) ((unifySlot recurse path a).run s)
      ((unifySlot recurse' path' b).run s') := by
  obtain ⟨t, u, t', u', rfl, rfl, ht, hu⟩ := hab
  have ht := hmerges.rooted_eq ht
  have hu := hmerges.rooted_eq hu
  rw [Aligned.left_of, Aligned.right_of] at hshelter
  have hpure : ∀ {s : Store σ} (t : Term σ), (Script.pure t).Meets (.telling False)
      (fun a s₁ ↦ s.SameRoots s₁ ∧ s.rooted a = s.rooted t) s := fun t ↦ ⟨.refl _, rfl⟩
  -- One side may skip a pair that the other side has to walk.
  have hskip : ∀ {m m' : Script σ Refusal (Term σ)} {a b : Term σ}, s.rooted a = s.rooted b →
      m.Meets (.telling False) (fun c s₁ ↦ s.SameRoots s₁ ∧ s.rooted c = s.rooted a) s →
      m'.Meets (.telling False)
        (fun c s₁ ↦ s'.SameRoots s₁ ∧ s'.rooted c = s'.rooted b) s' →
      Agree (Reflected path path' s) (m.run s) (m'.run s') := by
    intro m m' a b hab hm hm'
    refine .of_meets hm hm' ?_ (fun _ _ _ h ↦ h) (fun _ _ _ h ↦ h)
    rintro c s₁ d s₁' ⟨h₁, hc⟩ ⟨h₁', hd⟩
    refine ⟨h.keep h₁ h₁', h₁.merges, ?_⟩
    rw [h₁.rooted, h₁.rooted, hc, hab]
    exact (h.mirrors.rooted_eq_iff.mpr hd).symm
  rw [unifySlot_of, unifySlot_of]
  by_cases htu : t = u
  · rw [if_pos htu]
    by_cases htu' : u' = t'
    · rw [if_pos htu']
      exact hskip (htu ▸ hu) (hpure t) (hpure u')
    · rw [if_neg htu']
      have hut' : s.rooted u' = s.rooted t' := by rw [← hu, ← ht, htu]
      exact hskip (htu ▸ hu) (hpure t)
        (hsettled' path' u' t' s' htu' (h.mirrors.rooted_eq_iff.mp hut'))
  · rw [if_neg htu]
    by_cases htu' : u' = t'
    · rw [if_pos htu']
      have htu₁ : s.rooted t = s.rooted u := by rw [ht, hu, htu']
      exact hskip (htu' ▸ ht) (hsettled path t u s htu htu₁) (hpure u')
    · rw [if_neg htu']
      exact hrec path path' t u t' u' s s' h ht hu hshelter

include hfaithful

theorem agree_unifyLayers (h : Facing s s' path path')
    (hl : s.rooted l.toTerm = s.rooted l'.toTerm) (hr : s.rooted r.toTerm = s.rooted r'.toTerm)
    (hshelter : Sheltered mode s (Around · path l r)) :
    Agree (fun m s₁ m' s₁' ↦ Reflected path path' s m.toTerm s₁ m'.toTerm s₁')
      ((unifyLayers recurse path l r).run s) ((unifyLayers recurse' path' r' l').run s') := by
  rw [Layer.toTerm, Layer.toTerm, Store.rooted_node, Store.rooted_node] at hl hr
  obtain ⟨hsyml, hslotsl⟩ := Term.node.inj hl
  obtain ⟨hsymr, hslotsr⟩ := Term.node.inj hr
  have hlenl : l.slots.length = l'.slots.length := by simpa using congrArg List.length hslotsl
  have hlenr : r.slots.length = r'.slots.length := by simpa using congrArg List.length hslotsr
  by_cases hc : l.symbol = r.symbol ∧ l.slots.length = r.slots.length
  · have hc' : r'.symbol = l'.symbol ∧ r'.slots.length = l'.slots.length := by
      rw [← hsyml, ← hsymr, ← hlenl, ← hlenr]
      exact ⟨hc.1.symm, hc.2.symm⟩
    have ha : l.align? r = some ⟨l.symbol, List.zipWith .of l.slots r.slots⟩ := if_pos hc
    have ha' : r'.align? l' = some ⟨r'.symbol, List.zipWith .of r'.slots l'.slots⟩ := if_pos hc'
    rw [unifyLayers, unifyLayers, ha, ha']
    have hpairs := (List.forall₂_and_left _ _).mpr
      ⟨fun a (ha : a ∈ List.zipWith .of l.slots r.slots) ↦ ha, forall₂_crossed hslotsl hslotsr⟩
    have hslot : ∀ a b s₁ s₁', a ∈ List.zipWith .of l.slots r.slots ∧ Crossed s a b →
        Facing s₁ s₁' path path' ∧ s.Merges s₁ ∧ Sheltered mode s₁ (Around · path l r) →
        Agree (fun c s₂ d s₂' ↦
            (Facing s₂ s₂' path path' ∧ s.Merges s₂ ∧ Sheltered mode s₂ (Around · path l r)) ∧
              s₁.Merges s₂ ∧ s₂.rooted c = s₂.rooted d)
          ((unifySlot recurse path a).run s₁) ((unifySlot recurse' path' b).run s₁') := by
      rintro a b s₁ s₁' ⟨hmem, hab⟩ ⟨h₁, hmerges, haround⟩
      have henclosed := haround.imp fun θ _ haround ↦ haround.slot ha hmem
      have hlead : s₁.Chained → (faithful mode.eager fun _ ↦ False).Leads s₁
          ((unifySlot recurse path a).run s₁).2 := by
        intro hs₁
        cases a with
        | same t => exact .refl
        | differ t u => exact (hfaithful path t u s₁ hs₁).run.1
      have hagree := agree_slot hsettled hsettled' hrec hab h₁ hmerges henclosed
      exact (hagree.and_left hlead).mono fun c s₂ d s₂' h₂ ↦
        ⟨⟨h₂.1.1, hmerges.trans h₂.1.2.1, haround.keep h₂.2⟩, h₂.1.2⟩
    have hslots := Agree.mapEach (J := Store.Merges) (Q := fun s₁ b b' ↦ s₁.rooted b = s₁.rooted b')
      hpairs hslot .refl (fun _ _ _ h h' ↦ h.trans h') (fun _ _ _ _ h hcd ↦ h.rooted_eq hcd)
      ⟨h, .refl s, hshelter⟩
    refine .bind hslots fun bs s₁ bs' s₁' h₁ ↦ .ok ⟨h₁.1.1, h₁.2.1, ?_⟩
    have hsym : l.symbol = r'.symbol := hc.1.trans hsymr
    rw [Layer.toTerm, Layer.toTerm, Store.rooted_node, Store.rooted_node, hsym,
      Store.map_eq_of_forall₂ h₁.2.2]
  · have hc' : ¬ (r'.symbol = l'.symbol ∧ r'.slots.length = l'.slots.length) := by
      rw [← hsyml, ← hsymr, ← hlenl, ← hlenr]
      exact fun hc' ↦ hc ⟨hc'.1.symm, hc'.2.symm⟩
    have ha : l.align? r = none := if_neg hc
    have ha' : r'.align? l' = none := if_neg hc'
    rw [unifyLayers, unifyLayers, ha, ha']
    exact .error rfl

theorem agree_rebind {b b' : Layer σ (Term σ)} (h : Facing s s' path path')
    (hb : s.binding (s.root x) = some b.toTerm) (hb' : s'.binding (s'.root x) = some b'.toTerm)
    (hl : s.rooted l.toTerm = s.rooted l'.toTerm) (hr : s.rooted r.toTerm = s.rooted r'.toTerm)
    (hshelter : Sheltered mode s (Around · (s.root x :: path) l r)) :
    Agree (Reflected path path' s) ((rebind recurse path (s.root x) b l r).run s)
      ((rebind recurse' path' (s'.root x) b' r' l').run s') := by
  rw [rebind, rebind, stepInto, stepInto]
  by_cases hmem : s.root x ∈ path
  · rw [if_pos hmem, if_pos (h.mem_iff.mp hmem)]
    exact .error rfl
  rw [if_neg hmem, if_neg (h.mem_iff.not.mp hmem)]
  rw [pure_bind, pure_bind]
  refine .bind (agree_unifyLayers hsettled hsettled' hfaithful hrec (h.cons hb hb') hl hr hshelter)
    fun m s₁ m' s₁' hm₁ ↦ ?_
  obtain ⟨h₁, hmerges, hm⟩ := hm₁
  obtain ⟨hroot, hroot'⟩ := h.root_eq h₁ hmerges List.mem_cons_self List.mem_cons_self
  have hend : ¬ s₁.Endless x := h₁.left.not_endless (hroot ▸ List.mem_cons_self)
  have hback : Facing s₁ s₁' path path' :=
    h.back_to h₁ hmerges (List.subset_cons_self _ _) (List.subset_cons_self _ _)
  obtain ⟨hfacing, hmerges'⟩ := hback.bind_layer hend hm
  rw [hroot, hroot'] at hfacing
  rw [hroot] at hmerges'
  have hmerges₂ := hmerges.trans hmerges'
  exact .ok ⟨hfacing, hmerges₂, rooted_root_eq h.mirrors hmerges₂ x⟩

theorem agree_unifyBindings (h : Facing s s' path path') (hne : s.root x ≠ s.root y)
    (hx : s.binding (s.root x) = some l.toTerm) (hx' : s'.binding (s'.root x) = some l'.toTerm)
    (hy : s.binding (s.root y) = some r.toTerm) (hy' : s'.binding (s'.root y) = some r'.toTerm)
    (hl : s.rooted l.toTerm = s.rooted l'.toTerm) (hr : s.rooted r.toTerm = s.rooted r'.toTerm)
    (hshelter : Sheltered mode s (Enclosed · path (.var (s.root x)) (.var (s.root y)))) :
    Agree (fun o s₁ o' s₁' ↦ (s.root x ∉ path ∧ s.root y ∉ path) ∧
        ∃ m m', o = some m ∧ o' = some m' ∧
          Reflected (s.root y :: s.root x :: path) (s'.root y :: s'.root x :: path') s m.toTerm s₁
            m'.toTerm s₁')
      ((joinVars.unifyBindings recurse path (s.root x) (some l) (s.root y) (some r)).run s)
      ((joinVars.unifyBindings recurse' path' (s'.root y) (some r') (s'.root x) (some l')).run
        s') := by
  have hne' : s'.root x ≠ s'.root y := (h.mirrors.root x y).not.mp hne
  rw [unifyBindings_eq, unifyBindings_eq]
  have henter : Agree (fun p s₁ p' s₁' ↦ (s.root x ∉ path ∧ s.root y ∉ path) ∧ s₁ = s ∧ s₁' = s' ∧
        p = s.root y :: s.root x :: path ∧ p' = s'.root x :: s'.root y :: path')
      ((stepInBoth path (s.root x) l (s.root y) r).run s)
      ((stepInBoth path' (s'.root y) r' (s'.root x) l').run s') := by
    have hstep : ∀ {s : Store σ} {path : List Var} {v w : Var} {l r : Layer σ (Term σ)}, v ≠ w →
        (stepInBoth path v l w r).Meets (.telling (v ∈ path ∨ w ∈ path))
          (fun p s₁ ↦ s₁ = s ∧ p = w :: v :: path ∧ v ∉ path ∧ w ∉ path) s :=
      fun hne ↦ meets_stepInBoth hne (fun h ↦ ⟨rfl, .inl h⟩) fun h ↦ ⟨rfl, .inr h⟩
    refine .of_meets (hstep hne) (hstep hne'.symm) ?_ ?_ ?_
    · rintro _ _ _ _ ⟨rfl, rfl, hout⟩ ⟨rfl, rfl, -⟩
      exact ⟨hout, rfl, rfl, rfl, rfl⟩
    · rintro _ _ ⟨-, -, hx, hy⟩ (hy' | hx')
      · exact hy (h.mem_iff.mpr hy')
      · exact hx (h.mem_iff.mpr hx')
    · rintro _ _ ⟨-, -, hy', hx'⟩ (hx | hy)
      · exact hx' (h.mem_iff.mp hx)
      · exact hy' (h.mem_iff.mp hy)
  refine henter.bind fun p s₁ p' s₁' hp ↦ ?_
  obtain ⟨hout, rfl, rfl, rfl, rfl⟩ := hp
  have hfacing := ((h.cons hx hx').cons hy hy').swap
  have haround := hshelter.imp (Q := (Around · (s₁.root y :: s₁.root x :: path) l r))
    fun θ hθ henclosed ↦ by
      have haround := (henclosed.congr (hθ _ _ hx) (hθ _ _ hy)).around
      exact (haround.cons_left (hθ _ _ hx)).cons_right (hθ _ _ hy)
  refine .bind (agree_unifyLayers hsettled hsettled' hfaithful hrec hfacing hl hr haround)
    fun m s₂ m' s₂' ⟨h₂, hm⟩ ↦ ?_
  exact .ok ⟨hout, m, m', rfl, rfl, h₂.swap, hm⟩

theorem agree_unifyVars {o o' p p' : Option (Layer σ (Term σ))} (h : Facing s s' path path')
    (hx : Held s s' x o o') (hy : Held s s' y p p')
    (hshelter : Sheltered mode s (Enclosed · path (.var (s.root x)) (.var (s.root y)))) :
    Agree (Reflected path path' s)
      ((unifyHeads.unifyVars mode fuel recurse path (s.root x) o (s.root y) p).run s)
      ((unifyHeads.unifyVars ⟨.plain, mode.eager⟩ fuel recurse' path' (s'.root y) p' (s'.root x)
        o').run s') := by
  rw [unifyHeads.unifyVars, unifyHeads.unifyVars]
  by_cases hne : s.root x = s.root y
  · rw [if_pos hne, if_pos ((h.mirrors.root x y).mp hne).symm, ← hne]
    exact .ok ⟨h, .refl s, rooted_root_eq h.mirrors (.refl s) x⟩
  have hne' : s'.root x ≠ s'.root y := (h.mirrors.root x y).not.mp hne
  rw [if_neg hne, if_neg hne'.symm]
  have hendx := hx.not_endless
  have hendy := hy.not_endless
  cases hx with
  | free hx hx' =>
    cases hy with
    | free hy hy' =>
      rw [joinVars_free]
      refine agree_joinVars fun choice _ ↦ ?_
      cases choice with
      | left tie => exact agree_absorb_free h hendy hendx (Ne.symm hne) (h.left.not_mem hy)
      | right => exact agree_absorb_free_flip h hx hx' hy hy' hne
    | bound hy hy' _ =>
      rw [joinVars_bound_free]
      refine agree_joinVars fun choice hplain ↦ ?_
      cases choice with
      | left tie =>
        -- The plain rule never gives up the bound variable, which the path might protect.
        have hmode : mode.strategy ≠ .plain := fun hmode ↦ by cases hplain hmode
        exact agree_absorb_bound h hx hy hne fun hr ↦ hshelter.not_mem hmode hx hr
      | right => exact agree_absorb_free h hendx hendy hne (h.left.not_mem hx)
  | @bound l l' hx hx' hl =>
    cases hy with
    | free hy hy' =>
      rw [joinVars_free]
      refine agree_joinVars fun choice hplain ↦ ?_
      cases choice with
      | left tie => exact agree_absorb_free h hendy hendx (Ne.symm hne) (h.left.not_mem hy)
      | right =>
        have hmode : mode.strategy ≠ .plain := fun hmode ↦ by cases hplain hmode
        have hswapped := hshelter.imp fun θ _ henclosed ↦ Enclosed.symm henclosed
        exact agree_absorb_bound h hy hx (Ne.symm hne) fun hr ↦ hswapped.not_mem hmode hy hr
    | @bound r r' hy hy' hr =>
      rw [joinVars_bound]
      refine agree_joinVars fun choice _ ↦ ?_
      refine .bind (agree_unifyBindings hsettled hsettled' hfaithful hrec h hne hx hx' hy hy' hl hr
        hshelter) fun o s₁ o' s₁' ho ↦ ?_
      obtain ⟨⟨hmem, hmem'⟩, m, m', rfl, rfl, h₁⟩ := ho
      cases choice with
      | left tie => exact agree_absorb_both h (Ne.symm hne) hmem' h₁.swap
      | right => exact agree_absorb_both_flip h hne hmem hmem' h₁

theorem agree_unifyHeads {h₁ h₁' h₂ h₂' : Head σ} (h : Facing s s' path path')
    (hl : h₁.Matches s s' h₁') (hr : h₂.Matches s s' h₂')
    (hshelter : Sheltered mode s (Enclosed · path h₁.toTerm h₂.toTerm)) :
    Agree (Reflected path path' s) ((unifyHeads mode fuel recurse path h₁ h₂).run s)
      ((unifyHeads ⟨.plain, mode.eager⟩ fuel recurse' path' h₂' h₁').run s') := by
  cases hl with
  | @layer l l' hl =>
    cases hr with
    | layer hr =>
      have haround := hshelter.imp fun θ _ henclosed ↦ Enclosed.around henclosed
      exact .bind (agree_unifyLayers hsettled hsettled' hfaithful hrec h hl hr haround)
        fun m s₁ m' s₁' hm ↦ .ok hm
    | var y hy =>
      have hend := hy.not_endless
      cases hy with
      | free hy hy' => exact agree_bindFree h hend hl
      | @bound r r' hy hy' hr =>
        have haround := hshelter.imp (Q := (Around · (s.root y :: path) l r)) fun θ hθ henclosed ↦
          (henclosed.congr rfl (hθ _ _ hy)).around.cons_right (hθ _ _ hy)
        exact agree_rebind hsettled hsettled' hfaithful hrec h hy hy' hl hr haround
  | var x hx =>
    cases hr with
    | @layer r r' hr =>
      have hend := hx.not_endless
      cases hx with
      | free hx hx' => exact agree_bindFree h hend hr
      | @bound l l' hx hx' hl =>
        have haround := hshelter.imp (Q := (Around · (s.root x :: path) l r)) fun θ hθ henclosed ↦
          (henclosed.congr (hθ _ _ hx) rfl).around.cons_left (hθ _ _ hx)
        exact agree_rebind hsettled hsettled' hfaithful hrec h hx hx' hl hr haround
    | var y hy =>
      rw [unifyHeads_ofVar, unifyHeads_ofVar]
      rw [Head.toTerm_ofVar, Head.toTerm_ofVar] at hshelter
      exact agree_unifyVars hsettled hsettled' hfaithful hrec h hx hy hshelter

end Step

section Finds

theorem Store.Mirrors.lost_of_lost (h : s.Mirrors s') (ht : s.rooted t = s.rooted t')
    (hlost : s.Lost t) : s'.Lost t' := by
  obtain ⟨v, rfl, hv⟩ := hlost
  obtain ⟨w, rfl, hw⟩ := Store.rooted_var_eq ht
  refine ⟨w, rfl, h.endless_iff.mp ?_⟩
  unfold Store.Endless at hv ⊢
  rwa [← hw]

theorem Store.Mirrors.lost_iff (h : s.Mirrors s') (ht : s.rooted t = s.rooted t') :
    s.Lost t ↔ s'.Lost t' :=
  ⟨h.lost_of_lost ht, h.symm.lost_of_lost (h.rooted_eq_iff.mp ht).symm⟩

theorem Store.Lost.eq_of_rooted_eq (h : s.Lost t) (ht : s.rooted t = s.rooted u) : t = u := by
  obtain ⟨v, rfl, hv⟩ := h
  obtain ⟨w, rfl, hw⟩ := Store.rooted_var_eq ht
  have hend : ∀ {x : Var}, s.Endless x → s.root x = x := fun hx ↦
    Store.root_of_endless fun ⟨y, hy⟩ ↦ hy.not_endless hx
  have hw' : s.Endless w := by
    unfold Store.Endless at hv ⊢
    rwa [← hw]
  rw [← hend hv, hw, hend hw']

theorem agree_findBoth (h : Facing s s' path path') (ht : s.rooted t = s.rooted t')
    (hu : s.rooted u = s.rooted u') :
    Agree (fun a s₁ b s₁' ↦ Facing s₁ s₁' path path' ∧ s.Merges s₁ ∧
        (a.1.Matches s₁ s₁' b.2 ∧ a.2.Matches s₁ s₁' b.1) ∧ a.1.At s₁ t ∧ a.2.At s₁ u)
      ((findBoth fuel t u).run s) ((findBoth fuel u' t').run s') := by
  have hlt := h.mirrors.lost_iff ht
  have hlu := h.mirrors.lost_iff hu
  have hfind : ∀ {s : Store σ} {t u : Term σ}, (findBoth fuel t u).Meets
      (.telling (s.Lost t ∨ s.Lost u))
      (fun h s₁ ↦ s.SameRoots s₁ ∧ h.1.At s t ∧ h.2.At s u) s :=
    meets_findBoth fun _ _ hlost ↦ ⟨rfl, hlost⟩
  refine .of_meets hfind hfind ?_ ?_ ?_
  · rintro ⟨l, r⟩ s₁ ⟨r', l'⟩ s₁' ⟨h₁, hl, hr⟩ ⟨h₁', hr', hl'⟩
    have hfacing := h.keep h₁ h₁'
    refine ⟨hfacing, h₁.merges, ⟨?_, ?_⟩, hl.keep h₁, hr.keep h₁⟩
    · exact (hl.keep h₁).matches (hl'.keep h₁') hfacing.mirrors (h₁.merges.rooted_eq ht)
    · exact (hr.keep h₁).matches (hr'.keep h₁') hfacing.mirrors (h₁.merges.rooted_eq hu)
  · rintro _ _ ⟨-, hl, hr⟩ (hlost | hlost)
    · exact hr.not_lost (hlu.mpr hlost)
    · exact hl.not_lost (hlt.mpr hlost)
  · rintro _ _ ⟨-, hr', hl'⟩ (hlost | hlost)
    · exact hl'.not_lost (hlt.mp hlost)
    · exact hr'.not_lost (hlu.mp hlost)

end Finds

variable [DecidableEq σ]

theorem meets_unifyBelow_settled (path : List Var) (t u : Term σ) (s : Store σ) (hne : t ≠ u)
    (h : s.rooted t = s.rooted u) : (unifyBelow mode fuel n path t u).Meets
      (.telling False) (fun a s₁ ↦ s.SameRoots s₁ ∧ s.rooted a = s.rooted t) s := by
  induction n generalizing path t u s with
  | zero => exact trivial
  | succ n ih =>
    have hfound : ¬ (s.Lost t ∨ s.Lost u) := by
      rintro (hlost | hlost)
      · exact hne (hlost.eq_of_rooted_eq h)
      · exact hne (hlost.eq_of_rooted_eq h.symm).symm
    rw [unifyBelow_succ, meets_bind]
    refine (meets_findBoth fun _ _ hlost ↦ ⟨rfl, hfound hlost⟩).mono fun a s₁ _ ⟨h₁, hlt, hru⟩ ↦ ?_
    generalize a.1 = hl at hlt ⊢
    generalize a.2 = hr at hru ⊢
    cases hlt with
    | layer l =>
      cases hru with
      | layer r =>
        have hlayers : s₁.rooted l.toTerm = s₁.rooted r.toTerm := h₁.merges.rooted_eq h
        refine meets_bind.mpr ((meets_unifyLayers_settled ih hlayers).mono fun m s₂ _ ⟨h₂, hm⟩ ↦ ?_)
        rw [h₁.rooted, h₁.rooted] at hm
        exact ⟨h₁.trans h₂, hm⟩
      | var y hy =>
        obtain ⟨z, hz, -⟩ := Store.rooted_var_eq h.symm
        cases hz
    | var x hx =>
      cases hru with
      | layer r =>
        obtain ⟨z, hz, -⟩ := Store.rooted_var_eq h
        cases hz
      | var y hy =>
        have hxy : s.root x = s.root y := Term.var.inj h
        rw [unifyHeads_ofVar, unifyHeads.unifyVars, if_pos hxy, ← hxy]
        exact ⟨h₁, congrArg Term.var (s.root_root x)⟩

/-- What a run does to two terms, a run by the plain rule over a mirror does to the same two terms
in opposite order, up to the choice of variables. -/
theorem agree_unifyBelow_of_sheltered (path path' : List Var) (t u t' u' : Term σ) (s s' : Store σ)
    (h : Facing s s' path path') (ht : s.rooted t = s.rooted t') (hu : s.rooted u = s.rooted u')
    (hshelter : Sheltered mode s (Enclosed · path t u)) :
    Agree (Reflected path path' s) ((unifyBelow mode fuel n path t u).run s)
      ((unifyBelow ⟨.plain, mode.eager⟩ fuel n path' u' t').run s') := by
  -- Both runs go down in step, so one depth bounds them both.
  induction n generalizing path path' t u t' u' s s' with
  | zero => exact .unfinishedLeft _
  | succ n ih =>
    have hfaithful : ∀ (path : List Var) (t u : Term σ) (s : Store σ), s.Chained →
        (unifyBelow mode fuel n path t u).Meets (faithful mode.eager fun _ ↦ False)
          (fun _ _ ↦ True) s := by
      intro path t u s hs
      have hposed : Posed (fun _ ↦ False) s path t u :=
        ⟨hs, fun _ h ↦ h.elim, fun _ h ↦ h.elim, fun _ h ↦ h.elim⟩
      exact (meets_unifyBelow_faithful hposed).mono fun _ _ _ _ ↦ trivial
    have hlead : s.Chained → (faithful mode.eager fun _ ↦ False).Leads s
        ((findBoth fuel t u).run s).2 := fun hs ↦ (meets_findBoth_faithful hs).run.1
    have hfind := (agree_findBoth h ht hu).and_left (P := fun s₁ ↦
      s.Chained → (faithful mode.eager fun _ ↦ False).Leads s s₁) hlead
    rw [unifyBelow_succ, unifyBelow_succ]
    refine .bind hfind
      fun a s₁ b s₁' ⟨⟨h₁, hmerges, ⟨hl, hr⟩, hlt, hru⟩, hlead⟩ ↦ ?_
    have hheads := (hshelter.keep hlead).imp (Q := (Enclosed · path a.1.toTerm a.2.toTerm))
      fun θ hθ henclosed ↦ henclosed.congr (hlt.subst_eq hθ) (hru.subst_eq hθ)
    refine (agree_unifyHeads meets_unifyBelow_settled meets_unifyBelow_settled hfaithful ih h₁ hl
      hr hheads).mono fun x s₂ y s₂' hxy ↦ ?_
    exact ⟨hxy.1, hmerges.trans hxy.2.1, hxy.2.2⟩

end Unification
