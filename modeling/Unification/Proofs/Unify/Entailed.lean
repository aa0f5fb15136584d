import Unification.Proofs.Agreement
import Unification.Proofs.Unify.Correctness

namespace Unification

open Script Contract

variable {σ : Type} {m s s₁ : Store σ} {mode : Mode} {n fuel : ℕ} {path : List Var}
  {t u a b : Term σ} {v w : Var} {l r : Layer σ (Term σ)} {x : Value σ} {θ : Var → Term σ}

def Store.EntailedBy (s m : Store σ) : Prop :=
  ∀ v t, s.binding v = some t → m.Alike (.var v) t

/-- The runs that bind variables only to what they denote in `m`, and that fail only where they
meet a variable in its own binding. -/
def Contract.entailed (m : Store σ) : Contract σ where
  bind _ v t := m.Alike (.var v) t
  promote _ _ := True
  fresh _ := False
  failed e _ := e.kind = some .occursIn
  unfinished := True

theorem Contract.Leads.entailedBy (h : (entailed m).Leads s s₁) (hs : s.EntailedBy m) :
    s₁.EntailedBy m := by
  refine h.invariant (I := fun s ↦ s.EntailedBy m) hs fun r s hs hr ↦ ?_
  cases r with
  | lookup w => exact hs
  | rank w => exact hs
  | fresh => exact hr.elim
  | bind w t =>
    intro x u hx
    change (s.bind w t).binding x = some u at hx
    rw [Store.binding_bind] at hx
    split at hx
    · subst x
      obtain rfl := Option.some.inj hx
      exact hr
    · exact hs x u hx
  | promote w =>
    intro x u hx
    change (s.promote w).binding x = some u at hx
    rw [Store.binding_promote] at hx
    exact hs x u hx

theorem Store.EntailedBy.alike_of_chain (hs : s.EntailedBy m)
    (h : Relation.ReflTransGen s.Links v w) : m.Alike (.var v) (.var w) := by
  induction h with
  | refl => exact .refl m _
  | tail _ hl ih => exact ih.trans (hs _ _ hl)

inductive Head.Denotes (m : Store σ) : Term σ → Head σ → Prop
  | layer (l : Layer σ (Term σ)) : Denotes m l.toTerm (.shape none l)
  | var {t : Term σ} (v : Var) {o : Option (Layer σ (Term σ))} : m.Alike t (.var v) →
      (∀ l, o = some l → m.Alike (.var v) l.toTerm) → Denotes m t (.ofVar v o)

theorem meets_find_entailed (hs : s.EntailedBy m) :
    (find fuel t).Meets (entailed m) (fun h _ ↦ h.Denotes m t) s := by
  cases t with
  | node f args => exact .layer ⟨f, args⟩
  | var v =>
    refine meets_bind.mpr (Walk.meets_chase (fun w hw ↦ ?_) (fun _ _ _ ↦ rfl) nofun (.inl trivial))
    have hroot := hs.alike_of_chain hw.chain
    have hshorten : w.shorten.Meets (entailed m) (fun _ _ ↦ True) s := by
      refine meets_each (I := fun _ ↦ True) (fun p hp s' _ ↦ ?_) trivial
      have hp := (hw.passed p (List.dropLast_subset _ hp)).to_reflTransGen
      exact meets_bind.mpr (meets_log.mpr (meets_assign.mpr ⟨hs.alike_of_chain hp, trivial⟩))
    refine meets_bind.mpr (hshorten.mono fun _ _ _ _ ↦ ?_)
    change w.head.Denotes m (.var v)
    rw [w.head_eq]
    refine .var w.root hroot fun layer hl ↦ hs w.root _ ?_
    rw [hw.binding_root, hl, Option.map_some]

theorem meets_bindFree_entailed (h : m.Alike (.var v) l.toTerm) :
    (bindFree mode fuel v l).Meets (entailed m) (fun r _ ↦ r = .var v) s := by
  refine meets_bind.mpr ((meets_guardOccurs trivial fun _ _ ↦ rfl).mono fun _ _ _ _ ↦ ?_)
  exact meets_bind.mpr (meets_assign.mpr ⟨h, rfl⟩)

theorem meets_absorb_entailed {kept absorbed : Var} {kb ab unified : Option (Layer σ (Term σ))}
    {tie : Bool} (h : m.Alike (.var absorbed) (.var kept))
    (hlayer : ∀ layer, unified = some layer ∨ ab = some layer →
      m.Alike (.var kept) layer.toTerm) :
    (absorb mode fuel kept kb absorbed ab unified tie).Meets (entailed m)
      (fun r _ ↦ r = .var kept) s := by
  have hkept : (absorb.bindKept mode fuel kept kb
      (unified.or (if kb.isNone then ab else none))).Meets (entailed m) (fun _ _ ↦ True) s := by
    cases ho : unified.or (if kb.isNone then ab else none) with
    | none => exact trivial
    | some layer =>
      have hmem : unified = some layer ∨ ab = some layer := by
        rcases Option.or_eq_some_iff.mp ho with h | ⟨-, h⟩
        · exact .inl h
        · split at h
          · exact .inr h
          · cases h
      refine meets_bind.mpr ((meets_when_guardOccurs trivial fun _ ↦ rfl).mono fun _ _ _ _ ↦ ?_)
      exact meets_assign.mpr ⟨hlayer layer hmem, trivial⟩
  refine meets_bind.mpr (hkept.mono fun _ s₁ _ _ ↦ meets_bind.mpr ?_)
  have hpromote : (Script.when tie do
      Script.log (.promoting kept)
      Script.promote kept).Meets (entailed m) (fun _ _ ↦ True) s₁ := by
    rw [meets_when]
    split
    · exact meets_bind.mpr (meets_log.mpr (meets_promote.mpr ⟨trivial, trivial⟩))
    · exact trivial
  refine hpromote.mono fun _ s₂ _ _ ↦ meets_bind.mpr
    ((meets_when_guardOccurs trivial fun _ ↦ rfl).mono fun _ s₃ _ _ ↦ ?_)
  exact meets_bind.mpr (meets_log.mpr (meets_bind.mpr (meets_assign.mpr ⟨h, rfl⟩)))

section Step

variable [DecidableEq σ] {recurse : List Var → Term σ → Term σ → Script σ Refusal (Term σ)}
  (hrec : ∀ path t u s, s.EntailedBy m → m.Alike t u →
    (recurse path t u).Meets (entailed m) (fun r _ ↦ m.Alike r t) s)

include hrec

theorem meets_unifyLayers_entailed (hs : s.EntailedBy m) (h : m.Alike l.toTerm r.toTerm) :
    (unifyLayers recurse path l r).Meets (entailed m)
      (fun layer _ ↦ m.Alike layer.toTerm l.toTerm) s := by
  obtain ⟨hsymbol, hslots⟩ := Layer.alike_toTerm_iff.mp h
  unfold unifyLayers
  cases ha : l.align? r with
  | none => exact absurd ha (Layer.align?_ne_none hsymbol hslots.length_eq)
  | some aligned =>
    obtain ⟨hl, -, hleft, -⟩ := Layer.align?_eq_some ha
    rw [Layer.forall₂_slots_iff ha] at hslots
    refine meets_bind.mpr ((meets_mapEach (I := fun s ↦ s.EntailedBy m)
      (R := fun _ (x : Aligned (Term σ)) b ↦ m.Alike b x.left) (fun x hx s hs ↦ ?_)
      (fun _ _ _ _ _ _ h ↦ h) hs).mono fun bs _ _ ⟨_, hbs⟩ ↦ ?_)
    · cases x with
      | same t => exact ⟨hs, .refl m t⟩
      | differ t u =>
        exact (hrec path t u s hs (hslots _ hx)).mono fun b _ hlead hb ↦ ⟨hlead.entailedBy hs, hb⟩
    · refine Layer.alike_toTerm_iff.mpr ⟨hl.symm, ?_⟩
      rw [← hleft]
      exact List.forall₂_map_right_iff.mpr hbs.flip

theorem meets_rebind_entailed {bound : Layer σ (Term σ)} (hs : s.EntailedBy m)
    (hv : m.Alike (.var v) l.toTerm) (h : m.Alike l.toTerm r.toTerm) :
    (rebind recurse path v bound l r).Meets (entailed m) (fun r _ ↦ r = .var v) s := by
  rw [rebind, meets_bind, meets_stepInto]
  split
  · exact rfl
  · refine meets_bind.mpr ((meets_unifyLayers_entailed hrec hs h).mono fun layer _ _ hl ↦ ?_)
    exact meets_bind.mpr (meets_assign.mpr ⟨hv.trans hl.symm, rfl⟩)

theorem meets_unifyVars_entailed {o p : Option (Layer σ (Term σ))} (hs : s.EntailedBy m)
    (h : m.Alike (.var v) (.var w)) (hv : ∀ l, o = some l → m.Alike (.var v) l.toTerm)
    (hw : ∀ r, p = some r → m.Alike (.var w) r.toTerm) :
    (unifyHeads.unifyVars mode fuel recurse path v o w p).Meets (entailed m)
      (fun r _ ↦ m.Alike r (.var v)) s := by
  rw [unifyHeads.unifyVars]
  by_cases hne : v = w
  · rw [if_pos hne]
    exact h.symm
  rw [if_neg hne, joinVars, meets_bind]
  refine meets_choose fun choice ↦ meets_bind.mpr ?_
  have hbindings : (joinVars.unifyBindings recurse path v o w p).Meets (entailed m)
      (fun unified _ ↦ ∀ layer, unified = some layer → m.Alike (.var v) layer.toTerm) s := by
    cases o with
    | none =>
      intro layer hlayer
      cases hlayer
    | some l =>
      cases p with
      | none =>
        intro layer hlayer
        cases hlayer
      | some r =>
        have hl := hv l rfl
        rw [unifyBindings_eq]
        refine meets_bind.mpr ((meets_stepInBoth hne (fun _ ↦ rfl) fun _ ↦ rfl).mono
          fun _ s₁ _ h₁ ↦ meets_map.mpr ?_)
        obtain ⟨rfl, -⟩ := h₁
        refine (meets_unifyLayers_entailed hrec hs (hl.symm.trans (h.trans (hw r rfl)))).mono ?_
        rintro layer _ _ hlayer _ ⟨⟩
        exact hl.trans hlayer.symm
  refine hbindings.mono fun unified _ _ hunified ↦ ?_
  cases choice with
  | left tie =>
    refine (meets_absorb_entailed h.symm ?_).mono ?_
    · rintro layer (hu | hp)
      · exact hunified layer hu
      · exact h.trans (hw layer hp)
    · rintro _ _ _ rfl
      exact .refl m _
  | right =>
    refine (meets_absorb_entailed h ?_).mono ?_
    · rintro layer (hu | ho)
      · exact h.symm.trans (hunified layer hu)
      · exact h.symm.trans (hv layer ho)
    · rintro _ _ _ rfl
      exact h.symm

theorem meets_unifyHeads_entailed {h h' : Head σ} (hs : s.EntailedBy m) (htu : m.Alike t u)
    (ht : h.Denotes m t) (hu : h'.Denotes m u) :
    (unifyHeads mode fuel recurse path h h').Meets (entailed m) (fun r _ ↦ m.Alike r t) s := by
  cases ht with
  | layer l =>
    cases hu with
    | layer r => exact meets_map.mpr (meets_unifyLayers_entailed hrec hs htu)
    | @var _ w p hw hp =>
      have hwl := (htu.trans hw).symm
      cases p with
      | none => exact (meets_bindFree_entailed hwl).mono fun _ _ _ h ↦ h ▸ hwl
      | some r =>
        have hlr := hwl.symm.trans (hp r rfl)
        exact (meets_rebind_entailed hrec hs hwl hlr).mono fun _ _ _ h ↦ h ▸ hwl
  | @var _ v o hv ho =>
    cases hu with
    | layer r =>
      have hvr := hv.symm.trans htu
      cases o with
      | none => exact (meets_bindFree_entailed hvr).mono fun _ _ _ h ↦ h ▸ hv.symm
      | some l =>
        have hvl := ho l rfl
        exact (meets_rebind_entailed hrec hs hvl (hvl.symm.trans hvr)).mono
          fun _ _ _ h ↦ h ▸ hv.symm
    | @var _ w p hw hp =>
      rw [unifyHeads_ofVar]
      have hvw := hv.symm.trans (htu.trans hw)
      exact (meets_unifyVars_entailed hrec hs hvw ho hp).mono fun _ _ _ h ↦ h.trans hv.symm

end Step

variable [DecidableEq σ]

/-- Where the equation of two terms is one of `m`, a unifier says nothing that is not. -/
theorem meets_unifyBelow_entailed (hs : s.EntailedBy m) (htu : m.Alike t u) :
    (unifyBelow mode fuel n path t u).Meets (entailed m) (fun r _ ↦ m.Alike r t) s := by
  induction n generalizing path t u s with
  | zero => exact trivial
  | succ n ih =>
    rw [unifyBelow, meets_bind]
    refine (meets_find_entailed hs).mono fun l s₁ h₁ hl ↦ meets_bind.mpr ?_
    have hs₁ := h₁.entailedBy hs
    refine (meets_find_entailed hs₁).mono fun r s₂ h₂ hr ↦ ?_
    exact meets_unifyHeads_entailed (fun _ _ _ _ hs h ↦ ih hs h) (h₂.entailedBy hs₁) htu hl hr

namespace Unifier

theorem run_of_entailed (k : Unifier) (hs : s.EntailedBy m) (hab : m.Alike a b) :
    (∃ r s', (k.operation a b).run s = (.ok (k.answer r), s')) ∨
      ∃ v t s', (k.operation a b).run s = (.error (.clash (.occursIn v t)), s') := by
  have hmeets : (unify k.mode ((k.operation a b).fuel s.weight) a b).Meets (entailed m)
      (fun r _ ↦ m.Alike r a) s :=
    meets_bind.mpr (meets_log.mpr (meets_unifyBelow_entailed hs hab))
  have hends := (k.meets_script hmeets).run.2
  rw [← Operation.run] at hends
  rcases k.run_ends s a b with hok | ⟨e, s', hrun⟩
  · exact .inl hok
  · rw [hrun] at hends
    obtain ⟨c, rfl⟩ := k.run_clash hrun
    cases c with
    | occursIn v t => exact .inr ⟨v, t, s', hrun⟩
    | mismatch l r => cases hends

theorem acyclic_of_unifies (k : Unifier) (hs : s.Acyclic)
    (hθ : (s.resolved a).subst θ = (s.resolved b).subst θ) :
    ((k.operation a b).run s).2.Acyclic := by
  have hlead := (k.run_respects hs hθ).1
  exact (hlead.solvedBy hs.chained rfl (hs.solvedBy θ)).acyclic (hlead.chained hs.chained)

theorem acyclic_of_run_of_acyclic (k : Unifier) (hs : s.Acyclic)
    (hrun : (k.operation a b).run s = (.ok x, s₁)) (hs₁ : s₁.Acyclic) :
    ((k.operation b a).run s).2.Acyclic :=
  k.acyclic_of_unifies hs (k.unifies_of_run hs.chained hrun hs₁).symm

/-- A unifier that succeeds also does so with its terms in the other order, or it has made a cycle
that is found in the other order. -/
theorem run_flipped (k : Unifier) (hs : s.Acyclic)
    (hrun : (k.operation a b).run s = (.ok x, s₁)) :
    (∃ r s₂, (k.operation b a).run s = (.ok (k.answer r), s₂) ∧ (s₁.Acyclic ↔ s₂.Acyclic)) ∨
      ¬ s₁.Acyclic ∧ ∃ v t s₂,
        (k.operation b a).run s = (.error (.clash (.occursIn v t)), s₂) := by
  obtain ⟨hlead, r, -, hra, hrb⟩ := k.alike_of_run hs.chained hrun
  have hentailed : s.EntailedBy s₁ := fun v t ht ↦
    hlead.alike hs.chained (Store.alike_of_binding hs.chained ht)
  rcases k.run_of_entailed hentailed (hrb.symm.trans hra) with ⟨r', s₂, hback⟩ | ⟨v, t, s₂, hback⟩
  · refine .inl ⟨r', s₂, hback, fun hs₁ ↦ ?_, fun hs₂ ↦ ?_⟩
    · have hs₂ := k.acyclic_of_run_of_acyclic hs hrun hs₁
      rwa [hback] at hs₂
    · have hs₁ := k.acyclic_of_run_of_acyclic hs hback hs₂
      rwa [hrun] at hs₁
  · refine .inr ⟨fun hs₁ ↦ ?_, v, t, s₂, hback⟩
    obtain ⟨r', s', hok⟩ := k.run_of_unifies hs (k.unifies_of_run hs.chained hrun hs₁).symm
    rw [hback] at hok
    cases hok

end Unifier

def Store.nested : Store Symbol :=
  (default : Store Symbol).bind ⟨0⟩ (.node .pair [.var ⟨1⟩, .node .pair [.var ⟨2⟩, .var ⟨3⟩]])

theorem Store.acyclic_nested : nested.Acyclic :=
  ((descends_of_entries_empty rfl fun v ↦ 1 - v.id).bind (by decide)).acyclic

/-- The ranks tie, so the second variable absorbs the first one while the binding of the first one
is walked, unless the first one is on the left. -/
theorem Unifier.run_flipped_nested :
    (∃ s₁, ((Unifier.silent ⟨.ranked, false⟩).operation (.var ⟨0⟩)
        (.node .pair [.var ⟨0⟩, .var ⟨0⟩])).run Store.nested = (.ok .nothing, s₁) ∧
      ¬ s₁.Acyclic) ∧
    ∃ v t s₂, ((Unifier.silent ⟨.ranked, false⟩).operation (.node .pair [.var ⟨0⟩, .var ⟨0⟩])
      (.var ⟨0⟩)).run Store.nested = (.error (.clash (.occursIn v t)), s₂) := by
  have hrun : ((Unifier.silent ⟨.ranked, false⟩).operation (.var ⟨0⟩)
      (.node .pair [.var ⟨0⟩, .var ⟨0⟩])).run Store.nested = (.ok .nothing, _) := rfl
  rcases Unifier.run_flipped _ Store.acyclic_nested hrun with ⟨r, s₂, hok, -⟩ | ⟨hcyclic, hfail⟩
  · cases hok
  · exact ⟨⟨_, hrun, hcyclic⟩, hfail⟩

theorem not_unify_ranked_symmetric :
    ¬ ∀ (s : Store Symbol) (a b : Term Symbol), s.Acyclic →
      ((∃ s₁, (Operation.unify ⟨.ranked, false⟩ a b).run s = (.ok .nothing, s₁)) ↔
        ∃ s₂, (Operation.unify ⟨.ranked, false⟩ b a).run s = (.ok .nothing, s₂)) := by
  intro h
  obtain ⟨s₂, hok⟩ := (h Store.nested (.var ⟨0⟩) (.node .pair [.var ⟨0⟩, .var ⟨0⟩])
    Store.acyclic_nested).mp ⟨_, rfl⟩
  cases hok

end Unification
