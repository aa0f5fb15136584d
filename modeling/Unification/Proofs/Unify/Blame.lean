import Unification.Proofs.Termination
import Unification.Proofs.Unify.Correctness

namespace Unification

open Relation Script Contract

variable {σ : Type} {s s' : Store σ} {mode : Mode} {n fuel : ℕ} {path : List Var}
  {t u a b : Term σ} {v w : Var} {l r : Layer σ (Term σ)}

/-- A variable is blamed for a term that it occurs in, or that it is bound to. -/
def Store.Blames (s : Store σ) (e : Failure σ Refusal) : Prop :=
  ∀ v t, e = .clash (.occursIn v t) → s.Reaches t v ∨ s.binding v = some t

theorem Store.blames_of_reaches (h : s.Reaches t v) : s.Blames (.clash (.occursIn v t)) := by
  rintro _ _ ⟨⟩
  exact .inl h

theorem Store.blames_of_binding (h : s.binding v = some t) :
    s.Blames (.clash (.occursIn v t)) := by
  rintro _ _ ⟨⟩
  exact .inr h

def Contract.candid : Contract σ := .blaming fun e s ↦ s.Blames e

theorem meets_bindFree_candid :
    (bindFree mode fuel v l).Meets candid (fun _ _ ↦ True) s := by
  refine meets_bind.mpr ((meets_guardOccurs trivial fun _ hr ↦ ?_).mono fun _ _ _ _ ↦ ?_)
  · exact Store.blames_of_reaches hr
  · exact meets_bind.mpr (meets_assign.mpr ⟨trivial, trivial⟩)

theorem meets_absorb_candid {kept absorbed : Var} {kb ab unified : Option (Layer σ (Term σ))}
    {tie : Bool} :
    (absorb mode fuel kept kb absorbed ab unified tie).Meets candid (fun _ _ ↦ True) s := by
  have hguard : ∀ {b : Bool} {v : Var} {t : Term σ} {s : Store σ},
      (Script.when b (guardOccurs mode fuel v t)).Meets candid (fun _ s₁ ↦ s₁ = s) s :=
    meets_when_guardOccurs trivial Store.blames_of_reaches
  have hkept : ∀ o, (absorb.bindKept mode fuel kept kb o).Meets candid (fun _ _ ↦ True) s := by
    intro o
    cases o with
    | none => exact trivial
    | some layer =>
      exact meets_bind.mpr (hguard.mono fun _ _ _ _ ↦ meets_assign.mpr ⟨trivial, trivial⟩)
  refine meets_bind.mpr ((hkept _).mono fun _ s₁ _ _ ↦ meets_bind.mpr ?_)
  have hpromote : (Script.when tie do
      Script.log (.promoting kept)
      Script.promote kept).Meets candid (fun _ _ ↦ True) s₁ := by
    rw [meets_when]
    split
    · exact meets_bind.mpr (meets_log.mpr (meets_promote.mpr ⟨trivial, trivial⟩))
    · exact trivial
  refine hpromote.mono fun _ s₂ _ _ ↦ meets_bind.mpr (hguard.mono fun _ s₃ _ _ ↦ ?_)
  exact meets_bind.mpr (meets_log.mpr (meets_bind.mpr (meets_assign.mpr ⟨trivial, trivial⟩)))

section Step

variable [DecidableEq σ] {recurse : List Var → Term σ → Term σ → Script σ Refusal (Term σ)}
  (hrec : ∀ path t u s, (recurse path t u).Meets candid (fun _ _ ↦ True) s)

include hrec

theorem meets_unifyLayers_candid :
    (unifyLayers recurse path l r).Meets candid (fun _ _ ↦ True) s := by
  unfold unifyLayers
  cases l.align? r with
  | none => exact nofun
  | some aligned =>
    refine meets_bind.mpr ((meets_mapEach (I := fun _ ↦ True) (R := fun _ _ _ ↦ True)
      (fun x _ s _ ↦ ?_) (fun _ _ _ _ _ _ _ ↦ trivial) trivial).mono fun _ _ _ _ ↦ trivial)
    cases x with
    | same t => exact ⟨trivial, trivial⟩
    | differ t u => exact (hrec path t u s).mono fun _ _ _ _ ↦ ⟨trivial, trivial⟩

theorem meets_rebind_candid {bound : Layer σ (Term σ)} (hv : s.binding v = some bound.toTerm) :
    (rebind recurse path v bound l r).Meets candid (fun _ _ ↦ True) s := by
  rw [rebind, meets_bind, meets_stepInto]
  split
  · exact Store.blames_of_binding hv
  · refine meets_bind.mpr ((meets_unifyLayers_candid hrec).mono fun _ _ _ _ ↦ ?_)
    exact meets_bind.mpr (meets_assign.mpr ⟨trivial, trivial⟩)

theorem meets_unifyVars_candid {o p : Option (Layer σ (Term σ))}
    (hv : s.binding v = o.map Layer.toTerm) (hw : s.binding w = p.map Layer.toTerm) :
    (unifyHeads.unifyVars mode fuel recurse path v o w p).Meets candid (fun _ _ ↦ True) s := by
  rw [unifyHeads.unifyVars]
  by_cases hne : v = w
  · rw [if_pos hne]
    exact trivial
  rw [if_neg hne, joinVars, meets_bind]
  refine meets_choose fun choice ↦ meets_bind.mpr ?_
  have hbindings : (joinVars.unifyBindings recurse path v o w p).Meets candid
      (fun _ _ ↦ True) s := by
    cases o with
    | none => exact trivial
    | some l =>
      cases p with
      | none => exact trivial
      | some r =>
        rw [unifyBindings_eq]
        refine meets_bind.mpr ((meets_stepInBoth hne (fun _ ↦ ?_) fun _ ↦ ?_).mono
          fun _ _ _ _ ↦ Meets.map (meets_unifyLayers_candid hrec) _)
        · exact Store.blames_of_binding hv
        · exact Store.blames_of_binding hw
  refine hbindings.mono fun _ _ _ _ ↦ ?_
  cases choice with
  | left tie => exact meets_absorb_candid
  | right => exact meets_absorb_candid

theorem meets_unifyHeads_candid {h h' : Head σ} (hl : h.At s t) (hr : h'.At s u) :
    (unifyHeads mode fuel recurse path h h').Meets candid (fun _ _ ↦ True) s := by
  cases hl with
  | layer l =>
    cases hr with
    | layer r => exact Meets.map (meets_unifyLayers_candid hrec) _
    | @var y o hy =>
      cases o with
      | none => exact meets_bindFree_candid
      | some r => exact meets_rebind_candid hrec hy
  | @var x o hx =>
    cases hr with
    | layer r =>
      cases o with
      | none => exact meets_bindFree_candid
      | some l => exact meets_rebind_candid hrec hx
    | var y hy =>
      rw [unifyHeads_ofVar]
      exact meets_unifyVars_candid hrec hx hy

end Step

variable [DecidableEq σ]

theorem meets_unifyBelow_candid (path : List Var) (t u : Term σ) (s : Store σ) :
    (unifyBelow mode fuel n path t u).Meets candid (fun _ _ ↦ True) s := by
  induction n generalizing path t u s with
  | zero => exact trivial
  | succ n ih =>
    rw [unifyBelow_succ, meets_bind]
    refine (meets_findBoth fun x s₁ _ ↦ ?_).mono fun h s₁ _ ⟨h₁, hl, hr⟩ ↦ ?_
    · exact Store.blames_of_reaches ⟨x, Term.mem_vars_var.mpr rfl, .refl⟩
    · exact meets_unifyHeads_candid ih (hl.keep h₁) (hr.keep h₁)

def Contract.asking : Contract σ where
  bind _ _ _ := False
  promote _ _ := False
  fresh _ := False
  failed _ _ := False
  unfinished := False

theorem Operation.run_occurs (v : Var) (t : Term σ) (s : Store σ) :
    ∃ found, (Operation.occurs v t).run s = (.ok (.bool found), s) ∧
      (found = true ↔ s.Reaches t v) := by
  obtain ⟨V, hcard, hs, ht, -⟩ := s.exists_within (Operation.occurs v t).terms
  rw [Operation.sizeList_terms] at hcard hs ht
  have hfuel := (Operation.occurs v t).lt_fuel le_rfl hcard
  have hmeets : ((Operation.occurs v t).script ((Operation.occurs v t).fuel s.weight)).Meets asking
      (fun x s' ↦ s' = s ∧ ∃ found, x = .bool found ∧ (found = true ↔ s.Reaches t v)) s := by
    refine meets_map.mpr (meets_occurs (fun hr ↦ ?_) (fun hr ↦ ?_) (.inr ⟨V, _, hs, ?_, by omega⟩))
    · exact ⟨rfl, true, rfl, iff_of_true rfl hr⟩
    · exact ⟨rfl, false, rfl, iff_of_false Bool.false_ne_true hr⟩
    · exact ht t (List.mem_cons_of_mem _ List.mem_cons_self)
  rcases hmeets.ends (hmeets.finished id) with ⟨_, _, hrun, rfl, found, rfl, hfound⟩ |
    ⟨e, s', -, hfailed⟩
  · exact ⟨found, hrun, hfound⟩
  · exact hfailed.elim

theorem Operation.run_occurs_eq_true :
    (Operation.occurs v t).run s = (.ok (.bool true), s) ↔ s.Reaches t v := by
  obtain ⟨found, hrun, hfound⟩ := Operation.run_occurs v t s
  rw [hrun, ← hfound]
  simp

theorem Unifier.blames_of_run (k : Unifier) {e : Failure σ Refusal}
    (hrun : (k.operation a b).run s = (.error e, s')) : s'.Blames e := by
  have hmeets : (unify k.mode ((k.operation a b).fuel s.weight) a b).Meets candid
      (fun _ _ ↦ True) s := meets_bind.mpr (meets_log.mpr (meets_unifyBelow_candid [] a b s))
  have hends := (k.meets_script hmeets).run.2
  rw [← Operation.run, hrun] at hends
  exact hends

/-- If a unifier says that a variable occurs in a term, it does so, or it is bound to the term.
Either way the unifier was right to fail: over bindings without a cycle, nothing makes its terms
equal. -/
theorem Unifier.occurs_of_blamed (k : Unifier)
    (hrun : (k.operation a b).run s = (.error (.clash (.occursIn v t)), s')) :
    ((Operation.occurs v t).run s' = (.ok (.bool true), s') ∨ s'.binding v = some t) ∧
      (s.Acyclic → ∀ θ : Var → Term σ, (s.resolved a).subst θ ≠ (s.resolved b).subst θ) := by
  rw [Operation.run_occurs_eq_true]
  refine ⟨k.blames_of_run hrun v t rfl, fun hs θ hθ ↦ ?_⟩
  obtain ⟨r, s'', hok⟩ := k.run_of_unifies hs hθ
  cases hrun.symm.trans hok

def Store.ladder : Store Symbol :=
  ((default : Store Symbol).bind ⟨0⟩ (.node (.fn "f") [.var ⟨1⟩])).bind ⟨1⟩
    (.node (.fn "g") [.var ⟨2⟩])

theorem Store.acyclic_ladder : ladder.Acyclic :=
  (((descends_of_entries_empty rfl fun v ↦ 2 - v.id).bind (by decide)).bind (by decide)).acyclic

/-- The first variable is met on the right side while its binding is walked on the left side. It is
blamed for its binding, which it does not occur in. -/
theorem Unifier.occurs_of_blamed_ladder :
    ∃ s', ((Unifier.silent ⟨.plain, false⟩).operation (.var ⟨0⟩) (.node (.fn "f") [.var ⟨0⟩])).run
        Store.ladder = (.error (.clash (.occursIn ⟨0⟩ (.node (.fn "f") [.var ⟨1⟩]))), s') ∧
      (Operation.occurs ⟨0⟩ (.node (.fn "f") [.var ⟨1⟩])).run s' = (.ok (.bool false), s') ∧
      s'.binding ⟨0⟩ = some (.node (.fn "f") [.var ⟨1⟩]) ∧
      ∀ θ : Var → Term Symbol, (Store.ladder.resolved (.var ⟨0⟩)).subst θ ≠
        (Store.ladder.resolved (.node (.fn "f") [.var ⟨0⟩])).subst θ := by
  obtain ⟨htruth, hclash⟩ := Unifier.occurs_of_blamed (s := Store.ladder)
    (.silent ⟨.plain, false⟩) (a := .var ⟨0⟩) (b := .node (.fn "f") [.var ⟨0⟩]) rfl
  exact ⟨_, rfl, rfl, htruth.resolve_left nofun, hclash Store.acyclic_ladder⟩

theorem Unifier.not_occurs_of_blamed :
    ¬ ∀ (k : Unifier) (s s' : Store Symbol) (a b t : Term Symbol) (v : Var),
      (k.operation a b).run s = (.error (.clash (.occursIn v t)), s') →
        (Operation.occurs v t).run s' = (.ok (.bool true), s') := by
  intro h
  have hocc := h (.silent ⟨.plain, false⟩) Store.ladder _ (.var ⟨0⟩) (.node (.fn "f") [.var ⟨0⟩])
    (.node (.fn "f") [.var ⟨1⟩]) ⟨0⟩ rfl
  cases hocc

end Unification
