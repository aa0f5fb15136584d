import Unification.Proofs.Fuel
import Unification.Proofs.Unify.Confined
import Unification.Proofs.Unify.Relaxed
import Unification.Symbol

namespace Unification

open Script Contract

variable {σ ε : Type} {s s' : Store σ} {a b : Term σ} {x : Value σ} {θ : Var → Term σ}

inductive Unifier where
  | silent (mode : Mode)
  | answering (strategy : Strategy)
deriving DecidableEq, Repr

namespace Unifier

def mode : Unifier → Mode
  | .silent mode => mode
  | .answering strategy => { strategy }

def operation (a b : Term σ) : Unifier → Operation σ
  | .silent mode => .unify mode a b
  | .answering strategy => .unified strategy a b

def answer (r : Term σ) : Unifier → Value σ
  | .silent _ => .nothing
  | .answering _ => .term r

theorem fuel_operation (k : Unifier) (s : Store σ) (a b : Term σ) :
    s.weight + Term.sizeList [a, b] +
      (s.scope [a, b]).card * (s.weight + Term.sizeList [a, b] + 1) ≤
        (k.operation a b).fuel s.weight := by
  have hweight : (k.operation a b).weight = Term.sizeList [a, b] := by
    rw [Term.sizeList_eq_sum]
    cases k <;> simp [operation, Operation.weight]
  have hlt := (k.operation a b).lt_fuel (Nat.add_le_add_left hweight.ge s.weight)
    (s.card_scope_le [a, b])
  omega

variable [DecidableEq σ]

theorem script_operation (k : Unifier) (fuel : ℕ) (a b : Term σ) :
    (k.operation a b).script (ε := ε) fuel = (k.answer ·) <$> unify k.mode fuel a b := by
  cases k <;> rfl

theorem meets_script {K : Contract σ} {post : Term σ → Store σ → Prop} (k : Unifier) {fuel : ℕ}
    (h : (unify k.mode fuel a b).Meets K post s) :
    ((k.operation a b).script fuel).Meets K (fun x s' ↦ ∃ r, x = k.answer r ∧ post r s') s := by
  rw [script_operation, meets_map]
  exact h.mono fun r s' _ hr ↦ ⟨r, rfl, hr⟩

theorem meets_script_confined (k : Unifier) (s : Store σ) (a b : Term σ) :
    ((k.operation a b).script ((k.operation a b).fuel s.weight)).Meets
      (confined (s.scope [a, b]) (s.weight + Term.sizeList [a, b]))
      (fun x _ ↦ ∃ r, x = k.answer r) s := by
  have ha : a.Within (s.scope [a, b]) (s.weight + Term.sizeList [a, b]) :=
    s.within_scope_of_mem (by simp)
  have hb : b.Within (s.scope [a, b]) (s.weight + Term.sizeList [a, b]) :=
    s.within_scope_of_mem (by simp)
  exact (k.meets_script (meets_unify_confined (k.fuel_operation s a b)
    (s.within_scope [a, b]) ha hb)).mono fun x _ _ ⟨r, hr, _⟩ ↦ ⟨r, hr⟩

theorem run_ends (k : Unifier) (s : Store σ) (a b : Term σ) :
    (∃ r s', (k.operation a b).run s = (.ok (k.answer r), s')) ∨
      ∃ e s', (k.operation a b).run s = (.error e, s') := by
  have hmeets := k.meets_script_confined s a b
  rcases hmeets.ends (hmeets.finished id) with ⟨_, s', hrun, r, rfl⟩ | ⟨e, s', hrun, -⟩
  · exact .inl ⟨r, s', hrun⟩
  · exact .inr ⟨e, s', hrun⟩

theorem run_clash (k : Unifier) {e : Failure σ Refusal}
    (h : (k.operation a b).run s = (.error e, s')) : ∃ c, e = .clash c :=
  ((k.operation a b).script_approximates le_rfl).clash_of_error (k.meets_script_confined s a b)
    (fun _ ↦ id) (congrArg Prod.fst h)

/-- A run that respects the solutions in `Θ` if there are any, makes the terms alike and answers a
term that is like them. -/
theorem run_faithful {Θ : (Var → Term σ) → Prop} (k : Unifier) (hs : s.Chained)
    (hsol : ∀ θ, Θ θ → s.SolvedBy θ) (heq : ∀ θ, Θ θ → a.subst θ = b.subst θ) :
    (faithful k.mode.eager Θ).Leads s ((k.operation a b).run s).2 ∧
      (faithful k.mode.eager Θ).Ends
        (fun x s' ↦ ∃ r, x = k.answer r ∧ s'.Alike r a ∧ s'.Alike r b)
        ((k.operation a b).run s) :=
  (k.meets_script (meets_unify_faithful hs hsol heq)).run

theorem alike_of_run (k : Unifier) (hs : s.Chained)
    (hrun : (k.operation a b).run s = (.ok x, s')) :
    (faithful k.mode.eager fun _ ↦ False).Leads s s' ∧
      ∃ r, x = k.answer r ∧ s'.Alike r a ∧ s'.Alike r b := by
  have h := k.run_faithful (Θ := fun _ ↦ False) (a := a) (b := b) hs
    (fun _ h ↦ False.elim h) (fun _ h ↦ False.elim h)
  rw [hrun] at h
  exact h

theorem resolved_eq_of_run (k : Unifier) (hs : s.Chained)
    (hrun : (k.operation a b).run s = (.ok x, s')) (hs' : s'.Acyclic) :
    s'.resolved a = s'.resolved b := by
  obtain ⟨-, r, -, hra, hrb⟩ := k.alike_of_run hs hrun
  exact Store.resolved_eq_of_alike hs' (hra.symm.trans hrb)

theorem unifies_of_run (k : Unifier) (hs : s.Chained)
    (hrun : (k.operation a b).run s = (.ok x, s')) (hs' : s'.Acyclic) :
    (s.resolved a).subst (fun v ↦ s'.resolved (.var v)) =
      (s.resolved b).subst fun v ↦ s'.resolved (.var v) := by
  have hlead := (k.alike_of_run hs hrun).1
  have hsol : s.SolvedBy fun v ↦ s'.resolved (.var v) := by
    intro v t ht
    rw [← Store.resolved_eq_subst]
    exact Store.resolved_eq_of_alike hs' (hlead.alike hs (Store.alike_of_binding hs ht))
  rw [hsol.subst_resolved, hsol.subst_resolved, ← Store.resolved_eq_subst,
    ← Store.resolved_eq_subst]
  exact k.resolved_eq_of_run hs hrun hs'

theorem run_respects (k : Unifier) (hs : s.Acyclic)
    (hθ : (s.resolved a).subst θ = (s.resolved b).subst θ) :
    (faithful k.mode.eager (· = s.extend θ)).Leads s ((k.operation a b).run s).2 ∧
      (faithful k.mode.eager (· = s.extend θ)).Ends
        (fun x s' ↦ ∃ r, x = k.answer r ∧ s'.Alike r a ∧ s'.Alike r b)
        ((k.operation a b).run s) := by
  refine k.run_faithful hs.chained ?_ ?_
  · rintro _ rfl
    exact hs.solvedBy θ
  · rintro _ rfl
    rw [Store.subst_extend, Store.subst_extend, hθ]

theorem run_of_unifies (k : Unifier) (hs : s.Acyclic)
    (hθ : (s.resolved a).subst θ = (s.resolved b).subst θ) :
    ∃ r s', (k.operation a b).run s = (.ok (k.answer r), s') := by
  have hends := (k.run_respects hs hθ).2
  rcases k.run_ends s a b with hok | ⟨e, s', hrun⟩
  · exact hok
  · rw [hrun] at hends
    exact absurd rfl (hends _)

end Unifier

def Store.twin : Store Symbol :=
  (default : Store Symbol).bind ⟨0⟩ (.node .pair [.var ⟨1⟩, .var ⟨1⟩])

theorem Store.acyclic_twin : twin.Acyclic :=
  ((descends_of_entries_empty rfl fun v ↦ 1 - v.id).bind (by decide)).acyclic

variable [DecidableEq σ]

/-- An eager unifier over an acyclic store decides whether its terms have a unifier, and then the
bindings are one and have no cycle. -/
theorem unify_eager_ok_iff (strategy : Strategy) (hs : s.Acyclic) (a b : Term σ) :
    ((∃ s', (Operation.unify ⟨strategy, true⟩ a b).run s = (.ok .nothing, s')) ↔
      ∃ θ : Var → Term σ, (s.resolved a).subst θ = (s.resolved b).subst θ) ∧
    ∀ s', (Operation.unify ⟨strategy, true⟩ a b).run s = (.ok .nothing, s') →
      s'.Acyclic ∧ s'.resolved a = s'.resolved b := by
  let k : Unifier := .silent ⟨strategy, true⟩
  have hacyclic : ∀ s', (k.operation a b).run s = (.ok .nothing, s') → s'.Acyclic := by
    intro s' hrun
    exact (k.alike_of_run hs.chained hrun).1.acyclic hs
  refine ⟨⟨fun ⟨s', hrun⟩ ↦ ?_, fun ⟨θ, hθ⟩ ↦ ?_⟩, fun s' hrun ↦ ?_⟩
  · exact ⟨_, k.unifies_of_run hs.chained hrun (hacyclic s' hrun)⟩
  · obtain ⟨r, s', hrun⟩ := k.run_of_unifies hs hθ
    exact ⟨s', hrun⟩
  · have hs' := hacyclic s' hrun
    exact ⟨hs', k.resolved_eq_of_run hs.chained hrun hs'⟩

theorem unify_eager_twin_ok :
    ∃ s', (Operation.unify ⟨.ranked, true⟩ (.var ⟨0⟩)
        (.node .pair [.var ⟨2⟩, .node (.int 5) []])).run Store.twin = (.ok .nothing, s') ∧
      s'.Acyclic ∧
      s'.resolved (.var ⟨0⟩) = s'.resolved (.node .pair [.var ⟨2⟩, .node (.int 5) []]) := by
  obtain ⟨hiff, hok⟩ := unify_eager_ok_iff .ranked Store.acyclic_twin (.var ⟨0⟩)
    (.node .pair [.var ⟨2⟩, .node (.int 5) []])
  obtain ⟨s', hrun⟩ := hiff.mpr ⟨fun _ ↦ .node (.int 5) [], rfl⟩
  exact ⟨s', hrun, hok s' hrun⟩

/-- A unifier makes its terms equal, and commits to nothing that this does not force. -/
theorem Unifier.resolved_most_general (k : Unifier) (hs : s.Acyclic)
    (hrun : (k.operation a b).run s = (.ok x, s')) (hs' : s'.Acyclic) :
    s'.resolved a = s'.resolved b ∧
      ∀ θ : Var → Term σ, (s.resolved a).subst θ = (s.resolved b).subst θ →
        ∀ t, (s'.resolved t).subst θ = (s.resolved t).subst θ := by
  refine ⟨k.resolved_eq_of_run hs.chained hrun hs', fun θ hθ t ↦ ?_⟩
  have hlead := (k.run_respects hs hθ).1
  rw [hrun] at hlead
  have hsol : s'.SolvedBy (s.extend θ) := hlead.solvedBy hs.chained rfl (hs.solvedBy θ)
  have hfree : ∀ v ∈ (s'.resolved t).vars, θ v = s.extend θ v := by
    intro v hv
    refine (Store.extend_of_free θ ?_).symm
    by_contra hbound
    exact hlead.bound hbound (Store.free_of_mem_resolved hs' hv)
  calc (s'.resolved t).subst θ
      = (s'.resolved t).subst (s.extend θ) := Term.subst_congr hfree
    _ = t.subst (s.extend θ) := hsol.subst_resolved t
    _ = (s.resolved t).subst θ := s.subst_extend θ t

theorem Unifier.twin_resolved_most_general :
    ∃ s', ((Unifier.silent ⟨.plain, true⟩).operation (.var ⟨0⟩)
        (.node .pair [.var ⟨2⟩, .node (.int 5) []])).run Store.twin = (.ok .nothing, s') ∧
      s'.resolved (.var ⟨0⟩) = s'.resolved (.node .pair [.var ⟨2⟩, .node (.int 5) []]) ∧
      ∀ t, (s'.resolved t).subst (fun _ ↦ .node (.int 5) []) =
        (Store.twin.resolved t).subst fun _ ↦ .node (.int 5) [] := by
  have hs := Store.acyclic_twin
  have hrun : ((Unifier.silent ⟨.plain, true⟩).operation (.var ⟨0⟩)
      (.node .pair [.var ⟨2⟩, .node (.int 5) []])).run Store.twin = (.ok .nothing, _) := rfl
  have hs' := (Unifier.alike_of_run _ hs.chained hrun).1.acyclic hs
  obtain ⟨heq, hgeneral⟩ := Unifier.resolved_most_general _ hs hrun hs'
  exact ⟨_, hrun, heq, hgeneral _ rfl⟩

/-- A unifier makes its terms denote the same tree, also over bindings that contain themselves. -/
theorem Unifier.unfold_eq (k : Unifier) (hs : s.Chained)
    (hrun : (k.operation a b).run s = (.ok x, s')) :
    s'.Chained ∧ (∀ n, s'.unfold n a = s'.unfold n b) ∧
      ∀ strategy, k = .answering strategy →
        ∃ r, x = .term r ∧ ∀ n, s'.unfold n r = s'.unfold n a := by
  obtain ⟨hlead, r, rfl, hra, hrb⟩ := k.alike_of_run hs hrun
  refine ⟨hlead.chained hs, hra.symm.trans hrb, ?_⟩
  rintro strategy rfl
  exact ⟨r, rfl, hra⟩

def Store.loops : Store Symbol :=
  ((default : Store Symbol).bind ⟨0⟩ (.node (.fn "f") [.var ⟨0⟩])).bind ⟨1⟩
    (.node (.fn "f") [.var ⟨0⟩])

theorem Store.chained_loops : loops.Chained := by
  refine not_transGen_of_height (fun _ ↦ 0) fun v w h ↦ ?_
  simp only [Links, loops, binding_bind] at h
  split at h
  · cases h
  · split at h
    · cases h
    · simp [binding, entry, default] at h

theorem Unifier.loops_unfold_eq :
    ∃ s', ((Unifier.answering .ranked).operation (.var ⟨0⟩) (.var ⟨1⟩)).run Store.loops =
      (.ok (.term (.var ⟨0⟩)), s') ∧ ∀ n, s'.unfold n (.var ⟨0⟩) = s'.unfold n (.var ⟨1⟩) := by
  have hrun : ((Unifier.answering .ranked).operation (.var ⟨0⟩) (.var ⟨1⟩)).run Store.loops =
      (.ok (.term (.var ⟨0⟩)), _) := rfl
  exact ⟨_, hrun, (Unifier.unfold_eq _ Store.chained_loops hrun).2.1⟩

/-- Whenever an eager unifier succeeds, the lazy one does the same, and whenever it fails, the lazy
one fails as well or leaves a cycle. -/
theorem unify_lazy_agrees (strategy : Strategy) (hs : s.Acyclic) (a b : Term σ) :
    (∀ s', (Operation.unify ⟨strategy, true⟩ a b).run s = (.ok .nothing, s') →
      (Operation.unify ⟨strategy, false⟩ a b).run s = (.ok .nothing, s')) ∧
    (∀ s', (Operation.unify ⟨strategy, false⟩ a b).run s = (.ok .nothing, s') → s'.Acyclic →
      ∃ s'', (Operation.unify ⟨strategy, true⟩ a b).run s = (.ok .nothing, s'')) ∧
    ∀ e s₁, (Operation.unify ⟨strategy, true⟩ a b).run s = (.error e, s₁) →
      (∃ e' s', (Operation.unify ⟨strategy, false⟩ a b).run s = (.error e', s')) ∨
      ∃ s', (Operation.unify ⟨strategy, false⟩ a b).run s = (.ok .nothing, s') ∧ ¬ s'.Acyclic := by
  let k : Unifier := .silent ⟨strategy, false⟩
  have hback : ∀ s', (k.operation a b).run s = (.ok .nothing, s') → s'.Acyclic →
      ∃ s'', (Operation.unify ⟨strategy, true⟩ a b).run s = (.ok .nothing, s'') := by
    intro s' hrun hs'
    have hθ := k.unifies_of_run hs.chained hrun hs'
    obtain ⟨r, s'', hrun'⟩ := (Unifier.silent ⟨strategy, true⟩).run_of_unifies hs hθ
    exact ⟨s'', hrun'⟩
  refine ⟨fun s' hrun ↦ ?_, hback, fun e s₁ hrun ↦ ?_⟩
  · have hrelax : ∀ fuel, ((Operation.unify ⟨strategy, true⟩ a b).script fuel).RelaxesTo
        ((Operation.unify ⟨strategy, false⟩ a b).script fuel) :=
      fun fuel ↦ (unify_relaxesTo a b).map _
    exact hrelax _ s .nothing s' hrun
  · rcases k.run_ends s a b with ⟨r, s', hlazy⟩ | hfail
    · refine .inr ⟨s', hlazy, fun hs' ↦ ?_⟩
      obtain ⟨s'', hrun'⟩ := hback s' hlazy hs'
      rw [hrun] at hrun'
      cases hrun'
    · exact .inl hfail

theorem unify_lazy_twin_cyclic :
    ∃ s', (Operation.unify ⟨.plain, false⟩ (.var ⟨1⟩) (.var ⟨0⟩)).run Store.twin =
      (.ok .nothing, s') ∧ ¬ s'.Acyclic := by
  have hlazy : (Operation.unify ⟨.plain, false⟩ (.var ⟨1⟩) (.var ⟨0⟩)).run Store.twin =
      (.ok .nothing, _) := rfl
  have h := (unify_lazy_agrees .plain Store.acyclic_twin (.var ⟨1⟩) (.var ⟨0⟩)).2.2 _ _ rfl
  rcases h with ⟨e, s', hfail⟩ | hcyclic
  · rw [hlazy] at hfail
    cases hfail
  · exact hcyclic

end Unification
