import Unification.Proofs.Matching

namespace Unification

open Script Contract

variable {σ : Type} {s s' : Store σ} {n fuel : ℕ} {t u : Term σ} {v : Var}
  {eager : Bool} {Θ : (Var → Term σ) → Prop}

namespace Operation

/-- The operations that write bindings over the variables that are there already. -/
def Rewrites : Operation σ → Prop
  | .representative _ | .terminal _ | .unify _ _ _ | .unified _ _ _ | .subsumes _ _ => True
  | _ => False

variable [DecidableEq σ]

theorem keeps_of_mem_scanl {I : Store σ → Prop} {ops : List (Operation σ)}
    (hI : ∀ op ∈ ops, ∀ s, I s → I (op.run s).2) (hs : I s) :
    ∀ s' ∈ ops.scanl (fun s op ↦ (op.run s).2) s, I s' := by
  induction ops generalizing s with
  | nil =>
    intro s' hs'
    rw [List.scanl_nil, List.mem_singleton] at hs'
    exact hs' ▸ hs
  | cons op ops ih =>
    intro s' hs'
    rw [List.scanl_cons, List.mem_cons] at hs'
    rcases hs' with rfl | hs'
    · exact hs
    · exact ih (fun op' h ↦ hI op' (List.mem_cons_of_mem op h))
        (hI op List.mem_cons_self s hs) s' hs'

theorem meets_script_faithful {op : Operation σ} (h : op.Rewrites) (hs : s.Chained) :
    ∃ eager, (op.script fuel).Meets (faithful eager fun _ ↦ False) (fun _ _ ↦ True) s := by
  have hunify : ∀ (k : Unifier) (a b : Term σ), ∃ eager, ((k.operation a b).script fuel).Meets
      (faithful eager fun _ ↦ False) (fun _ _ ↦ True) s :=
    fun k a b ↦ ⟨k.mode.eager, (k.meets_script (meets_unify_faithful hs (fun _ h ↦ False.elim h)
      fun _ h ↦ False.elim h)).mono fun _ _ _ _ ↦ trivial⟩
  cases op with
  | representative t => exact ⟨false, (meets_representative_faithful hs).map _⟩
  | terminal t => exact ⟨false, (meets_terminal_faithful hs).map _⟩
  | unify mode a b => exact hunify (.silent mode) a b
  | unified strategy a b => exact hunify (.answering strategy) a b
  | subsumes a b => exact ⟨false, Meets.map (meets_subsumesBelow_faithful hs nofun nofun) _⟩
  | _ => exact False.elim h

theorem leads_of_rewrites {op : Operation σ} (h : op.Rewrites) (hs : s.Chained) :
    ∃ eager, (faithful eager fun _ ↦ False).Leads s (op.run s).2 := by
  obtain ⟨eager, hmeets⟩ := meets_script_faithful h hs
  exact ⟨eager, hmeets.run.1⟩

/-- No operation forgets an equation: terms that denote the same tree before it do so in what it
leaves, whatever its outcome. -/
theorem unfold_eq_of_rewrites {op : Operation σ} (h : op.Rewrites) (hs : s.Chained)
    (htu : ∀ n, s.unfold n t = s.unfold n u) :
    (op.run s).2.Chained ∧ ∀ n, (op.run s).2.unfold n t = (op.run s).2.unfold n u := by
  obtain ⟨eager, hlead⟩ := leads_of_rewrites h hs
  exact ⟨hlead.chained hs, hlead.alike hs htu⟩

def mismatched : Operation Symbol :=
  unify ⟨.ranked, false⟩ (.node .pair [.var ⟨2⟩, .node (.int 1) []])
    (.node .pair [.var ⟨1⟩, .node (.int 2) []])

theorem unfold_eq_of_rewrites_mismatched :
    (∃ e, (mismatched.run Store.loops).1 = .error e) ∧
      (mismatched.run Store.loops).2.binding ⟨1⟩ = some (.var ⟨2⟩) ∧
      ∀ n, (mismatched.run Store.loops).2.unfold n (.var ⟨0⟩) =
        (mismatched.run Store.loops).2.unfold n (.var ⟨1⟩) := by
  have halike : Store.loops.Alike (.var ⟨0⟩) (.var ⟨1⟩) := Store.alike_of_chainEnd_eq rfl
  have hop : mismatched.Rewrites := trivial
  exact ⟨⟨_, rfl⟩, rfl, (unfold_eq_of_rewrites hop Store.chained_loops halike).2⟩

end Operation

end Unification
