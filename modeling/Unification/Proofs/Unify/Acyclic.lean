import Unification.Proofs.Prune
import Unification.Proofs.Unify.Correctness

namespace Unification.Operation

open Script Contract

variable {σ : Type} {s : Store σ}

def Guarded : Operation σ → Prop
  | .representative _ | .terminal _ => True
  | .unify mode _ _ => mode.eager
  | _ => False

variable [DecidableEq σ]

/-- A guarded operation writes nothing that the store did not imply, apart from bindings of free
variables to terms that do not contain them. -/
theorem leads_of_guarded {op : Operation σ} (h : op.Guarded) (hs : s.Chained) :
    (faithful true fun _ ↦ False).Leads s (op.run s).2 := by
  cases op with
  | representative t => exact ((meets_representative_faithful hs).map _).run.1
  | terminal t => exact ((meets_terminal_faithful hs).map _).run.1
  | unify mode t u =>
    have hrun := ((Unifier.silent mode).run_faithful (Θ := fun _ ↦ False) (a := t) (b := u) hs
      (fun _ h ↦ False.elim h) (fun _ h ↦ False.elim h)).1
    have heager : (Unifier.silent mode).mode.eager = true := h
    rw [heager] at hrun
    exact hrun
  | _ => exact False.elim h

/-- No sequence of guarded operations makes a cycle, also if some of them fail on the way and leave
what they wrote. -/
theorem acyclic_of_mem_scanl (hs : s.Acyclic) (ops : List (Operation σ))
    (hops : ∀ op ∈ ops, op.Guarded) :
    ∀ s' ∈ ops.scanl (fun s op ↦ (op.run s).2) s, s'.Acyclic := by
  induction ops generalizing s with
  | nil =>
    intro s' hs'
    rw [List.scanl_nil, List.mem_singleton] at hs'
    exact hs' ▸ hs
  | cons op ops ih =>
    intro s' hs'
    rw [List.scanl_cons, List.mem_cons] at hs'
    rcases hs' with rfl | hs'
    · exact hs
    · have hop := hops op List.mem_cons_self
      have hnext := (leads_of_guarded hop hs.chained).acyclic hs
      exact ih hnext (fun op' h ↦ hops op' (List.mem_cons_of_mem op h)) s' hs'

def refused : Operation Symbol :=
  unify ⟨.plain, true⟩ (.node .pair [.var ⟨2⟩, .var ⟨1⟩])
    (.node .pair [.node (.int 5) [], .var ⟨0⟩])

theorem acyclic_of_mem_scanl_refused :
    (∃ e, (refused.run Store.twin).1 = .error e) ∧
      (refused.run Store.twin).2.binding ⟨2⟩ = some (.node (.int 5) []) ∧
      (refused.run Store.twin).2.Acyclic ∧
      ((terminal (.var ⟨0⟩)).run (refused.run Store.twin).2).2.Acyclic := by
  have hops : ∀ op ∈ [refused, terminal (.var ⟨0⟩)], op.Guarded := by
    intro op hop
    simp only [List.mem_cons, List.not_mem_nil, or_false] at hop
    rcases hop with rfl | rfl
    · exact rfl
    · exact trivial
  have hacyclic := acyclic_of_mem_scanl Store.acyclic_twin _ hops
  exact ⟨⟨_, rfl⟩, rfl, hacyclic _ (by simp), hacyclic _ (by simp)⟩

end Unification.Operation
