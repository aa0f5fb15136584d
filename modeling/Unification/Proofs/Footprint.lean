import Unification.Proofs.Termination
import Unification.Proofs.Transaction.Closed

namespace Unification

open Script Contract

variable {σ : Type} {s s' : Store σ} {v : Var}

/-- What writes make of a journal. The innermost transaction has newer writes before its older ones,
and without a transaction there is nothing to note. -/
inductive Noted : List (List (Saved σ)) → List (List (Saved σ)) → Prop
  | closed : Noted [] []
  | innermost (newer frame : List (Saved σ)) (rest : List (List (Saved σ))) :
      Noted (frame :: rest) ((newer ++ frame) :: rest)

namespace Noted

variable {journal journal' : List (List (Saved σ))}

theorem refl (journal : List (List (Saved σ))) : Noted journal journal := by
  cases journal with
  | nil => exact .closed
  | cons frame rest => exact .innermost [] frame rest

theorem length_eq (h : Noted journal journal') : journal'.length = journal.length := by
  cases h <;> rfl

theorem update (h : Noted journal s.journal) (v : Var) (f : Entry σ → Entry σ) :
    Noted journal (s.update v f).journal := by
  generalize hs : s.journal = journal' at h
  unfold Store.update Store.save
  cases h with
  | closed =>
    rw [hs]
    simp only [hs]
    exact .closed
  | innermost newer frame rest =>
    rw [hs]
    exact .innermost (⟨v.id, s.entries[v.id]?⟩ :: newer) frame rest

end Noted

/-- How a store has changed if only variables with `P` were written to, and if no binding was taken
away. -/
structure Store.WrittenWithin (P : Var → Prop) (s s' : Store σ) : Prop where
  config : s'.config = s.config
  next : s'.next = s.next
  entry : ∀ v, ¬ P v → s'.entry v = s.entry v
  bound : ∀ v, s.binding v ≠ none → s'.binding v ≠ none
  journal : Noted s.journal s'.journal

namespace Store.WrittenWithin

variable {P Q : Var → Prop}

theorem refl (s : Store σ) : s.WrittenWithin P s :=
  ⟨rfl, rfl, fun _ _ ↦ rfl, fun _ h ↦ h, .refl _⟩

theorem mono (h : s.WrittenWithin P s') (hPQ : ∀ v, P v → Q v) : s.WrittenWithin Q s' :=
  { h with entry := fun v hv ↦ h.entry v fun hP ↦ hv (hPQ v hP) }

theorem depth (h : s.WrittenWithin P s') : s'.depth = s.depth := h.journal.length_eq

theorem update {f : Entry σ → Entry σ} (h : s.WrittenWithin P s') (hv : P v)
    (hf : ∀ e, e.binding ≠ none → (f e).binding ≠ none) :
    s.WrittenWithin P (s'.update v f) where
  config := (config_update s' v f).trans h.config
  next := (next_update s' v f).trans h.next
  entry w hw := by
    have hne : w ≠ v := by
      rintro rfl
      exact hw hv
    rw [entry_update, if_neg hne]
    exact h.entry w hw
  bound w hw := by
    rw [binding, entry_update]
    split
    · rename_i he
      exact hf _ (he ▸ h.bound w hw)
    · exact h.bound w hw
  journal := h.journal.update v f

end Store.WrittenWithin

theorem Contract.Leads.writtenWithin {V : Finset Var} {D : ℕ} (h : (confined V D).Leads s s') :
    s.WrittenWithin (· ∈ V) s' := by
  refine h.invariant (.refl s) fun r s₁ hs hr ↦ ?_
  cases r with
  | lookup w => exact hs
  | rank w => exact hs
  | fresh => exact hr.elim
  | bind w t => exact hs.update hr.1 fun _ _ ↦ Option.some_ne_none t
  | promote w => exact hs.update hr fun _ he ↦ he

namespace Operation

variable [DecidableEq σ]

/-- Whatever an operation that copies nothing ends with, it has written only to variables that can
be met from its terms. No binding is taken away, no variable and no transaction is opened, and the
journal notes the writes in the innermost transaction. -/
theorem run_writtenWithin (op : Operation σ) (s : Store σ) (hop : op.allocates = false) :
    s.WrittenWithin (fun v ↦ ∃ t ∈ op.terms, s.Reaches t v) (op.run s).2 ∧
      (op.run s).2.depth = s.depth := by
  obtain ⟨V, hcard, hs, ht, hreach⟩ := s.exists_within op.terms
  rw [sizeList_terms] at hcard hs ht
  have hmeets := meets_script_confined hop hs ht (Nat.le_add_left _ _) (op.lt_fuel le_rfl hcard)
  have hwritten : s.WrittenWithin (· ∈ V) (op.run s).2 := hmeets.run.1.writtenWithin
  exact ⟨hwritten.mono hreach, hwritten.depth⟩

end Operation

def Store.transacted : Store Symbol :=
  (({ next := 4 } : Store Symbol).begin.bind ⟨0⟩
    (.node .pair [.var ⟨1⟩, .node (.int 1) []])).begin.bind ⟨3⟩ (.node (.int 7) [])

theorem Store.eq_of_pointsTo_transacted {v w : Var} (h : transacted.PointsTo v w) : w = ⟨1⟩ := by
  obtain ⟨t, ht, hw⟩ := h
  have hbegin : ∀ s : Store Symbol, s.begin.binding v = s.binding v := fun _ ↦ rfl
  simp only [transacted, binding_bind, hbegin] at ht
  split at ht
  · obtain rfl : .node (.int 7) [] = t := by simpa using ht
    simp at hw
  · split at ht
    · obtain rfl : .node .pair [.var ⟨1⟩, .node (.int 1) []] = t := by simpa using ht
      simpa using hw
    · simp [binding, entry] at ht

theorem Operation.run_writtenWithin_clash :
    let r := (unify {} (.var ⟨0⟩) (.node .pair [.node (.int 5) [], .node (.int 2) []])).run
      Store.transacted
    r.1 = .error (.clash (.mismatch ⟨.int 1, []⟩ ⟨.int 2, []⟩)) ∧
      r.2.binding ⟨1⟩ = some (.node (.int 5) []) ∧
      r.2.entry ⟨3⟩ = Store.transacted.entry ⟨3⟩ ∧ r.2.depth = 2 := by
  intro r
  obtain ⟨hwritten, hdepth⟩ := run_writtenWithin
    (unify {} (.var ⟨0⟩) (.node .pair [.node (.int 5) [], .node (.int 2) []])) Store.transacted rfl
  refine ⟨rfl, rfl, hwritten.entry ⟨3⟩ ?_, hdepth⟩
  rintro ⟨t, ht, v, hv, hreach⟩
  rcases hreach.cases_tail with rfl | ⟨w, -, hw⟩
  · simp only [terms, List.mem_cons, List.not_mem_nil, or_false] at ht
    rcases ht with rfl | rfl <;> simp at hv
  · exact absurd (Store.eq_of_pointsTo_transacted hw) (by decide)

end Unification
