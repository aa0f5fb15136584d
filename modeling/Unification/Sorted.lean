namespace Unification

variable {α : Type}

/-- Puts `a` behind the elements whose key is at most its own, so that a list sorted by `key`
stays sorted. -/
def insertBy (key : α → Nat) (a : α) : List α → List α
  | [] => [a]
  | b :: l => if key a < key b then a :: b :: l else b :: insertBy key a l

theorem mem_insertBy {key : α → Nat} {a b : α} {l : List α} :
    b ∈ insertBy key a l ↔ b = a ∨ b ∈ l := by
  induction l with
  | nil => simp [insertBy]
  | cons c l ih =>
    unfold insertBy
    split
    · simp
    · simp [ih, or_left_comm]

theorem sorted_insertBy {key : α → Nat} {a : α} {l : List α}
    (h : l.Pairwise fun b c ↦ key b ≤ key c) :
    (insertBy key a l).Pairwise fun b c ↦ key b ≤ key c := by
  induction l with
  | nil => simp [insertBy]
  | cons c l ih =>
    rw [List.pairwise_cons] at h
    unfold insertBy
    split
    · rename_i hc
      refine List.pairwise_cons.mpr ⟨fun b hb ↦ ?_, List.pairwise_cons.mpr h⟩
      rcases List.mem_cons.mp hb with rfl | hb
      · exact Nat.le_of_lt hc
      · exact Nat.le_trans (Nat.le_of_lt hc) (h.1 b hb)
    · rename_i hc
      refine List.pairwise_cons.mpr ⟨fun b hb ↦ ?_, ih h.2⟩
      rcases mem_insertBy.mp hb with rfl | hb
      · exact Nat.not_lt.mp hc
      · exact h.1 b hb

theorem perm_insertBy (key : α → Nat) (a : α) (l : List α) : (insertBy key a l).Perm (a :: l) := by
  induction l with
  | nil => exact .refl _
  | cons b l ih =>
    unfold insertBy
    split
    · exact .refl _
    · exact (ih.cons b).trans (.swap a b l)

theorem strictlySorted_insertBy {key : α → Nat} {a : α} {l : List α}
    (h : l.Pairwise fun b c ↦ key b < key c) (ha : ∀ b ∈ l, key a ≠ key b) :
    (insertBy key a l).Pairwise fun b c ↦ key b < key c := by
  have hle := sorted_insertBy (a := a) (h.imp Nat.le_of_lt)
  have hne : (insertBy key a l).Pairwise fun b c ↦ key b ≠ key c :=
    ((perm_insertBy key a l).pairwise_iff Ne.symm).mpr
      (List.pairwise_cons.mpr ⟨ha, h.imp Nat.ne_of_lt⟩)
  exact (hle.and hne).imp fun ⟨hle, hne⟩ ↦ Nat.lt_of_le_of_ne hle hne

def firstOccurrences [DecidableEq α] (l : List α) : List Nat :=
  l.zipIdx.filterMap fun (a, i) ↦ if a ∈ l.take i then none else some i

end Unification
