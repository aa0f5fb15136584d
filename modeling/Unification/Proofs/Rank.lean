import Mathlib.Data.List.Chain
import Mathlib.Data.List.Induction
import Unification.Proofs.Among
import Unification.Proofs.Faithful

namespace Unification

open Relation Contract

variable {σ : Type} {s s' : Store σ} {K : Contract σ} {t : Term σ} {v w x : Var}
  {θ : Var → Term σ}

namespace Store

@[simp]
theorem rank_bind (s : Store σ) (v w : Var) (t : Term σ) : (s.bind v t).rank w = s.rank w := by
  rw [rank, bind, entry_update]
  split
  · rename_i h
    subst h
    rfl
  · rfl

theorem rank_promote (s : Store σ) (v w : Var) : (s.promote v).rank w =
    if w = v then if s.rank v < Entry.maxRank then s.rank v + 1 else s.rank v else s.rank w := by
  rw [rank, promote, entry_update]
  split <;> rfl

theorem rank_promote_of_ne (h : w ≠ v) : (s.promote v).rank w = s.rank w := by
  rw [rank_promote, if_neg h]

theorem rank_le_promote (s : Store σ) (v w : Var) : s.rank w ≤ (s.promote v).rank w := by
  rw [rank_promote]
  split
  · rename_i h
    subst h
    split
    · exact Nat.le_succ _
    · exact le_rfl
  · exact le_rfl

theorem rank_le_perform (r : Request σ) (s : Store σ) (w : Var) :
    s.rank w ≤ (perform r s).2.rank w := by
  cases r with
  | lookup v => exact le_rfl
  | rank v => exact le_rfl
  | fresh =>
    change s.rank w ≤ s.fresh.2.rank w
    unfold fresh
    split <;> exact le_rfl
  | bind v t => exact (rank_bind s v w t).ge
  | promote v => exact rank_le_promote s v w

theorem rank_of_entries_empty (h : s.entries = ∅) (v : Var) : s.rank v = 0 := by
  rw [rank, entry_of_entries_empty h]

def Ascends (s : Store σ) : Prop := ∀ v w, s.Links v w → s.rank v < s.rank w

theorem ascends_of_free (h : ∀ v, s.binding v = none) : s.Ascends := by
  intro v w hl
  rw [Links, h] at hl
  cases hl

theorem Ascends.rank_lt (h : s.Ascends) (hvw : TransGen s.Links v w) : s.rank v < s.rank w := by
  induction hvw with
  | single hl => exact h _ _ hl
  | tail _ hl ih => exact ih.trans (h _ _ hl)

theorem Ascends.bind (h : s.Ascends) (ht : ∀ w, t = .var w → s.rank v < s.rank w) :
    (s.bind v t).Ascends := by
  intro x y hxy
  rw [rank_bind, rank_bind]
  rw [Links, binding_bind] at hxy
  split at hxy
  · rename_i hxv
    subst hxv
    exact ht y (Option.some.inj hxy)
  · exact h x y hxy

theorem Ascends.promote (h : s.Ascends) (hv : ∀ x, ¬ s.Links v x) : (s.promote v).Ascends := by
  intro x y hxy
  rw [Links, binding_promote] at hxy
  have hne : x ≠ v := by
    rintro rfl
    exact hv y hxy
  rw [rank_promote_of_ne hne]
  exact (h x y hxy).trans_le (rank_le_promote s v y)

/-- The rank of a variable bounds the length of every chain that ends at it. -/
theorem Ascends.length_le_rank (h : s.Ascends) (chain : List Var) (w : Var)
    (hchain : (chain ++ [w]).IsChain s.Links) : chain.length ≤ s.rank w := by
  induction chain using List.reverseRecOn generalizing w with
  | nil => exact Nat.zero_le _
  | append_singleton chain v ih =>
    rw [List.append_assoc, List.singleton_append, List.isChain_append_cons_cons] at hchain
    rw [List.length_append, List.length_singleton]
    exact Nat.succ_le_of_lt ((ih v hchain.1).trans_lt (h v w hchain.2.1))

end Store

namespace Contract

def rising : Contract σ where
  bind s v t := ∀ w, t = .var w → s.rank v < s.rank w
  promote s v := ∀ x, ¬ s.Links v x
  fresh _ := False
  failed _ _ := True
  unfinished := True

theorem Leads.ascends (h : rising.Leads s s') (hs : s.Ascends) : s'.Ascends := by
  refine h.invariant hs fun r s hs hr ↦ ?_
  cases r with
  | lookup v => exact hs
  | rank v => exact hs
  | fresh => exact hr.elim
  | bind v t => exact hs.bind hr
  | promote v => exact hs.promote hr

theorem Leads.rank_le (h : K.Leads s s') (v : Var) : s.rank v ≤ s'.rank v :=
  h.invariant (I := fun s' ↦ s.rank v ≤ s'.rank v) le_rfl
    fun r s' hs' _ ↦ hs'.trans (Store.rank_le_perform r s' v)

end Contract

/-- A substitution solves the store, and no rank has stopped growing. -/
structure Store.TameBy (θ : Var → Term σ) (s : Store σ) : Prop where
  solved : s.SolvedBy θ
  unsaturated : ∀ v, s.rank v < Entry.maxRank

theorem Contract.Leads.tameBy {eager : Bool} (h : (faithful eager fun _ ↦ False).Leads s s')
    (hs : s.Chained) (h' : s'.TameBy θ) : s.TameBy θ :=
  ⟨h.solved_before hs h'.solved, fun v ↦ (h.rank_le v).trans_lt (h'.unsaturated v)⟩

end Unification
