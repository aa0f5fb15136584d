import Mathlib.Data.Finset.SDiff
import Unification.Proofs.Walk
import Unification.RenameApart

namespace Unification

open Script Contract

variable {σ : Type} {s s' : Store σ} {V : Finset Var} {D n fuel : ℕ} {memo memo' : Memo σ}
  {t u : Term σ} {v : Var} {layer : Layer σ (Term σ)}

namespace Memo

def keys (memo : Memo σ) : Finset Var := (memo.map Prod.fst).toFinset

theorem keys_cons (v : Var) (p : Progress (Term σ)) (memo : Memo σ) :
    keys ((v, p) :: memo) = insert v memo.keys := List.toFinset_cons

theorem keys_subset_cons (v : Var) (p : Progress (Term σ)) (memo : Memo σ) :
    memo.keys ⊆ keys ((v, p) :: memo) := by
  rw [keys_cons]
  exact Finset.subset_insert v _

theorem not_mem_keys (h : List.lookup v memo = none) : v ∉ memo.keys := by
  intro hv
  obtain ⟨p, hp, rfl⟩ := List.mem_map.mp (List.mem_toFinset.mp hv)
  have hne := List.lookup_eq_none_iff.mp h p hp
  simp at hne

theorem lookup_cons (v x : Var) (p : Progress (Term σ)) (memo : Memo σ) :
    List.lookup x ((v, p) :: memo) = if x = v then some p else List.lookup x memo := by
  rw [List.lookup_cons]
  by_cases h : x = v
  · rw [beq_iff_eq.mpr h, if_pos h]
  · rw [beq_eq_false_iff_ne.mpr h, if_neg h]

section Path

variable {path path' : List Var} {x : Var}

theorem started_start (h : ∀ x, List.lookup x memo = some .started ↔ x ∈ path) (v x : Var) :
    List.lookup x ((v, .started) :: memo) = some .started ↔ x ∈ v :: path := by
  rw [lookup_cons, List.mem_cons, ← h]
  split
  · rename_i he
    exact iff_of_true rfl (.inl he)
  · rename_i hne
    exact (or_iff_right hne).symm

theorem started_finish (h : ∀ x, List.lookup x memo = some .started ↔ x ∈ path')
    (hpath : path' = path ∨ path' = v :: path) (hv : v ∉ path) (u : Term σ) (x : Var) :
    List.lookup x ((v, .done u) :: memo) = some .started ↔ x ∈ path := by
  rw [lookup_cons]
  split
  · rename_i he
    exact iff_of_false nofun (he ▸ hv)
  · rename_i hne
    rw [h]
    rcases hpath with rfl | rfl
    · rfl
    · rw [List.mem_cons, or_iff_right hne]

end Path

/-- The variables that are not in the memo yet can be entered once each, and between two of them the
depth is at most the size of a term. -/
structure Fits (V : Finset Var) (D n : ℕ) (memo : Memo σ) (t : Term σ) : Prop where
  within : t.Within V D
  depth : (V \ memo.keys).card * (D + 1) + t.size ≤ n

theorem Fits.slot (h : Fits V D (n + 1) memo layer.toTerm) (ht : t ∈ layer.slots)
    (hm : memo.keys ⊆ memo'.keys) : Fits V D n memo' t := by
  have hcard : (V \ memo'.keys).card ≤ (V \ memo.keys).card :=
    Finset.card_le_card (Finset.sdiff_subset_sdiff subset_rfl hm)
  have hmul := Nat.mul_le_mul_right (D + 1) hcard
  have hsize : t.size < layer.toTerm.size := Term.size_lt_of_mem layer.symbol ht
  have hdepth := h.depth
  exact ⟨h.within.slot ht, by omega⟩

theorem Fits.enter {p : Progress (Term σ)} (h : Fits V D (n + 1) memo u) (hv : v ∈ V)
    (hnew : List.lookup v memo = none) (hl : layer.toTerm.Within V D) (ht : t ∈ layer.slots)
    (hm : keys ((v, p) :: memo) ⊆ memo'.keys) : Fits V D n memo' t := by
  rw [keys_cons] at hm
  have hcard : (V \ memo'.keys).card < (V \ memo.keys).card := by
    apply Finset.card_lt_card
    have hsub : memo.keys ⊆ memo'.keys := (Finset.subset_insert v _).trans hm
    refine ⟨Finset.sdiff_subset_sdiff subset_rfl hsub, fun hback ↦ ?_⟩
    have hmem := hback (Finset.mem_sdiff.mpr ⟨hv, not_mem_keys hnew⟩)
    exact (Finset.mem_sdiff.mp hmem).2 (hm (Finset.mem_insert_self v _))
  have hmul := Nat.mul_le_mul_right (D + 1) (Nat.succ_le_of_lt hcard)
  have hsize := (hl.slot ht).2
  have hdepth := h.depth
  rw [Nat.succ_mul] at hmul
  exact ⟨hl.slot ht, by omega⟩

end Memo

theorem Layer.meets_mapMemo (layer : Layer σ (Term σ)) (memo : Memo σ) {K : Contract σ}
    {I : Store σ → Prop} {f : Memo σ → Term σ → Script σ Refusal (Term σ × Memo σ)}
    (hf : ∀ t ∈ layer.slots, ∀ memo' s, memo.keys ⊆ memo'.keys → I s →
      (f memo' t).Meets K (fun r s' ↦ I s' ∧ memo'.keys ⊆ r.2.keys) s) (hs : I s) :
    (layer.mapMemo f memo).Meets K (fun r s' ↦ I s' ∧ memo.keys ⊆ r.2.keys) s := by
  refine meets_bind.mpr (meets_mapState (I := fun (memo' : Memo σ) s ↦
    I s ∧ memo.keys ⊆ memo'.keys) (fun t ht memo' s h ↦ ?_) ⟨hs, subset_rfl⟩)
  exact (hf t ht memo' s h.2 h.1).mono fun r s' _ hr ↦ ⟨hr.1, h.2.trans hr.2⟩

theorem meets_resolveWith (hfuel : V.card < fuel) (hs : s.Within V D) (h : memo.Fits V D n t) :
    (resolveWith fuel n memo t).Meets (confined V D)
      (fun r s' ↦ s'.Within V D ∧ memo.keys ⊆ r.2.keys) s := by
  induction n generalizing memo t s with
  | zero =>
    have hsize := t.size_pos
    have hdepth := h.depth
    omega
  | succ n ih =>
    rw [resolveWith, meets_bind]
    refine (meets_peek_confined hs h.within hfuel).mono fun head s₁ h₁ hhead ↦ ?_
    have hs₁ := h₁.within hs
    match head with
    | .free v => exact ⟨hs₁, subset_rfl⟩
    | .shape none layer =>
      obtain rfl : t = layer.toTerm := hhead
      exact layer.meets_mapMemo memo (fun t ht memo' s hm hs ↦ ih hs (h.slot ht hm)) hs₁
    | .shape (some v) layer =>
      dsimp only
      cases hv : List.lookup v memo with
      | some progress =>
        cases progress with
        | started => exact trivial
        | done u => exact ⟨hs₁, subset_rfl⟩
      | none =>
        have hslots := layer.meets_mapMemo ((v, .started) :: memo) (K := confined V D)
          (fun t ht memo' s hm hs ↦ ih hs (h.enter hhead.1 hv hhead.2 ht hm)) hs₁
        refine meets_bind.mpr (hslots.mono fun r s₂ _ hr ↦ ⟨hr.1, ?_⟩)
        exact (Memo.keys_subset_cons v _ memo).trans (hr.2.trans (Memo.keys_subset_cons v _ _))

theorem Memo.fits (ht : t.Within V D) (hn : D + V.card * (D + 1) ≤ n) : memo.Fits V D n t := by
  have hcard : (V \ memo.keys).card ≤ V.card := Finset.card_le_card Finset.sdiff_subset
  have hmul := Nat.mul_le_mul_right (D + 1) hcard
  have hsize := ht.2
  exact ⟨ht, by omega⟩

theorem meets_resolve (hwalk : V.card < fuel) (hfuel : D + V.card * (D + 1) ≤ fuel)
    (hs : s.Within V D) (ht : t.Within V D) :
    (resolve fuel t).Meets (confined V D) (fun _ _ ↦ True) s := by
  refine meets_bind.mpr ((meets_resolveWith hwalk hs (Memo.fits ht hfuel)).mono ?_)
  exact fun _ _ _ _ ↦ trivial

theorem meets_resolveAll {ts : List (Term σ)} (hwalk : V.card < fuel)
    (hfuel : D + V.card * (D + 1) ≤ fuel) (hs : s.Within V D) (hts : ∀ t ∈ ts, t.Within V D) :
    (resolveAll fuel ts).Meets (confined V D) (fun _ _ ↦ True) s := by
  refine meets_bind.mpr ((meets_mapState (I := fun _ s ↦ s.Within V D) (fun t ht memo s hs ↦ ?_)
    hs).mono fun _ _ _ _ ↦ trivial)
  exact (meets_resolveWith hwalk hs (Memo.fits (hts t ht) hfuel)).mono fun _ _ _ hr ↦ hr.1

/-- A set of variables that are allocated and closed under bindings, so that what is allocated from
now on is not one of them. -/
structure Store.Sealed (V : Finset Var) (D : ℕ) (s : Store σ) : Prop where
  within : s.Within V D
  allocated : ∀ v ∈ V, v.id < s.next

theorem Store.next_update (s : Store σ) (v : Var) (f : Entry σ → Entry σ) :
    (s.update v f).next = s.next := by
  unfold update save
  split <;> rfl

namespace Contract

/-- The runs that come to an end and leave the variables of `V` bound to terms over `V` of size at
most `D`, whatever they do to other variables. -/
def apart (V : Finset Var) (D : ℕ) : Contract σ where
  bind _ v t := v ∈ V → t.Within V D
  promote _ _ := True
  fresh _ := True
  failed _ _ := True
  unfinished := False

theorem Leads.next_le {K : Contract σ} (h : K.Leads s s') : s.next ≤ s'.next := by
  refine h.invariant (I := fun s' ↦ s.next ≤ s'.next) le_rfl fun r s₁ hle _ ↦ hle.trans ?_
  cases r with
  | lookup w => exact le_rfl
  | rank w => exact le_rfl
  | fresh =>
    change s₁.next ≤ s₁.fresh.2.next
    unfold Store.fresh
    split
    · exact le_rfl
    · exact Nat.le_succ _
  | bind w u => exact (s₁.next_update w _).ge
  | promote w => exact (s₁.next_update w _).ge

theorem Leads.sealed (h : (apart V D).Leads s s') (hs : s.Sealed V D) : s'.Sealed V D := by
  refine ⟨h.invariant hs.within fun r s hs hr ↦ ?_,
    fun v hv ↦ (hs.allocated v hv).trans_le h.next_le⟩
  cases r with
  | lookup w => exact hs
  | rank w => exact hs
  | fresh =>
    change s.fresh.2.Within V D
    unfold Store.fresh
    split <;> exact hs
  | bind w u => exact hs.bind hr
  | promote w => exact hs.promote w

theorem meets_apart_of_confined {α : Type} {m : Script σ Refusal α} {post : α → Store σ → Prop}
    (h : m.Meets (confined V D) post s) : m.Meets (apart V D) post s := by
  refine h.weaken (fun s r hr ↦ ?_) (fun _ _ h ↦ h) id
  cases r with
  | lookup w => exact trivial
  | rank w => exact trivial
  | fresh => exact trivial
  | bind w u => exact fun _ ↦ hr.2
  | promote w => exact trivial

theorem meets_find_apart (hs : s.Sealed V D) (ht : t.Within V D) (hfuel : V.card < fuel) :
    (find fuel t).Meets (apart V D) (fun h s' ↦ h.Within V D t ∧ s'.Sealed V D) s := by
  have hfind := meets_apart_of_confined (meets_find_confined hs.within ht hfuel)
  exact hfind.mono fun h s' hlead hh ↦ ⟨hh, hlead.sealed hs⟩

theorem meets_fresh_apart (hs : s.Sealed V D) :
    Script.fresh.Meets (apart V D) (fun v s' ↦ v ∉ V ∧ s'.Sealed V D) s := by
  refine meets_fresh trivial (fun _ _ ↦ trivial) fun _ ↦ ⟨fun hv ↦ (hs.allocated _ hv).false, ?_⟩
  exact ⟨hs.within, fun v hv ↦ Nat.lt_succ_of_lt (hs.allocated v hv)⟩

theorem meets_newVar_apart (hs : s.Sealed V D) (u : Term σ) :
    (Script.newVar u).Meets (apart V D) (fun _ s' ↦ s'.Sealed V D) s := by
  refine meets_bind.mpr ((meets_fresh_apart hs).mono fun v s₁ _ ⟨hv, hs₁⟩ ↦ meets_bind.mpr ?_)
  have hbind : (apart V D).bind s₁ v u := fun hmem ↦ absurd hmem hv
  exact meets_assign.mpr ⟨hbind, (Leads.one (.bind v u) hbind).sealed hs₁⟩

end Contract

theorem meets_renameWith (hfuel : V.card < fuel) (hs : s.Sealed V D) (h : memo.Fits V D n t) :
    (renameWith fuel n memo t).Meets (apart V D)
      (fun r s' ↦ s'.Sealed V D ∧ memo.keys ⊆ r.2.keys) s := by
  induction n generalizing memo t s with
  | zero =>
    have hsize := t.size_pos
    have hdepth := h.depth
    omega
  | succ n ih =>
    rw [renameWith, meets_bind]
    refine (meets_find_apart hs h.within hfuel).mono fun head s₁ _ ⟨hhead, hs₁⟩ ↦ ?_
    match head with
    | .shape none layer =>
      obtain rfl : t = layer.toTerm := hhead
      exact layer.meets_mapMemo memo (fun t ht memo' s hm hs ↦ ih hs (h.slot ht hm)) hs₁
    | .free v =>
      dsimp only
      cases hv : List.lookup v memo with
      | some progress =>
        cases progress with
        | started => exact trivial
        | done u => exact ⟨hs₁, subset_rfl⟩
      | none =>
        refine meets_bind.mpr ((meets_fresh_apart hs₁).mono fun copy s₂ _ h₂ ↦ ⟨h₂.2, ?_⟩)
        exact Memo.keys_subset_cons v _ memo
    | .shape (some v) layer =>
      dsimp only
      cases hv : List.lookup v memo with
      | some progress =>
        cases progress with
        | started => exact trivial
        | done u => exact ⟨hs₁, subset_rfl⟩
      | none =>
        have hslots := layer.meets_mapMemo ((v, .started) :: memo) (K := apart V D)
          (fun t ht memo' s hm hs ↦ ih hs (h.enter hhead.1 hv hhead.2 ht hm)) hs₁
        refine meets_bind.mpr (hslots.mono fun r s₂ _ hr ↦ meets_bind.mpr ?_)
        refine (meets_newVar_apart hr.1 _).mono fun copy s₃ _ h₃ ↦ ⟨h₃, ?_⟩
        exact (Memo.keys_subset_cons v _ memo).trans (hr.2.trans (Memo.keys_subset_cons v _ _))

theorem meets_renameApart (hwalk : V.card < fuel) (hfuel : D + V.card * (D + 1) ≤ fuel)
    (hs : s.Sealed V D) (ht : t.Within V D) :
    (renameApart fuel t).Meets (apart V D) (fun _ _ ↦ True) s := by
  refine meets_bind.mpr ((meets_renameWith hwalk hs (Memo.fits ht hfuel)).mono ?_)
  exact fun _ _ _ _ ↦ trivial

theorem meets_renameApartAll {ts : List (Term σ)} (hwalk : V.card < fuel)
    (hfuel : D + V.card * (D + 1) ≤ fuel) (hs : s.Sealed V D) (hts : ∀ t ∈ ts, t.Within V D) :
    (renameApartAll fuel ts).Meets (apart V D) (fun _ _ ↦ True) s := by
  refine meets_bind.mpr ((meets_mapState (I := fun _ s ↦ s.Sealed V D) (fun t ht memo s hs ↦ ?_)
    hs).mono fun _ _ _ _ ↦ trivial)
  exact (meets_renameWith hwalk hs (Memo.fits (hts t ht) hfuel)).mono fun _ _ _ hr ↦ hr.1

end Unification
