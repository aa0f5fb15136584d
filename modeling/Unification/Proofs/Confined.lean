import Unification.Proofs.Contract

namespace Unification

variable {σ : Type} {V : Finset Var} {D : ℕ}

def Term.Within (V : Finset Var) (D : ℕ) (t : Term σ) : Prop :=
  (∀ w ∈ t.vars, w ∈ V) ∧ t.size ≤ D

def Store.Within (V : Finset Var) (D : ℕ) (s : Store σ) : Prop :=
  ∀ v ∈ V, ∀ t, s.binding v = some t → t.Within V D

theorem Term.Within.mem {v : Var} (h : (var v : Term σ).Within V D) : v ∈ V :=
  h.1 v (mem_vars_var.mpr rfl)

theorem Term.Within.slot {f : σ} {args : List (Term σ)} {t : Term σ}
    (h : (node f args).Within V D) (ht : t ∈ args) : t.Within V D :=
  ⟨fun w hw ↦ h.1 w (mem_vars_node.mpr ⟨t, ht, hw⟩), (size_lt_of_mem f ht).le.trans h.2⟩

theorem Term.within_var {v : Var} (hv : v ∈ V) (hD : 0 < D) : (var v : Term σ).Within V D :=
  ⟨fun _ hw ↦ mem_vars_var.mp hw ▸ hv, hD⟩

theorem length_le_card {l : List Var} (h : l.Nodup) (hl : ∀ x ∈ l, x ∈ V) : l.length ≤ V.card := by
  rw [← List.toFinset_card_of_nodup h]
  exact Finset.card_le_card fun x hx ↦ hl x (List.mem_toFinset.mp hx)

theorem Store.Within.bind {s : Store σ} {v : Var} {t : Term σ} (hs : s.Within V D)
    (ht : v ∈ V → t.Within V D) : (s.bind v t).Within V D := by
  intro w hw u hu
  rw [binding_bind] at hu
  split at hu
  · rename_i hwv
    obtain rfl : t = u := by simpa using hu
    exact ht (hwv ▸ hw)
  · exact hs w hw u hu

theorem Store.Within.promote {s : Store σ} (hs : s.Within V D) (v : Var) :
    (s.promote v).Within V D := by
  intro w hw u hu
  rw [binding_promote] at hu
  exact hs w hw u hu

namespace Contract

/-- The runs that come to an end and write to the variables of `V` only, and there only terms over
`V` of size at most `D`. -/
def confined (V : Finset Var) (D : ℕ) : Contract σ where
  bind _ v t := v ∈ V ∧ t.Within V D
  promote _ v := v ∈ V
  fresh _ := False
  failed _ _ := True
  unfinished := False

theorem Leads.within {s s' : Store σ} (h : (confined V D).Leads s s') (hs : s.Within V D) :
    s'.Within V D := by
  refine h.invariant hs fun r s hs hr ↦ ?_
  cases r with
  | lookup w => exact hs
  | rank w => exact hs
  | fresh => exact hr.elim
  | bind w u => exact hs.bind fun _ ↦ hr.2
  | promote w => exact hs.promote w

end Contract

namespace Store

variable {s : Store σ} {ts : List (Term σ)} {t : Term σ}

def scope (s : Store σ) (ts : List (Term σ)) : Finset Var :=
  (s.entries.toList.flatMap (fun e ↦ ⟨e.1⟩ :: e.2.binding.elim [] Term.vars) ++
    Term.varsList ts).toFinset

theorem weight_eq_sum (s : Store σ) : s.weight = (s.entries.toList.map fun e ↦ e.2.weight).sum := by
  rw [weight]
  induction s.entries.toList with
  | nil => rfl
  | cons e l ih => rw [List.foldr_cons, ih, List.map_cons, List.sum_cons]

theorem card_scope_le (s : Store σ) (ts : List (Term σ)) :
    (s.scope ts).card ≤ s.weight + Term.sizeList ts := by
  refine (List.toFinset_card_le _).trans ?_
  rw [List.length_append, Term.varsList_eq_flatMap, List.length_flatMap, List.length_flatMap,
    weight_eq_sum, Term.sizeList_eq_sum]
  refine Nat.add_le_add (List.sum_le_sum fun e _ ↦ ?_) (List.sum_le_sum fun t _ ↦ ?_)
  · rw [List.length_cons, Entry.weight]
    cases e.2.binding with
    | none => exact le_rfl
    | some t =>
      have h := t.length_vars_le_size
      simp only [Option.elim_some]
      omega
  · exact t.length_vars_le_size

theorem within_scope_of_mem (s : Store σ) (ht : t ∈ ts) :
    t.Within (s.scope ts) (s.weight + Term.sizeList ts) := by
  constructor
  · intro w hw
    rw [scope, List.mem_toFinset, List.mem_append, Term.varsList_eq_flatMap]
    exact .inr (List.mem_flatMap.mpr ⟨t, ht, hw⟩)
  · have hle := List.single_le_sum (fun n _ ↦ Nat.zero_le n) _
      (List.mem_map_of_mem (f := Term.size) ht)
    rw [Term.sizeList_eq_sum]
    omega

theorem within_scope (s : Store σ) (ts : List (Term σ)) :
    s.Within (s.scope ts) (s.weight + Term.sizeList ts) := by
  intro v _ t ht
  obtain ⟨e, he, hb⟩ := entry_eq_of_binding ht
  have hmem := Std.ExtTreeMap.mem_toList_iff_getElem?_eq_some.mpr he
  constructor
  · intro w hw
    rw [scope, List.mem_toFinset, List.mem_append]
    refine .inl (List.mem_flatMap.mpr ⟨(v.id, e), hmem, List.mem_cons_of_mem _ ?_⟩)
    rwa [hb]
  · have hle := List.single_le_sum (fun n _ ↦ Nat.zero_le n) _
      (List.mem_map_of_mem (f := fun e : ℕ × Entry σ ↦ e.2.weight) hmem)
    simp only [Entry.weight, hb, Option.elim_some] at hle
    rw [weight_eq_sum]
    simp only [Entry.weight]
    omega

end Store

end Unification
