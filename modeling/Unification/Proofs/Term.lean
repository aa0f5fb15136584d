import Mathlib.Algebra.BigOperators.Group.List.Basic
import Mathlib.Algebra.GroupWithZero.Nat
import Mathlib.Algebra.Order.BigOperators.Group.List
import Mathlib.Algebra.Order.Group.Nat
import Mathlib.Data.List.Forall2
import Unification.Layer
import Unification.Term.Subst

namespace Unification.Term

variable {σ : Type}

@[elab_as_elim, induction_eliminator]
theorem induct {motive : Term σ → Prop} (var : ∀ v, motive (.var v))
    (node : ∀ f args, (∀ t ∈ args, motive t) → motive (.node f args)) : ∀ t, motive t
  | .var v => var v
  | .node f args => node f args fun t _ ↦ induct var node t

theorem substList_eq_map (θ : Var → Term σ) (ts : List (Term σ)) :
    substList θ ts = ts.map (subst θ) := by
  induction ts with
  | nil => rfl
  | cons t ts ih => rw [substList, ih, List.map_cons]

theorem varsList_eq_flatMap (ts : List (Term σ)) : varsList ts = ts.flatMap vars := by
  induction ts with
  | nil => rfl
  | cons t ts ih => rw [varsList, ih, List.flatMap_cons]

theorem sizeList_eq_sum (ts : List (Term σ)) : sizeList ts = (ts.map size).sum := by
  induction ts with
  | nil => rfl
  | cons t ts ih => rw [sizeList, ih, List.map_cons, List.sum_cons]

@[simp]
theorem subst_var (θ : Var → Term σ) (v : Var) : (var v).subst θ = θ v := rfl

@[simp]
theorem subst_node (θ : Var → Term σ) (f : σ) (args : List (Term σ)) :
    (node f args).subst θ = node f (args.map (subst θ)) := by
  rw [subst, substList_eq_map]

@[simp]
theorem mem_vars_var {v w : Var} : w ∈ (var v : Term σ).vars ↔ w = v := by
  rw [vars, List.mem_singleton]

@[simp]
theorem mem_vars_node {f : σ} {args : List (Term σ)} {w : Var} :
    w ∈ (node f args).vars ↔ ∃ t ∈ args, w ∈ t.vars := by
  rw [vars, varsList_eq_flatMap, List.mem_flatMap]

@[simp]
theorem size_var (v : Var) : (var v : Term σ).size = 1 := rfl

@[simp]
theorem size_node (f : σ) (args : List (Term σ)) :
    (node f args).size = 1 + (args.map size).sum := by
  rw [size, sizeList_eq_sum]

theorem size_pos (t : Term σ) : 0 < t.size := by
  cases t with
  | var v => exact Nat.one_pos
  | node f args => rw [size_node]; omega

theorem size_lt_of_mem {t : Term σ} {args : List (Term σ)} (f : σ) (h : t ∈ args) :
    t.size < (node f args).size := by
  have hle := List.single_le_sum (fun n _ ↦ Nat.zero_le n) _ (List.mem_map_of_mem (f := size) h)
  rw [size_node]
  omega

theorem length_vars_le_size (t : Term σ) : t.vars.length ≤ t.size := by
  induction t with
  | var v => exact le_rfl
  | node f args ih =>
    rw [vars, varsList_eq_flatMap, List.length_flatMap, size_node]
    have h := List.sum_le_sum ih
    omega

theorem subst_congr {θ η : Var → Term σ} {t : Term σ} (h : ∀ w ∈ t.vars, θ w = η w) :
    t.subst θ = t.subst η := by
  induction t with
  | var v => exact h v (mem_vars_var.mpr rfl)
  | node f args ih =>
    rw [subst_node, subst_node]
    congr 1
    refine List.map_congr_left fun t ht ↦ ih t ht fun w hw ↦ ?_
    exact h w (mem_vars_node.mpr ⟨t, ht, hw⟩)

theorem subst_subst (θ η : Var → Term σ) (t : Term σ) :
    (t.subst θ).subst η = t.subst fun v ↦ (θ v).subst η := by
  induction t with
  | var v => rfl
  | node f args ih =>
    simp only [subst_node, List.map_map]
    congr 1
    exact List.map_congr_left ih

@[simp]
theorem subst_self (t : Term σ) : t.subst var = t := by
  induction t with
  | var v => rfl
  | node f args ih =>
    rw [subst_node]
    congr 1
    exact (List.map_congr_left ih).trans args.map_id

theorem vars_subst (θ : Var → Term σ) (t : Term σ) :
    (t.subst θ).vars = t.vars.flatMap fun v ↦ (θ v).vars := by
  induction t with
  | var v => rw [subst_var, vars, List.flatMap_singleton]
  | node f args ih =>
    rw [subst_node, vars, vars, varsList_eq_flatMap, varsList_eq_flatMap, List.flatMap_map,
      List.flatMap_assoc]
    exact List.flatMap_congr ih

theorem mem_vars_subst {θ : Var → Term σ} {t : Term σ} {w : Var} :
    w ∈ (t.subst θ).vars ↔ ∃ v ∈ t.vars, w ∈ (θ v).vars := by
  rw [vars_subst, List.mem_flatMap]

theorem size_le_size_subst {θ : Var → Term σ} {t : Term σ} {w : Var} (h : w ∈ t.vars) :
    (θ w).size ≤ (t.subst θ).size := by
  induction t with
  | var v => rw [mem_vars_var.mp h, subst_var]
  | node f args ih =>
    obtain ⟨t, ht, hw⟩ := mem_vars_node.mp h
    rw [subst_node]
    exact (ih t ht hw).trans (size_lt_of_mem f (List.mem_map_of_mem ht)).le

theorem size_lt_size_subst_node {θ : Var → Term σ} {f : σ} {args : List (Term σ)} {w : Var}
    (h : w ∈ (node f args).vars) : (θ w).size < ((node f args).subst θ).size := by
  obtain ⟨t, ht, hw⟩ := mem_vars_node.mp h
  rw [subst_node]
  exact (size_le_size_subst hw).trans_lt (size_lt_of_mem f (List.mem_map_of_mem ht))

end Unification.Term

namespace Unification

variable {σ α : Type}

namespace Aligned

def left : Aligned α → α
  | .same a => a
  | .differ a _ => a

def right : Aligned α → α
  | .same a => a
  | .differ _ b => b

theorem left_of [DecidableEq α] (a b : α) : (of a b).left = a := by
  unfold of
  split <;> rfl

theorem right_of [DecidableEq α] (a b : α) : (of a b).right = b := by
  unfold of
  split
  · assumption
  · rfl

theorem map_left_zipWith [DecidableEq α] {l r : List α} (h : l.length = r.length) :
    (List.zipWith of l r).map left = l := by
  induction l generalizing r with
  | nil => rfl
  | cons a l ih =>
    cases r with
    | nil => cases h
    | cons b r =>
      rw [List.zipWith_cons_cons, List.map_cons, left_of, ih (Nat.succ.inj h)]

theorem map_right_zipWith [DecidableEq α] {l r : List α} (h : l.length = r.length) :
    (List.zipWith of l r).map right = r := by
  induction l generalizing r with
  | nil => exact (List.length_eq_zero_iff.mp h.symm).symm
  | cons a l ih =>
    cases r with
    | nil => cases h
    | cons b r =>
      rw [List.zipWith_cons_cons, List.map_cons, right_of, ih (Nat.succ.inj h)]

end Aligned

namespace Layer

theorem toTerm_injective : Function.Injective (toTerm : Layer σ (Term σ) → Term σ) := by
  rintro ⟨f, ts⟩ ⟨g, us⟩ h
  obtain ⟨rfl, rfl⟩ := Term.node.inj h
  rfl

variable [DecidableEq σ] [DecidableEq α] {l r : Layer σ α}

theorem align?_eq_some {a : Layer σ (Aligned α)} (h : l.align? r = some a) :
    l.symbol = a.symbol ∧ r.symbol = a.symbol ∧
      a.slots.map Aligned.left = l.slots ∧ a.slots.map Aligned.right = r.slots := by
  unfold align? at h
  split at h
  · rename_i hlr
    obtain rfl := Option.some.inj h
    exact ⟨rfl, hlr.1.symm, Aligned.map_left_zipWith hlr.2, Aligned.map_right_zipWith hlr.2⟩
  · cases h

theorem symbol_eq {a : Layer σ (Aligned α)} (h : l.align? r = some a) : l.symbol = r.symbol :=
  (align?_eq_some h).1.trans (align?_eq_some h).2.1.symm

theorem left_mem {a : Layer σ (Aligned α)} {x : Aligned α} (h : l.align? r = some a)
    (hx : x ∈ a.slots) : x.left ∈ l.slots := by
  obtain ⟨-, -, hleft, -⟩ := align?_eq_some h
  exact hleft ▸ List.mem_map_of_mem hx

theorem right_mem {a : Layer σ (Aligned α)} {x : Aligned α} (h : l.align? r = some a)
    (hx : x ∈ a.slots) : x.right ∈ r.slots := by
  obtain ⟨-, -, -, hright⟩ := align?_eq_some h
  exact hright ▸ List.mem_map_of_mem hx

theorem mem_zip_slots {a : Layer σ (Aligned α)} {x : Aligned α} (h : l.align? r = some a)
    (hx : x ∈ a.slots) : (x.left, x.right) ∈ l.slots.zip r.slots := by
  obtain ⟨-, -, hleft, hright⟩ := align?_eq_some h
  rw [← hleft, ← hright, List.zip_map']
  exact List.mem_map_of_mem hx

theorem length_slots_eq {a : Layer σ (Aligned α)} (h : l.align? r = some a) :
    l.slots.length = r.slots.length := by
  obtain ⟨-, -, hleft, hright⟩ := align?_eq_some h
  rw [← hleft, ← hright, List.length_map, List.length_map]

theorem forall₂_slots_iff {R : α → α → Prop} {a : Layer σ (Aligned α)} (h : l.align? r = some a) :
    List.Forall₂ R l.slots r.slots ↔ ∀ x ∈ a.slots, R x.left x.right := by
  obtain ⟨-, -, hleft, hright⟩ := align?_eq_some h
  rw [← hleft, ← hright, List.forall₂_map_left_iff, List.forall₂_map_right_iff, List.forall₂_same]

theorem align?_self (l : Layer σ α) : l.align? l = some ⟨l.symbol, l.slots.map .same⟩ := by
  have hslots : List.zipWith Aligned.of l.slots l.slots = l.slots.map .same := by
    rw [List.zipWith_self]
    exact List.map_congr_left fun a _ ↦ if_pos rfl
  rw [align?, if_pos ⟨rfl, rfl⟩, hslots]

theorem align?_ne_none (hs : l.symbol = r.symbol) (hl : l.slots.length = r.slots.length) :
    l.align? r ≠ none := by
  unfold align?
  rw [if_pos ⟨hs, hl⟩]
  exact Option.some_ne_none _

section Subst

variable {l r : Layer σ (Term σ)} {θ : Var → Term σ}

omit [DecidableEq σ] in
theorem subst_eq_iff : l.toTerm.subst θ = r.toTerm.subst θ ↔
    l.symbol = r.symbol ∧ l.slots.map (Term.subst θ) = r.slots.map (Term.subst θ) := by
  simp only [toTerm, Term.subst_node, Term.node.injEq]

theorem align?_ne_none_of_subst_eq (h : l.toTerm.subst θ = r.toTerm.subst θ) :
    l.align? r ≠ none := by
  obtain ⟨hsym, hmap⟩ := subst_eq_iff.mp h
  apply align?_ne_none hsym
  simpa using congrArg List.length hmap

theorem subst_slot_eq {a : Layer σ (Aligned (Term σ))} {x : Aligned (Term σ)}
    (ha : l.align? r = some a) (hx : x ∈ a.slots) (h : l.toTerm.subst θ = r.toTerm.subst θ) :
    x.left.subst θ = x.right.subst θ := by
  obtain ⟨-, -, hleft, hright⟩ := align?_eq_some ha
  have hmap := (subst_eq_iff.mp h).2
  rw [← hleft, ← hright, List.map_map, List.map_map] at hmap
  exact List.map_inj_left.mp hmap x hx

theorem size_subst_slot_lt {a : Layer σ (Aligned (Term σ))} {x : Aligned (Term σ)}
    (ha : l.align? r = some a) (hx : x ∈ a.slots) (θ : Var → Term σ) :
    (x.left.subst θ).size < (l.toTerm.subst θ).size := by
  rw [toTerm, Term.subst_node]
  apply Term.size_lt_of_mem
  exact List.mem_map_of_mem (left_mem ha hx)

theorem size_subst_right_lt {a : Layer σ (Aligned (Term σ))} {x : Aligned (Term σ)}
    (ha : l.align? r = some a) (hx : x ∈ a.slots) (θ : Var → Term σ) :
    (x.right.subst θ).size < (r.toTerm.subst θ).size := by
  rw [toTerm, Term.subst_node]
  apply Term.size_lt_of_mem
  exact List.mem_map_of_mem (right_mem ha hx)

end Subst

end Layer

end Unification
