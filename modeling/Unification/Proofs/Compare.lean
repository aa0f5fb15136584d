import Unification.Proofs.Prune
import Unification.Subsume

namespace Unification

open Script Contract

variable {σ : Type} {s : Store σ} {V : Finset Var} {D n fuel : ℕ} {path path' : List Var}
  {t u : Term σ} {v w : Option Var} {l r : Layer σ (Term σ)} {paths : Paths}

structure Inside (V : Finset Var) (path : List Var) : Prop where
  nodup : path.Nodup
  mem : ∀ x ∈ path, x ∈ V

theorem Inside.nil (V : Finset Var) : Inside V [] := ⟨List.nodup_nil, nofun⟩

inductive Stepped (V : Finset Var) (path : List Var) (t : Term σ) (layer : Layer σ (Term σ)) :
    List Var → Prop
  | literal : t = layer.toTerm → Stepped V path t layer path
  | bound {path' : List Var} : V.card - path'.length + 1 = V.card - path.length →
      Stepped V path t layer path'

theorem Stepped.le (h : Stepped V path t l path') :
    V.card - path'.length ≤ V.card - path.length := by
  cases h with
  | literal _ => exact le_rfl
  | bound h => omega

theorem Head.shape_within (hh : (Head.shape v l).Within V D t) (ht : t.Within V D) :
    l.toTerm.Within V D := by
  cases v with
  | none =>
    obtain rfl : t = l.toTerm := hh
    exact ht
  | some v => exact hh.2

theorem meets_stepInto_confined (hp : Inside V path) (hh : (Head.shape v l).Within V D t) :
    (stepInto path v l).Meets (confined V D)
      (fun path' s' ↦ s' = s ∧ Inside V path' ∧ Stepped V path t l path') s := by
  cases v with
  | none => exact ⟨rfl, hp, .literal hh⟩
  | some x =>
    rw [meets_stepInto]
    by_cases hx : x ∈ path
    · rw [if_pos hx]
      exact trivial
    · rw [if_neg hx]
      have hinside : Inside V (x :: path) :=
        ⟨List.nodup_cons.mpr ⟨hx, hp.nodup⟩, List.forall_mem_cons.mpr ⟨hh.1, hp.mem⟩⟩
      have hlen := length_le_card hinside.nodup hinside.mem
      rw [List.length_cons] at hlen
      refine ⟨rfl, hinside, .bound ?_⟩
      rw [List.length_cons]
      omega

/-- A pair of terms that can be walked side by side within the recursion depth `n`. Each side enters
a variable of `V` at most once, and in between the left term gets smaller. -/
structure Abreast (V : Finset Var) (D n : ℕ) (paths : Paths) (t u : Term σ) : Prop where
  left : t.Within V D
  right : u.Within V D
  leftPath : Inside V paths.left
  rightPath : Inside V paths.right
  depth : (V.card - paths.left.length + (V.card - paths.right.length)) * (D + 1) + t.size ≤ n

theorem Abreast.top (ht : t.Within V D) (hu : u.Within V D)
    (hn : D + 2 * (V.card * (D + 1)) ≤ n) : Abreast V D n {} t u := by
  refine ⟨ht, hu, .nil V, .nil V, ?_⟩
  have hsize := ht.2
  simp only [List.length_nil, Nat.sub_zero, Nat.add_mul]
  omega

theorem Abreast.slot {left right : List Var} (h : Abreast V D (n + 1) paths t u)
    (hl : l.toTerm.Within V D) (hr : r.toTerm.Within V D) (hleft : Inside V left)
    (hright : Inside V right) (hstepl : Stepped V paths.left t l left)
    (hstepr : Stepped V paths.right u r right) {t' u' : Term σ} (ht' : t' ∈ l.slots)
    (hu' : u' ∈ r.slots) : Abreast V D n ⟨left, right⟩ t' u' := by
  refine ⟨hl.slot ht', hr.slot hu', hleft, hright, ?_⟩
  have hdepth := h.depth
  have hle := hstepr.le
  -- A step of the right side into a binding only leaves more room, so the left side decides.
  cases hstepl with
  | literal ht =>
    have hlt : t'.size < l.toTerm.size := Term.size_lt_of_mem l.symbol ht'
    have hmul := Nat.mul_le_mul_right (D + 1)
      (Nat.add_le_add_left hle (V.card - paths.left.length))
    rw [ht] at hdepth
    dsimp only
    omega
  | bound hlen =>
    have hsize := (hl.slot ht').2
    have hmul : (V.card - left.length + (V.card - right.length) + 1) * (D + 1) ≤
        (V.card - paths.left.length + (V.card - paths.right.length)) * (D + 1) :=
      Nat.mul_le_mul_right (D + 1) (by omega)
    rw [Nat.add_mul _ 1] at hmul
    dsimp only
    omega

variable [DecidableEq σ]

theorem meets_pathsStepInto (h : Abreast V D (n + 1) paths t u)
    (hl : (Head.shape v l).Within V D t) (hr : (Head.shape w r).Within V D u) :
    (paths.stepInto v l w r).Meets (confined V D)
      (fun paths' s' ↦ s' = s ∧ ∀ a, l.align? r = some a →
        ∀ x ∈ a.slots, Abreast V D n paths' x.left x.right) s := by
  refine meets_bind.mpr ((meets_stepInto_confined h.leftPath hl).mono ?_)
  rintro left s₁ - ⟨rfl, hleft, hstepl⟩
  refine meets_bind.mpr ((meets_stepInto_confined h.rightPath hr).mono ?_)
  rintro right s₂ - ⟨rfl, hright, hstepr⟩
  refine ⟨rfl, fun a ha x hx ↦ ?_⟩
  exact h.slot (Head.shape_within hl h.left) (Head.shape_within hr h.right) hleft hright hstepl
    hstepr (Layer.left_mem ha hx) (Layer.right_mem ha hx)

theorem meets_compareWith {criterion : Criterion} {ρ : Renaming} (hfuel : V.card < fuel)
    (hs : s.Within V D) (h : Abreast V D n paths t u) :
    (compareWith criterion fuel n paths ρ t u).Meets (confined V D)
      (fun _ s' ↦ s'.Within V D) s := by
  induction n generalizing paths ρ t u s with
  | zero =>
    have hsize := t.size_pos
    have hdepth := h.depth
    omega
  | succ n ih =>
    rw [compareWith, meets_bind]
    refine (meets_peek_confined hs h.left hfuel).mono fun l s₁ h₁ hl ↦ meets_bind.mpr ?_
    have hs₁ := h₁.within hs
    refine (meets_peek_confined hs₁ h.right hfuel).mono fun r s₂ h₂ hr ↦ ?_
    have hs₂ := h₂.within hs₁
    match l, r with
    | .free v, .free w => exact hs₂
    | .free v, .shape w r => exact hs₂
    | .shape v l, .free w => exact hs₂
    | .shape v l, .shape w r =>
      dsimp only
      split
      · exact hs₂
      refine meets_bind.mpr ((meets_pathsStepInto h hl hr).mono ?_)
      rintro paths' s₃ - ⟨rfl, hslots⟩
      cases ha : l.align? r with
      | none => exact hs₂
      | some aligned =>
        refine meets_foldWhile (fun x hx ρ s hs ↦ ?_) hs₂
        have hfit := hslots aligned ha x hx
        cases x with
        | same t =>
          cases criterion with
          | identical => exact hs
          | renamed => exact ih hs hfit
        | differ t u => exact ih hs hfit

theorem meets_subsumesBelow (hfuel : V.card < fuel) (hs : s.Within V D)
    (h : Abreast V D n paths t u) :
    (subsumesBelow fuel n paths t u).Meets (confined V D) (fun _ s' ↦ s'.Within V D) s := by
  induction n generalizing paths t u s with
  | zero =>
    have hsize := t.size_pos
    have hdepth := h.depth
    omega
  | succ n ih =>
    rw [subsumesBelow, meets_bind]
    refine (meets_find_confined hs h.left hfuel).mono fun l s₁ h₁ hl ↦ meets_bind.mpr ?_
    have hs₁ := h₁.within hs
    refine (meets_find_confined hs₁ h.right hfuel).mono fun r s₂ h₂ hr ↦ ?_
    have hs₂ := h₂.within hs₁
    match l, r with
    | .free v, r =>
      refine meets_bind.mpr (meets_when.mpr ?_)
      split
      · have hterm := Head.within_toTerm hr h.right
        exact meets_assign.mpr ⟨⟨hl, hterm⟩, hs₂.bind fun _ ↦ hterm⟩
      · exact hs₂
    | .shape v l, .free w => exact hs₂
    | .shape v l, .shape w r =>
      dsimp only
      split
      · exact hs₂
      refine meets_bind.mpr ((meets_pathsStepInto h hl hr).mono ?_)
      rintro paths' s₃ - ⟨rfl, hslots⟩
      cases ha : l.align? r with
      | none => exact hs₂
      | some aligned =>
        refine meets_bind.mpr (meets_foldWhile (fun x hx _ s hs ↦ ?_) hs₂)
        have hfit := hslots aligned ha x hx
        cases x with
        | same t => exact hs
        | differ t u => exact meets_bind.mpr (ih hs hfit)

end Unification
