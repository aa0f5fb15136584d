import Unification.Proofs.Resolution
import Unification.Subsume

namespace Unification

open Relation Script Contract

variable {σ : Type} {s s' s'' : Store σ} {t t' u u' x : Term σ} {v w : Var}
  {θ δ : Var → Term σ} {Θ : (Var → Term σ) → Prop} {eager : Bool}

namespace Term

/-- When two terms are laid over each other, the variable of the left one covers the part `x` of the
right one. -/
inductive Faces : Term σ → Term σ → Var → Term σ → Prop
  | var (v : Var) (u : Term σ) : Faces (.var v) u v u
  | node (f : σ) {ts us : List (Term σ)} {t u : Term σ} {v : Var} {x : Term σ} :
      ts.length = us.length → (t, u) ∈ ts.zip us → Faces t u v x →
      Faces (.node f ts) (.node f us) v x

theorem Faces.mem_vars (h : Faces t u v x) : v ∈ t.vars := by
  induction h with
  | var v u => exact mem_vars_var.mpr rfl
  | node f _ hmem _ ih => exact mem_vars_node.mpr ⟨_, (List.of_mem_zip hmem).1, ih⟩

theorem Faces.apply_eq (h : Faces t u v x) (he : t.subst θ = u) : θ v = x := by
  induction h with
  | var v u => exact he
  | @node f ts us t u v x _ hmem _ ih =>
    rw [subst_node] at he
    obtain ⟨-, rfl⟩ := node.inj he
    have hslots : List.Forall₂ (fun t u ↦ t.subst θ = u) ts (ts.map (subst θ)) :=
      List.forall₂_map_right_iff.mpr (List.forall₂_same.mpr fun _ _ ↦ rfl)
    exact ih (List.forall₂_zip hslots hmem)

theorem Faces.of_subst (h : Faces (t.subst δ) u v x) :
    ∃ w y, Faces t u w y ∧ Faces (δ w) y v x := by
  induction t generalizing u with
  | var w => exact ⟨w, u, .var w u, h⟩
  | node f ts ih =>
    rw [subst_node] at h
    cases h with
    | node _ hlen hmem h =>
      rw [List.zip_map_left] at hmem
      obtain ⟨⟨t, u⟩, hzip, he⟩ := List.mem_map.mp hmem
      cases he
      obtain ⟨w, y, hw, hy⟩ := ih t (List.of_mem_zip hzip).1 h
      exact ⟨w, y, .node f (by rwa [List.length_map] at hlen) hzip hw, hy⟩

end Term

namespace Store

def Spares (θ : Var → Term σ) (s s' : Store σ) : Prop :=
  ∀ w, s.binding w = none → θ w = .var w → s'.binding w = none

theorem Spares.refl (θ : Var → Term σ) (s : Store σ) : s.Spares θ s := fun _ h _ ↦ h

theorem Spares.trans (h : s.Spares θ s') (h' : s'.Spares θ s'') : s.Spares θ s'' :=
  fun w hw hθ ↦ h' w (h w hw hθ) hθ

theorem KeepsEnds.spares (h : s.KeepsEnds s') (θ : Var → Term σ) : s.Spares θ s' := by
  intro w hw _
  rw [h w (not_links_of_binding (o := none) hw), hw]

/-- A solution of the store puts in what the variables of the left term cover, and leaves the
variables of the right term alone. -/
structure Suits (s : Store σ) (θ : Var → Term σ) (t u : Term σ) : Prop where
  solved : s.SolvedBy θ
  covers : ∀ v x, Term.Faces (s.resolved t) (s.resolved u) v x → θ v = x
  fixes : ∀ w ∈ (s.resolved u).vars, θ w = .var w

namespace Suits

theorem congr (h : s.Suits θ t u) (hs : s.Acyclic) (ht : s.Alike t t') (hu : s.Alike u u') :
    s.Suits θ t' u' := by
  obtain ⟨hsolved, hcovers, hfixes⟩ := h
  rw [resolved_eq_of_alike hs hu] at hcovers hfixes
  rw [resolved_eq_of_alike hs ht] at hcovers
  exact ⟨hsolved, hcovers, hfixes⟩

theorem subst_eq (h : s.Suits θ t u) : u.subst θ = s.resolved u := by
  rw [← h.solved.subst_resolved, Term.subst_congr h.fixes, Term.subst_self]

theorem after (h : s.Suits θ t u) (hs : s.Chained) (hlead : (faithful eager Θ).Leads s s')
    (hθ : Θ θ) (hspares : s.Spares θ s') : s'.Suits θ t u := by
  have hacyclic := h.solved.acyclic hs
  have hsolved := hlead.solvedBy hs hθ h.solved
  have hacyclic' := hsolved.acyclic (hlead.chained hs)
  have hresolved : ∀ x, s'.resolved x = (s.resolved x).subst fun v ↦ s'.resolved (.var v) := by
    intro x
    have hbefore := hlead.solved_before hs hacyclic'.solvedBy_resolved
    rw [hbefore.subst_resolved, ← resolved_eq_subst]
  have hright : s'.resolved u = s.resolved u := by
    rw [hresolved]
    refine (Term.subst_congr fun w hw ↦ ?_).trans (Term.subst_self _)
    exact resolved_of_free (hspares w (free_of_mem_resolved hacyclic hw) (h.fixes w hw))
  refine ⟨hsolved, fun v x hx ↦ ?_, fun w hw ↦ h.fixes w (hright ▸ hw)⟩
  rw [hright, hresolved] at hx
  obtain ⟨w, y, hy, hx⟩ := hx.of_subst
  refine hx.apply_eq ?_
  rw [hsolved.subst_resolved, Term.subst_var]
  exact h.covers w y hy

theorem slot [DecidableEq σ] {l r : Layer σ (Term σ)} {a : Layer σ (Aligned (Term σ))}
    {x : Aligned (Term σ)} (h : s.Suits θ l.toTerm r.toTerm) (ha : l.align? r = some a)
    (hx : x ∈ a.slots) : s.Suits θ x.left x.right := by
  obtain ⟨hsolved, hcovers, hfixes⟩ := h
  obtain ⟨hl, hr, -, -⟩ := Layer.align?_eq_some ha
  rw [Layer.toTerm, resolved_node] at hcovers hfixes
  refine ⟨hsolved, fun v y hy ↦ hcovers v y ?_, fun w hw ↦ hfixes w ?_⟩
  · rw [Layer.toTerm, resolved_node, hl, hr]
    refine .node _ ?_ ?_ hy
    · rw [List.length_map, List.length_map, Layer.length_slots_eq ha]
    · rw [List.zip_map]
      exact List.mem_map_of_mem (Layer.mem_zip_slots ha hx)
  · exact Term.mem_vars_node.mpr ⟨_, List.mem_map_of_mem (Layer.right_mem ha hx), hw⟩

end Suits

end Store

theorem Head.Shows.eq_free {h : Head σ} (hh : h.Shows s u) (hs : s.Acyclic)
    (hu : s.resolved u = .var v) : h = .free v := by
  rw [Store.resolved_eq_of_alike hs (hh.alike_tip hs.chained)] at hu
  match h with
  | .free w =>
    rw [Head.tip, Store.resolved_of_free hh.1] at hu
    rw [Term.var.inj hu]
  | .shape via layer =>
    rw [Head.tip, Layer.toTerm, Store.resolved_node] at hu
    cases hu

/-- The variables that are walked stand for more than the terms that are met below them. -/
structure Paths.Exceed (paths : Paths) (θ : Var → Term σ) (t u : Term σ) : Prop where
  left : ∀ x ∈ paths.left, (t.subst θ).size < (θ x).size
  right : ∀ x ∈ paths.right, (u.subst θ).size < (θ x).size

theorem Paths.Exceed.nil (θ : Var → Term σ) (t u : Term σ) : Paths.Exceed {} θ t u :=
  ⟨fun _ hx ↦ absurd hx List.not_mem_nil, fun _ hx ↦ absurd hx List.not_mem_nil⟩

theorem meets_stepInto_faithful {path : List Var} {via : Option Var} {layer : Layer σ (Term σ)}
    (hs : s.Chained) (hh : (Head.shape via layer).Shows s t) (hsol : ∀ θ, Θ θ → s.SolvedBy θ)
    (hpath : ∀ θ, Θ θ → ∀ x ∈ path, (t.subst θ).size < (θ x).size) :
    (stepInto path via layer).Meets (faithful eager Θ) (fun path' s' ↦ s' = s ∧
      ∀ θ, Θ θ → ∀ x ∈ path', (layer.toTerm.subst θ).size ≤ (θ x).size) s := by
  have hlayer : ∀ θ, Θ θ → t.subst θ = layer.toTerm.subst θ :=
    fun θ hθ ↦ (hsol θ hθ).subst_eq_of_alike hs (hh.alike_tip hs)
  cases via with
  | none => exact ⟨rfl, fun θ hθ x hx ↦ hlayer θ hθ ▸ (hpath θ hθ x hx).le⟩
  | some v =>
    have hv : ∀ θ, Θ θ → t.subst θ = θ v :=
      fun θ hθ ↦ (hsol θ hθ).subst_eq_of_alike hs hh.alike
    rw [meets_stepInto]
    split
    · rename_i hmem
      intro θ hθ
      exact absurd (hpath θ hθ v hmem) (by rw [hv θ hθ]; exact lt_irrefl _)
    · refine ⟨rfl, fun θ hθ ↦ List.forall_mem_cons.mpr ⟨?_, fun x hx ↦ ?_⟩⟩
      · rw [← hlayer θ hθ, hv θ hθ]
      · exact hlayer θ hθ ▸ (hpath θ hθ x hx).le

/-- What is known after matching: an answer of yes has made the terms alike, and no solution in `Θ`
is an answer to a no. The variables that are left alone stay free in any case. -/
structure Store.Judged (Θ : (Var → Term σ) → Prop) (s : Store σ) (t u : Term σ) (b : Bool)
    (s' : Store σ) : Prop where
  alike : b = true → s'.Alike t u
  differ : b = false → ∀ θ, Θ θ → t.subst θ ≠ u.subst θ
  spares : ∀ θ, Θ θ → s.Spares θ s'

theorem Store.Judged.of_spares {b : Bool} (h : s''.Judged Θ t u b s')
    (hspares : ∀ θ, Θ θ → s.Spares θ s'') : s.Judged Θ t u b s' :=
  ⟨h.alike, h.differ, fun θ hθ ↦ (hspares θ hθ).trans (h.spares θ hθ)⟩

theorem Store.Judged.congr {b : Bool} (h : s.Judged Θ t' u' b s') (hs : s.Chained)
    (hlead : (faithful eager Θ).Leads s s') (hsol : ∀ θ, Θ θ → s.SolvedBy θ) (ht : s.Alike t t')
    (hu : s.Alike u u') : s.Judged Θ t u b s' := by
  refine ⟨fun hb ↦ ?_, fun hb θ hθ he ↦ h.differ hb θ hθ ?_, h.spares⟩
  · exact (hlead.alike hs ht).trans ((h.alike hb).trans (hlead.alike hs hu).symm)
  · rwa [← (hsol θ hθ).subst_eq_of_alike hs ht, ← (hsol θ hθ).subst_eq_of_alike hs hu]

variable [DecidableEq σ] {l r : Layer σ (Term σ)} {via via' : Option Var} {paths : Paths}
  {n fuel : ℕ}

theorem meets_pathsStepInto_faithful (hs : s.Chained) (hl : (Head.shape via l).Shows s t)
    (hr : (Head.shape via' r).Shows s u) (hsol : ∀ θ, Θ θ → s.SolvedBy θ)
    (hpaths : ∀ θ, Θ θ → paths.Exceed θ t u) :
    (paths.stepInto via l via' r).Meets (faithful eager Θ) (fun paths' s' ↦ s' = s ∧
      ∀ a, l.align? r = some a → ∀ x ∈ a.slots, ∀ θ, Θ θ → paths'.Exceed θ x.left x.right) s := by
  refine meets_bind.mpr ((meets_stepInto_faithful hs hl hsol
    fun θ hθ ↦ (hpaths θ hθ).left).mono ?_)
  rintro left s₁ - ⟨rfl, hleft⟩
  refine meets_bind.mpr ((meets_stepInto_faithful hs hr hsol
    fun θ hθ ↦ (hpaths θ hθ).right).mono ?_)
  rintro right s₂ - ⟨rfl, hright⟩
  refine ⟨rfl, fun a ha x hx θ hθ ↦ ⟨fun y hy ↦ ?_, fun y hy ↦ ?_⟩⟩
  · exact (Layer.size_subst_slot_lt ha hx θ).trans_le (hleft θ hθ y hy)
  · exact (Layer.size_subst_right_lt ha hx θ).trans_le (hright θ hθ y hy)

theorem meets_assign_covered {r : Head σ} (hs : s.Chained) (hv : s.binding v = none)
    (hr : r.Shows s u) (hfit : ∀ θ, Θ θ → s.Suits θ (.var v) u) :
    (Script.when (r ≠ .free v) (Script.assign v r.toTerm)).Meets (faithful false Θ)
      (fun _ s' ↦ s'.Alike (.var v) u ∧ ∀ θ, Θ θ → s.Spares θ s') s := by
  rw [meets_when]
  split
  · rename_i hne
    have htarget := hr.target hv (of_decide_eq_true hne)
    have hcover : ∀ θ, Θ θ → θ v = s.resolved u := by
      intro θ hθ
      refine (hfit θ hθ).covers v _ ?_
      rw [Store.resolved_of_free hv]
      exact .var v _
    refine meets_assign.mpr ⟨faithful_decide htarget hv nofun fun θ hθ ↦ ?_, ?_, ?_⟩
    · rw [← (hfit θ hθ).solved.subst_eq_of_alike hs hr.alike, (hfit θ hθ).subst_eq, hcover θ hθ]
    · exact (Store.alike_bind_self hs htarget).trans (hr.alike.bind hs htarget (.inl hv)).symm
    · intro θ hθ w hw hfix
      rw [Store.binding_bind, if_neg]
      · exact hw
      · rintro rfl
        refine of_decide_eq_true hne (hr.eq_free ((hfit θ hθ).solved.acyclic hs) ?_)
        rw [← hcover θ hθ, hfix]
  · rename_i hne
    obtain rfl : r = .free v := by simpa using hne
    exact ⟨hr.alike.symm, fun θ _ ↦ .refl θ s⟩

theorem meets_matchSlots {recurse : Term σ → Term σ → Script σ Refusal Bool}
    {a : Layer σ (Aligned (Term σ))} (ha : l.align? r = some a) (hs : s.Chained)
    (hfit : ∀ θ, Θ θ → s.Suits θ l.toTerm r.toTerm)
    (hrec : ∀ x ∈ a.slots, ∀ s', s'.Chained → (∀ θ, Θ θ → s'.Suits θ x.left x.right) →
      (recurse x.left x.right).Meets (faithful false Θ) (s'.Judged Θ x.left x.right) s') :
    (foldWhile (fun () x ↦ match x with
      | .same _ => .pure (some ())
      | .differ t u => do
        let b ← recurse t u
        return if b then some () else none) () a.slots).Meets (faithful false Θ)
      (fun o s' ↦ s.Judged Θ l.toTerm r.toTerm o.isSome s') s := by
  refine (meets_foldWhile_done (I := fun done _ s' ↦ (faithful false Θ).Leads s s' ∧
      (∀ x ∈ done, s'.Alike x.left x.right) ∧ ∀ θ, Θ θ → s.Spares θ s')
    (P := fun s' ↦ (∀ θ, Θ θ → l.toTerm.subst θ ≠ r.toTerm.subst θ) ∧ ∀ θ, Θ θ → s.Spares θ s')
    (fun done x rest hslots _ s₁ ⟨hlead, halike, hspares⟩ ↦ ?_)
    ⟨.refl, nofun, fun θ _ ↦ .refl θ s⟩).mono fun o s' _ h ↦ ?_
  · cases o with
    | none => exact ⟨nofun, fun _ ↦ h.1, h.2⟩
    | some _ =>
      obtain ⟨-, halike, hspares⟩ := h
      refine ⟨fun _ ↦ Layer.alike_toTerm_iff.mpr ⟨Layer.symbol_eq ha, ?_⟩, nofun, hspares⟩
      exact (Layer.forall₂_slots_iff ha).mpr halike
  · have hx : x ∈ a.slots := by simp [hslots]
    have hs₁ := hlead.chained hs
    cases x with
    | same t =>
      refine ⟨hlead, List.forall_mem_append.mpr ⟨halike, ?_⟩, hspares⟩
      exact List.forall_mem_singleton.mpr (.refl s₁ t)
    | differ t u =>
      have hfit₁ := fun θ hθ ↦ ((hfit θ hθ).after hs hlead hθ (hspares θ hθ)).slot ha hx
      refine meets_bind.mpr ((hrec _ hx s₁ hs₁ hfit₁).mono fun b s₂ hlead₂ h ↦ ?_)
      have hspares₂ := fun θ hθ ↦ (hspares θ hθ).trans (h.spares θ hθ)
      cases b with
      | false => exact ⟨fun θ hθ he ↦ h.differ rfl θ hθ (Layer.subst_slot_eq ha hx he), hspares₂⟩
      | true =>
        refine ⟨hlead.trans hlead₂, List.forall_mem_append.mpr ⟨fun y hy ↦ ?_, ?_⟩, hspares₂⟩
        · exact hlead₂.alike hs₁ (halike y hy)
        · exact List.forall_mem_singleton.mpr (h.alike rfl)

/-- Matching decides on free variables as the solutions in `Θ` do and otherwise only shortens chains,
also where it gives up. -/
theorem meets_subsumesBelow_faithful (hs : s.Chained) (hfit : ∀ θ, Θ θ → s.Suits θ t u)
    (hpaths : ∀ θ, Θ θ → paths.Exceed θ t u) :
    (subsumesBelow fuel n paths t u).Meets (faithful false Θ) (s.Judged Θ t u) s := by
  induction n generalizing paths t u s with
  | zero => exact trivial
  | succ n ih =>
    refine meets_bind.mpr ((meets_find_faithful hs fuel t).mono fun l s₁ h₁ ⟨hl, hkeep₁⟩ ↦ ?_)
    have hs₁ := h₁.chained hs
    refine meets_bind.mpr ((meets_find_faithful hs₁ fuel u).mono fun r s₂ h₂ ⟨hr, hkeep₂⟩ ↦ ?_)
    have hs₂ := h₂.chained hs₁
    have hspares : ∀ θ, s.Spares θ s₂ := fun θ ↦ (hkeep₁.spares θ).trans (hkeep₂.spares θ)
    have hfit₂ : ∀ θ, Θ θ → s₂.Suits θ t u :=
      fun θ hθ ↦ (hfit θ hθ).after hs (h₁.trans h₂) hθ (hspares θ)
    replace hl := hl.keep hs₁ h₂ hkeep₂
    refine (?_ : Script.Meets _ (s₂.Judged Θ t u) _ s₂).mono
      fun b s' _ h ↦ h.of_spares fun θ _ ↦ hspares θ
    match l, r with
    | .free v, r =>
      -- On a second occurrence of the variable this may also be a variable of the right term.
      have hfree : ∀ θ, Θ θ → s₂.Suits θ (.var v) u :=
        fun θ hθ ↦ (hfit₂ θ hθ).congr ((hfit₂ θ hθ).solved.acyclic hs₂) hl.2 (.refl s₂ u)
      refine meets_bind.mpr ((meets_assign_covered hs₂ hl.1 hr hfree).mono fun _ s' hlead h ↦ ?_)
      exact ⟨fun _ ↦ (hlead.alike hs₂ hl.2).trans h.1, nofun, h.2⟩
    | .shape v l, .free w =>
      refine ⟨nofun, fun _ θ hθ he ↦ ?_, fun θ _ ↦ .refl θ s₂⟩
      have hsol := (hfit₂ θ hθ).solved
      rw [(hfit₂ θ hθ).subst_eq, Store.resolved_eq_of_alike (hsol.acyclic hs₂) hr.2,
        Store.resolved_of_free hr.1, hsol.subst_eq_of_alike hs₂ (hl.alike_tip hs₂), Head.tip,
        Layer.toTerm, Term.subst_node] at he
      cases he
    | .shape v l, .shape w r =>
      dsimp only
      split
      · rename_i hsame
        obtain ⟨hv, rfl⟩ := hsame
        obtain ⟨v, rfl⟩ := Option.isSome_iff_exists.mp hv
        exact ⟨fun _ ↦ hl.alike.trans hr.alike.symm, nofun, fun θ _ ↦ .refl θ s₂⟩
      have hsol : ∀ θ, Θ θ → s₂.SolvedBy θ := fun θ hθ ↦ (hfit₂ θ hθ).solved
      refine meets_bind.mpr ((meets_pathsStepInto_faithful hs₂ hl hr hsol hpaths).mono ?_)
      rintro paths' s₃ - ⟨rfl, hbelow⟩
      have hl := hl.alike_tip hs₂
      have hr := hr.alike_tip hs₂
      refine (?_ : Script.Meets _ (s₃.Judged Θ l.toTerm r.toTerm) _ s₃).mono
        fun b s' hlead h ↦ h.congr hs₂ hlead hsol hl hr
      cases ha : l.align? r with
      | none =>
        exact ⟨nofun, fun _ θ _ he ↦ Layer.align?_ne_none_of_subst_eq he ha, fun θ _ ↦ .refl θ s₃⟩
      | some a =>
        have hfit := fun θ hθ ↦ (hfit₂ θ hθ).congr ((hsol θ hθ).acyclic hs₂) hl hr
        exact meets_bind.mpr (meets_matchSlots ha hs₂ hfit
          fun x hx s' hs' hfit' ↦ ih hs' hfit' (hbelow a ha x hx))

namespace Operation

variable {a b : Term σ}

theorem alike_of_run_subsumes (hs : s.Chained)
    (hrun : (subsumes a b).run s = (.ok (.bool true), s')) :
    (faithful false fun _ ↦ False).Leads s s' ∧ s'.Alike a b := by
  have hmeets : ((subsumes a b).script ((subsumes a b).fuel s.weight)).Meets
      (faithful false fun _ ↦ False) (fun x s' ↦ x = .bool true → s'.Alike a b) s := by
    refine meets_map.mpr ((meets_subsumesBelow_faithful hs nofun nofun).mono fun r s' _ h hr ↦ ?_)
    exact h.alike (Value.bool.inj hr)
  have h := hmeets.run
  rw [← Operation.run, hrun] at h
  exact ⟨h.1, h.2 rfl⟩

/-- An answer of yes makes the two terms equal: in the store that is left, both denote the same tree,
which is infinite if there is a cycle below them. -/
theorem unfold_eq_of_subsumes (hs : s.Chained)
    (hrun : (subsumes a b).run s = (.ok (.bool true), s')) :
    s'.Chained ∧ ∀ n, s'.unfold n a = s'.unfold n b := by
  obtain ⟨hlead, hab⟩ := alike_of_run_subsumes hs hrun
  exact ⟨hlead.chained hs, hab⟩

theorem unfold_eq_of_subsumes_loops :
    ∃ s', (subsumes (.node .pair [.var ⟨2⟩, .node .pair [.var ⟨1⟩, .var ⟨2⟩]])
          (.node .pair [.node (.fn "f") [.var ⟨2⟩], .node .pair [.var ⟨0⟩,
            .node (.fn "f") [.var ⟨2⟩]]])).run Store.loops = (.ok (.bool true), s') ∧
      s'.PointsTo ⟨2⟩ ⟨2⟩ ∧
      ∀ n, s'.unfold n (.node .pair [.var ⟨2⟩, .node .pair [.var ⟨1⟩, .var ⟨2⟩]]) =
        s'.unfold n (.node .pair [.node (.fn "f") [.var ⟨2⟩], .node .pair [.var ⟨0⟩,
          .node (.fn "f") [.var ⟨2⟩]]]) := by
  have hpoints : (Store.loops.bind ⟨2⟩ (.node (.fn "f") [.var ⟨2⟩])).PointsTo ⟨2⟩ ⟨2⟩ :=
    ⟨_, rfl, by decide⟩
  exact ⟨_, rfl, hpoints, (unfold_eq_of_subsumes Store.chained_loops rfl).2⟩

theorem run_subsumes_of_covers (hs : s.Acyclic)
    (hcovers : ∀ v x, Term.Faces (s.resolved a) (s.resolved b) v x → θ v = x)
    (hfixes : ∀ w ∈ (s.resolved b).vars, θ w = .var w) :
    ∃ r s', (subsumes a b).run s = (.ok (.bool r), s') ∧ s'.Settled (s.resolved b) ∧
      (resolve b).run s' = (.ok (.term (s.resolved b)), s') ∧
      (r = true → (resolve a).run s' = (.ok (.term (s.resolved b)), s')) ∧
      (r = false → (s.resolved a).subst θ ≠ s.resolved b) := by
  have hfree : ∀ t v, v ∈ (s.resolved t).vars → s.extend θ v = θ v :=
    fun t v hv ↦ Store.extend_of_free θ (Store.free_of_mem_resolved hs hv)
  have hfit : s.Suits (s.extend θ) a b :=
    ⟨hs.solvedBy θ, fun v x hx ↦ (hfree a v hx.mem_vars).trans (hcovers v x hx),
      fun w hw ↦ (hfree b w hw).trans (hfixes w hw)⟩
  have hmeets : ((subsumes a b).script ((subsumes a b).fuel s.weight)).Meets
      (faithful false (· = s.extend θ)) (fun x s' ↦ ∃ r, x = .bool r ∧
        (faithful false (· = s.extend θ)).Leads s s' ∧ s.Judged (· = s.extend θ) a b r s') s := by
    refine meets_map.mpr ((meets_subsumesBelow_faithful hs.chained (fun _ hθ ↦ hθ ▸ hfit)
      fun θ _ ↦ .nil θ a b).mono fun r s' hlead h ↦ ⟨r, rfl, hlead, h⟩)
  rcases run_ends rfl hmeets with ⟨_, s', hrun, r, rfl, hlead, h⟩ | ⟨_, _, _, h⟩
  · have hsettled : s'.Settled (s.resolved b) := fun w hw ↦
      h.spares _ rfl w (Store.free_of_mem_resolved hs hw) (hfit.fixes w hw)
    have hs' : s'.Acyclic := (hlead.solvedBy hs.chained rfl hfit.solved).acyclic
      (hlead.chained hs.chained)
    have hb : s'.resolved b = s.resolved b := by
      rw [← Store.resolved_eq_of_alike hs' (hlead.alike hs.chained (Store.alike_resolved hs b)),
        hsettled.resolved_eq]
    have hresolve : ∀ t, s'.resolved t = s.resolved b →
        (resolve t).run s' = (.ok (.term (s.resolved b)), s') :=
      fun t ht ↦ ht ▸ run_resolve_of_acyclic hs' t
    refine ⟨r, s', hrun, hsettled, hresolve b hb, fun hr ↦ hresolve a ?_, fun hr he ↦ ?_⟩
    · rw [Store.resolved_eq_of_alike hs' (h.alike hr), hb]
    · refine h.differ hr _ rfl ?_
      rw [hfit.subst_eq, Store.subst_extend, he]
  · exact absurd rfl (h _)

theorem run_subsumes_of_subst (hs : s.Acyclic)
    (hapart : ∀ v ∈ (s.resolved a).vars, v ∉ (s.resolved b).vars)
    (hθ : (s.resolved a).subst θ = s.resolved b) :
    ∃ s', (subsumes a b).run s = (.ok (.bool true), s') ∧ s'.Settled (s.resolved b) ∧
      (resolve a).run s' = (.ok (.term (s.resolved b)), s') ∧
      (resolve b).run s' = (.ok (.term (s.resolved b)), s') := by
  let η : Var → Term σ := fun v ↦ if v ∈ (s.resolved a).vars then θ v else .var v
  have hη : (s.resolved a).subst η = s.resolved b :=
    (Term.subst_congr fun v hv ↦ if_pos hv).trans hθ
  obtain ⟨r, s', hrun, hsettled, hb, ha, hno⟩ := run_subsumes_of_covers hs
    (fun v x hx ↦ hx.apply_eq hη) fun w hw ↦ if_neg fun hmem ↦ hapart w hmem hw
  cases r with
  | true => exact ⟨s', hrun, hsettled, ha rfl, hb⟩
  | false => exact absurd hη (hno rfl)

/-- Matching finds every substitution for the variables of the left term that turns it into the
right one, as long as the terms have no variables in common. -/
theorem subsumes_complete (hs : s.Acyclic) (a b : Term σ) :
    ∃ ra rb, (resolve a).run s = (.ok (.term ra), s) ∧ (resolve b).run s = (.ok (.term rb), s) ∧
      ((∀ v ∈ ra.vars, v ∉ rb.vars) → ∀ θ : Var → Term σ, ra.subst θ = rb →
        ∃ s', (subsumes a b).run s = (.ok (.bool true), s') ∧
          (resolve a).run s' = (.ok (.term rb), s') ∧
          (resolve b).run s' = (.ok (.term rb), s')) := by
  refine ⟨s.resolved a, s.resolved b, run_resolve_of_acyclic hs a, run_resolve_of_acyclic hs b,
    fun hapart θ hθ ↦ ?_⟩
  obtain ⟨s', hrun, -, hresolve⟩ := run_subsumes_of_subst hs hapart hθ
  exact ⟨s', hrun, hresolve⟩

theorem subsumes_complete_twin :
    ∃ s', (subsumes (.var ⟨0⟩) (.node .pair
        [.node (.fn "f") [.var ⟨2⟩], .node (.fn "f") [.var ⟨2⟩]])).run Store.twin =
        (.ok (.bool true), s') ∧
      (resolve (.var ⟨0⟩)).run s' = (.ok (.term (.node .pair
        [.node (.fn "f") [.var ⟨2⟩], .node (.fn "f") [.var ⟨2⟩]])), s') := by
  obtain ⟨ra, rb, hra, hrb, h⟩ := subsumes_complete Store.acyclic_twin (.var ⟨0⟩) (.node .pair
    [.node (.fn "f") [.var ⟨2⟩], .node (.fn "f") [.var ⟨2⟩]])
  cases hra
  cases hrb
  obtain ⟨s', hrun, ha, -⟩ := h (by decide) (fun _ ↦ .node (.fn "f") [.var ⟨2⟩]) rfl
  exact ⟨s', hrun, ha⟩

/-- An answer of yes is right just if no variable of the right term has been bound for it. None is
bound if no variable of the left term covers two different parts of the right one. -/
theorem subsumes_sound_iff (hs : s.Acyclic) (a b : Term σ) :
    ∃ ra rb, (resolve a).run s = (.ok (.term ra), s) ∧ (resolve b).run s = (.ok (.term rb), s) ∧
      ((∀ v ∈ ra.vars, v ∉ rb.vars) →
        (∀ s', (subsumes a b).run s = (.ok (.bool true), s') →
          ((∃ θ : Var → Term σ, ra.subst θ = rb) ↔ ∀ w ∈ rb.vars, s'.binding w = none)) ∧
        ((∀ v x y, Term.Faces ra rb v x → Term.Faces ra rb v y → x = y) →
          ∀ w ∈ rb.vars, ((subsumes a b).run s).2.binding w = none)) := by
  classical
  refine ⟨s.resolved a, s.resolved b, run_resolve_of_acyclic hs a, run_resolve_of_acyclic hs b,
    fun hapart ↦ ⟨fun s' hrun ↦ ⟨fun ⟨θ, hθ⟩ ↦ ?_, fun hsettled ↦ ?_⟩, fun hone ↦ ?_⟩⟩
  · obtain ⟨s'', hrun', hsettled, -⟩ := run_subsumes_of_subst hs hapart hθ
    cases hrun.symm.trans hrun'
    exact hsettled
  · obtain ⟨hlead, hab⟩ := alike_of_run_subsumes hs.chained hrun
    have ha := hlead.alike hs.chained (Store.alike_resolved hs a)
    have hb := hlead.alike hs.chained (Store.alike_resolved hs b)
    exact Store.exists_subst_of_alike hsettled (ha.trans (hab.trans hb.symm))
  · let θ : Var → Term σ := fun v ↦
      if h : ∃ x, Term.Faces (s.resolved a) (s.resolved b) v x then h.choose else .var v
    have hcovers : ∀ v x, Term.Faces (s.resolved a) (s.resolved b) v x → θ v = x := by
      intro v x hx
      have hex : ∃ x, Term.Faces (s.resolved a) (s.resolved b) v x := ⟨x, hx⟩
      exact (dif_pos hex).trans (hone v _ x hex.choose_spec hx)
    have hfixes : ∀ w ∈ (s.resolved b).vars, θ w = .var w :=
      fun w hw ↦ dif_neg fun ⟨x, hx⟩ ↦ hapart w hx.mem_vars hw
    obtain ⟨r, s', hrun, hsettled, -⟩ := run_subsumes_of_covers hs hcovers hfixes
    rw [hrun]
    exact hsettled

theorem subsumes_sound_iff_twin :
    (subsumes (.var ⟨0⟩) (.node .pair [.var ⟨2⟩, .var ⟨2⟩])).run Store.twin =
        (.ok (.bool true), Store.twin.bind ⟨1⟩ (.var ⟨2⟩)) ∧
      (∃ θ : Var → Term Symbol, (Term.node .pair [.var ⟨1⟩, .var ⟨1⟩]).subst θ =
        .node .pair [.var ⟨2⟩, .var ⟨2⟩]) ∧
      ((subsumes (.var ⟨0⟩) (.node .pair [.var ⟨2⟩, .var ⟨2⟩])).run Store.twin).2.binding ⟨2⟩ =
        none := by
  have hrun : (subsumes (.var ⟨0⟩) (.node .pair [.var ⟨2⟩, .var ⟨2⟩])).run Store.twin =
      (.ok (.bool true), Store.twin.bind ⟨1⟩ (.var ⟨2⟩)) := rfl
  obtain ⟨ra, rb, hra, hrb, h⟩ := subsumes_sound_iff Store.acyclic_twin (.var ⟨0⟩)
    (.node .pair [.var ⟨2⟩, .var ⟨2⟩])
  cases hra
  cases hrb
  obtain ⟨hsound, hspared⟩ := h (by decide)
  have hcovers : ∀ v (x : Term Symbol), Term.Faces (.node .pair [.var ⟨1⟩, .var ⟨1⟩])
      (.node .pair [.var ⟨2⟩, .var ⟨2⟩]) v x → .var ⟨2⟩ = x :=
    fun v x hx ↦ hx.apply_eq (θ := fun _ ↦ .var ⟨2⟩) rfl
  refine ⟨hrun, (hsound _ hrun).mpr (by decide), hspared (fun v x y hx hy ↦ ?_) ⟨2⟩ (by decide)⟩
  exact (hcovers v x hx).symm.trans (hcovers v y hy)

theorem not_subsumes_sound :
    (¬ ∀ (s s' : Store Symbol) (a b ra rb : Term Symbol), s.Acyclic →
      (resolve a).run s = (.ok (.term ra), s) → (resolve b).run s = (.ok (.term rb), s) →
      (∀ v ∈ ra.vars, v ∉ rb.vars) → (subsumes a b).run s = (.ok (.bool true), s') →
      ∃ θ : Var → Term Symbol, ra.subst θ = rb) ∧
    ¬ ∀ (s : Store Symbol) (a b ra rb : Term Symbol), s.Acyclic →
      (resolve a).run s = (.ok (.term ra), s) → (resolve b).run s = (.ok (.term rb), s) →
      (∀ v ∈ ra.vars, v ∉ rb.vars) →
      ∀ w ∈ rb.vars, ((subsumes a b).run s).2.binding w = none := by
  have hacyclic : ({ next := 3 } : Store Symbol).Acyclic := by
    intro v hv
    obtain ⟨w, ⟨t, ht, -⟩, -⟩ := TransGen.head'_iff.mp hv
    simp [Store.binding, Store.entry] at ht
  constructor
  · intro h
    obtain ⟨θ, hθ⟩ := h { next := 3 } _ (.node .pair [.var ⟨0⟩, .var ⟨0⟩])
      (.node .pair [.var ⟨1⟩, .var ⟨2⟩]) _ _ hacyclic rfl rfl (by decide) rfl
    simp only [Term.subst_node, List.map_cons, Term.subst_var, Term.node.injEq] at hθ
    cases (List.cons.inj hθ.2).1.symm.trans (List.cons.inj (List.cons.inj hθ.2).2).1
  · intro h
    have hbound := h { next := 3 } (.node .pair [.var ⟨0⟩, .var ⟨0⟩])
      (.node .pair [.var ⟨1⟩, .var ⟨2⟩]) _ _ hacyclic rfl rfl (by decide) ⟨1⟩ (by decide)
    cases hbound

end Operation

end Unification
