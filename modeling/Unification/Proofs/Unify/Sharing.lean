import Unification.Proofs.Compression
import Unification.Proofs.Unify.Correctness
import Unification.Sharing

namespace Unification

open Script Contract

variable {σ ε : Type} {s : Store σ} {t u : Term σ} {v : Var} {fuel n : ℕ} {mode : Mode}

theorem Script.mapEach_map_of_pure {α β : Type} {f : α → Script σ ε β} {g : β → α}
    (h : ∀ b, f (g b) = .pure b) (l : List β) : mapEach f (l.map g) = .pure l := by
  induction l with
  | nil => rfl
  | cons b l ih =>
    rw [List.map_cons, mapEach, h, ih]
    rfl

section Self

variable [DecidableEq σ] {recurse : List Var → Term σ → Term σ → Script σ ε (Term σ)}

theorem unifyLayers_self (path : List Var) (l : Layer σ (Term σ)) :
    unifyLayers recurse path l l = .pure l := by
  rw [unifyLayers, Layer.align?_self]
  dsimp only
  rw [mapEach_map_of_pure]
  · rfl
  · exact fun _ ↦ rfl

theorem unifyHeads_self (path : List Var) (h : Head σ) :
    unifyHeads mode fuel recurse path h h = .pure h.toTerm := by
  match h with
  | .free v => exact if_pos rfl
  | .shape (some v) l => exact if_pos rfl
  | .shape none l =>
    rw [unifyHeads, unifyLayers_self]
    rfl

theorem unify_node_self (f : σ) (args : List (Term σ)) :
    unify (ε := ε) mode (n + 1) (.node f args) (.node f args) =
      .note (.unifying mode (.node f args) (.node f args)) (.pure (.node f args)) := by
  let h : Head σ := .shape none ⟨f, args⟩
  have hbelow : unifyBelow (ε := ε) mode (n + 1) (n + 1) [] (.node f args) (.node f args) =
      unifyHeads mode (n + 1) (unifyBelow mode (n + 1) n) [] h h := rfl
  rw [unify, hbelow, unifyHeads_self]
  rfl

theorem meets_unify_of_follows {w : Walk σ} {failed : Failure σ Refusal → Store σ → Prop}
    (hw : w.Follows s v) : (unify mode fuel (.var v) (.var v)).Meets (.blaming failed)
      (fun r s' ↦ r = .var w.root ∧ s' = s.bindAll w.passed.dropLast (.var w.root)) s := by
  refine meets_bind.mpr (meets_log.mpr ?_)
  cases fuel with
  | zero => exact trivial
  | succ n =>
    have hs := hw.compressed (fun _ ↦ List.mem_of_mem_dropLast) (fun _ ↦ hw.mem_dropLast)
    obtain ⟨w', hw', hpassed, hroot, hvalue⟩ := hs.follows hw
    refine meets_bind.mpr ((Walk.meets_find_of_follows hw).mono ?_)
    rintro _ _ - ⟨rfl, rfl⟩
    refine meets_bind.mpr ((Walk.meets_find_of_follows hw').mono ?_)
    rintro _ _ - ⟨rfl, rfl⟩
    rw [hpassed, w'.head_eq, hroot, hvalue, ← w.head_eq, unifyHeads_self]
    exact ⟨by rw [w.head_eq, Head.toTerm_ofVar], rfl⟩

theorem meets_unify_of_circles {x : Var} (hx : Walk.Circles s [] v x) :
    (unify mode fuel (.var v) (.var v)).Meets
      (.blaming fun e s' ↦ e = .clash (.occursIn x (.var x)) ∧ s' = s) (fun _ _ ↦ False) s := by
  refine meets_bind.mpr (meets_log.mpr ?_)
  cases fuel with
  | zero => exact trivial
  | succ n => exact meets_bind.mpr (Walk.meets_find_of_circles hx ⟨rfl, rfl⟩)

end Self

namespace Sharing

variable [DecidableEq σ] (m : Sharing σ)

theorem sameList_iff {ts us : List (Term σ)} (h : ∀ t ∈ ts, ∀ u, m.same t u = true ↔ t = u) :
    m.sameList ts us = true ↔ ts = us := by
  induction ts generalizing us with
  | nil => cases us <;> simp [sameList]
  | cons t ts ih =>
    obtain ⟨ht, hts⟩ := List.forall_mem_cons.mp h
    cases us with
    | nil => simp [sameList]
    | cons u us => rw [sameList, Bool.and_eq_true, ht, ih hts, List.cons.injEq]

theorem same_iff : m.same t u = true ↔ t = u := by
  induction t generalizing u with
  | var v => cases u <;> simp [same]
  | node f ts ih =>
    cases u with
    | var w => simp [same]
    | node g us =>
      rw [same, Bool.or_eq_true, Bool.and_eq_true, decide_eq_true_eq,
        m.sameList_iff fun t ht _ ↦ ih t ht, Term.node.injEq, or_iff_right_iff_imp]
      intro h
      exact Layer.mk.inj (m.eq_of_shared h)

theorem aligned_eq (t u : Term σ) : m.aligned t u = .of t u := by
  simp only [aligned, Aligned.of, m.same_iff]

theorem unifyHeads_eq {recurse : List Var → Term σ → Term σ → Script σ ε (Term σ)}
    (path : List Var) (h h' : Head σ) : m.unifyHeads mode fuel recurse path h h' =
      Unification.unifyHeads mode fuel recurse path h h' := by
  unfold unifyHeads
  split
  · rename_i l r
    by_cases hlr : m.shared l r = true
    · rw [if_pos hlr, m.eq_of_shared hlr, unifyHeads_self]
      rfl
    · rw [if_neg hlr]
  · rfl

theorem unifyBelow_eq (path : List Var) (t u : Term σ) :
    m.unifyBelow (ε := ε) mode fuel n path t u = Unification.unifyBelow mode fuel n path t u := by
  induction n generalizing path t u with
  | zero => rfl
  | succ n ih =>
    have hrec : m.unifyBelow (ε := ε) mode fuel n = Unification.unifyBelow mode fuel n := by
      funext path t u
      exact ih path t u
    simp only [unifyBelow, Unification.unifyBelow, hrec, m.unifyHeads_eq]

theorem unify_eq (t u : Term σ) :
    m.unify (ε := ε) mode fuel t u = Unification.unify mode fuel t u := by
  rw [unify, Unification.unify, m.unifyBelow_eq]

end Sharing

namespace Unifier

variable [DecidableEq σ]

theorem run_operation (k : Unifier) (s : Store σ) (a b : Term σ) :
    (k.operation a b).run s = andThen (fun r s' ↦ (.ok (k.answer r), s'))
      ((unify k.mode ((k.operation a b).fuel s.weight) a b).run s) := by
  rw [Operation.run, script_operation, map_eq_pure_bind, run_bind]
  rfl

theorem run_unify_ne_unfinished (k : Unifier) (s : Store σ) (a b : Term σ) :
    ((unify k.mode ((k.operation a b).fuel s.weight) a b).run s).1 ≠ .unfinished :=
  (meets_unify_confined (k.fuel_operation s a b) (s.within_scope [a, b])
    (s.within_scope_of_mem List.mem_cons_self) (s.within_scope_of_mem (by simp))).finished id

/-- What objects two terms share makes no difference to a unifier. To unify a term with itself is to
look for the end of the chain that it starts with; a structure is its own end, so that the store is
not even called. -/
theorem run_self (k : Unifier) (m : Sharing σ) (s : Store σ) :
    (∀ fuel a b, m.unify (ε := ε) k.mode fuel a b = unify k.mode fuel a b ∧
      m.aligned a b = .of a b) ∧
    (∀ f args, let t : Term σ := .node f args
      (∀ n, m.unify (ε := ε) k.mode (n + 1) t t = .note (.unifying k.mode t t) (.pure t)) ∧
      ((k.operation t t).script ((k.operation t t).fuel s.weight)).requests s = [] ∧
      (k.operation t t).run s = (.ok (k.answer t), s)) ∧
    ∀ v, let t : Term σ := .var v
      (∃ w s', (Operation.representative t).run s = (.ok (.term (.var w)), s') ∧
        (m.unify k.mode ((k.operation t t).fuel s.weight) t t).run s = (.ok (.var w), s') ∧
        (k.operation t t).run s = (.ok (k.answer (.var w)), s')) ∨
      ∃ x, (Operation.representative t).run s = (.error (.clash (.occursIn x (.var x))), s) ∧
        (m.unify k.mode ((k.operation t t).fuel s.weight) t t).run s =
          (.error (.clash (.occursIn x (.var x))), s) ∧
        (k.operation t t).run s = (.error (.clash (.occursIn x (.var x))), s) := by
  refine ⟨fun _ a b ↦ ⟨m.unify_eq a b, m.aligned_eq a b⟩, ?_, ?_⟩
  · intro f args t
    have hself (ε : Type) (n : ℕ) : unify (ε := ε) k.mode (n + 1) t t = .note (.unifying k.mode t t) (.pure t) :=
      unify_node_self f args
    have hfuel : 0 + 2 * (0 * (0 + 1)) < (k.operation t t).fuel s.weight :=
      (k.operation t t).lt_fuel (Nat.zero_le _) le_rfl
    obtain ⟨n, hn⟩ := Nat.exists_eq_succ_of_ne_zero (Nat.ne_zero_of_lt hfuel)
    refine ⟨fun n ↦ (m.unify_eq t t).trans (hself ε n), ?_, ?_⟩
    · rw [script_operation, hn, hself]
      rfl
    · rw [run_operation, hn, hself]
      rfl
  · intro v t
    have hfinished := k.run_unify_ne_unfinished s t t
    rw [m.unify_eq]
    rcases Walk.follows_or_circles s v with ⟨w, hw⟩ | ⟨x, hx⟩
    · have hrun := (meets_unify_of_follows hw).run_eq_ok hfinished
      refine .inl ⟨w.root, _, Operation.run_representative hw, hrun, ?_⟩
      rw [run_operation, hrun]
      rfl
    · have hrun := (meets_unify_of_circles hx).run_eq_error hfinished
      refine .inr ⟨x, Operation.run_representative_of_circles hx, hrun, ?_⟩
      rw [run_operation, hrun]
      rfl

/-- Both sides of a pair are one object here. Its slots are not looked at, even though one of them
starts a chain without an end. -/
theorem run_self_lasso :
    let k : Unifier := .silent ⟨.ranked, true⟩
    let whole : Sharing Symbol := ⟨fun l r ↦ l = r, of_decide_eq_true⟩
    let t : Term Symbol := .node .pair [.var ⟨4⟩, .var ⟨0⟩]
    whole.unify (ε := Refusal) k.mode 1 t t = .note (.unifying k.mode t t) (.pure t) ∧
      (k.operation t t).run Store.lasso = (.ok .nothing, Store.lasso) ∧
      (∃ s', (k.operation (.var ⟨0⟩) (.var ⟨0⟩)).run Store.lasso = (.ok .nothing, s') ∧
        (Operation.representative (.var ⟨0⟩)).run Store.lasso = (.ok (.term (.var ⟨2⟩)), s')) ∧
      (k.operation (.var ⟨4⟩) (.var ⟨4⟩)).run Store.lasso =
        (.error (.clash (.occursIn ⟨5⟩ (.var ⟨5⟩))), Store.lasso) := by
  intro k whole t
  obtain ⟨-, hnode, hvar⟩ := run_self k whole Store.lasso
  obtain ⟨hself, -, hrun⟩ := hnode .pair [.var ⟨4⟩, .var ⟨0⟩]
  have hend : ((Operation.representative (.var ⟨0⟩)).run Store.lasso).1 =
      .ok (.term (.var ⟨2⟩)) := rfl
  have hloop : ((Operation.representative (.var ⟨4⟩)).run Store.lasso).1 =
      .error (.clash (.occursIn ⟨5⟩ (.var ⟨5⟩))) := rfl
  refine ⟨hself 0, hrun, ?_, ?_⟩
  · rcases hvar ⟨0⟩ with ⟨w, s', hrep, -, hrun⟩ | ⟨x, hrep, -⟩
    · rw [hrep] at hend
      obtain rfl : w = ⟨2⟩ := by simpa using hend
      exact ⟨s', hrun, hrep⟩
    · rw [hrep] at hend
      cases hend
  · rcases hvar ⟨4⟩ with ⟨w, s', hrep, -⟩ | ⟨x, hrep, -, hrun⟩
    · rw [hrep] at hloop
      cases hloop
    · rw [hrep] at hloop
      obtain rfl : x = ⟨5⟩ := by simpa using hloop
      exact hrun

end Unifier

end Unification
