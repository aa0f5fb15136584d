import Unification.Proofs.Resolution

namespace Unification

open Relation Script Contract

variable {σ α : Type} {s s' : Store σ} {v x : Var} {t : Term σ}

namespace Store

def bindAll (s : Store σ) (vs : List Var) (t : Term σ) : Store σ :=
  vs.foldl (fun s v ↦ s.bind v t) s

theorem entry_bind (s : Store σ) (v w : Var) (t : Term σ) :
    (s.bind v t).entry w = if w = v then (s.entry v).bind t else s.entry w :=
  entry_update s v w _

theorem entry_bindAll (s : Store σ) (vs : List Var) (t : Term σ) (x : Var) :
    (s.bindAll vs t).entry x = if x ∈ vs then (s.entry x).bind t else s.entry x := by
  induction vs generalizing s with
  | nil => rfl
  | cons v vs ih =>
    change ((s.bind v t).bindAll vs t).entry x = _
    rw [ih, entry_bind]
    by_cases hv : x = v
    · subst hv
      rw [if_pos rfl, if_pos List.mem_cons_self]
      split <;> rfl
    · rw [if_neg hv]
      simp only [List.mem_cons, hv, false_or]

theorem binding_bindAll (s : Store σ) (vs : List Var) (t : Term σ) (x : Var) :
    (s.bindAll vs t).binding x = if x ∈ vs then some t else s.binding x := by
  rw [binding, entry_bindAll]
  split <;> rfl

theorem rank_bindAll (s : Store σ) (vs : List Var) (t : Term σ) (x : Var) :
    (s.bindAll vs t).rank x = s.rank x := by
  rw [rank, entry_bindAll]
  split <;> rfl

end Store

theorem Script.meets_each_assign {failed : Failure σ Refusal → Store σ → Prop} (e : Var → Event σ)
    (vs : List Var) (t : Term σ) :
    (each (fun v ↦ do log (e v); assign v t) vs).Meets (.blaming failed)
      (fun _ s' ↦ s' = s.bindAll vs t) s := by
  induction vs generalizing s with
  | nil => rfl
  | cons v vs ih => exact meets_bind.mpr (meets_bind.mpr (meets_log.mpr (meets_assign.mpr
      ⟨trivial, ih⟩)))

theorem Script.Meets.run_eq_ok {m : Script σ Refusal α} {a : α}
    (h : m.Meets (.blaming fun _ _ ↦ False) (fun b t ↦ b = a ∧ t = s') s)
    (hfinished : (m.run s).1 ≠ .unfinished) : m.run s = (.ok a, s') := by
  rcases h.ends hfinished with ⟨_, _, hrun, rfl, rfl⟩ | ⟨_, _, _, hfalse⟩
  · exact hrun
  · exact hfalse.elim

theorem Script.Meets.run_eq_error {m : Script σ Refusal α} {e : Failure σ Refusal}
    (h : m.Meets (.blaming fun e' t ↦ e' = e ∧ t = s') (fun _ _ ↦ False) s)
    (hfinished : (m.run s).1 ≠ .unfinished) : m.run s = (.error e, s') := by
  rcases h.ends hfinished with ⟨_, _, _, hfalse⟩ | ⟨_, _, hrun, rfl, rfl⟩
  · exact hfalse.elim
  · exact hrun

namespace Walk

variable {w w' : Walk σ}

theorem Follows.unique (h : w.Follows s v) (h' : w'.Follows s v) : w = w' := by
  induction h generalizing w' with
  | free hb =>
    cases h' with
    | free _ => rfl
    | layer hb' => cases hb.symm.trans hb'
    | link hl _ => cases hb.symm.trans hl
  | layer hb =>
    cases h' with
    | free hb' => cases hb.symm.trans hb'
    | layer hb' =>
      obtain ⟨rfl, rfl⟩ := Term.node.inj (Option.some.inj (hb.symm.trans hb'))
      rfl
    | link hl _ => cases hb.symm.trans hl
  | link hl _ ih =>
    cases h' with
    | free hb => cases hb.symm.trans hl
    | layer hb => cases hb.symm.trans hl
    | link hl' h' =>
      obtain rfl := hl.unique hl'
      rw [ih h']

theorem follows_of_binding {o : Option (Layer σ (Term σ))}
    (h : s.binding v = o.map Layer.toTerm) : Follows s v ⟨[], v, o⟩ := by
  cases o with
  | none => exact .free h
  | some layer => exact .layer h

theorem Follows.not_circles (h : w.Follows s v) : ¬ Circles s [] v x :=
  fun hx ↦ h.ends.not_endless hx.endless

theorem Follows.root_not_mem (h : w.Follows s v) : w.root ∉ w.passed :=
  fun hmem ↦ (h.root_passed w.root hmem).2 rfl

theorem Follows.root_eq_of_passed (h : w.Follows s v) (hw : w.passed = []) : w.root = v := by
  cases h with
  | free _ | layer _ => rfl
  | link _ _ => cases hw

theorem Follows.not_mem_passed (h : w.Follows s v) (hx : s.binding x = none) :
    x ∉ w.passed := by
  intro hmem
  obtain ⟨y, hy, -⟩ := TransGen.head'_iff.mp (h.passed x hmem)
  cases hx.symm.trans hy

theorem Follows.mem_dropLast (h : w.Follows s v) (hx : x ∈ w.passed) :
    x ∈ w.passed.dropLast ∨ s.binding x = some (.var w.root) := by
  induction h with
  | free _ | layer _ => cases hx
  | @link v y w hl h ih =>
    dsimp only at hx ⊢
    cases hp : w.passed with
    | nil =>
      obtain rfl : x = v := by simpa [hp] using hx
      rw [h.root_eq_of_passed hp]
      exact .inr hl
    | cons p ps =>
      rw [hp] at ih hx
      rw [List.dropLast_cons_cons]
      rcases List.mem_cons.mp hx with rfl | hx
      · exact .inl List.mem_cons_self
      · exact (ih hx).imp_left (List.mem_cons_of_mem v)

theorem Follows.mem_passed_or (h : w.Follows s v) : v ∈ w.passed ∨ w.root = v := by
  cases h with
  | free _ | layer _ => exact .inr rfl
  | link _ _ => exact .inl List.mem_cons_self

def rebound (w : Walk σ) : List Var := if w.value.isNone then w.passed.dropLast else w.passed

theorem meets_chase_of_follows {failed : Failure σ Refusal → Store σ → Prop} {fuel : ℕ}
    {post : Walk σ → Store σ → Prop} (hw : w.Follows s v) (h : post w s) :
    (chase fuel [] v).Meets (.blaming failed) post s :=
  meets_chase_circles (fun _ hw' ↦ hw.unique hw' ▸ h) (fun _ hx ↦ (hw.not_circles hx).elim) trivial

theorem meets_chase_of_circles {failed : Failure σ Refusal → Store σ → Prop} {fuel : ℕ}
    {post : Walk σ → Store σ → Prop} (hx : Circles s [] v x)
    (h : failed (.clash (.occursIn x (.var x))) s) :
    (chase fuel [] v).Meets (.blaming failed) post s :=
  meets_chase_circles (fun _ hw ↦ (hw.not_circles hx).elim) (fun _ hx' ↦ hx.unique hx' ▸ h) trivial

theorem meets_find_of_follows {failed : Failure σ Refusal → Store σ → Prop} {fuel : ℕ}
    (hw : w.Follows s v) : (find fuel (.var v)).Meets (.blaming failed)
      (fun h s' ↦ h = w.head ∧ s' = s.bindAll w.passed.dropLast (.var w.root)) s :=
  meets_bind.mpr (meets_chase_of_follows hw (meets_bind.mpr
    ((meets_each_assign _ _ _).mono fun _ _ _ hs' ↦ ⟨rfl, hs'⟩)))

theorem meets_find_of_circles {failed : Failure σ Refusal → Store σ → Prop} {fuel : ℕ}
    {post : Head σ → Store σ → Prop} (hx : Circles s [] v x)
    (h : failed (.clash (.occursIn x (.var x))) s) :
    (find fuel (.var v)).Meets (.blaming failed) post s :=
  meets_bind.mpr (meets_chase_of_circles hx h)

/-- A chain was compressed: its links are bound to a term, and nothing else has changed. -/
structure Compressed (w : Walk σ) (t : Term σ) (s s' : Store σ) : Prop where
  passed : ∀ p ∈ w.passed, s'.binding p = some t
  root : s'.entry w.root = s.entry w.root
  rank : ∀ x, s'.rank x = s.rank x
  rest : ∀ x, x ∉ w.passed → s'.entry x = s.entry x

namespace Compressed

theorem binding_root (hs : w.Compressed t s s') (h : w.Follows s v) :
    s'.binding w.root = w.value.map Layer.toTerm := by
  rw [← h.binding_root, Store.binding, hs.root]
  rfl

theorem follows (hs : w.Compressed (.var w.root) s s') (h : w.Follows s v) :
    ∃ w' : Walk σ, w'.Follows s' v ∧ w'.passed.dropLast = [] ∧ w'.root = w.root ∧
      w'.value = w.value := by
  have hroot := follows_of_binding (hs.binding_root h)
  rcases h.mem_passed_or with hv | rfl
  · exact ⟨_, .link (hs.passed v hv) hroot, rfl, rfl, rfl⟩
  · exact ⟨_, hroot, rfl, rfl, rfl⟩

theorem follows_layer {layer : Layer σ (Term σ)} (hs : w.Compressed layer.toTerm s s')
    (h : w.Follows s v) (hw : w.value = some layer) : Follows s' v ⟨[], v, some layer⟩ := by
  refine follows_of_binding ?_
  rcases h.mem_passed_or with hv | rfl
  · exact hs.passed v hv
  · rw [hs.binding_root h, hw]

end Compressed

theorem Follows.compressed {vs : List Var} (h : w.Follows s v) (hvs : ∀ x ∈ vs, x ∈ w.passed)
    (hrest : ∀ x ∈ w.passed, x ∈ vs ∨ s.binding x = some t) :
    w.Compressed t s (s.bindAll vs t) := by
  have hentry : ∀ x, x ∉ w.passed → (s.bindAll vs t).entry x = s.entry x := by
    intro x hx
    rw [Store.entry_bindAll, if_neg fun hmem ↦ hx (hvs x hmem)]
  refine ⟨fun p hp ↦ ?_, hentry _ h.root_not_mem, s.rank_bindAll vs t, hentry⟩
  rw [Store.binding_bindAll]
  split
  · rfl
  · rename_i hnot
    exact (hrest p hp).resolve_left hnot

end Walk

namespace Operation

variable [DecidableEq σ] {w : Walk σ}

theorem run_eq_of_meets {op : Operation σ} {a : Value σ} (hop : op.allocates = false)
    (h : (op.script (op.fuel s.weight)).Meets (.blaming fun _ _ ↦ False)
      (fun b t ↦ b = a ∧ t = s') s) : op.run s = (.ok a, s') :=
  h.run_eq_ok (op.run_ne_unfinished s (by simp [hop]))

theorem run_eq_of_blames {op : Operation σ} {e : Failure σ Refusal} (hop : op.allocates = false)
    (h : (op.script (op.fuel s.weight)).Meets (.blaming fun e' t ↦ e' = e ∧ t = s')
      (fun _ _ ↦ False) s) : op.run s = (.error e, s') :=
  h.run_eq_error (op.run_ne_unfinished s (by simp [hop]))

theorem run_representative (hw : w.Follows s v) :
    (representative (.var v)).run s =
      (.ok (.term (.var w.root)), s.bindAll w.passed.dropLast (.var w.root)) := by
  refine run_eq_of_meets rfl (meets_map.mpr (meets_bind.mpr
    ((Walk.meets_find_of_follows hw).mono ?_)))
  rintro _ s' - ⟨rfl, hs'⟩
  exact ⟨by rw [w.head_eq, Head.toTerm_ofVar], hs'⟩

theorem run_terminal (hw : w.Follows s v) :
    (terminal (.var v)).run s = (.ok (.term w.head.tip), s.bindAll w.rebound w.head.tip) := by
  refine run_eq_of_meets rfl (meets_map.mpr (meets_bind.mpr
    (Walk.meets_chase_of_follows hw ?_)))
  rw [w.head_eq, Walk.rebound]
  cases w.value with
  | none => exact meets_bind.mpr ((meets_each_assign _ _ _).mono fun _ _ _ hs' ↦ ⟨rfl, hs'⟩)
  | some layer => exact meets_bind.mpr ((meets_each_assign _ _ _).mono fun _ _ _ hs' ↦ ⟨rfl, hs'⟩)

theorem run_representative_of_circles (hx : Walk.Circles s [] v x) :
    (representative (.var v)).run s = (.error (.clash (.occursIn x (.var x))), s) :=
  run_eq_of_blames rfl (meets_map.mpr (meets_bind.mpr
    (Walk.meets_find_of_circles hx ⟨rfl, rfl⟩)))

theorem run_terminal_of_circles (hx : Walk.Circles s [] v x) :
    (terminal (.var v)).run s = (.error (.clash (.occursIn x (.var x))), s) :=
  run_eq_of_blames rfl (meets_map.mpr (meets_bind.mpr
    (Walk.meets_chase_of_circles hx ⟨rfl, rfl⟩)))

end Operation

theorem Walk.follows_or_circles (s : Store σ) (v : Var) :
    (∃ w : Walk σ, w.Follows s v) ∨ ∃ x, Circles s [] v x := by
  classical
  have hmeets : ((Operation.representative (.var v)).script
      ((Operation.representative (.var v) : Operation σ).fuel s.weight)).Meets
      (.blaming fun _ _ ↦ ∃ x, Circles s [] v x) (fun _ _ ↦ ∃ w : Walk σ, w.Follows s v) s := by
    refine meets_map.mpr (meets_bind.mpr (meets_bind.mpr (meets_chase_circles (fun w hw ↦ ?_)
      (fun x hx ↦ ⟨x, hx⟩) trivial)))
    exact meets_bind.mpr ((meets_each_assign _ _ _).mono fun _ _ _ _ ↦ ⟨w, hw⟩)
  rcases Operation.run_ends rfl hmeets with ⟨_, _, _, hw⟩ | ⟨_, _, _, hx⟩
  · exact .inl hw
  · exact .inr hx

namespace Operation

variable [DecidableEq σ] {w : Walk σ}

theorem representative_compresses (hw : w.Follows s v) :
    ∃ s', (representative (.var v)).run s = (.ok (.term (.var w.root)), s') ∧
      w.Compressed (.var w.root) s s' ∧
      (representative (.var v)).run s' = (.ok (.term (.var w.root)), s') := by
  have hs := hw.compressed (fun _ ↦ List.mem_of_mem_dropLast) (fun _ ↦ hw.mem_dropLast)
  obtain ⟨w', hw', hpassed, hroot, -⟩ := hs.follows hw
  refine ⟨_, run_representative hw, hs, ?_⟩
  rw [run_representative hw', hpassed, hroot]
  rfl

theorem terminal_compresses (hw : w.Follows s v) :
    ∃ s', (terminal (.var v)).run s = (.ok (.term w.head.tip), s') ∧
      w.Compressed w.head.tip s s' ∧
      (terminal (.var v)).run s' = (.ok (.term w.head.tip), s') := by
  refine ⟨_, run_terminal hw, ?_⟩
  rw [w.head_eq, Walk.rebound]
  cases hvalue : w.value with
  | none =>
    have hs := hw.compressed (fun _ ↦ List.mem_of_mem_dropLast) (fun _ ↦ hw.mem_dropLast)
    obtain ⟨w', hw', hpassed, hroot, hvalue'⟩ := hs.follows hw
    have hagain := run_terminal hw'
    rw [w'.head_eq, Walk.rebound, hvalue', hvalue, hroot] at hagain
    simp only [Option.isNone_none, if_true, hpassed] at hagain
    exact ⟨hs, hagain⟩
  | some layer =>
    have hs : w.Compressed layer.toTerm s (s.bindAll w.passed layer.toTerm) :=
      hw.compressed (fun _ hx ↦ hx) fun _ ↦ .inl
    exact ⟨hs, run_terminal (hs.follows_layer hw hvalue)⟩

/-- A chain that comes to an end is compressed, to its last variable or to the term at its end, and
nothing but its links is changed; once compressed, it stays as it is. A chain that comes back to one
of its variables is left alone, and a variable on the loop is blamed. -/
theorem compresses_chain (s : Store σ) (v : Var) :
    (∀ w : Walk σ, w.Follows s v →
      (∃ s', (representative (.var v)).run s = (.ok (.term (.var w.root)), s') ∧
        w.Compressed (.var w.root) s s' ∧
        (representative (.var v)).run s' = (.ok (.term (.var w.root)), s')) ∧
      ∃ s', (terminal (.var v)).run s = (.ok (.term w.head.tip), s') ∧
        w.Compressed w.head.tip s s' ∧
        (terminal (.var v)).run s' = (.ok (.term w.head.tip), s')) ∧
    ((∃ y, ReflTransGen s.Links v y ∧ TransGen s.Links y y) →
      ∃ x, ReflTransGen s.Links v x ∧ TransGen s.Links x x ∧
        (representative (.var v)).run s = (.error (.clash (.occursIn x (.var x))), s) ∧
        (terminal (.var v)).run s = (.error (.clash (.occursIn x (.var x))), s)) := by
  refine ⟨fun w hw ↦ ⟨representative_compresses hw, terminal_compresses hw⟩, ?_⟩
  rintro ⟨y, hvy, hy⟩
  rcases Walk.follows_or_circles s v with ⟨w, hw⟩ | ⟨x, hx⟩
  · exact absurd (Store.endless_of_loops hvy hy) hw.ends.not_endless
  · obtain ⟨hvx, hloop⟩ := hx.loops nofun
    exact ⟨x, hvx, hloop, run_representative_of_circles hx, run_terminal_of_circles hx⟩

end Operation

def Store.lasso : Store Symbol :=
  (((((({ next := 7 } : Store Symbol).bind ⟨0⟩ (.var ⟨1⟩)).bind ⟨1⟩ (.var ⟨2⟩)).bind ⟨2⟩
    (.node (.fn "f") [.var ⟨3⟩])).bind ⟨4⟩ (.var ⟨5⟩)).bind ⟨5⟩ (.var ⟨6⟩)).bind ⟨6⟩ (.var ⟨5⟩)

theorem Operation.compresses_chain_lasso :
    (∃ s', (representative (.var ⟨0⟩)).run Store.lasso = (.ok (.term (.var ⟨2⟩)), s') ∧
      s'.binding ⟨0⟩ = some (.var ⟨2⟩) ∧ s'.entry ⟨4⟩ = Store.lasso.entry ⟨4⟩ ∧
      (representative (.var ⟨0⟩)).run s' = (.ok (.term (.var ⟨2⟩)), s')) ∧
    (∃ s', (terminal (.var ⟨0⟩)).run Store.lasso =
        (.ok (.term (.node (.fn "f") [.var ⟨3⟩])), s') ∧
      s'.binding ⟨1⟩ = some (.node (.fn "f") [.var ⟨3⟩]) ∧
      s'.entry ⟨4⟩ = Store.lasso.entry ⟨4⟩ ∧
      (terminal (.var ⟨0⟩)).run s' = (.ok (.term (.node (.fn "f") [.var ⟨3⟩])), s')) ∧
    ∃ x, TransGen Store.lasso.Links x x ∧
      (representative (.var ⟨4⟩)).run Store.lasso =
        (.error (.clash (.occursIn x (.var x))), Store.lasso) ∧
      (terminal (.var ⟨4⟩)).run Store.lasso =
        (.error (.clash (.occursIn x (.var x))), Store.lasso) := by
  have hlink : Store.lasso.Links ⟨0⟩ ⟨1⟩ ∧ Store.lasso.Links ⟨1⟩ ⟨2⟩ := ⟨rfl, rfl⟩
  have henter : Store.lasso.Links ⟨4⟩ ⟨5⟩ := rfl
  have hback : Store.lasso.Links ⟨5⟩ ⟨6⟩ ∧ Store.lasso.Links ⟨6⟩ ⟨5⟩ := ⟨rfl, rfl⟩
  have hend : Walk.Follows Store.lasso ⟨2⟩ ⟨[], ⟨2⟩, some ⟨.fn "f", [.var ⟨3⟩]⟩⟩ := .layer rfl
  have hloop : TransGen Store.lasso.Links ⟨5⟩ ⟨5⟩ := .tail (.single hback.1) hback.2
  obtain ⟨⟨s₁, hrun₁, hs₁, hagain₁⟩, s₂, hrun₂, hs₂, hagain₂⟩ :=
    (compresses_chain Store.lasso ⟨0⟩).1 _ (.link hlink.1 (.link hlink.2 hend))
  obtain ⟨x, -, hx, hrun, hrun'⟩ :=
    (compresses_chain Store.lasso ⟨4⟩).2 ⟨⟨5⟩, .single henter, hloop⟩
  exact ⟨⟨s₁, hrun₁, hs₁.passed _ (by simp), hs₁.rest _ (by decide), hagain₁⟩,
    ⟨s₂, hrun₂, hs₂.passed _ (by simp), hs₂.rest _ (by decide), hagain₂⟩, x, hx, hrun, hrun'⟩

end Unification
