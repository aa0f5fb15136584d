import Unification.Proofs.Compression
import Unification.Proofs.Mirrors
import Unification.Proofs.Reachability
import Unification.Proofs.Reading
import Unification.Proofs.RenameApart.Exact

namespace Unification

open Relation Script Contract

variable {σ α β : Type} {s s' : Store σ} {t : Term σ} {v x : Var} {fuel : ℕ}

theorem Walk.Circles.keep {seen : List Var} (h : Circles s seen v x) (hs : s.SameRoots s')
    (hseen : ∀ y ∈ seen, TransGen s.Links y v) : Circles s' seen v x := by
  have hend := Store.endless_of_loops (h.loops hseen).1 (h.loops hseen).2
  have hv := hs.binding_of_root hend.root_eq
  induction h with
  | back hl hmem => exact .back (hv.trans hl) hmem
  | @next seen v w x hl hnew h ih =>
    have hseen' : ∀ y ∈ v :: seen, TransGen s.Links y w := by
      intro y hy
      rcases List.mem_cons.mp hy with rfl | hy
      · exact .single hl
      · exact (hseen y hy).tail hl
    have hend' := Store.endless_of_loops (h.loops hseen').1 (h.loops hseen').2
    exact .next (hv.trans hl) hnew (ih hseen' hend' (hs.binding_of_root hend'.root_eq))

namespace Script

/-- A script that cannot tell two stores apart: it writes nothing, and it comes to the same outcome
over both of them unless it runs out of fuel. -/
structure Indifferent (s s' : Store σ) (m : Script σ Refusal α) : Prop where
  reads : m.Reads
  outcome : (m.run s).1 = .unfinished ∨ (m.run s').1 = .unfinished ∨ (m.run s').1 = (m.run s).1

namespace Indifferent

variable {m : Script σ Refusal α}

theorem pure (a : α) : (Pure.pure a : Script σ Refusal α).Indifferent s s' :=
  ⟨.pure a, .inr (.inr rfl)⟩

theorem unfinished : (Script.unfinished : Script σ Refusal α).Indifferent s s' :=
  ⟨.unfinished, .inl rfl⟩

theorem abort (e : Event σ) (c : Clash σ) : (Script.abort e c : Script σ Refusal α).Indifferent s s' :=
  ⟨.abort e c, .inr (.inr rfl)⟩

theorem bind {f : α → Script σ Refusal β} (h : m.Indifferent s s') (hf : ∀ a, (f a).Indifferent s s') :
    (m >>= f).Indifferent s s' := by
  refine ⟨h.reads.bind fun a ↦ (hf a).reads, ?_⟩
  have hs := h.reads.run_eq s
  have hs' := h.reads.run_eq s'
  have hout := h.outcome
  rw [run_bind, run_bind]
  generalize m.run s = r at hs hout ⊢
  generalize m.run s' = r' at hs' hout ⊢
  obtain ⟨o, t⟩ := r
  obtain ⟨o', t'⟩ := r'
  dsimp only at hs hs' hout
  subst hs hs'
  rcases hout with rfl | rfl | rfl
  · exact .inl rfl
  · exact .inr (.inl rfl)
  · cases o' with
    | ok a => exact (hf a).outcome
    | error e => exact .inr (.inr rfl)
    | unfinished => exact .inl rfl

theorem compositional : Compositional fun _ (m : Script σ Refusal _) ↦ m.Indifferent s s' :=
  ⟨.pure, .unfinished, .abort, .bind⟩

theorem of_meets {Q : Outcome σ Refusal α → Prop} (hm : m.Reads)
    (h : m.Meets (.blaming fun e _ ↦ Q (.error e)) (fun a _ ↦ Q (.ok a)) s)
    (h' : m.Meets (.blaming fun e _ ↦ Q (.error e)) (fun a _ ↦ Q (.ok a)) s')
    (hQ : ∀ o o', Q o → Q o' → o' = o) : m.Indifferent s s' := by
  have hout : ∀ {s}, m.Meets (.blaming fun e _ ↦ Q (.error e)) (fun a _ ↦ Q (.ok a)) s →
      (m.run s).1 = .unfinished ∨ Q (m.run s).1 := by
    intro s h
    have hends := h.run.2
    match hrun : m.run s with
    | (.unfinished, _) => exact .inl rfl
    | (.ok a, _) =>
      rw [hrun] at hends
      exact .inr hends
    | (.error e, _) =>
      rw [hrun] at hends
      exact .inr hends
  refine ⟨hm, ?_⟩
  rcases hout h with hs | hs
  · exact .inl hs
  rcases hout h' with hs' | hs'
  · exact .inr (.inl hs')
  · exact .inr (.inr (hQ _ _ hs hs'))

end Indifferent

end Script

def Store.Peeks (s : Store σ) (t : Term σ) : Outcome σ Refusal (Head σ) → Prop
  | .ok h => h.At s t
  | .error e => ∃ v x, t = .var v ∧ Walk.Circles s [] v x ∧ e = .clash (.occursIn x (.var x))
  | .unfinished => False

theorem Store.Peeks.unique {o o' : Outcome σ Refusal (Head σ)} (h : s.Peeks t o)
    (h' : s.Peeks t o') : o' = o := by
  match o, o' with
  | .ok head, .ok head' => rw [Head.At.unique h h']
  | .error e, .error e' =>
    obtain ⟨v, x, rfl, hx, rfl⟩ := h
    obtain ⟨w, y, hw, hy, rfl⟩ := h'
    obtain rfl := Term.var.inj hw
    rw [hx.unique hy]
  | .ok head, .error e =>
    obtain ⟨v, x, rfl, hx, rfl⟩ := h'
    exact absurd hx.endless h.not_endless
  | .error e, .ok head =>
    obtain ⟨v, x, rfl, hx, rfl⟩ := h
    exact absurd hx.endless h'.not_endless

theorem Store.Peeks.back {o : Outcome σ Refusal (Head σ)} (ho : s'.Peeks t o)
    (h : s.SameRoots s') : s.Peeks t o := by
  match o with
  | .ok head => exact Head.At.back ho h
  | .error e =>
    obtain ⟨v, x, ht, hx, he⟩ := ho
    exact ⟨v, x, ht, hx.keep h.symm nofun, he⟩

theorem meets_peek_peeks {Q : Outcome σ Refusal (Head σ) → Prop} (hQ : ∀ o, s.Peeks t o → Q o) :
    (peek fuel t).Meets (.blaming fun e _ ↦ Q (.error e)) (fun head _ ↦ Q (.ok head)) s :=
  (meets_peek_at fun v x ht hx ↦ hQ (.error _) ⟨v, x, ht, hx, rfl⟩).mono fun _ _ _ h ↦ hQ _ h.2

theorem Store.SameRoots.indifferent_peek (h : s.SameRoots s') (t : Term σ) :
    (peek fuel t).Indifferent s s' :=
  .of_meets (Q := s.Peeks t) (reads_peek fuel t) (meets_peek_peeks fun _ ho ↦ ho)
    (meets_peek_peeks fun _ ho ↦ ho.back h) fun _ _ ho ho' ↦ ho.unique ho'

namespace Store

/-- Two stores with the same free variables, which are reached from the same terms. -/
structure SameFree (s s' : Store σ) : Prop where
  free : ∀ v, s'.binding v = none ↔ s.binding v = none
  reaches : ∀ v, s.binding v = none → ∀ t, s'.Reaches t v ↔ s.Reaches t v

theorem SameRoots.sameFree (h : s.SameRoots s') : s.SameFree s' := by
  have hroot : ∀ {s : Store σ} {v : Var}, s.binding v = none → s.root v = v :=
    fun hv ↦ root_of_ends (not_links_of_binding (o := none) hv)
  have hkeep : ∀ {s s' : Store σ} {v : Var}, s.SameRoots s' → s.binding v = none →
      s'.binding v = none := fun h hv ↦ (h.binding_of_root (hroot hv)).trans hv
  refine ⟨fun v ↦ ⟨hkeep h.symm, hkeep h⟩, fun v hv t ↦ ?_⟩
  have hiff := (Mirrors.of_sameRoots h).reaches_iff (x := v) (rfl : s.rooted t = s.rooted t)
  rw [hroot hv, hroot (hkeep h hv)] at hiff
  exact hiff.symm

namespace SameFree

variable (h : s.SameFree s')

include h

theorem indifferent_occurs (hv : s.binding v = none) (t : Term σ) :
    (occurs fuel v t).Indifferent s s' := by
  refine .of_meets (Q := fun o ↦ ∃ found, o = .ok found ∧ (found = true ↔ s.Reaches t v))
    (reads_search fuel v [] [t]) ?_ ?_ ?_
  · exact meets_occurs (fun hr ↦ ⟨true, rfl, iff_of_true rfl hr⟩)
      (fun hr ↦ ⟨false, rfl, iff_of_false Bool.false_ne_true hr⟩) (.inl trivial)
  · simp only [← h.reaches v hv]
    exact meets_occurs (fun hr ↦ ⟨true, rfl, iff_of_true rfl hr⟩)
      (fun hr ↦ ⟨false, rfl, iff_of_false Bool.false_ne_true hr⟩) (.inl trivial)
  · rintro _ _ ⟨b, rfl, hb⟩ ⟨b', rfl, hb'⟩
    rw [Bool.eq_iff_iff.mpr (hb.trans hb'.symm)]

theorem indifferent_freeVars (ts : List (Term σ)) : (freeVars fuel ts).Indifferent s s' := by
  have hmem : ∀ v, (s'.binding v = none ∧ ∃ t ∈ ts, s'.Reaches t v) ↔
      s.binding v = none ∧ ∃ t ∈ ts, s.Reaches t v := by
    intro v
    rw [h.free, and_congr_right_iff]
    intro hv
    simp only [h.reaches v hv]
  refine .of_meets (Q := fun o ↦ ∃ vs, o = .ok vs ∧ (vs.Pairwise fun v w ↦ v.id < w.id) ∧
      ∀ v, v ∈ vs ↔ s.binding v = none ∧ ∃ t ∈ ts, s.Reaches t v)
    (reads_collectFree fuel [] [] ts.reverse) ?_ ?_ ?_
  · exact meets_freeVars (fun vs hsorted hvs ↦ ⟨vs, rfl, hsorted, hvs⟩) (.inl trivial)
  · exact meets_freeVars (fun vs hsorted hvs ↦ ⟨vs, rfl, hsorted, fun v ↦ (hvs v).trans (hmem v)⟩)
      (.inl trivial)
  · rintro _ _ ⟨vs, rfl, hsorted, hvs⟩ ⟨vs', rfl, hsorted', hvs'⟩
    rw [Var.eq_of_sorted hsorted hsorted' fun v ↦ (hvs v).trans (hvs' v).symm]

end SameFree

end Store

namespace Operation

variable [DecidableEq σ] {op : Operation σ}

/-- The fuel of an operation depends on the store, but more fuel than enough changes nothing. -/
theorem run_eq_of_indifferent (hop : op.allocates = false)
    (h : ∀ fuel, (op.script fuel).Indifferent s s') : (op.run s').1 = (op.run s).1 := by
  have hends := op.run_ne_unfinished s (by simp [hop])
  have hends' := op.run_ne_unfinished s' (by simp [hop])
  have hrun := (op.script_approximates (le_max_left _ (op.fuel s'.weight))).run_eq hends
  have hrun' := (op.script_approximates (le_max_right (op.fuel s.weight) _)).run_eq hends'
  rcases (h (max (op.fuel s.weight) (op.fuel s'.weight))).outcome with hs | hs | hs
  · rw [hrun] at hs
    exact absurd hs hends
  · rw [hrun'] at hs
    exact absurd hs hends'
  · rw [hrun, hrun'] at hs
    exact hs

omit [DecidableEq σ] in
theorem Inspects.allocates_eq (hop : op.Inspects) : op.allocates = false := by
  cases op with
  | renameApart _ | renameApartAll _ => exact hop.elim
  | _ => rfl

theorem run_eq_of_sameRoots (h : s.SameRoots s') (hop : op.Inspects)
    (hfree : ∀ v t, op = .occurs v t → s.binding v = none) : (op.run s').1 = (op.run s).1 :=
  run_eq_of_indifferent hop.allocates_eq fun _ ↦
    Indifferent.compositional.script hop h.indifferent_peek
      (fun v t he ↦ h.sameFree.indifferent_occurs (hfree v t he) t) h.sameFree.indifferent_freeVars

theorem run_representative_sameRoots (p : Term σ) (s : Store σ) :
    s.SameRoots ((representative p).run s).2 := by
  have hmeets : ((representative p).script ((representative p).fuel s.weight)).Meets
      (.blaming fun _ s' ↦ s.SameRoots s') (fun _ s' ↦ s.SameRoots s') s :=
    meets_map.mpr (meets_bind.mpr ((meets_find_rooted _ p fun _ _ _ _ ↦ .refl s).mono
      fun _ _ _ h ↦ h.1))
  rcases run_ends rfl hmeets with ⟨_, s', hrun, hs'⟩ | ⟨_, s', hrun, hs'⟩
  · rw [hrun]
    exact hs'
  · rw [hrun]
    exact hs'

end Operation

namespace Store

theorem Acyclic.free_iff (hs : s.Acyclic) :
    s.binding v = none ↔ v ∈ (s.resolved (.var v)).vars := by
  constructor
  · intro hv
    rw [resolved_of_free hv, Term.mem_vars_var]
  · exact free_of_mem_resolved hs

theorem sameFree_of_resolved_eq (hs : s.Acyclic) (hs' : s'.Acyclic)
    (h : ∀ t, s'.resolved t = s.resolved t) : s.SameFree s' := by
  have hfree : ∀ v, s'.binding v = none ↔ s.binding v = none := by
    intro v
    rw [hs.free_iff, hs'.free_iff, h]
  refine ⟨hfree, fun v hv t ↦ ?_⟩
  have hmem := mem_vars_resolved_iff (t := t) (w := v) hs
  have hmem' := mem_vars_resolved_iff (t := t) (w := v) hs'
  rw [and_iff_right hv] at hmem
  rw [and_iff_right ((hfree v).mpr hv), h] at hmem'
  exact hmem'.symm.trans hmem

theorem resolved_eq_of_leads {Θ : (Var → Term σ) → Prop} (hs : s.Acyclic)
    (h : (faithful true Θ).Leads s s') (hfree : ∀ v, s.binding v = none → s'.binding v = none)
    (t : Term σ) : s'.resolved t = s.resolved t := by
  have halike : s'.Alike (s.resolved t) t := h.alike hs.chained (alike_resolved hs t)
  rw [← resolved_eq_of_alike (h.acyclic hs) halike]
  exact Settled.resolved_eq fun v hv ↦ hfree v (settled_resolved hs t v hv)

end Store

namespace Operation

variable [DecidableEq σ] {op : Operation σ} {ts : List (Term σ)}

/-- Over stores without cycles, whoever only looks at the store sees no more of it than what the
terms resolve to. -/
theorem run_eq_of_resolved_eq (hs : s.Acyclic) (hs' : s'.Acyclic)
    (h : ∀ t, s'.resolved t = s.resolved t) (hop : op.Inspects)
    (hfree : ∀ v t, op = .occurs v t → s.binding v = none) : (op.run s').1 = (op.run s).1 := by
  cases op with
  | resolve t => rw [run_resolve_of_acyclic hs, run_resolve_of_acyclic hs', h]
  | resolveAll ts =>
    rw [run_resolveAll_of_acyclic hs, run_resolveAll_of_acyclic hs', funext h]
  | equal t u => rw [run_equal_of_acyclic hs, run_equal_of_acyclic hs', h, h]
  | variant t u =>
    obtain ⟨vs, -, hvs⟩ := run_freeVars_listed hs t
    have hvs' : (s'.resolved t).ListedBy vs := (h t).symm ▸ hvs
    have hrun := run_variant (b := u) hs hvs
    have hrun' := run_variant (b := u) hs' hvs'
    rw [h, h] at hrun'
    rcases hrun with ⟨f, hf, hrun⟩ | ⟨hno, hrun⟩
    · rcases hrun' with ⟨f', hf', hrun'⟩ | ⟨hno, -⟩
      · rw [hrun, hrun', hf.map_eq hf' hvs]
      · exact absurd ⟨f, hf⟩ hno
    · rcases hrun' with ⟨f, hf, -⟩ | ⟨-, hrun'⟩
      · exact absurd ⟨f, hf⟩ hno
      · rw [hrun, hrun']
  | freeVars ts =>
    refine run_eq_of_indifferent rfl fun _ ↦ Indifferent.compositional.map ?_ _
    exact (Store.sameFree_of_resolved_eq hs hs' h).indifferent_freeVars ts
  | occurs v t =>
    refine run_eq_of_indifferent rfl fun _ ↦ Indifferent.compositional.map ?_ _
    exact (Store.sameFree_of_resolved_eq hs hs' h).indifferent_occurs (hfree v t rfl) t
  | _ => exact hop.elim

theorem free_run_terminal (p : Term σ) (hv : s.binding v = none) :
    ((terminal p).run s).2.binding v = none := by
  cases p with
  | node f args => exact hv
  | var x =>
    rcases Walk.follows_or_circles s x with ⟨w, hw⟩ | ⟨y, hy⟩
    · obtain ⟨s', hrun, hs', -⟩ := terminal_compresses hw
      rw [hrun, Store.binding, hs'.rest v (hw.not_mem_passed hv)]
      exact hv
    · rw [run_terminal_of_circles hy]
      exact hv

theorem run_terminal_keeps_resolved (hs : s.Acyclic) (p : Term σ) :
    ((terminal p).run s).2.Acyclic ∧
      ∀ t, ((terminal p).run s).2.resolved t = s.resolved t := by
  have hmeets : ((terminal p).script ((terminal p).fuel s.weight)).Meets
      (faithful true fun _ ↦ True) (fun _ _ ↦ True) s := (meets_terminal_faithful hs.chained).map _
  have hlead : (faithful true fun _ ↦ True).Leads s ((terminal p).run s).2 := hmeets.run.1
  exact ⟨hlead.acyclic hs, Store.resolved_eq_of_leads hs hlead fun v hv ↦ free_run_terminal p hv⟩

/-- Shortening a chain cannot be noticed by looking at the store, over whatever store. Binding its
links to the structure at its end cannot be noticed where there are no cycles. A search must be for
a variable that is free. -/
theorem compression_unseen (s : Store σ) (p : Term σ) (op : Operation σ) (hop : op.Inspects)
    (hfree : ∀ v t, op = .occurs v t → s.binding v = none) :
    (op.run ((representative p).run s).2).1 = (op.run s).1 ∧
      (s.Acyclic → (op.run ((terminal p).run s).2).1 = (op.run s).1) := by
  refine ⟨run_eq_of_sameRoots (run_representative_sameRoots p s) hop hfree, fun hs ↦ ?_⟩
  obtain ⟨hs', h⟩ := run_terminal_keeps_resolved hs p
  exact run_eq_of_resolved_eq hs hs' h hop hfree

theorem compression_unseen_lasso :
    ((resolve (.node .pair [.var ⟨0⟩, .var ⟨4⟩])).run
        ((representative (.var ⟨0⟩)).run Store.lasso).2).1 =
      .error (.clash (.occursIn ⟨5⟩ (.var ⟨5⟩))) ∧
    ((occurs ⟨3⟩ (.var ⟨0⟩)).run ((representative (.var ⟨0⟩)).run Store.lasso).2).1 =
      .ok (.bool true) ∧
    ((variant (.var ⟨0⟩) (.node .pair [.var ⟨4⟩, .node (.fn "f") [.var ⟨4⟩]])).run
        ((terminal (.var ⟨0⟩)).run (Store.braid none)).2).1 = .ok (.renaming [(⟨3⟩, ⟨4⟩)]) := by
  refine ⟨?_, ?_, ?_⟩
  · exact (compression_unseen Store.lasso (.var ⟨0⟩) (resolve _) trivial nofun).1.trans rfl
  · refine (compression_unseen Store.lasso (.var ⟨0⟩) (occurs _ _) trivial ?_).1.trans rfl
    rintro v t ⟨⟩
    rfl
  · exact ((compression_unseen (Store.braid none) (.var ⟨0⟩) (variant _ _) trivial nofun).2
      (Store.acyclic_braid none)).trans rfl

end Operation

end Unification
