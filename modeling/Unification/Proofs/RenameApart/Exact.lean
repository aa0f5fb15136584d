import Mathlib.Data.Set.Card
import Unification.Proofs.RenameApart.Copying
import Unification.Proofs.Variant

namespace Unification

open Relation Script Contract

variable {σ : Type} {s s' : Store σ} {V : Finset Var} {vs : List Var} {t u c : Term σ}
  {ts us cs : List (Term σ)} {v w : Var}

namespace Store

/-- The different variables that can be reached from the terms, apart from those that are bound to
another variable. -/
def roots (s : Store σ) (ts : List (Term σ)) : Set Var :=
  {v | (∃ t ∈ ts, s.Reaches t v) ∧ ∀ w, ¬ s.Links v w}

theorem finite_roots (hc : s.Contained) (hts : ∀ t ∈ ts, t.Below s.next) :
    (s.roots ts).Finite := by
  have hbelow : {v : Var | v.id < s.next}.Finite :=
    (Set.finite_lt_nat s.next).preimage fun _ _ _ _ h ↦ Var.eq_of_id_eq h
  exact hbelow.subset fun v ⟨⟨t, ht, hv⟩, _⟩ ↦ hc.id_lt_of_reaches (hts t ht) hv

theorem exists_roots (hc : s.Contained) (hts : ∀ t ∈ ts, t.Below s.next) :
    ∃ V : Finset Var, ↑V = s.roots ts :=
  ⟨_, (finite_roots hc hts).coe_toFinset⟩

theorem root_mem_roots (hs : s.Chained) (ht : t ∈ ts) (hv : s.Reaches t v) :
    s.root v ∈ s.roots ts := by
  obtain ⟨w, hw, hwv⟩ := hv
  exact ⟨⟨t, ht, w, hw, hwv.trans (s.reflTransGen_pointsTo_root v)⟩, hs.not_links_root v⟩

theorem basin_roots (hs : s.Chained) (hc : s.Contained) (hts : ∀ t ∈ ts, t.Below s.next)
    (hV : ↑V = s.roots ts) : s.Basin V := by
  refine ⟨fun v hv ↦ ?_, fun v hv ↦ ?_, fun v hv w hp ↦ ?_⟩
  all_goals
    rw [← Finset.mem_coe, hV] at hv
    obtain ⟨⟨t, ht, x, hx, hxv⟩, hends⟩ := hv
  · exact hends
  · exact hc.id_lt_of_reaches (hts t ht) ⟨x, hx, hxv⟩
  · rw [← Finset.mem_coe, hV]
    exact root_mem_roots hs ht ⟨x, hx, hxv.tail hp⟩

theorem Batch.root_mem_of_reaches (h : s.Batch V vs) (hs : s.Chained) (ht : s.EndsIn vs t)
    (hv : s.Reaches t v) : s.root v ∈ vs := by
  obtain ⟨w, hw, hwv⟩ := hv
  induction hwv with
  | refl => exact ht w hw
  | tail _ hp ih => exact h.root_mem hs ih hp

theorem Batch.length_eq (h : s.Batch V vs) (hs : s.Chained) (hts : ∀ t ∈ ts, s.EndsIn vs t)
    (hV : ↑V = s.roots ts) : vs.length = (s.roots ts).ncard := by
  have hall : vs.toFinset = V := by
    ext v
    rw [List.mem_toFinset]
    refine ⟨h.within v, fun hv ↦ ?_⟩
    rw [← Finset.mem_coe, hV] at hv
    obtain ⟨⟨t, ht, hv⟩, hends⟩ := hv
    rw [← root_of_ends hends]
    exact h.root_mem_of_reaches hs (hts t ht) hv
  rw [← hV, ← hall, Set.ncard_coe_finset, List.toFinset_card_of_nodup h.nodup]

theorem injOn_copyName (h : s.Batch V vs) (hs : s.Acyclic) (hts : ∀ t ∈ ts, s.EndsIn vs t) :
    Set.InjOn (s.copyName vs) {v | ∃ t ∈ ts, v ∈ (s.resolved t).vars} := by
  have hends : ∀ v, (∃ t ∈ ts, v ∈ (s.resolved t).vars) → s.root v = v ∧ s.root v ∈ vs := by
    rintro v ⟨t, ht, hv⟩
    obtain ⟨hfree, hreach⟩ := (mem_vars_resolved_iff hs).mp hv
    exact ⟨root_of_ends (not_links_of_binding (o := none) hfree),
      h.root_mem_of_reaches hs.chained (hts t ht) hreach⟩
  intro v hv w hw he
  rw [← (hends v hv).1, copyName_inj (hends v hv).2 he, (hends w hw).1]

end Store

def Store.braid (limit : Option ℕ) : Store Symbol :=
  ((({ config := { variableLimit := limit }, next := 5 } : Store Symbol).bind ⟨0⟩ (.var ⟨1⟩)).bind
    ⟨1⟩ (.node .pair [.var ⟨3⟩, .var ⟨2⟩])).bind ⟨2⟩ (.node (.fn "f") [.var ⟨3⟩])

theorem Store.contained_braid (limit : Option ℕ) : (braid limit).Contained := by
  have hnew : ({ config := { variableLimit := limit }, next := 5 } : Store Symbol).Contained :=
    fun id e h ↦ by simp at h
  have h₀ := hnew.bind (v := ⟨0⟩) (u := .var ⟨1⟩) (show 0 < 5 by decide)
    (show Term.Below 5 _ by decide)
  have h₁ := h₀.bind (v := ⟨1⟩) (u := .node .pair [.var ⟨3⟩, .var ⟨2⟩]) (show 1 < 5 by decide)
    (show Term.Below 5 _ by decide)
  have h₂ := h₁.bind (v := ⟨2⟩) (u := .node (.fn "f") [.var ⟨3⟩]) (show 2 < 5 by decide)
    (show Term.Below 5 _ by decide)
  exact h₂

theorem Store.acyclic_braid (limit : Option ℕ) : (braid limit).Acyclic := by
  have hnew : ({ config := { variableLimit := limit }, next := 5 } : Store Symbol).Descends
      fun v ↦ 3 - v.id := descends_of_entries_empty rfl _
  exact (((hnew.bind (by decide)).bind (by decide)).bind (by decide)).acyclic

def Store.strands : List (Term Symbol) := [.var ⟨0⟩, .node .pair [.var ⟨2⟩, .var ⟨4⟩]]

theorem Store.below_strands (limit : Option ℕ) : ∀ t ∈ strands, t.Below (braid limit).next :=
  show ∀ t ∈ strands, t.Below 5 by decide

def Store.spent : Store Symbol := { next := maxCounter }

theorem Store.mem_roots_spent : ⟨0⟩ ∈ spent.roots [.var ⟨0⟩] :=
  ⟨⟨_, List.mem_singleton_self _, _, Term.mem_vars_var.mpr rfl, .refl⟩,
    not_links_of_binding (o := none) (binding_of_entries_empty rfl ⟨0⟩)⟩

theorem Store.acyclic_spent : spent.Acyclic := (descends_of_entries_empty rfl fun _ ↦ 0).acyclic

namespace Operation

variable [DecidableEq σ]

theorem run_renameApartAll (hs : s.Acyclic) (hc : s.Contained) (hts : ∀ t ∈ ts, t.Below s.next)
    (hV : ↑V = s.roots ts) :
    (∃ vs s', (renameApartAll ts).run s =
          (.ok (.terms (ts.map (Term.rename (s.copyName vs)))), s') ∧
        s.CopiedTo V vs s' ∧ ∀ t ∈ ts, s.EndsIn vs t) ∨
      ∃ e s', (renameApartAll ts).run s = (.error e, s') ∧ s.Depleted V e s' := by
  have hbasin := Store.basin_roots hs.chained hc hts hV
  have hmeets : ((renameApartAll ts).script ((renameApartAll ts).fuel s.weight)).Meets
      (.blaming (s.Depleted V)) (fun x s' ↦ ∃ vs,
        x = .terms (ts.map (Term.rename (s.copyName vs))) ∧ s.CopiedTo V vs s' ∧
          ∀ t ∈ ts, s.EndsIn vs t) s := by
    refine meets_map.mpr (meets_bind.mpr ((meets_mapState_copied (fun t ht vs memo s₁ h hm ↦
      meets_renameWith_copied hs hbasin h hm (s.above_nil t) fun v hv ↦ ?_)
      (.nil hc V) (.nil s)).mono ?_))
    · rw [← Finset.mem_coe, hV]
      exact Store.root_mem_roots hs.chained ht ⟨v, hv, .refl⟩
    · rintro ⟨us, memo⟩ s' - ⟨vs, -, hr⟩
      exact ⟨vs, congrArg Value.terms hr.terms, hr.store, hr.ends⟩
  have hfinished := (renameApartAll ts).run_ne_unfinished s
    fun _ t ht v hv ↦ hc.id_lt_of_reaches (hts t ht) hv
  rcases hmeets.ends hfinished with ⟨_, s', hrun, vs, rfl, hcopied, hin⟩ | ⟨e, s', hrun, hfailed⟩
  · exact .inl ⟨vs, s', hrun, hcopied, hin⟩
  · exact .inr ⟨e, s', hrun, hfailed⟩

theorem run_renameApart_eq_ok_iff :
    (renameApart t).run s = (.ok (.term c), s') ↔
      (renameApartAll [t]).run s = (.ok (.terms [c]), s') := by
  let fuel := (renameApart t).fuel s.weight
  let m : Script σ Refusal _ := renameWith fuel fuel [] t
  change (Value.term <$> (m >>= fun r ↦ Pure.pure r.1)).run s = _ ↔
    (Value.terms <$> ((m >>= fun r ↦ Pure.pure ([r.1], r.2)) >>= fun r ↦ Pure.pure r.1)).run s = _
  simp only [map_eq_pure_bind, run_bind]
  rcases m.run s with ⟨r | e | -, s''⟩
  · change (Outcome.ok (Value.term r.1), s'') = _ ↔ (Outcome.ok (Value.terms [r.1]), s'') = _
    simp
  · exact iff_of_false nofun nofun
  · exact iff_of_false nofun nofun

/-- Copies are consistent and have nothing in common with what was there before: no old variable is
reached from a copy, old terms resolve to what they did, and a one-to-one map from the free variables
of all originals turns what these resolve to into what the copies resolve to. -/
theorem renameApartAll_exact (hs : s.Acyclic) (hc : s.Contained) (hts : ∀ t ∈ ts, t.Below s.next) :
    (∀ cs s', (renameApartAll ts).run s = (.ok (.terms cs), s') →
      (∀ c ∈ cs, ∀ v, s'.Reaches c v → s.next ≤ v.id) ∧
      (∀ t : Term σ, t.Below s.next → ∃ r, (resolve t).run s = (.ok (.term r), s) ∧
        (resolve t).run s' = (.ok (.term r), s')) ∧
      ∃ ρ : Var → Var,
        Set.InjOn ρ {v | ∃ t ∈ ts, ∃ r, (resolve t).run s = (.ok (.term r), s) ∧ v ∈ r.vars} ∧
        List.Forall₂ (fun t c ↦ ∃ r, (resolve t).run s = (.ok (.term r), s) ∧
          (resolve c).run s' = (.ok (.term (r.rename ρ)), s')) ts cs) ∧
    ∀ t c s', (renameApart t).run s = (.ok (.term c), s') ↔
      (renameApartAll [t]).run s = (.ok (.terms [c]), s') := by
  refine ⟨fun cs s' hrun ↦ ?_, fun t c s' ↦ run_renameApart_eq_ok_iff⟩
  obtain ⟨V, hV⟩ := Store.exists_roots hc hts
  rcases run_renameApartAll hs hc hts hV with ⟨vs, s'', hrun', h, hin⟩ | ⟨e, s'', hrun', -⟩
  · cases hrun.symm.trans hrun'
    refine ⟨fun c hcs v hv ↦ ?_, fun t ht ↦ ?_, s.copyName vs, ?_, ?_⟩
    · obtain ⟨t, ht, rfl⟩ := List.mem_map.mp hcs
      exact h.le_of_reaches_copy (hin t ht) hv
    · exact ⟨_, run_resolve_of_acyclic hs t,
        run_resolve_eq_ok_iff.mpr (h.resolvesTo_old hs hc ht)⟩
    · refine (Store.injOn_copyName h.batch hs hin).mono ?_
      rintro v ⟨t, ht, r, hr, hv⟩
      cases hr.symm.trans (run_resolve_of_acyclic hs t)
      exact ⟨t, ht, hv⟩
    · rw [List.forall₂_map_right_iff, List.forall₂_same]
      exact fun t ht ↦ ⟨_, run_resolve_of_acyclic hs t,
        run_resolve_eq_ok_iff.mpr (h.resolvesTo_copy hs (hin t ht))⟩
  · cases hrun.symm.trans hrun'

theorem renameApartAll_exact_braid :
    ∃ s', (renameApartAll Store.strands).run (Store.braid none) =
        (.ok (.terms [.var ⟨7⟩, .node .pair [.var ⟨6⟩, .var ⟨8⟩]]), s') ∧
      (∀ v, s'.Reaches (.var ⟨7⟩) v → 5 ≤ v.id) ∧
      (∃ r, (resolve (.var ⟨0⟩)).run (Store.braid none) = (.ok (.term r), Store.braid none) ∧
        (resolve (.var ⟨0⟩)).run s' = (.ok (.term r), s')) ∧
      ∃ ρ : Var → Var, ρ ⟨3⟩ ≠ ρ ⟨4⟩ ∧
        (resolve (.var ⟨7⟩)).run s' = (.ok (.term (.node .pair
          [.var (ρ ⟨3⟩), .node (.fn "f") [.var (ρ ⟨3⟩)]])), s') ∧
        (resolve (.node .pair [.var ⟨6⟩, .var ⟨8⟩])).run s' = (.ok (.term (.node .pair
          [.node (.fn "f") [.var (ρ ⟨3⟩)], .var (ρ ⟨4⟩)])), s') := by
  obtain ⟨s', hrun⟩ : ∃ s', (renameApartAll Store.strands).run (Store.braid none) =
      (.ok (.terms [.var ⟨7⟩, .node .pair [.var ⟨6⟩, .var ⟨8⟩]]), s') := ⟨_, rfl⟩
  obtain ⟨hnew, hold, ρ, hρ, hcopies⟩ := (renameApartAll_exact (Store.acyclic_braid none)
    (Store.contained_braid none) (Store.below_strands none)).1 _ _ hrun
  have hpair : (resolve (.node .pair [.var ⟨2⟩, .var ⟨4⟩])).run (Store.braid none) =
      (.ok (.term (.node .pair [.node (.fn "f") [.var ⟨3⟩], .var ⟨4⟩])), Store.braid none) := rfl
  have hne : ρ ⟨3⟩ ≠ ρ ⟨4⟩ := fun he ↦ absurd (hρ ⟨_, by decide, _, hpair, by decide⟩
    ⟨_, by decide, _, hpair, by decide⟩ he) (by decide)
  rw [Store.strands, List.forall₂_cons, List.forall₂_cons] at hcopies
  obtain ⟨⟨r, hr, hfirst⟩, ⟨r', hr', hsecond⟩, -⟩ := hcopies
  cases hr
  cases hr'
  exact ⟨s', hrun, hnew _ List.mem_cons_self, hold _ (show Term.Below 5 _ by decide), ρ, hne,
    hfirst, hsecond⟩

/-- Copying uses up one variable for each that can be reached from the terms and is not bound to
another variable. If there are not so many left, it uses up all that are left and fails, and old
terms resolve to what they did before. Without a limit, there are as many left as the counter can
still count. -/
theorem renameApartAll_allocates (hs : s.Acyclic) (hc : s.Contained)
    (hts : ∀ t ∈ ts, t.Below s.next) :
    (s.roots ts).Finite ∧
    (s.next + (s.roots ts).ncard ≤ s.config.capacity →
      ∃ cs s', (renameApartAll ts).run s = (.ok (.terms cs), s') ∧
        s'.next = s.next + (s.roots ts).ncard) ∧
    (s.next ≤ s.config.capacity → s.config.capacity < s.next + (s.roots ts).ncard →
      ∃ s', (renameApartAll ts).run s = (.error (.store (.exhausted s.config.capacity)), s') ∧
        s'.next = s.config.capacity ∧
        ∀ t : Term σ, t.Below s.next → ∃ r, (resolve t).run s = (.ok (.term r), s) ∧
          (resolve t).run s' = (.ok (.term r), s')) := by
  obtain ⟨V, hV⟩ := Store.exists_roots hc hts
  refine ⟨Store.finite_roots hc hts, ?_⟩
  rcases run_renameApartAll hs hc hts hV with
    ⟨vs, s', hrun, h, hin⟩ | ⟨_, s', hrun, l, vs, rfl, hl, hle, h, hlt⟩
  · have hnext : s'.next = s.next + (s.roots ts).ncard := by
      rw [h.next, h.batch.length_eq hs.chained hin hV]
    refine ⟨fun _ ↦ ⟨_, s', hrun, hnext⟩, fun hle hlt ↦ ?_⟩
    have hlimit := h.limit hle
    omega
  · rw [← Set.ncard_coe_finset, hV] at hlt
    have hnext := h.next
    refine ⟨fun hfits ↦ by omega, fun hroom _ ↦ ?_⟩
    · have hlimit := h.limit hroom
      obtain rfl : l = s.config.capacity := by omega
      refine ⟨s', hrun, by omega, fun t ht ↦ ?_⟩
      exact ⟨_, run_resolve_of_acyclic hs t,
        run_resolve_eq_ok_iff.mpr (h.resolvesTo_old hs hc ht)⟩

/-- Four variables are copied, so there is room for them below nine but not below seven. A store
without a limit has no room when its counter has come to the end. -/
theorem renameApartAll_allocates_braid :
    (∃ cs s', (renameApartAll Store.strands).run (Store.braid (some 9)) = (.ok (.terms cs), s') ∧
      s'.next = 9) ∧
    (∃ s', (renameApartAll Store.strands).run (Store.braid (some 7)) =
        (.error (.store (.exhausted 7)), s') ∧ s'.next = 7 ∧
      ∃ r, (resolve (.var ⟨0⟩)).run (Store.braid (some 7)) =
          (.ok (.term r), Store.braid (some 7)) ∧
        (resolve (.var ⟨0⟩)).run s' = (.ok (.term r), s')) ∧
    ∃ s', (renameApartAll [.var ⟨0⟩]).run Store.spent =
        (.error (.store (.exhausted Store.maxCounter)), s') ∧ s'.next = Store.maxCounter := by
  have hexact := fun limit ↦ (renameApartAll_allocates (Store.acyclic_braid limit)
    (Store.contained_braid limit) (Store.below_strands limit)).2
  have hroots : ∀ limit, ((Store.braid limit).roots Store.strands).ncard = 4 := by
    obtain ⟨us, s', hrun, hnext⟩ : ∃ us s', (renameApartAll Store.strands).run
        (Store.braid none) = (.ok (.terms us), s') ∧ s'.next = 5 + 4 := ⟨_, _, rfl, rfl⟩
    refine fun _ ↦ Nat.add_left_cancel (n := 5) ?_
    rcases Nat.lt_or_ge (Store.braid none).config.capacity
      ((Store.braid none).next + ((Store.braid none).roots Store.strands).ncard) with hlt | hle
    · obtain ⟨s'', hrun', -⟩ := (hexact none).2 (show 5 ≤ Store.maxCounter by decide) hlt
      cases hrun.symm.trans hrun'
    · obtain ⟨cs, s'', hrun', hnext'⟩ := (hexact none).1 hle
      cases hrun.symm.trans hrun'
      exact hnext'.symm.trans hnext
  simp only [hroots] at hexact
  obtain ⟨s', hrun, hnext, hold⟩ := (hexact (some 7)).2 (show 5 ≤ 7 by decide)
    (show 7 < 5 + 4 by decide)
  refine ⟨(hexact (some 9)).1 (show 5 + 4 ≤ 9 by decide), ⟨s', hrun, hnext, hold _ ?_⟩, ?_⟩
  · exact (show Term.Below 5 _ by decide)
  · have hbelow : ∀ t ∈ [(.var ⟨0⟩ : Term Symbol)], t.Below Store.spent.next :=
      List.forall_mem_singleton.mpr (show Term.Below Store.maxCounter _ by decide)
    have hspent := renameApartAll_allocates Store.acyclic_spent
      (fun id e h ↦ by simp [Store.spent] at h) hbelow
    have hpos := (Set.ncard_pos hspent.1).mpr ⟨_, Store.mem_roots_spent⟩
    obtain ⟨s', hrun, hnext, -⟩ := hspent.2.2 le_rfl (Nat.lt_add_of_pos_right hpos)
    exact ⟨s', hrun, hnext⟩

end Operation

end Unification
