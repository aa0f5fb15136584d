import Unification.Proofs.Settled
import Unification.Proofs.Unify.Blame

namespace Unification

open Relation Script Contract

variable {σ : Type} {s : Store σ} {K : Contract σ} {path : List Var} {t u : Term σ}
  {ts : List (Term σ)} {v w x y : Var} {c c' : Clash σ}

namespace Walk

/-- The chain that starts at a variable comes back to another one, which is the first that was
passed before. -/
inductive Circles (s : Store σ) : List Var → Var → Var → Prop
  | back {seen : List Var} {v x : Var} : s.Links v x → x ∈ v :: seen → Circles s seen v x
  | next {seen : List Var} {v w x : Var} :
      s.Links v w → w ∉ v :: seen → Circles s (v :: seen) w x → Circles s seen v x

namespace Circles

variable {seen : List Var}

theorem unique (h : Circles s seen v x) (h' : Circles s seen v y) : x = y := by
  induction h with
  | back hl hmem =>
    cases h' with
    | back hl' _ => exact hl.unique hl'
    | next hl' hnew _ =>
      obtain rfl := hl.unique hl'
      exact absurd hmem hnew
  | next hl hnew _ ih =>
    cases h' with
    | back hl' hmem =>
      obtain rfl := hl.unique hl'
      exact absurd hmem hnew
    | next hl' _ h' =>
      obtain rfl := hl.unique hl'
      exact ih h'

theorem loops (h : Circles s seen v x) (hseen : ∀ y ∈ seen, TransGen s.Links y v) :
    ReflTransGen s.Links v x ∧ TransGen s.Links x x := by
  induction h with
  | back hl hmem =>
    refine ⟨.single hl, ?_⟩
    rcases List.mem_cons.mp hmem with rfl | hmem
    · exact .single hl
    · exact (hseen _ hmem).tail hl
  | @next seen v w x hl _ _ ih =>
    obtain ⟨hwx, hx⟩ := ih fun y hy ↦ by
      rcases List.mem_cons.mp hy with rfl | hy
      · exact .single hl
      · exact (hseen y hy).tail hl
    exact ⟨.head hl hwx, hx⟩

theorem endless (h : Circles s [] v x) : s.Endless v :=
  Store.endless_of_loops (h.loops nofun).1 (h.loops nofun).2

end Circles

theorem meets_chase_circles {fuel : ℕ} {seen : List Var} {post : Walk σ → Store σ → Prop}
    (hpost : ∀ w, Follows s v w → post w s)
    (hfail : ∀ x, Circles s seen v x → K.failed (.clash (.occursIn x (.var x))) s)
    (hK : K.unfinished) : (chase fuel seen v).Meets K post s := by
  induction fuel generalizing seen v post with
  | zero => exact hK
  | succ fuel ih =>
    rw [chase, meets_bind, meets_lookup]
    cases hb : s.binding v with
    | none => exact hpost _ (.free hb)
    | some t =>
      cases t with
      | node f args => exact hpost _ (.layer hb)
      | var x =>
        dsimp only
        by_cases hx : x ∈ v :: seen
        · rw [if_pos hx]
          exact hfail x (.back hb hx)
        · rw [if_neg hx]
          exact meets_bind.mpr (ih (fun w hw ↦ hpost _ (.link hb hw))
            fun y hy ↦ hfail y (.next hb hx hy))

end Walk

namespace Store

def Above (s : Store σ) (path : List Var) (t : Term σ) : Prop :=
  ∀ x ∈ path, ∀ y ∈ t.vars, TransGen s.PointsTo x y

theorem above_nil (s : Store σ) (t : Term σ) : s.Above [] t := nofun

theorem Above.slot {f : σ} (h : s.Above path (.node f ts)) (ht : t ∈ ts) : s.Above path t :=
  fun x hx y hy ↦ h x hx y (Term.mem_vars_node.mpr ⟨t, ht, hy⟩)

theorem Above.slot_append {f : σ} {us : List (Term σ)}
    (h : s.Above path (.node f (ts ++ t :: us))) : s.Above path t :=
  h.slot (List.mem_append_right ts List.mem_cons_self)

theorem reflTransGen_pointsTo_root (s : Store σ) (v : Var) :
    ReflTransGen s.PointsTo v (s.root v) :=
  ReflTransGen.mono (fun _ _ h ↦ h.pointsTo) v _ (s.reflTransGen_root v)

theorem Above.root (h : s.Above path (.var v)) (hx : x ∈ path) :
    TransGen s.PointsTo x (s.root v) :=
  (h x hx v (Term.mem_vars_var.mpr rfl)).trans_left (s.reflTransGen_pointsTo_root v)

theorem Above.enter (h : s.Above path (.var v)) (hb : s.binding (s.root v) = some t) :
    s.Above (s.root v :: path) t := by
  intro x hx y hy
  rcases List.mem_cons.mp hx with rfl | hx
  · exact .single ⟨t, hb, hy⟩
  · exact (h.root hx).tail ⟨t, hb, hy⟩

/-- What a walk through the bindings below a term fails at first, slot by slot: a chain that comes
back to itself, or a variable of the path, whose binding is being walked already. -/
inductive Trips (s : Store σ) : List Var → Term σ → Clash σ → Prop
  | circle {path : List Var} {v x : Var} :
      Walk.Circles s [] v x → Trips s path (.var v) (.occursIn x (.var x))
  | again {path : List Var} {v : Var} {f : σ} {args : List (Term σ)} :
      s.binding (s.root v) = some (.node f args) → s.root v ∈ path →
      Trips s path (.var v) (.occursIn (s.root v) (.node f args))
  | enter {path : List Var} {v : Var} {f : σ} {args : List (Term σ)} {c : Clash σ} :
      s.binding (s.root v) = some (.node f args) → s.root v ∉ path →
      Trips s (s.root v :: path) (.node f args) c → Trips s path (.var v) c
  | slot {path : List Var} {f : σ} {ts : List (Term σ)} {t : Term σ} {us : List (Term σ)}
      {c : Clash σ} : (∀ u ∈ ts, ∃ r, s.ResolvesTo u r) → Trips s path t c →
      Trips s path (.node f (ts ++ t :: us)) c

namespace Trips

theorem tangled (h : s.Trips path t c) (ha : s.Above path t) : s.Tangled t := by
  induction h with
  | @circle path v x hx =>
    obtain ⟨hvx, hloop⟩ := hx.loops nofun
    refine ⟨x, ⟨v, Term.mem_vars_var.mpr rfl, ?_⟩, ?_⟩
    · exact ReflTransGen.mono (fun _ _ h ↦ h.pointsTo) v x hvx
    · exact TransGen.mono (fun _ _ h ↦ h.pointsTo) x x hloop
  | @again path v f args hb hmem =>
    exact ⟨s.root v, ⟨v, Term.mem_vars_var.mpr rfl, s.reflTransGen_pointsTo_root v⟩, ha.root hmem⟩
  | enter hb _ _ ih => exact .of_chain (s.reflTransGen_root _) ((ih (ha.enter hb)).of_binding hb)
  | slot _ _ ih => exact .of_slot (List.mem_append_right _ List.mem_cons_self) (ih ha.slot_append)

theorem not_resolvesTo {r : Term σ} (h : s.Trips path t c) (ha : s.Above path t) :
    ¬ s.ResolvesTo t r :=
  fun hr ↦ hr.not_tangled (h.tangled ha)

theorem blamed (h : s.Trips path t c) (ha : s.Above path t) :
    ∃ v u, c = .occursIn v u ∧ s.Reaches u v := by
  induction h with
  | @circle path v x hx => exact ⟨x, .var x, rfl, x, Term.mem_vars_var.mpr rfl, .refl⟩
  | @again path v f args hb hmem =>
    obtain ⟨y, ⟨u, hu, hy⟩, hback⟩ := TransGen.head'_iff.mp (ha.root hmem)
    obtain rfl := Option.some.inj (hb.symm.trans hu)
    exact ⟨s.root v, _, rfl, y, hy, hback⟩
  | enter hb _ _ ih => exact ih (ha.enter hb)
  | slot _ _ ih => exact ih ha.slot_append

theorem slot_unique {P : Term σ → Prop} {ts' us us' : List (Term σ)}
    (hts : ∀ x ∈ ts, P x) (ht : ¬ P t) (hts' : ∀ x ∈ ts', P x) (hu : ¬ P u)
    (he : ts ++ t :: us = ts' ++ u :: us') : t = u := by
  induction ts generalizing ts' with
  | nil =>
    cases ts' with
    | nil => exact (List.cons.inj he).1
    | cons x ts' =>
      obtain ⟨rfl, -⟩ := List.cons.inj he
      exact absurd (hts' t List.mem_cons_self) ht
  | cons x ts ih =>
    cases ts' with
    | nil =>
      obtain ⟨rfl, -⟩ := List.cons.inj he
      exact absurd (hts x List.mem_cons_self) hu
    | cons y ts' =>
      exact ih (fun z hz ↦ hts z (List.mem_cons_of_mem x hz))
        (fun z hz ↦ hts' z (List.mem_cons_of_mem y hz)) (List.cons.inj he).2

theorem unique (h : s.Trips path t c) (h' : s.Trips path t c') (ha : s.Above path t) :
    c = c' := by
  have hcircle : ∀ {v x : Var} {f : σ} {args : List (Term σ)}, Walk.Circles s [] v x →
      s.binding (s.root v) ≠ some (.node f args) := by
    intro v x f args hx hb
    obtain ⟨y, hy⟩ := hx.endless
    cases hb.symm.trans hy
  induction h with
  | circle hx =>
    cases h' with
    | circle hx' => rw [hx.unique hx']
    | again hb _ => exact absurd hb (hcircle hx)
    | enter hb _ _ => exact absurd hb (hcircle hx)
  | again hb hmem =>
    cases h' with
    | circle hx => exact absurd hb (hcircle hx)
    | again hb' _ => rw [Option.some.inj (hb.symm.trans hb')]
    | enter _ hnew _ => exact absurd hmem hnew
  | enter hb hnew _ ih =>
    cases h' with
    | circle hx => exact absurd hb (hcircle hx)
    | again _ hmem => exact absurd hmem hnew
    | enter hb' _ h' =>
      obtain ⟨rfl, rfl⟩ := Term.node.inj (Option.some.inj (hb.symm.trans hb'))
      exact ih h' (ha.enter hb)
  | @slot path f ts t us c hts h ih =>
    have hfirst : ∀ {t : Term σ} {c : Clash σ}, s.Trips path t c → s.Above path t →
        ¬ ∃ r, s.ResolvesTo t r := fun h ha ⟨_, hr⟩ ↦ h.not_resolvesTo ha hr
    have hat : s.Above path t := ha.slot_append
    generalize he : ts ++ t :: us = args at h' ha
    cases h' with
    | slot hts' h' =>
      obtain rfl := slot_unique hts (hfirst h hat) hts' (hfirst h' ha.slot_append) he
      exact ih h' hat

end Trips

end Store

/-- The finished entries of a memo are right, and the started ones are those of the path. -/
structure Memo.Sound (s : Store σ) (path : List Var) (memo : Memo σ) : Prop where
  started : ∀ v, List.lookup v memo = some .started ↔ v ∈ path
  done : ∀ v u, List.lookup v memo = some (.done u) → s.ResolvesTo (.var v) u

namespace Memo.Sound

variable {memo : Memo σ}

theorem nil (s : Store σ) : Memo.Sound s [] [] :=
  ⟨fun v ↦ by simp, nofun⟩

theorem start (h : memo.Sound s path) (v : Var) :
    Memo.Sound s (v :: path) ((v, .started) :: memo) := by
  refine ⟨started_start h.started v, fun x u hx ↦ ?_⟩
  rw [lookup_cons] at hx
  split at hx
  · cases hx
  · exact h.done x u hx

theorem finish (h : memo.Sound s (v :: path)) (hv : v ∉ path) (hu : s.ResolvesTo (.var v) u) :
    Memo.Sound s path ((v, .done u) :: memo) := by
  refine ⟨started_finish h.started (.inr rfl) hv u, fun x r hx ↦ ?_⟩
  rw [lookup_cons] at hx
  split at hx
  · obtain rfl : u = r := by simpa using hx
    rwa [‹x = v›]
  · exact h.done x r hx

end Memo.Sound

section Meets

variable {failed : Failure σ Refusal → Store σ → Prop} {fuel n : ℕ} {memo : Memo σ}

theorem meets_mapState_resolving {f : Memo σ → Term σ → Script σ Refusal (Term σ × Memo σ)}
    (hf : ∀ t ∈ ts, ∀ memo : Memo σ, memo.Sound s path →
      (∀ c, s.Trips path t c → failed (.clash c) s) →
      (f memo t).Meets (.blaming failed)
        (fun r s' ↦ s' = s ∧ s.ResolvesTo t r.1 ∧ r.2.Sound s path) s)
    (hfail : ∀ pre t post c, ts = pre ++ t :: post → (∀ u ∈ pre, ∃ r, s.ResolvesTo u r) →
      s.Trips path t c → failed (.clash c) s) (hm : memo.Sound s path) :
    (mapState f memo ts).Meets (.blaming failed)
      (fun r s' ↦ s' = s ∧ List.Forall₂ s.ResolvesTo ts r.1 ∧ r.2.Sound s path) s := by
  induction ts generalizing memo with
  | nil => exact ⟨rfl, .nil, hm⟩
  | cons t ts ih =>
    have hhead := hf t List.mem_cons_self memo hm fun c ↦ hfail [] t ts c rfl nofun
    refine meets_bind.mpr (hhead.mono ?_)
    rintro ⟨r, memo'⟩ s' - ⟨rfl, hr, hm'⟩
    have hrest := ih (fun u hu ↦ hf u (List.mem_cons_of_mem t hu))
      (fun pre u post c he hpre ↦ hfail (t :: pre) u post c (congrArg (t :: ·) he)
        (List.forall_mem_cons.mpr ⟨⟨r, hr⟩, hpre⟩)) hm'
    refine meets_bind.mpr (hrest.mono ?_)
    rintro ⟨rs, memo''⟩ s' - ⟨rfl, hrs, hm''⟩
    exact ⟨rfl, .cons hr hrs, hm''⟩

theorem meets_peek_at (hfail : ∀ v x, t = .var v → Walk.Circles s [] v x →
      failed (.clash (.occursIn x (.var x))) s) :
    (peek fuel t).Meets (.blaming failed) (fun h s' ↦ s' = s ∧ h.At s t) s := by
  cases t with
  | node f args => exact ⟨rfl, .layer ⟨f, args⟩⟩
  | var v =>
    refine meets_bind.mpr (Walk.meets_chase_circles (fun w hw ↦ ⟨rfl, ?_⟩)
      (fun x hx ↦ hfail v x rfl hx) trivial)
    have hb := hw.binding_root
    rw [w.head_eq, ← hw.ends.root_eq]
    rw [← hw.ends.root_eq] at hb
    exact .var v hb

/-- A walk with a memo comes to the resolved term, or it fails with what the walk without a memo
fails at first. -/
theorem meets_resolveWith_trips (hm : memo.Sound s path) (ha : s.Above path t)
    (hfail : ∀ c, s.Trips path t c → failed (.clash c) s) :
    (resolveWith fuel n memo t).Meets (.blaming failed)
      (fun r s' ↦ s' = s ∧ s.ResolvesTo t r.1 ∧ r.2.Sound s path) s := by
  induction n generalizing memo path t with
  | zero => exact trivial
  | succ n ih =>
    have hlayer : ∀ (layer : Layer σ (Term σ)) (path : List Var) (memo : Memo σ),
        memo.Sound s path → s.Above path layer.toTerm →
        (∀ c, s.Trips path layer.toTerm c → failed (.clash c) s) →
        (layer.mapMemo (resolveWith fuel n) memo).Meets (.blaming failed)
          (fun r s' ↦ s' = s ∧ s.ResolvesTo layer.toTerm r.1 ∧ r.2.Sound s path) s := by
      intro layer path memo hm ha hfail
      refine meets_bind.mpr ((meets_mapState_resolving (fun t ht memo hm ↦ ih hm (ha.slot ht))
        (fun pre t post c he hpre ht ↦ hfail c ?_) hm).mono fun r s' _ hr ↦ ?_)
      · rw [Layer.toTerm, he]
        exact .slot hpre ht
      · exact ⟨hr.1, .node hr.2.1, hr.2.2⟩
    have hcircle : ∀ v x, t = .var v → Walk.Circles s [] v x →
        failed (.clash (.occursIn x (.var x))) s := by
      rintro v x rfl hx
      exact hfail _ (.circle hx)
    refine meets_bind.mpr ((meets_peek_at hcircle).mono ?_)
    rintro head s' - ⟨rfl, hhead⟩
    cases hhead with
    | layer l => exact hlayer l path memo hm ha hfail
    | @var v o hb =>
      have hchain := s'.reflTransGen_root v
      cases o with
      | none => exact ⟨rfl, .chain hchain (.free hb), hm⟩
      | some layer =>
        dsimp only [Head.ofVar]
        cases hlook : List.lookup (s'.root v) memo with
        | some p =>
          cases p with
          | started => exact hfail _ (.again hb ((hm.started _).mp hlook))
          | done u => exact ⟨rfl, .chain hchain (hm.done _ _ hlook), hm⟩
        | none =>
          have hnew : s'.root v ∉ path := by
            intro hmem
            cases hlook.symm.trans ((hm.started _).mpr hmem)
          refine meets_bind.mpr ((hlayer layer _ _ (hm.start _) (ha.enter hb)
            fun c hc ↦ hfail c (.enter hb hnew hc)).mono ?_)
          rintro ⟨r, memo'⟩ s' - ⟨rfl, hr, hm'⟩
          have hvar := hr.bound hb
          exact ⟨rfl, .chain hchain hvar, hm'.finish hnew hvar⟩

end Meets

namespace Operation

variable [DecidableEq σ] {r : Term σ}

theorem run_resolve (t : Term σ) (s : Store σ) :
    (∃ r, (resolve t).run s = (.ok (.term r), s) ∧ s.ResolvesTo t r) ∨
      ∃ c, (resolve t).run s = (.error (.clash c), s) ∧ s.Trips [] t c := by
  have hmeets : ((resolve t).script ((resolve t).fuel s.weight)).Meets
      (.blaming fun e s' ↦ s' = s ∧ ∃ c, e = .clash c ∧ s.Trips [] t c)
      (fun x s' ↦ s' = s ∧ ∃ r, x = .term r ∧ s.ResolvesTo t r) s := by
    refine meets_map.mpr (meets_bind.mpr ((meets_resolveWith_trips (.nil s) (s.above_nil t)
      fun c hc ↦ ⟨rfl, c, rfl, hc⟩).mono fun r s' _ hr ↦ ?_))
    exact ⟨hr.1, r.1, rfl, hr.2.1⟩
  rcases run_ends rfl hmeets with ⟨_, s', hrun, rfl, r, rfl, hr⟩ | ⟨_, s', hrun, rfl, c, rfl, hc⟩
  · exact .inl ⟨r, hrun, hr⟩
  · exact .inr ⟨c, hrun, hc⟩

theorem run_resolve_eq_ok_iff : (resolve t).run s = (.ok (.term r), s) ↔ s.ResolvesTo t r := by
  rcases run_resolve t s with ⟨r', hrun, hr'⟩ | ⟨c, hrun, hc⟩
  · rw [hrun]
    constructor
    · rintro ⟨⟩
      exact hr'
    · intro hr
      rw [hr'.unique hr]
  · rw [hrun]
    constructor
    · rintro ⟨⟩
    · exact fun hr ↦ absurd hr (hc.not_resolvesTo (s.above_nil t))

theorem run_resolve_of_acyclic (hs : s.Acyclic) (t : Term σ) :
    (resolve t).run s = (.ok (.term (s.resolved t)), s) :=
  run_resolve_eq_ok_iff.mpr (Store.resolvesTo_resolved hs t)

theorem run_resolve_eq_error_iff {e : Failure σ Refusal} :
    (resolve t).run s = (.error e, s) ↔ ∃ c, e = .clash c ∧ s.Trips [] t c := by
  rcases run_resolve t s with ⟨r, hrun, hr⟩ | ⟨c', hrun, hc'⟩
  · rw [hrun]
    constructor
    · rintro ⟨⟩
    · rintro ⟨c, -, hc⟩
      exact absurd hr (hc.not_resolvesTo (s.above_nil t))
  · rw [hrun]
    constructor
    · rintro ⟨⟩
      exact ⟨c', rfl, hc'⟩
    · rintro ⟨c, rfl, hc⟩
      rw [hc'.unique hc (s.above_nil t)]

theorem run_resolveAll (ts : List (Term σ)) (s : Store σ) :
    (∃ rs, (resolveAll ts).run s = (.ok (.terms rs), s) ∧ List.Forall₂ s.ResolvesTo ts rs) ∨
      ∃ pre t post c, ts = pre ++ t :: post ∧ (∀ u ∈ pre, ∃ r, s.ResolvesTo u r) ∧
        s.Trips [] t c ∧ (resolveAll ts).run s = (.error (.clash c), s) := by
  have hmeets : ((resolveAll ts).script ((resolveAll ts).fuel s.weight)).Meets
      (.blaming fun e s' ↦ s' = s ∧ ∃ pre t post c, ts = pre ++ t :: post ∧
        (∀ u ∈ pre, ∃ r, s.ResolvesTo u r) ∧ s.Trips [] t c ∧ e = .clash c)
      (fun x s' ↦ s' = s ∧ ∃ rs, x = .terms rs ∧ List.Forall₂ s.ResolvesTo ts rs) s := by
    refine meets_map.mpr (meets_bind.mpr ((meets_mapState_resolving
      (fun t _ memo hm ↦ meets_resolveWith_trips hm (s.above_nil t))
      (fun pre t post c he hpre hc ↦ ⟨rfl, pre, t, post, c, he, hpre, hc, rfl⟩) (.nil s)).mono
        fun r s' _ hr ↦ ?_))
    exact ⟨hr.1, r.1, rfl, hr.2.1⟩
  rcases run_ends rfl hmeets with ⟨_, s', hrun, rfl, rs, rfl, hrs⟩ |
    ⟨_, s', hrun, rfl, pre, t, post, c, he, hpre, hc, rfl⟩
  · exact .inl ⟨rs, hrun, hrs⟩
  · exact .inr ⟨pre, t, post, c, he, hpre, hc, hrun⟩

theorem run_resolveAll_of_acyclic (hs : s.Acyclic) (ts : List (Term σ)) :
    (resolveAll ts).run s = (.ok (.terms (ts.map s.resolved)), s) := by
  rcases run_resolveAll ts s with ⟨rs, hrun, hrs⟩ | ⟨pre, t, post, c, -, -, hc, -⟩
  · have hmap : ts.map s.resolved = rs.map id :=
      Store.map_eq_of_forall₂ (hrs.imp fun t _ hr ↦ (Store.resolvesTo_resolved hs t).unique hr)
    rw [hrun, hmap, List.map_id]
  · obtain ⟨v, -, hv⟩ := hc.tangled (s.above_nil t)
    exact absurd hv (hs v)

/-- Resolving several terms with one memo comes to what comes of resolving each of them on its own:
all results, or the failure of the first one that fails. -/
theorem resolveAll_agrees (s : Store σ) (ts : List (Term σ)) :
    (∃ rs, List.Forall₂ (fun t r ↦ (resolve t).run s = (.ok (.term r), s)) ts rs ∧
      (resolveAll ts).run s = (.ok (.terms rs), s)) ∨
    ∃ pre t post e, ts = pre ++ t :: post ∧
      (∀ u ∈ pre, ∃ r, (resolve u).run s = (.ok (.term r), s)) ∧
      (resolve t).run s = (.error e, s) ∧ (resolveAll ts).run s = (.error e, s) := by
  simp only [run_resolve_eq_ok_iff, run_resolve_eq_error_iff]
  rcases run_resolveAll ts s with ⟨rs, hrun, hrs⟩ | ⟨pre, t, post, c, he, hpre, hc, hrun⟩
  · exact .inl ⟨rs, hrs, hrun⟩
  · exact .inr ⟨pre, t, post, .clash c, he, hpre, ⟨c, rfl, hc⟩, hrun⟩

/-- Where no cycle of bindings can be reached, resolving a term puts in all bindings; where one can
be reached, it fails and blames a variable for a term that it occurs in. -/
theorem resolve_complete_or_cyclic (s : Store σ) (t : Term σ) :
    ((∀ v, s.Reaches t v → ¬ TransGen s.PointsTo v v) →
      ∃ r, (resolve t).run s = (.ok (.term r), s) ∧ (∀ v ∈ r.vars, s.binding v = none) ∧
        (∃ θ : Var → Term σ, (∀ v ∈ t.vars, (resolve (.var v)).run s = (.ok (.term (θ v)), s)) ∧
          r = t.subst θ) ∧
        (∃ N, ∀ n ≥ N, s.substitute^[n] t = r) ∧ (resolve r).run s = (.ok (.term r), s)) ∧
    ((∃ v, s.Reaches t v ∧ TransGen s.PointsTo v v) →
      ∃ v u, (resolve t).run s = (.error (.clash (.occursIn v u)), s) ∧
        (occurs v u).run s = (.ok (.bool true), s)) := by
  rcases run_resolve t s with ⟨r, hrun, hr⟩ | ⟨c, hrun, hc⟩
  · refine ⟨fun _ ↦ ?_, fun htangled ↦ absurd htangled hr.not_tangled⟩
    obtain ⟨θ, hθ, hsubst⟩ := hr.exists_subst
    refine ⟨r, hrun, hr.2, ⟨θ, fun v hv ↦ run_resolve_eq_ok_iff.mpr (hθ v hv), hsubst⟩, ?_,
      run_resolve_eq_ok_iff.mpr hr.self⟩
    simpa only [Store.iterate_substitute] using hr.eventually
  · constructor
    · intro hfree
      obtain ⟨v, hv, hloop⟩ := hc.tangled (s.above_nil t)
      exact absurd hloop (hfree v hv)
    · intro _
      obtain ⟨v, u, rfl, hvu⟩ := hc.blamed (s.above_nil t)
      exact ⟨v, u, hrun, run_occurs_eq_true.mpr hvu⟩

end Operation

def Store.knotted : Store Symbol :=
  ((({ next := 4 } : Store Symbol).bind ⟨0⟩ (.node .pair [.var ⟨1⟩, .var ⟨1⟩])).bind ⟨1⟩
    (.node (.fn "f") [.var ⟨2⟩])).bind ⟨3⟩ (.node (.fn "f") [.var ⟨3⟩])

theorem Operation.resolve_complete_or_cyclic_knotted :
    (∃ r, (resolve (.var ⟨0⟩)).run Store.knotted = (.ok (.term r), Store.knotted) ∧
      r = .node .pair [.node (.fn "f") [.var ⟨2⟩], .node (.fn "f") [.var ⟨2⟩]] ∧
      (∃ N, ∀ n ≥ N, Store.knotted.substitute^[n] (.var ⟨0⟩) = r) ∧
      (resolve r).run Store.knotted = (.ok (.term r), Store.knotted)) ∧
    ∃ v u, (resolve (.node .pair [.var ⟨0⟩, .var ⟨3⟩])).run Store.knotted =
        (.error (.clash (.occursIn v u)), Store.knotted) ∧
      (occurs v u).run Store.knotted = (.ok (.bool true), Store.knotted) := by
  have hr : Store.knotted.ResolvesTo (.var ⟨0⟩)
      (.node .pair [.node (.fn "f") [.var ⟨2⟩], .node (.fn "f") [.var ⟨2⟩]]) := by
    refine ⟨⟨2, rfl⟩, fun v hv ↦ ?_⟩
    obtain rfl : v = ⟨2⟩ := by simpa using hv
    rfl
  have hreach : Store.knotted.Reaches (.node .pair [.var ⟨0⟩, .var ⟨3⟩]) ⟨3⟩ :=
    ⟨⟨3⟩, by simp, .refl⟩
  have hloop : TransGen Store.knotted.PointsTo ⟨3⟩ ⟨3⟩ := .single ⟨_, rfl, by simp⟩
  obtain ⟨r, hrun, -, -, hlimit, hagain⟩ :=
    (resolve_complete_or_cyclic Store.knotted (.var ⟨0⟩)).1 fun v hv h ↦ hr.not_tangled ⟨v, hv, h⟩
  refine ⟨⟨r, hrun, (run_resolve_eq_ok_iff.mp hrun).unique hr, hlimit, hagain⟩, ?_⟩
  exact (resolve_complete_or_cyclic Store.knotted _).2 ⟨⟨3⟩, hreach, hloop⟩

end Unification
