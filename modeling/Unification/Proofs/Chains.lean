import Unification.Proofs.Equations
import Unification.Proofs.Reading
import Unification.Proofs.Roots
import Unification.Proofs.Termination

namespace Unification

open Relation Script Contract

variable {σ : Type} {s s' : Store σ} {t : Term σ} {v : Var} {n fuel : ℕ} {memo : Memo σ}

namespace Store

theorem Chained.exists_ends (hs : s.Chained) (v : Var) : ∃ w, s.Ends v w := by
  have hterm : ∀ t : Term σ, ∀ v, t = .var v → ∃ w, s.Ends v w := by
    intro t
    induction t using hs.induct with
    | node f args => exact nofun
    | free v hv =>
      rintro _ ⟨⟩
      exact ⟨v, .refl (not_links_of_binding (o := none) hv)⟩
    | bound v t hv ih =>
      rintro _ ⟨⟩
      cases t with
      | node f args => exact ⟨v, .refl (not_links_of_binding (o := some ⟨f, args⟩) hv)⟩
      | var x =>
        obtain ⟨w, hw⟩ := ih x rfl
        exact ⟨w, hw.head hv⟩
  exact hterm _ v rfl

theorem chained_iff_ends : s.Chained ↔ ∀ v, ∃ w, s.Ends v w := by
  refine ⟨Chained.exists_ends, fun h v ↦ ?_⟩
  obtain ⟨w, hw⟩ := h v
  exact hw.not_loops

theorem binding_fresh (s : Store σ) (v : Var) : s.fresh.2.binding v = s.binding v := by
  unfold fresh
  split <;> rfl

theorem Chained.fresh (hs : s.Chained) : s.fresh.2.Chained := hs.of_binding_eq s.binding_fresh

end Store

namespace Contract

def targeting : Contract σ where
  bind s v t := s.Target v t
  promote _ _ := True
  fresh _ := True
  failed _ _ := True
  unfinished := True

theorem Leads.chained_of_targeting (h : targeting.Leads s s') (hs : s.Chained) : s'.Chained := by
  refine h.invariant hs fun r s hs hr ↦ ?_
  cases r with
  | lookup w => exact hs
  | rank w => exact hs
  | fresh => exact hs.fresh
  | bind w t => exact hs.bind hr
  | promote w => exact hs.promote

variable {α : Type} {m : Script σ Refusal α} {post : α → Store σ → Prop}

theorem meets_targeting_of_faithful {eager : Bool} {Θ : (Var → Term σ) → Prop}
    (h : m.Meets (faithful eager Θ) post s) : m.Meets targeting post s := by
  refine h.weaken (fun s r hr ↦ ?_) (fun _ _ _ ↦ trivial) fun _ ↦ trivial
  cases r with
  | lookup w => exact trivial
  | rank w => exact trivial
  | fresh => exact trivial
  | bind w t => exact hr.1
  | promote w => exact trivial

theorem meets_targeting_of_reading (h : m.Meets reading post s) : m.Meets targeting post s := by
  refine h.weaken (fun s r hr ↦ ?_) (fun _ _ _ ↦ trivial) fun _ ↦ trivial
  cases r with
  | lookup w => exact trivial
  | rank w => exact trivial
  | fresh => exact hr.elim
  | bind w t => exact hr.elim
  | promote w => exact hr.elim

end Contract

theorem meets_find_targeting (hs : s.Chained) :
    (find fuel t).Meets targeting (fun _ s' ↦ s'.Chained) s := by
  have hfind : (find fuel t).Meets (faithful false fun _ ↦ True) _ s :=
    meets_find_faithful hs fuel t
  exact (meets_targeting_of_faithful hfind).mono fun _ _ hlead _ ↦ hlead.chained_of_targeting hs

theorem meets_fresh_targeting (hs : s.Chained) :
    Script.fresh.Meets targeting (fun _ s' ↦ s'.Chained) s :=
  meets_fresh trivial (fun _ _ ↦ trivial) fun _ ↦ hs.of_binding_eq fun _ ↦ rfl

theorem meets_renameWith_targeting (hs : s.Chained) :
    (renameWith fuel n memo t).Meets targeting (fun _ s' ↦ s'.Chained) s := by
  induction n generalizing memo t s with
  | zero => exact trivial
  | succ n ih =>
    have hslots : ∀ (layer : Layer σ (Term σ)) (memo : Memo σ) (s : Store σ), s.Chained →
        (mapState (renameWith fuel n) memo layer.slots).Meets targeting (fun _ s' ↦ s'.Chained) s :=
      fun _ _ _ hs ↦ meets_mapState (I := fun _ s ↦ s.Chained) (fun _ _ _ _ hs ↦ ih hs) hs
    refine meets_bind.mpr ((meets_find_targeting hs).mono fun head s₁ _ hs₁ ↦ ?_)
    match head with
    | .shape none layer => exact meets_bind.mpr (hslots layer memo s₁ hs₁)
    | .free v =>
      dsimp only
      match List.lookup v memo with
      | some (.done u) => exact hs₁
      | some .started => exact trivial
      | none => exact meets_bind.mpr (meets_fresh_targeting hs₁)
    | .shape (some v) layer =>
      dsimp only
      match List.lookup v memo with
      | some (.done u) => exact hs₁
      | some .started => exact trivial
      | none =>
        refine meets_bind.mpr (meets_bind.mpr ((hslots layer _ s₁ hs₁).mono fun r s₂ _ hs₂ ↦ ?_))
        refine meets_bind.mpr (meets_bind.mpr ?_)
        refine (meets_fresh_targeting hs₂).mono fun x s₃ _ hs₃ ↦ ?_
        have htarget := Store.target_node s₃ x layer.symbol r.1
        exact meets_bind.mpr (meets_assign.mpr ⟨htarget, hs₃.bind htarget⟩)

theorem meets_renameApart_targeting (hs : s.Chained) :
    (renameApart fuel t).Meets targeting (fun _ s' ↦ s'.Chained) s :=
  meets_bind.mpr ((meets_renameWith_targeting hs).mono fun _ _ _ h ↦ h)

theorem meets_renameApartAll_targeting {ts : List (Term σ)} (hs : s.Chained) :
    (renameApartAll fuel ts).Meets targeting (fun _ s' ↦ s'.Chained) s := by
  refine meets_bind.mpr ((meets_mapState (I := fun _ s ↦ s.Chained) ?_ hs).mono fun _ _ _ h ↦ h)
  exact fun _ _ _ _ hs ↦ meets_renameWith_targeting hs

namespace Operation

variable [DecidableEq σ]

theorem meets_script_targeting (op : Operation σ) (hs : s.Chained) :
    (op.script fuel).Meets targeting (fun _ _ ↦ True) s := by
  have hrewrites : op.Rewrites → (op.script fuel).Meets targeting (fun _ _ ↦ True) s := by
    intro hop
    obtain ⟨_, hmeets⟩ := meets_script_faithful hop hs
    exact meets_targeting_of_faithful hmeets
  have hinspects : op.Inspects → (op.script fuel).Meets targeting (fun _ _ ↦ True) s :=
    fun hop ↦ meets_targeting_of_reading (reads_script fuel hop s)
  cases op with
  | representative _ | terminal _ | unify _ _ _ | unified _ _ _ | subsumes _ _ =>
    exact hrewrites trivial
  | occurs _ _ | freeVars _ | resolve _ | resolveAll _ | equal _ _ | variant _ _ =>
    exact hinspects trivial
  | renameApart t => exact (meets_renameApart_targeting hs).map _
  | renameApartAll ts => exact (meets_renameApartAll_targeting hs).map _

theorem chained_run (op : Operation σ) (hs : s.Chained) : (op.run s).2.Chained :=
  (op.meets_script_targeting hs).run.1.chained_of_targeting hs

theorem run_eq_ok {op : Operation σ} {eager : Bool} (post : Value σ → Store σ → Prop)
    (hop : op.allocates = false)
    (h : (op.script (op.fuel s.weight)).Meets (faithful eager fun _ ↦ True) post s) :
    ∃ x s', op.run s = (.ok x, s') ∧ post x s' := by
  rcases run_ends hop h with hok | ⟨e, s', -, hfailed⟩
  · exact hok
  · exact absurd trivial (hfailed .var)

theorem run_representative_eq_ok (hs : s.Chained) (t : Term σ) :
    ∃ u s', (representative t).run s = (.ok (.term u), s') := by
  have hmeets : ((representative t).script ((representative t).fuel s.weight)).Meets
      (faithful false fun _ ↦ True) (fun x _ ↦ ∃ u, x = .term u) s :=
    meets_map.mpr ((meets_representative_faithful hs).mono fun u _ _ _ ↦ ⟨u, rfl⟩)
  obtain ⟨_, s', hrun, u, rfl⟩ := run_eq_ok _ rfl hmeets
  exact ⟨u, s', hrun⟩

theorem run_terminal_eq_ok (hs : s.Chained) (t : Term σ) :
    ∃ u s', (terminal t).run s = (.ok (.term u), s') := by
  have hmeets : ((terminal t).script ((terminal t).fuel s.weight)).Meets
      (faithful false fun _ ↦ True) (fun x _ ↦ ∃ u, x = .term u) s :=
    meets_map.mpr ((meets_terminal_faithful hs).mono fun u _ _ _ ↦ ⟨u, rfl⟩)
  obtain ⟨_, s', hrun, u, rfl⟩ := run_eq_ok _ rfl hmeets
  exact ⟨u, s', hrun⟩

theorem chained_of_mem_scanl (hs : s.Chained) (ops : List (Operation σ)) :
    ∀ s' ∈ ops.scanl (fun s op ↦ (op.run s).2) s, s'.Chained :=
  keeps_of_mem_scanl (fun op _ _ hs ↦ op.chained_run hs) hs

/-- No sequence of operations makes a chain without an end, whatever their outcomes, and so a chain
can be followed and shortened at any time. -/
theorem chains_end_of_mem_scanl (hs : ∀ v, ∃ w, s.Ends v w) (ops : List (Operation σ)) :
    ∀ s' ∈ ops.scanl (fun s op ↦ (op.run s).2) s, (∀ v, ∃ w, s'.Ends v w) ∧
      ∀ t, (∃ u s'', (representative t).run s' = (.ok (.term u), s'')) ∧
        ∃ u s'', (terminal t).run s' = (.ok (.term u), s'') := by
  intro s' hs'
  have hchained := chained_of_mem_scanl (Store.chained_iff_ends.mpr hs) ops s' hs'
  refine ⟨hchained.exists_ends, fun t ↦ ⟨?_, ?_⟩⟩
  · exact run_representative_eq_ok hchained t
  · exact run_terminal_eq_ok hchained t

def linked : List (Operation Symbol) :=
  [unify ⟨.ranked, false⟩ (.var ⟨0⟩) (.var ⟨1⟩), renameApart (.var ⟨1⟩)]

theorem chains_end_of_mem_scanl_linked :
    ∃ s' ∈ linked.scanl (fun s op ↦ (op.run s).2) Store.loops,
      s'.binding ⟨1⟩ = some (.var ⟨0⟩) ∧ (∃ w, s'.Ends ⟨1⟩ w) ∧
        (∃ e, ((renameApart (.var ⟨1⟩)).run s').1 = .error e) ∧
        ∃ u s'', (terminal (.var ⟨1⟩)).run s' = (.ok (.term u), s'') := by
  have hends := Store.chained_iff_ends.mp Store.chained_loops
  have hmem : ((unify ⟨.ranked, false⟩ (.var ⟨0⟩) (.var ⟨1⟩)).run Store.loops).2 ∈
      linked.scanl (fun s op ↦ (op.run s).2) Store.loops := by
    rw [linked, List.scanl_cons, List.scanl_cons]
    exact List.mem_cons_of_mem _ List.mem_cons_self
  obtain ⟨hends', hrun⟩ := chains_end_of_mem_scanl hends linked _ hmem
  have hcopy : ∃ e, ((renameApart (.var ⟨1⟩)).run
      ((unify ⟨.ranked, false⟩ (.var ⟨0⟩) (.var ⟨1⟩)).run Store.loops).2).1 = .error e := ⟨_, rfl⟩
  exact ⟨_, hmem, rfl, hends' ⟨1⟩, hcopy, (hrun (.var ⟨1⟩)).2⟩

end Operation

end Unification
