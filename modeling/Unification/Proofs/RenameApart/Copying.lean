import Unification.Proofs.RenameApart.Copied

namespace Unification

open Relation Script Contract

variable {σ α : Type} {s s₁ s₂ : Store σ} {V : Finset Var} {path path' vs ws : List Var}
  {memo memo' : Memo σ} {t u : Term σ} {ts us : List (Term σ)} {v w x : Var} {fuel n : ℕ}

namespace Contract

def frugal : Contract σ where
  bind _ _ _ := True
  promote _ _ := True
  fresh _ := False
  failed _ _ := True
  unfinished := True

theorem Leads.of_frugal (h : frugal.Leads s₁ s₂) : s₂.config = s₁.config ∧ s₂.next = s₁.next := by
  refine h.invariant (I := fun s ↦ s.config = s₁.config ∧ s.next = s₁.next) ⟨rfl, rfl⟩
    fun r s hs hr ↦ ?_
  cases r with
  | lookup v => exact hs
  | rank v => exact hs
  | fresh => exact hr.elim
  | bind v t => exact ⟨(s.config_update v _).trans hs.1, (s.next_update v _).trans hs.2⟩
  | promote v => exact ⟨(s.config_update v _).trans hs.1, (s.next_update v _).trans hs.2⟩

theorem meets_frugal_of_reads {m : Script σ Refusal α} (h : m.Reads) :
    m.Meets frugal (fun _ _ ↦ True) s := by
  refine (h s).weaken (fun s r hr ↦ ?_) (fun _ _ h ↦ h) id
  cases r with
  | lookup v => exact trivial
  | rank v => exact trivial
  | fresh => exact hr.elim
  | bind v t => exact hr.elim
  | promote v => exact hr.elim

theorem meets_find_frugal (fuel : ℕ) (t : Term σ) (s : Store σ) :
    (find fuel t).Meets frugal (fun _ _ ↦ True) s := by
  cases t with
  | node f args => exact trivial
  | var v =>
    refine meets_bind.mpr ((meets_frugal_of_reads (Walk.reads_chase fuel [] v)).mono
      fun w s₁ _ _ ↦ meets_bind.mpr ?_)
    exact (meets_each (I := fun _ ↦ True) (fun _ _ _ _ ↦ ⟨trivial, trivial⟩) trivial)

end Contract

/-- The finished entries of a memo are the copies, and the started ones are those of the path. -/
structure Memo.Tracks (s : Store σ) (path vs : List Var) (memo : Memo σ) : Prop where
  started : ∀ v, List.lookup v memo = some .started ↔ v ∈ path
  done : ∀ v u, List.lookup v memo = some (.done u) ↔ v ∈ vs ∧ u = .var (s.copyName vs v)

namespace Memo.Tracks

theorem nil (s : Store σ) : Memo.Tracks s [] [] [] := ⟨fun v ↦ by simp, fun v u ↦ by simp⟩

theorem not_mem (h : memo.Tracks s path vs) (hv : List.lookup v memo = none) :
    v ∉ path ∧ v ∉ vs := by
  refine ⟨fun hmem ↦ ?_, fun hmem ↦ ?_⟩
  · cases hv.symm.trans ((h.started v).mpr hmem)
  · cases hv.symm.trans ((h.done v _).mpr ⟨hmem, rfl⟩)

theorem not_mem_of_path (h : memo.Tracks s path vs) (hv : v ∈ path) : v ∉ vs := by
  intro hmem
  cases ((h.started v).mpr hv).symm.trans ((h.done v _).mpr ⟨hmem, rfl⟩)

theorem hit {p : Progress (Term σ)} (h : memo.Tracks s path vs) (hs : s.Acyclic)
    (ha : s.Above path (.var x)) (hp : List.lookup (s.root x) memo = some p) :
    p = .done (.var (s.copyName vs x)) ∧ s.root x ∈ vs := by
  cases p with
  | started => exact absurd (ha.root ((h.started _).mp hp)) (hs _)
  | done u =>
    obtain ⟨hmem, rfl⟩ := (h.done _ _).mp hp
    exact ⟨by rw [s.copyName_root], hmem⟩

theorem start (h : memo.Tracks s path vs) (hv : List.lookup v memo = none) :
    Memo.Tracks s (v :: path) vs ((v, .started) :: memo) := by
  refine ⟨started_start h.started v, fun x u ↦ ?_⟩
  rw [lookup_cons]
  split
  · rename_i he
    exact iff_of_false nofun fun hmem ↦ (h.not_mem hv).2 (he ▸ hmem.1)
  · exact h.done x u

theorem finish (h : memo.Tracks s path' vs) (hpath : path' = path ∨ path' = v :: path)
    (hv : v ∉ path) (hends : ∀ w ∈ vs, ∀ x, ¬ s.Links w x) :
    Memo.Tracks s path (vs ++ [v]) ((v, .done (.var (s.copyName (vs ++ [v]) v))) :: memo) := by
  refine ⟨started_finish h.started hpath hv _, fun x u ↦ ?_⟩
  rw [lookup_cons, List.mem_append, List.mem_singleton]
  split
  · rename_i he
    subst he
    rw [and_iff_right (.inr rfl), Option.some.injEq, Progress.done.injEq, eq_comm]
  · rename_i hne
    rw [h.done, or_iff_left hne]
    refine and_congr_right fun hx ↦ ?_
    have hroot : s.root x ∈ vs := by rwa [Store.root_of_ends (hends x hx)]
    rw [Store.copyName_of_mem (List.prefix_append vs [v]) hroot]

end Memo.Tracks

namespace Store

/-- What copying some terms comes to, with the memo and the store that are left. -/
structure Copied (s : Store σ) (V : Finset Var) (path vs : List Var) (ts us : List (Term σ))
    (memo : Memo σ) (s' : Store σ) : Prop where
  store : s.CopiedTo V vs s'
  memo : memo.Tracks s path vs
  ends : ∀ t ∈ ts, s.EndsIn vs t
  terms : us = ts.map (Term.rename (s.copyName vs))

namespace Copied

theorem nil (h : s.CopiedTo V vs s₁) (hm : memo.Tracks s path vs) :
    s.Copied V path vs [] [] memo s₁ := ⟨h, hm, nofun, rfl⟩

theorem var (h : s.CopiedTo V vs s₁) (hm : memo.Tracks s path vs) (hx : s.root x ∈ vs) :
    s.Copied V path vs [.var x] [.var (s.copyName vs x)] memo s₁ where
  store := h
  memo := hm
  ends := List.forall_mem_singleton.mpr fun _ hy ↦ Term.mem_vars_var.mp hy ▸ hx
  terms := rfl

theorem cons (h : s.Copied V path vs [t] [u] memo s₁) (hpre : vs <+: ws)
    (h' : s.Copied V path ws ts us memo' s₂) :
    s.Copied V path ws (t :: ts) (u :: us) memo' s₂ where
  store := h'.store
  memo := h'.memo
  ends := List.forall_mem_cons.mpr ⟨(List.forall_mem_singleton.mp h.ends).mono hpre, h'.ends⟩
  terms := by
    rw [List.map_cons, (List.forall_mem_singleton.mp h.ends).rename_eq hpre, ← h'.terms]
    exact congrArg (· :: us) (List.cons.inj h.terms).1

theorem node (h : s.Copied V path vs ts us memo s₁) (f : σ) :
    s.Copied V path vs [.node f ts] [.node f us] memo s₁ where
  store := h.store
  memo := h.memo
  ends := List.forall_mem_singleton.mpr fun v hv ↦ by
    obtain ⟨t, ht, hv⟩ := Term.mem_vars_node.mp hv
    exact h.ends t ht v hv
  terms := by rw [h.terms, List.map_singleton, Term.rename_node]

end Copied

/-- No variable was left for a copy that was still to be made. -/
def Depleted (s : Store σ) (V : Finset Var) (e : Failure σ Refusal) (s' : Store σ) : Prop :=
  ∃ l vs, e = .store (.exhausted l) ∧ s.config.capacity ≤ l ∧ l ≤ s'.next ∧
    s.CopiedTo V vs s' ∧ vs.length < V.card

theorem CopiedTo.depleted {l : ℕ} (h : s.CopiedTo V vs s₁) (hv : v ∈ V) (hnew : v ∉ vs)
    (hlimit : s₁.exhausted? = some l) : s.Depleted V (.store (.exhausted l)) s₁ := by
  obtain ⟨hl, hle⟩ := exhausted?_eq_some hlimit
  exact ⟨l, vs, rfl, h.config ▸ hl, hle, h, h.batch.length_lt hv hnew⟩

end Store

section Meets

variable {failed : Failure σ Refusal → Store σ → Prop}

theorem meets_find_copied (hV : s.Basin V) (h : s.CopiedTo V vs s₁)
    (ht : ∀ v ∈ t.vars, s.root v ∈ V) :
    (find fuel t).Meets (.blaming failed) (fun hd s' ↦ s.CopiedTo V vs s' ∧ hd.At s t) s₁ := by
  have hroot : ∀ v ∈ t.vars, s₁.binding (s₁.root v) = s.binding (s.root v) := by
    intro v hv
    rw [h.root, h.kept _ (hV.allocated _ (ht v hv)) (hV.ends _ (ht v hv))]
  have hends : ∀ v, t = .var v → ¬ s₁.Endless v := by
    rintro v he ⟨y, hy⟩
    have hv : v ∈ t.vars := he ▸ Term.mem_vars_var.mpr rfl
    rw [Store.Links, hroot v hv] at hy
    exact hV.ends _ (ht v hv) y hy
  have hfind : (find fuel t).Meets (.blaming failed)
      (fun hd s' ↦ s₁.SameRoots s' ∧ hd.At s₁ t) s₁ :=
    meets_find_rooted fuel t fun v _ he hv ↦ absurd hv (hends v he)
  refine (hfind.conj (meets_find_frugal fuel t s₁)).mono fun hd s₂ _ hfound ↦ ?_
  obtain ⟨⟨hsame, hat⟩, hlead, _⟩ := hfound
  obtain ⟨hconfig, hnext⟩ := hlead.of_frugal
  refine ⟨h.same hV hsame hconfig hnext, ?_⟩
  cases hat with
  | layer l => exact .layer l
  | var x hb =>
    rw [hroot x (Term.mem_vars_var.mpr rfl)] at hb
    rw [h.root]
    exact .var x hb

theorem meets_fresh_copied (hV : s.Basin V) (h : s.CopiedTo V vs s₁) (hv : v ∈ V) (hnew : v ∉ vs)
    (hb : s.binding v = none) :
    Script.fresh.Meets (.blaming (s.Depleted V))
      (fun c s' ↦ c = s.copyName (vs ++ [v]) v ∧ s.CopiedTo V (vs ++ [v]) s') s₁ := by
  refine meets_fresh trivial (fun l ↦ h.depleted hv hnew) fun hfresh ↦ ⟨?_, ?_⟩
  · rw [Store.copyName_append_self (hV.ends v hv) hnew, h.next]
  · refine h.append hV hv hnew (fun w ⟨t, ht, _⟩ ↦ ?_) hfresh rfl rfl
      (Store.SameRoots.of_binding_eq fun _ ↦ rfl).root fun x ↦ ?_
    · cases hb.symm.trans ht
    · split
      · rename_i he
        rw [hb, he]
        exact h.vacant _ le_rfl
      · rfl

theorem meets_newVar_copied {layer : Layer σ (Term σ)} (hV : s.Basin V) (h : s.CopiedTo V vs s₁)
    (hv : v ∈ V) (hnew : v ∉ vs) (hb : s.binding v = some layer.toTerm)
    (hin : s.EndsIn vs layer.toTerm) :
    (Script.newVar (layer.toTerm.rename (s.copyName vs))).Meets (.blaming (s.Depleted V))
      (fun c s' ↦ c = s.copyName (vs ++ [v]) v ∧ s.CopiedTo V (vs ++ [v]) s') s₁ := by
  refine meets_bind.mpr (meets_fresh trivial (fun l ↦ h.depleted hv hnew) fun hfresh ↦ ?_)
  refine meets_bind.mpr (meets_assign.mpr ⟨trivial, ?_, ?_⟩)
  · rw [Store.copyName_append_self (hV.ends v hv) hnew, h.next]
  · let s₂ : Store σ := { s₁ with next := s₁.next + 1 }
    let copy : Layer σ (Term σ) :=
      ⟨layer.symbol, layer.slots.map (Term.rename (s.copyName vs))⟩
    have hcopy : layer.toTerm.rename (s.copyName vs) = copy.toTerm := Term.rename_node _ _ _
    have hfree : s₂.binding ⟨s₁.next⟩ = none := h.vacant _ le_rfl
    have hroot : s₂.root = s₁.root := (Store.SameRoots.of_binding_eq fun _ ↦ rfl).root
    rw [hcopy]
    refine h.append hV hv hnew (fun w ⟨t, ht, hw⟩ ↦ ?_) hfresh (s₂.config_update _ _)
      (s₂.next_update _ _) (funext fun x ↦ ?_) fun x ↦ ?_
    · obtain rfl := Option.some.inj (hb.symm.trans ht)
      exact hin w hw
    · rw [← hroot]
      exact Store.root_bind_node (Store.not_links_of_binding (o := none) hfree) x
    · rw [Store.binding_bind, hb, Option.map_some, hcopy]
      rfl

theorem meets_finish_copied {K : Contract σ} (hV : s.Basin V)
    (h : s.CopiedTo V (ws ++ [s.root x]) s₁) (hm : memo.Tracks s path' ws)
    (hpath : path' = path ∨ path' = s.root x :: path) (hx : s.root x ∉ path) (hpre : vs <+: ws) :
    (renameWith.finish (s.root x) (s.copyName (ws ++ [s.root x]) (s.root x)) memo).Meets K
      (fun r s' ↦ ∃ ws, vs <+: ws ∧ s.Copied V path ws [.var x] [r.1] r.2 s') s₁ := by
  have hfinish := hm.finish hpath hx fun w hw ↦
    hV.ends w (h.batch.within w (List.mem_append_left _ hw))
  refine meets_bind.mpr (meets_log.mpr (meets_pure.mpr ?_))
  rw [s.copyName_root] at hfinish ⊢
  refine ⟨_, hpre.trans (List.prefix_append ws _), .var h hfinish ?_⟩
  exact List.mem_append_right ws List.mem_cons_self

theorem meets_mapState_copied {K : Contract σ} {f : Memo σ → Term σ → Script σ Refusal (Term σ × Memo σ)}
    (hf : ∀ t ∈ ts, ∀ vs memo s₁, s.CopiedTo V vs s₁ → memo.Tracks s path vs →
      (f memo t).Meets K
        (fun r s' ↦ ∃ ws, vs <+: ws ∧ s.Copied V path ws [t] [r.1] r.2 s') s₁)
    (h : s.CopiedTo V vs s₁) (hm : memo.Tracks s path vs) :
    (mapState f memo ts).Meets K
      (fun r s' ↦ ∃ ws, vs <+: ws ∧ s.Copied V path ws ts r.1 r.2 s') s₁ := by
  induction ts generalizing vs memo s₁ with
  | nil => exact ⟨vs, List.prefix_rfl, .nil h hm⟩
  | cons t ts ih =>
    refine meets_bind.mpr ((hf t List.mem_cons_self vs memo s₁ h hm).mono
      fun r s₂ _ ⟨ws, hpre, hfirst⟩ ↦ ?_)
    have hrest := ih (fun u hu ↦ hf u (List.mem_cons_of_mem t hu)) hfirst.store hfirst.memo
    refine meets_bind.mpr (hrest.mono fun rs s₃ _ ⟨ws', hpre', hrest⟩ ↦ ?_)
    exact ⟨ws', hpre.trans hpre', hfirst.cons hpre' hrest⟩

theorem Layer.meets_mapMemo_copied {K : Contract σ} (layer : Layer σ (Term σ))
    {f : Memo σ → Term σ → Script σ Refusal (Term σ × Memo σ)}
    (hf : ∀ t ∈ layer.slots, ∀ vs memo s₁, s.CopiedTo V vs s₁ → memo.Tracks s path vs →
      (f memo t).Meets K
        (fun r s' ↦ ∃ ws, vs <+: ws ∧ s.Copied V path ws [t] [r.1] r.2 s') s₁)
    (h : s.CopiedTo V vs s₁) (hm : memo.Tracks s path vs) :
    (layer.mapMemo f memo).Meets K
      (fun r s' ↦ ∃ ws, vs <+: ws ∧ s.Copied V path ws [layer.toTerm] [r.1] r.2 s') s₁ := by
  refine meets_bind.mpr ((meets_mapState_copied hf h hm).mono ?_)
  rintro ⟨us, memo'⟩ s₂ - ⟨ws, hpre, hr⟩
  exact ⟨ws, hpre, hr.node layer.symbol⟩

/-- Copying a term copies the variables that it reaches and that have not been copied yet, and
nothing else. Without a cycle no variable is met again before its own copy is made. -/
theorem meets_renameWith_copied (hs : s.Acyclic) (hV : s.Basin V) (h : s.CopiedTo V vs s₁)
    (hm : memo.Tracks s path vs) (ha : s.Above path t) (ht : ∀ v ∈ t.vars, s.root v ∈ V) :
    (renameWith fuel n memo t).Meets (.blaming (s.Depleted V))
      (fun r s' ↦ ∃ ws, vs <+: ws ∧ s.Copied V path ws [t] [r.1] r.2 s') s₁ := by
  induction n generalizing memo path vs t s₁ with
  | zero => exact trivial
  | succ n ih =>
    have hlayer : ∀ (layer : Layer σ (Term σ)) (path vs : List Var) (memo : Memo σ) (s₁ : Store σ),
        s.CopiedTo V vs s₁ → memo.Tracks s path vs → s.Above path layer.toTerm →
        (∀ v ∈ layer.toTerm.vars, s.root v ∈ V) →
        (layer.mapMemo (renameWith fuel n) memo).Meets (.blaming (s.Depleted V))
          (fun r s' ↦ ∃ ws, vs <+: ws ∧ s.Copied V path ws [layer.toTerm] [r.1] r.2 s') s₁ :=
      fun layer _ _ _ _ h hm ha ht ↦ layer.meets_mapMemo_copied (fun u hu _ _ _ h hm ↦
        ih h hm (ha.slot hu) fun v hv ↦ ht v (Term.mem_vars_node.mpr ⟨u, hu, hv⟩)) h hm
    refine meets_bind.mpr ((meets_find_copied hV h ht).mono ?_)
    rintro head s' - ⟨h, hhead⟩
    cases hhead with
    | layer l => exact hlayer l path vs memo s' h hm ha ht
    | @var x o hb =>
      have hx : s.root x ∈ V := ht x (Term.mem_vars_var.mpr rfl)
      cases hlook : List.lookup (s.root x) memo with
      | some p =>
        obtain ⟨rfl, hmem⟩ := hm.hit hs ha hlook
        cases o
        all_goals
          dsimp only [Head.ofVar]
          rw [hlook]
          exact ⟨vs, List.prefix_rfl, .var h hm hmem⟩
      | none =>
        obtain ⟨hpath, hnew⟩ := hm.not_mem hlook
        cases o with
        | none =>
          dsimp only [Head.ofVar]
          rw [hlook]
          refine meets_bind.mpr ((meets_fresh_copied hV h hx hnew hb).mono ?_)
          rintro c s₂ - ⟨rfl, h₂⟩
          exact meets_finish_copied hV h₂ hm (.inl rfl) hpath List.prefix_rfl
        | some layer =>
          dsimp only [Head.ofVar]
          rw [hlook]
          have hin : ∀ y ∈ layer.toTerm.vars, s.root y ∈ V :=
            fun y hy ↦ hV.closed _ hx y ⟨_, hb, hy⟩
          have hslots := hlayer layer _ vs _ s' h (hm.start hlook) (ha.enter hb) hin
          refine meets_bind.mpr (hslots.mono ?_)
          rintro ⟨u, memo'⟩ s₂ - ⟨ws, hpre, hr⟩
          obtain rfl := (List.cons.inj hr.terms).1
          have hnew' := hr.memo.not_mem_of_path List.mem_cons_self
          refine meets_bind.mpr ((meets_newVar_copied hV hr.store hx hnew' hb
            (List.forall_mem_singleton.mp hr.ends)).mono ?_)
          rintro c s₃ - ⟨rfl, h₃⟩
          exact meets_finish_copied hV h₃ hr.memo (.inr rfl) hpath hpre

end Meets

end Unification
