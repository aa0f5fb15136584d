import Unification.Proofs.Equations
import Unification.Proofs.Rank
import Unification.Proofs.Unify.Acyclic
import Unification.Proofs.Unify.Enclosed
import Unification.Proofs.Unify.Heads

namespace Unification

open Relation Script Contract

variable {σ α : Type} {s s' : Store σ} {eager : Bool} {mode : Mode} {n fuel : ℕ} {path : List Var}
  {t t' u u' : Term σ} {v w x : Var} {l r : Layer σ (Term σ)} {θ : Var → Term σ}

section Walk

theorem Walk.meets_shorten_rising {w : Walk σ} (hs : s.Ascends) (hw : w.Follows s v) :
    w.shorten.Meets rising (fun _ s' ↦ ∀ x, s'.rank x = s.rank x) s := by
  refine meets_each (fun p hp s' hs' ↦ ?_) fun _ ↦ rfl
  have hlt := hs.rank_lt (hw.passed p (List.dropLast_subset _ hp))
  refine meets_bind.mpr (meets_log.mpr (meets_assign.mpr ⟨?_, fun x ↦ ?_⟩))
  · rintro _ ⟨⟩
    rwa [hs', hs']
  · rw [Store.rank_bind, hs']

theorem meets_find_rising (hs : s.Ascends) :
    (find fuel t).Meets rising (fun _ s' ↦ ∀ x, s'.rank x = s.rank x) s := by
  cases t with
  | node f args => exact fun _ ↦ rfl
  | var v =>
    refine meets_bind.mpr (Walk.meets_chase (fun w hw ↦ ?_) (fun _ _ _ ↦ trivial) nofun
      (.inl trivial))
    exact meets_bind.mpr (Walk.meets_shorten_rising hs hw)

theorem meets_findBoth_rising (hs : s.Ascends) : (findBoth fuel t u).Meets rising
    (fun h s₁ ↦ (∀ x, s₁.rank x = s.rank x) ∧ h.1.At s₁ t ∧ h.2.At s₁ u) s := by
  have hranks : (findBoth fuel t u).Meets rising (fun _ s₁ ↦ ∀ x, s₁.rank x = s.rank x) s := by
    refine meets_bind.mpr ((meets_find_rising hs).mono fun l s₁ hlead h₁ ↦ meets_bind.mpr ?_)
    exact (meets_find_rising (hlead.ascends hs)).mono fun r s₂ _ h₂ x ↦ (h₂ x).trans (h₁ x)
  have hheads : (findBoth fuel t u).Meets (.blaming fun _ _ ↦ True)
      (fun h s₁ ↦ s.SameRoots s₁ ∧ h.1.At s t ∧ h.2.At s u) s :=
    meets_findBoth fun _ _ _ ↦ trivial
  exact (hranks.conj hheads).mono fun h s₁ _ ⟨h₁, _, hroots, hl, hr⟩ ↦
    ⟨h₁, hl.keep hroots, hr.keep hroots⟩

theorem rising_layer (s : Store σ) (v : Var) (l : Layer σ (Term σ)) :
    rising.bind s v l.toTerm := nofun

theorem meets_terminal_rising (hs : s.Ascends) :
    (terminal fuel t).Meets rising (fun _ _ ↦ True) s := by
  cases t with
  | node f args => exact trivial
  | var v =>
    refine meets_bind.mpr (Walk.meets_chase (fun w hw ↦ ?_) (fun _ _ _ ↦ trivial) nofun
      (.inl trivial))
    cases w.value with
    | none => exact meets_bind.mpr ((Walk.meets_shorten_rising hs hw).mono fun _ _ _ _ ↦ trivial)
    | some layer =>
      refine meets_bind.mpr ((meets_each (I := fun _ ↦ True) (fun p _ s' _ ↦ ?_) trivial).mono
        fun _ _ _ _ ↦ trivial)
      exact meets_bind.mpr (meets_log.mpr (meets_assign.mpr ⟨rising_layer s' p layer, trivial⟩))

end Walk

/-- Over stores that `θ` tames, the script links variables upwards and leaves the ranks of the
variables on a path alone. -/
def Script.Climbs (θ : Var → Term σ) (path : List Var) (m : Script σ Refusal α) (s : Store σ) : Prop :=
  m.MeetsAmong (Store.TameBy θ) rising (fun _ s' ↦ ∀ x ∈ path, s'.rank x = s.rank x) s

theorem climbs_bindFree : (bindFree mode fuel v l).Climbs θ path s := by
  have hguard : (guardOccurs mode fuel v l.toTerm).Meets rising
      (fun _ s₁ ↦ s₁ = s ∧ (mode.eager → ¬ s.Reaches l.toTerm v)) s :=
    meets_guardOccurs trivial fun _ _ ↦ trivial
  refine Meets.among (meets_bind.mpr (hguard.mono fun _ s₁ _ ⟨h₁, _⟩ ↦ ?_))
  subst h₁
  exact meets_bind.mpr (meets_assign.mpr ⟨rising_layer s₁ v l, fun x _ ↦ s₁.rank_bind v x _⟩)

def Choice.Fits (s : Store σ) (v w : Var) : Choice → Prop
  | .left tie => s.rank w < s.rank v ∨ tie = true ∧ s.rank w = s.rank v
  | .right => s.rank v < s.rank w

theorem meets_choose_ranked {K : Contract σ} {a b : Bool} :
    (Strategy.choose v a w b .ranked).Meets K (fun c s' ↦ s' = s ∧ c.Fits s v w) s := by
  refine meets_bind.mpr (meets_rank.mpr (meets_bind.mpr (meets_rank.mpr ⟨rfl, ?_⟩)))
  split
  · assumption
  · rename_i hlt
    rcases Nat.lt_or_eq_of_le (Nat.le_of_not_lt hlt) with h | h
    · exact .inl h
    · exact .inr ⟨decide_eq_true h.symm, h⟩

section Absorb

variable {kept absorbed : Var} {kb ab unified : Option (Layer σ (Term σ))} {tie : Bool}

theorem meets_bindKept_rising {o : Option (Layer σ (Term σ))}
    (hends : o = none → ∀ x, ¬ s.Links kept x) :
    (absorb.bindKept mode fuel kept kb o).Meets rising
      (fun _ s₁ ↦ (∀ x, s₁.rank x = s.rank x) ∧ ∀ x, ¬ s₁.Links kept x) s := by
  cases o with
  | none => exact ⟨fun _ ↦ rfl, hends rfl⟩
  | some layer =>
    have hguard : (Script.when kb.isNone (guardOccurs mode fuel kept layer.toTerm)).Meets rising
        (fun _ s₁ ↦ s₁ = s) s :=
      meets_when_guardOccurs trivial fun _ ↦ trivial
    refine meets_bind.mpr (hguard.mono fun _ s₁ _ h₁ ↦ ?_)
    subst h₁
    refine meets_assign.mpr ⟨rising_layer s₁ kept layer, fun x ↦ s₁.rank_bind kept x _, ?_⟩
    refine Store.not_links_of_binding (o := some layer) ?_
    rw [Store.binding_bind, if_pos rfl, Option.map_some]

theorem among_promote (hne : kept ≠ absorbed) (hends : ∀ x, ¬ s.Links kept x)
    (hrank : s.rank absorbed < s.rank kept ∨ tie = true ∧ s.rank absorbed = s.rank kept) :
    (Script.when tie do
      Script.log (.promoting kept)
      Script.promote kept).MeetsAmong (Store.TameBy θ) rising
      (fun _ s₁ ↦ (∀ x, x ≠ kept → s₁.rank x = s.rank x) ∧ s₁.rank absorbed < s₁.rank kept) s := by
  cases tie with
  | false => exact Meets.among ⟨fun _ _ ↦ rfl, hrank.resolve_right nofun⟩
  | true =>
    refine MeetsAmong.log (meetsAmong_promote fun htame ↦ ⟨hends, ?_, ?_⟩) _
    · exact fun x hx ↦ Store.rank_promote_of_ne hx
    · have hmax := (s.rank_le_promote kept kept).trans_lt (htame.unsaturated kept)
      rw [Store.rank_promote_of_ne hne.symm, Store.rank_promote, if_pos rfl, if_pos hmax]
      omega

theorem climbs_absorb (hs : s.TameBy θ) (hne : kept ≠ absorbed)
    (hends : unified = none → ∀ x, ¬ s.Links kept x)
    (hrank : s.rank absorbed < s.rank kept ∨ tie = true ∧ s.rank absorbed = s.rank kept)
    (hout : θ absorbed = θ kept → kept ∉ path) :
    (absorb mode fuel kept kb absorbed ab unified tie).Climbs θ path s := by
  have hkept : (absorb.bindKept mode fuel kept kb
      (unified.or (if kb.isNone then ab else none))).Meets rising
      (fun _ s₁ ↦ (∀ x, s₁.rank x = s.rank x) ∧ ∀ x, ¬ s₁.Links kept x) s :=
    meets_bindKept_rising fun ho ↦ hends (Option.or_eq_none_iff.mp ho).1
  refine MeetsAmong.bind (Meets.among hkept) hs fun _ s₁ hs₁ _ ⟨h₁, hends₁⟩ ↦ ?_
  rw [← h₁, ← h₁] at hrank
  refine MeetsAmong.bind (among_promote hne hends₁ hrank) hs₁ fun _ s₂ hs₂ _ ⟨h₂, hlt⟩ ↦ ?_
  have hguard : (Script.when ab.isNone (guardOccurs mode fuel absorbed (.var kept))).Meets rising
      (fun _ s₃ ↦ s₃ = s₂) s₂ :=
    meets_when_guardOccurs trivial fun _ ↦ trivial
  refine MeetsAmong.bind (Meets.among hguard) hs₂ fun _ s₃ hs₃ _ h₃ ↦ ?_
  subst h₃
  refine MeetsAmong.log (MeetsAmong.bind (meetsAmong_assign fun htame ↦ ⟨?_, fun x hx ↦ ?_⟩) hs₃
    fun _ s₄ _ _ h₄ ↦ Meets.among h₄) _
  · rintro _ ⟨⟩
    exact hlt
  · -- The new link is an equation, which the variables on the path cannot satisfy.
    have heq : θ absorbed = θ kept :=
      htame.solved absorbed (.var kept) (by rw [Store.binding_bind, if_pos rfl])
    have hxk : x ≠ kept := by
      rintro rfl
      exact hout heq hx
    rw [Store.rank_bind, h₂ x hxk, h₁]

end Absorb

section Step

variable [DecidableEq σ] {recurse : List Var → Term σ → Term σ → Script σ Refusal (Term σ)}
  (hrec : ∀ path t u s, s.TameBy θ → s.Ascends → Enclosed θ path t u →
    (recurse path t u).Climbs θ path s)

include hrec

theorem climbs_unifyLayers (hs : s.TameBy θ) (hasc : s.Ascends) (h : Around θ path l r) :
    (unifyLayers recurse path l r).Climbs θ path s := by
  unfold unifyLayers
  cases ha : l.align? r with
  | none => exact Meets.among trivial
  | some a =>
    refine MeetsAmong.bind (meetsAmong_mapEach
      (I := fun s' ↦ s'.Ascends ∧ ∀ x ∈ path, s'.rank x = s.rank x) hs ⟨hasc, fun _ _ ↦ rfl⟩
      fun x hx s₁ hs₁ ⟨hasc₁, h₁⟩ ↦ ?_) hs fun _ _ _ _ h₁ ↦ Meets.among h₁.2
    cases x with
    | same t => exact Meets.among ⟨hasc₁, h₁⟩
    | differ t u =>
      exact (hrec path t u s₁ hs₁ hasc₁ (h.slot ha hx)).mono fun _ s₂ hlead h₂ ↦
        ⟨hlead.ascends hasc₁, fun x hx ↦ (h₂ x hx).trans (h₁ x hx)⟩

theorem climbs_rebind {bound : Layer σ (Term σ)} (hs : s.TameBy θ) (hasc : s.Ascends)
    (h : Around θ (v :: path) l r) : (rebind recurse path v bound l r).Climbs θ path s := by
  rw [rebind, stepInto]
  split
  · exact Meets.among trivial
  · rw [pure_bind]
    refine MeetsAmong.bind (climbs_unifyLayers hrec hs hasc h) hs fun m s₁ _ _ h₁ ↦ ?_
    refine Meets.among (meets_bind.mpr (meets_assign.mpr ⟨rising_layer s₁ v m, fun x hx ↦ ?_⟩))
    rw [Store.rank_bind, h₁ x (List.mem_cons_of_mem v hx)]

theorem among_unifyBindings {o p : Option (Layer σ (Term σ))} (hs : s.TameBy θ) (hasc : s.Ascends)
    (hne : v ≠ w) (hv : s.binding v = o.map Layer.toTerm) (hw : s.binding w = p.map Layer.toTerm)
    (h : Enclosed θ path (.var v) (.var w)) :
    (joinVars.unifyBindings recurse path v o w p).MeetsAmong (Store.TameBy θ) rising
      (fun m s₁ ↦ (∀ x ∈ w :: v :: path, s₁.rank x = s.rank x) ∧ (m = none → s₁ = s)) s := by
  cases o with
  | none => exact Meets.among ⟨fun _ _ ↦ rfl, fun _ ↦ rfl⟩
  | some l =>
    cases p with
    | none => exact Meets.among ⟨fun _ _ ↦ rfl, fun _ ↦ rfl⟩
    | some r =>
      have hl : θ v = l.toTerm.subst θ := hs.solved v _ hv
      have hr : θ w = r.toTerm.subst θ := hs.solved w _ hw
      have haround : Around θ (w :: v :: path) l r :=
        ((h.congr hl hr).around.cons_left hl).cons_right hr
      have hstep : (stepInBoth path v l w r).Meets rising
          (fun p s₁ ↦ s₁ = s ∧ p = w :: v :: path ∧ v ∉ path ∧ w ∉ path) s :=
        meets_stepInBoth hne (fun _ ↦ trivial) fun _ ↦ trivial
      rw [unifyBindings_eq]
      refine MeetsAmong.bind (Meets.among hstep) hs fun p s₁ _ _ ⟨h₁, hp, _⟩ ↦ ?_
      subst h₁ hp
      rw [map_eq_pure_bind]
      refine MeetsAmong.bind (climbs_unifyLayers hrec hs hasc haround) hs fun m s₂ _ _ h₂ ↦ ?_
      exact Meets.among ⟨h₂, nofun⟩

theorem climbs_unifyVars {o p : Option (Layer σ (Term σ))} (hs : s.TameBy θ) (hasc : s.Ascends)
    (hv : s.binding v = o.map Layer.toTerm) (hw : s.binding w = p.map Layer.toTerm)
    (h : Enclosed θ path (.var v) (.var w)) :
    (unifyHeads.unifyVars ⟨.ranked, eager⟩ fuel recurse path v o w p).Climbs θ path s := by
  rw [unifyHeads.unifyVars]
  by_cases hne : v = w
  · rw [if_pos hne]
    exact Meets.among fun _ _ ↦ rfl
  rw [if_neg hne, joinVars]
  refine MeetsAmong.bind (Meets.among meets_choose_ranked) hs fun c s₁ _ _ hc ↦ ?_
  obtain ⟨h₁, hc⟩ := hc
  subst h₁
  refine MeetsAmong.bind (among_unifyBindings hrec hs hasc hne hv hw h) hs fun m s₂ hs₂ _ h₂ ↦ ?_
  obtain ⟨h₂, hm⟩ := h₂
  have hpath : ∀ x ∈ path, s₂.rank x = s₁.rank x :=
    fun x hx ↦ h₂ x (List.mem_cons_of_mem w (List.mem_cons_of_mem v hx))
  have hends : ∀ {x : Var} {o : Option (Layer σ (Term σ))}, s₁.binding x = o.map Layer.toTerm →
      m = none → ∀ y, ¬ s₂.Links x y := by
    intro x o hb hnone
    rw [hm hnone]
    exact Store.not_links_of_binding hb
  have hrankv := h₂ v (List.mem_cons_of_mem w List.mem_cons_self)
  have hrankw := h₂ w List.mem_cons_self
  cases c with
  | left tie =>
    refine (climbs_absorb hs₂ hne (hends hv) ?_ fun heq ↦ h.not_mem rfl heq).mono ?_
    · rwa [hrankv, hrankw]
    · exact fun _ s₃ _ h₃ x hx ↦ (h₃ x hx).trans (hpath x hx)
  | right =>
    refine (climbs_absorb hs₂ (Ne.symm hne) (hends hw) ?_ fun heq ↦ h.not_mem heq rfl).mono ?_
    · rw [hrankv, hrankw]
      exact .inl hc
    · exact fun _ s₃ _ h₃ x hx ↦ (h₃ x hx).trans (hpath x hx)

theorem climbs_unifyHeads {h h' : Head σ} (hs : s.TameBy θ) (hasc : s.Ascends) (hl : h.At s t)
    (hr : h'.At s u) (hin : Enclosed θ path t u) :
    (unifyHeads ⟨.ranked, eager⟩ fuel recurse path h h').Climbs θ path s := by
  have hroot := hs.solved.apply_root
  cases hl with
  | layer l =>
    cases hr with
    | layer r =>
      exact MeetsAmong.bind (climbs_unifyLayers hrec hs hasc hin.around) hs
        fun m s₁ _ _ h₁ ↦ Meets.among h₁
    | @var y o hy =>
      cases o with
      | none => exact climbs_bindFree
      | some r =>
        have hval : θ (s.root y) = r.toTerm.subst θ := hs.solved _ _ hy
        have haround := (hin.congr rfl ((hroot y).symm.trans hval)).around
        exact climbs_rebind hrec hs hasc (haround.cons_right hval)
  | @var x o hx =>
    cases hr with
    | layer r =>
      cases o with
      | none => exact climbs_bindFree
      | some l =>
        have hval : θ (s.root x) = l.toTerm.subst θ := hs.solved _ _ hx
        have haround := (hin.congr ((hroot x).symm.trans hval) rfl).around
        exact climbs_rebind hrec hs hasc (haround.cons_left hval)
    | var y hy =>
      rw [unifyHeads_ofVar]
      exact climbs_unifyVars hrec hs hasc hx hy (hin.congr (hroot x).symm (hroot y).symm)

end Step

variable [DecidableEq σ]

theorem climbs_unifyBelow (path : List Var) (t u : Term σ) (s : Store σ) (hs : s.TameBy θ)
    (hasc : s.Ascends) (h : Enclosed θ path t u) :
    (unifyBelow ⟨.ranked, eager⟩ fuel n path t u).Climbs θ path s := by
  induction n generalizing path t u s with
  | zero => exact Meets.among trivial
  | succ n ih =>
    rw [unifyBelow_succ]
    refine MeetsAmong.bind (Meets.among (meets_findBoth_rising hasc)) hs
      fun heads s₁ hs₁ hlead ⟨h₁, hl, hr⟩ ↦ ?_
    exact (climbs_unifyHeads ih hs₁ (hlead.ascends hasc) hl hr h).mono
      fun _ s₂ _ h₂ x hx ↦ (h₂ x hx).trans (h₁ x)

namespace Operation

def Ranked : Operation σ → Prop
  | .representative _ | .terminal _ => True
  | .unify mode _ _ => mode.strategy = .ranked
  | .unified strategy _ _ => strategy = .ranked
  | _ => False

omit [DecidableEq σ] in
theorem Ranked.rewrites {op : Operation σ} (h : op.Ranked) : op.Rewrites := by
  cases op with
  | representative t | terminal t | unify mode t u | unified strategy t u => exact trivial
  | _ => exact False.elim h

theorem among_script {op : Operation σ} (h : op.Ranked) (hs : s.TameBy θ) (hasc : s.Ascends) :
    (op.script fuel).MeetsAmong (Store.TameBy θ) rising (fun _ _ ↦ True) s := by
  have hunify : ∀ (k : Unifier) (t u : Term σ), k.mode.strategy = .ranked →
      ((k.operation t u).script fuel).MeetsAmong (Store.TameBy θ) rising (fun _ _ ↦ True) s := by
    intro k t u hk hpass
    have hmode : k.mode = ⟨.ranked, k.mode.eager⟩ := by rw [← hk]
    rw [Unifier.script_operation, meets_map, hmode] at hpass ⊢
    exact (climbs_unifyBelow [] t u s hs hasc nofun hpass).mono fun _ _ _ _ ↦ trivial
  cases op with
  | representative t =>
    have hfind : (Unification.representative fuel t).Meets rising (fun _ _ ↦ True) s :=
      meets_bind.mpr ((meets_find_rising hasc).mono fun _ _ _ _ ↦ trivial)
    exact Meets.among (hfind.map _)
  | terminal t => exact Meets.among (Meets.map (meets_terminal_rising hasc) _)
  | unify mode t u => exact hunify (.silent mode) t u h
  | unified strategy t u => exact hunify (.answering strategy) t u h
  | _ => exact False.elim h

/-- A run that is tamed by what it leaves only links variables upwards. -/
theorem ascends_of_ranked {op : Operation σ} (h : op.Ranked) (hs : s.Chained) (hasc : s.Ascends)
    (htame : (op.run s).2.TameBy θ) : (op.run s).2.Ascends := by
  obtain ⟨eager, hmeets⟩ := meets_script_faithful h.rewrites hs
  have hpass := hmeets.passes (fun s₁ s₂ h₁ h₂ h ↦ h₂.tameBy (h₁.chained hs) h) htame
  exact (among_script h (hmeets.run.1.tameBy hs htame) hasc hpass).run.1.ascends hasc

def runAll (ops : List (Operation σ)) (s : Store σ) : Store σ :=
  ops.foldl (fun s op ↦ (op.run s).2) s

theorem tameBy_of_runAll {ops : List (Operation σ)} (hops : ∀ op ∈ ops, op.Rewrites)
    (hs : s.Chained) (htame : (runAll ops s).TameBy θ) : s.TameBy θ := by
  induction ops generalizing s with
  | nil => exact htame
  | cons op ops ih =>
    obtain ⟨eager, hlead⟩ := leads_of_rewrites (hops op List.mem_cons_self) hs
    exact hlead.tameBy hs
      (ih (fun op' h ↦ hops op' (List.mem_cons_of_mem op h)) (hlead.chained hs) htame)

theorem ascends_runAll {ops : List (Operation σ)} (hops : ∀ op ∈ ops, op.Ranked) (hs : s.Chained)
    (hasc : s.Ascends) (htame : (runAll ops s).TameBy θ) : (runAll ops s).Ascends := by
  induction ops generalizing s with
  | nil => exact hasc
  | cons op ops ih =>
    have hop := hops op List.mem_cons_self
    have hops' : ∀ op' ∈ ops, op'.Ranked := fun op' h ↦ hops op' (List.mem_cons_of_mem op h)
    obtain ⟨eager, hlead⟩ := leads_of_rewrites hop.rewrites hs
    have hs₁ := hlead.chained hs
    have htame₁ := tameBy_of_runAll (fun op' h ↦ (hops' op' h).rewrites) hs₁ htame
    exact ih hops' hs₁ (ascends_of_ranked hop hs hasc htame₁) htame

/-- While no binding is on a cycle and no rank has stopped growing, unification by rank keeps the
rank of every variable an upper bound on the length of the chains that end at it. -/
theorem length_le_rank_of_ranked {ops : List (Operation σ)} (hops : ∀ op ∈ ops, op.Ranked)
    (hs : s.entries = ∅) (hacyclic : (runAll ops s).Acyclic)
    (hmax : ∀ v, (runAll ops s).rank v < Entry.maxRank) (chain : List Var) (w : Var)
    (hchain : (chain ++ [w]).IsChain (runAll ops s).Links) :
    chain.length ≤ (runAll ops s).rank w := by
  have hfree := Store.binding_of_entries_empty hs
  have hchained : s.Chained := (Store.descends_of_entries_empty hs fun _ ↦ 0).acyclic.chained
  have htame : (runAll ops s).TameBy ((runAll ops s).extend .var) := ⟨hacyclic.solvedBy _, hmax⟩
  have hasc := ascends_runAll hops hchained (Store.ascends_of_free hfree) htame
  exact hasc.length_le_rank chain w hchain

def paired : List (Operation Symbol) :=
  [unify ⟨.ranked, true⟩ (.var ⟨0⟩) (.var ⟨1⟩), unify ⟨.ranked, true⟩ (.var ⟨2⟩) (.var ⟨3⟩),
    unify ⟨.ranked, true⟩ (.var ⟨1⟩) (.var ⟨3⟩)]

theorem length_le_rank_of_ranked_paired :
    List.IsChain (runAll paired ({ next := 4 } : Store Symbol)).Links ([⟨3⟩, ⟨2⟩] ++ [⟨0⟩]) ∧
      2 ≤ (runAll paired ({ next := 4 } : Store Symbol)).rank ⟨0⟩ := by
  have hrun : runAll paired ({ next := 4 } : Store Symbol) =
      ((((((({ next := 4 } : Store Symbol).promote ⟨0⟩).bind ⟨1⟩ (.var ⟨0⟩)).promote ⟨2⟩).bind ⟨3⟩
        (.var ⟨2⟩)).promote ⟨0⟩).bind ⟨2⟩ (.var ⟨0⟩)) := rfl
  have hops : ∀ op ∈ paired, op.Ranked := by
    simp [paired, Ranked]
  have hacyclic : (runAll paired ({ next := 4 } : Store Symbol)).Acyclic := by
    have hnew : ({ next := 4 } : Store Symbol).Descends fun v ↦ v.id :=
      Store.descends_of_entries_empty rfl _
    have hpairs := (((hnew.promote ⟨0⟩).bind (v := ⟨1⟩) (t := .var ⟨0⟩) (by decide)).promote
      ⟨2⟩).bind (v := ⟨3⟩) (t := .var ⟨2⟩) (by decide)
    have hdescends := (hpairs.promote ⟨0⟩).bind (v := ⟨2⟩) (t := .var ⟨0⟩) (by decide)
    rw [hrun]
    exact hdescends.acyclic
  have hmax : ∀ v, (runAll paired ({ next := 4 } : Store Symbol)).rank v < Entry.maxRank := by
    intro v
    have hzero := Store.rank_of_entries_empty (s := ({ next := 4 } : Store Symbol)) rfl
    rw [hrun]
    simp only [Store.rank_bind, Store.rank_promote, hzero, Entry.maxRank]
    split_ifs <;> omega
  have hchain : List.IsChain (runAll paired ({ next := 4 } : Store Symbol)).Links
      ([⟨3⟩, ⟨2⟩] ++ [⟨0⟩]) :=
    .cons_cons rfl (.cons_cons rfl (.singleton _))
  exact ⟨hchain, length_le_rank_of_ranked hops rfl hacyclic hmax _ _ hchain⟩

/-- The last of three calls meets the second variable below the first one, and promotes it before
it is linked to the first one. -/
def tangled : List (Operation Symbol) :=
  [unify ⟨.ranked, false⟩ (.var ⟨0⟩) (.node (.fn "f") [.var ⟨1⟩]),
    unify ⟨.ranked, false⟩ (.var ⟨1⟩) (.node (.fn "f") [.var ⟨2⟩]),
    unify ⟨.ranked, false⟩ (.var ⟨0⟩) (.var ⟨1⟩)]

theorem not_length_le_rank_of_ranked :
    ¬ ∀ (ops : List (Operation Symbol)) (s : Store Symbol), (∀ op ∈ ops, op.Ranked) →
      s.entries = ∅ → (∀ v, (runAll ops s).rank v < Entry.maxRank) → ∀ chain w,
        (chain ++ [w]).IsChain (runAll ops s).Links → chain.length ≤ (runAll ops s).rank w := by
  intro h
  have hrun : runAll tangled ({ next := 3 } : Store Symbol) =
      ((((((({ next := 3 } : Store Symbol).bind ⟨0⟩ (.node (.fn "f") [.var ⟨1⟩])).bind ⟨1⟩
        (.node (.fn "f") [.var ⟨2⟩])).promote ⟨1⟩).bind ⟨2⟩ (.var ⟨1⟩)).bind ⟨0⟩
        (.node (.fn "f") [.var ⟨1⟩])).promote ⟨0⟩).bind ⟨1⟩ (.var ⟨0⟩) := rfl
  have hops : ∀ op ∈ tangled, op.Ranked := by
    simp [tangled, Ranked]
  have hmax : ∀ v, (runAll tangled ({ next := 3 } : Store Symbol)).rank v < Entry.maxRank := by
    intro v
    have hzero := Store.rank_of_entries_empty (s := ({ next := 3 } : Store Symbol)) rfl
    rw [hrun]
    simp only [Store.rank_bind, Store.rank_promote, hzero, Entry.maxRank]
    split_ifs <;> omega
  have hchain : List.IsChain (runAll tangled ({ next := 3 } : Store Symbol)).Links
      ([⟨2⟩, ⟨1⟩] ++ [⟨0⟩]) :=
    .cons_cons rfl (.cons_cons rfl (.singleton _))
  have hle : 2 ≤ 1 := h tangled { next := 3 } hops rfl hmax _ _ hchain
  omega

def Weighed (op : Operation σ) : Prop := op.Ranked ∧ op.Guarded

theorem rank_le_of_mem_scanl {ops : List (Operation σ)} (hops : ∀ op ∈ ops, op.Weighed)
    (hs : s.Acyclic) : ∀ s' ∈ ops.scanl (fun s op ↦ (op.run s).2) s, ∀ v, s.rank v ≤ s'.rank v := by
  intro s' hs'
  refine (keeps_of_mem_scanl (I := fun s' ↦ s'.Acyclic ∧ ∀ v, s.rank v ≤ s'.rank v)
    (fun op hop s₁ h₁ ↦ ?_) ⟨hs, fun _ ↦ le_rfl⟩ s' hs').2
  have hlead := leads_of_guarded (hops op hop).2 h₁.1.chained
  exact ⟨hlead.acyclic h₁.1, fun v ↦ (h₁.2 v).trans (hlead.rank_le v)⟩

theorem pairwise_rank_le_scanl {ops : List (Operation σ)} (hops : ∀ op ∈ ops, op.Weighed)
    (hs : s.Acyclic) :
    (ops.scanl (fun s op ↦ (op.run s).2) s).Pairwise fun s₁ s₂ ↦ ∀ v, s₁.rank v ≤ s₂.rank v := by
  induction ops generalizing s with
  | nil => exact List.pairwise_singleton _ s
  | cons op ops ih =>
    have hops' : ∀ op' ∈ ops, op'.Weighed := fun op' h ↦ hops op' (List.mem_cons_of_mem op h)
    have hlead := leads_of_guarded (hops op List.mem_cons_self).2 hs.chained
    rw [List.scanl_cons, List.pairwise_cons]
    refine ⟨fun s' hs' v ↦ ?_, ih hops' (hlead.acyclic hs)⟩
    exact (hlead.rank_le v).trans (rank_le_of_mem_scanl hops' (hlead.acyclic hs) s' hs' v)

theorem ascends_of_mem_scanl {ops : List (Operation σ)} (hops : ∀ op ∈ ops, op.Weighed)
    (hs : s.Acyclic) (hasc : s.Ascends) : ∀ s' ∈ ops.scanl (fun s op ↦ (op.run s).2) s,
      (∀ v, s'.rank v < Entry.maxRank) → s'.Ascends := by
  induction ops generalizing s with
  | nil =>
    intro s' hs' _
    rw [List.scanl_nil, List.mem_singleton] at hs'
    exact hs' ▸ hasc
  | cons op ops ih =>
    intro s' hs' hmax
    rw [List.scanl_cons, List.mem_cons] at hs'
    rcases hs' with rfl | hs'
    · exact hasc
    · have hop := hops op List.mem_cons_self
      have hops' : ∀ op' ∈ ops, op'.Weighed := fun op' h ↦ hops op' (List.mem_cons_of_mem op h)
      have hnext := (leads_of_guarded hop.2 hs.chained).acyclic hs
      -- No rank has reached its bound after the first operation, since none has at the end.
      have htame : (op.run s).2.TameBy ((op.run s).2.extend .var) :=
        ⟨hnext.solvedBy _, fun v ↦ (rank_le_of_mem_scanl hops' hnext s' hs' v).trans_lt (hmax v)⟩
      exact ih hops' hnext (ascends_of_ranked hop.1 hs.chained hasc htame) s' hs' hmax

/-- From a store without entries, runs by rank that make no cycle only link variables upwards, also
if some of the operations fail on the way and leave what they wrote, and lower no rank. -/
theorem rank_lt_of_weighed {ops : List (Operation σ)} (hops : ∀ op ∈ ops, op.Weighed)
    (hs : s.entries = ∅) :
    (∀ s' ∈ ops.scanl (fun s op ↦ (op.run s).2) s, (∀ v, s'.rank v < Entry.maxRank) →
      ∀ v w, s'.binding v = some (.var w) → s'.rank v < s'.rank w) ∧
    (ops.scanl (fun s op ↦ (op.run s).2) s).Pairwise fun s₁ s₂ ↦ ∀ v, s₁.rank v ≤ s₂.rank v := by
  have hfree := Store.binding_of_entries_empty hs
  have hacyclic : s.Acyclic := (Store.descends_of_entries_empty hs fun _ ↦ 0).acyclic
  refine ⟨fun s' hs' hmax v w hvw ↦ ?_, pairwise_rank_le_scanl hops hacyclic⟩
  exact ascends_of_mem_scanl hops hacyclic (Store.ascends_of_free hfree) s' hs' hmax v w hvw

def strained : List (Operation Symbol) :=
  [unify ⟨.ranked, true⟩ (.node .pair [.var ⟨0⟩, .var ⟨1⟩])
      (.node .pair [.var ⟨1⟩, .node (.fn "f") [.var ⟨0⟩]]),
    unify ⟨.ranked, true⟩ (.var ⟨2⟩) (.var ⟨1⟩)]

theorem rank_lt_of_weighed_strained :
    (∃ op ∈ strained, ∃ e, (op.run ({ next := 3 } : Store Symbol)).1 = .error e) ∧
      (runAll strained ({ next := 3 } : Store Symbol)).binding ⟨2⟩ = some (.var ⟨0⟩) ∧
      (runAll strained ({ next := 3 } : Store Symbol)).rank ⟨2⟩ <
        (runAll strained ({ next := 3 } : Store Symbol)).rank ⟨0⟩ := by
  have hops : ∀ op ∈ strained, op.Weighed := by
    simp [strained, Weighed, Ranked, Guarded]
  have hmem : runAll strained ({ next := 3 } : Store Symbol) ∈
      strained.scanl (fun s op ↦ (op.run s).2) { next := 3 } := by
    rw [strained, List.scanl_cons, List.scanl_cons, List.scanl_nil]
    exact List.mem_cons_of_mem _ (List.mem_cons_of_mem _ List.mem_cons_self)
  have hrun : runAll strained ({ next := 3 } : Store Symbol) =
      ((({ next := 3 } : Store Symbol).promote ⟨0⟩).bind ⟨1⟩ (.var ⟨0⟩)).bind ⟨2⟩ (.var ⟨0⟩) := rfl
  have hmax : ∀ v, (runAll strained ({ next := 3 } : Store Symbol)).rank v < Entry.maxRank := by
    intro v
    have hzero := Store.rank_of_entries_empty (s := ({ next := 3 } : Store Symbol)) rfl
    rw [hrun]
    simp only [Store.rank_bind, Store.rank_promote, hzero, Entry.maxRank]
    split_ifs <;> omega
  have hlink : (runAll strained ({ next := 3 } : Store Symbol)).binding ⟨2⟩ = some (.var ⟨0⟩) := rfl
  have hlt := (rank_lt_of_weighed hops rfl).1 _ hmem hmax _ _ hlink
  exact ⟨⟨_, List.mem_cons_self, _, rfl⟩, hlink, hlt⟩

end Operation

end Unification
