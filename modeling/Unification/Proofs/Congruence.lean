import Mathlib.Data.Nat.Notation
import Unification.Operation

namespace Unification

variable {σ ε ε' α β γ : Type} {R : ∀ ⦃α : Type⦄, Script σ ε α → Script σ ε' α → Prop}

namespace Script

/-- A relation between scripts that holds of the whole when it holds of the parts. The two sides may
be meant for stores with different errors. It asks nothing of a script that ran out of fuel. -/
structure Congruence (R : ∀ ⦃α : Type⦄, Script σ ε α → Script σ ε' α → Prop) : Prop where
  pure {α : Type} (a : α) : R (Pure.pure a) (Pure.pure a)
  abort {α : Type} (e : Event σ) (c : Clash σ) : R (abort (α := α) e c) (abort e c)
  log (e : Event σ) : R (log e) (log e)
  call (r : Request σ) : R (call r ofAnswer) (call r ofAnswer)
  unfinished {α : Type} (m : Script σ ε' α) : R .unfinished m
  bind {α β : Type} {m : Script σ ε α} {m' : Script σ ε' α} {f : α → Script σ ε β}
    {f' : α → Script σ ε' β} : R m m' → (∀ a, R (f a) (f' a)) → R (m >>= f) (m' >>= f')

namespace Congruence

variable (hR : Congruence R)

include hR

theorem map {m : Script σ ε α} {m' : Script σ ε' α} (f : α → β) (h : R m m') :
    R (f <$> m) (f <$> m') := by
  rw [map_eq_pure_bind, map_eq_pure_bind]
  exact hR.bind h fun _ ↦ hR.pure _

theorem when {m : Script σ ε Unit} {m' : Script σ ε' Unit} (b : Bool) (h : R m m') :
    R (when b m) (when b m') := by
  cases b with
  | false => exact hR.pure ()
  | true => exact h

theorem assign (v : Var) (t : Term σ) : R (Script.assign v t) (Script.assign v t) :=
  hR.call (.bind v t)

theorem newVar (t : Term σ) : R (Script.newVar t) (Script.newVar t) :=
  hR.bind (hR.call .fresh) fun v ↦ hR.bind (hR.assign v t) fun _ ↦ hR.pure v

theorem each {f : α → Script σ ε Unit} {f' : α → Script σ ε' Unit} (h : ∀ a, R (f a) (f' a))
    (l : List α) : R (each f l) (each f' l) := by
  induction l with
  | nil => exact hR.pure ()
  | cons a l ih => exact hR.bind (h a) fun _ ↦ ih

theorem mapEach {f : α → Script σ ε β} {f' : α → Script σ ε' β} (h : ∀ a, R (f a) (f' a))
    (l : List α) : R (mapEach f l) (mapEach f' l) := by
  induction l with
  | nil => exact hR.pure _
  | cons a l ih => exact hR.bind (h a) fun _ ↦ hR.bind ih fun _ ↦ hR.pure _

theorem mapState {f : γ → α → Script σ ε (β × γ)} {f' : γ → α → Script σ ε' (β × γ)}
    (h : ∀ c a, R (f c a) (f' c a)) (c : γ) (l : List α) :
    R (mapState f c l) (mapState f' c l) := by
  induction l generalizing c with
  | nil => exact hR.pure _
  | cons a l ih => exact hR.bind (h c a) fun r ↦ hR.bind (ih r.2) fun _ ↦ hR.pure _

theorem foldWhile {f : γ → α → Script σ ε (Option γ)} {f' : γ → α → Script σ ε' (Option γ)}
    (h : ∀ c a, R (f c a) (f' c a)) (c : γ) (l : List α) :
    R (foldWhile f c l) (foldWhile f' c l) := by
  induction l generalizing c with
  | nil => exact hR.pure _
  | cons a l ih =>
    refine hR.bind (h c a) fun r ↦ ?_
    cases r with
    | none => exact hR.pure _
    | some c => exact ih c

theorem stepInto (path : List Var) (via : Option Var) (layer : Layer σ (Term σ)) :
    R (Unification.stepInto path via layer) (Unification.stepInto path via layer) := by
  cases via with
  | none => exact hR.pure _
  | some v =>
    unfold Unification.stepInto
    dsimp only
    split
    · exact hR.abort _ _
    · exact hR.pure _

theorem choose (v : Var) (vBound : Bool) (w : Var) (wBound : Bool) (strategy : Strategy) :
    R (strategy.choose v vBound w wBound) (strategy.choose v vBound w wBound) := by
  cases strategy with
  | plain => exact hR.pure _
  | ranked =>
    exact hR.bind (hR.call (.rank v)) fun _ ↦ hR.bind (hR.call (.rank w)) fun _ ↦ hR.pure _

end Congruence

end Script

open Script

section Unify

variable {mode mode' : Mode} {fuel fuel' n n' : ℕ} (hR : Congruence R)
  (hguard : ∀ v t, R (guardOccurs mode fuel v t) (guardOccurs mode' fuel' v t))

include hR hguard

theorem bindFree_congr (v : Var) (layer : Layer σ (Term σ)) :
    R (bindFree mode fuel v layer) (bindFree mode' fuel' v layer) :=
  hR.bind (hguard v _) fun _ ↦ hR.bind (hR.assign v _) fun _ ↦ hR.pure _

theorem absorb_congr (kept : Var) (kb : Option (Layer σ (Term σ))) (absorbed : Var)
    (ab unified : Option (Layer σ (Term σ))) (tie : Bool) :
    R (absorb mode fuel kept kb absorbed ab unified tie)
      (absorb mode' fuel' kept kb absorbed ab unified tie) := by
  have hset : ∀ o : Option (Layer σ (Term σ)),
      R (absorb.bindKept mode fuel kept kb o) (absorb.bindKept mode' fuel' kept kb o) := by
    intro o
    cases o with
    | none => exact hR.pure ()
    | some m => exact hR.bind (hR.when _ (hguard kept _)) fun _ ↦ hR.assign kept _
  have hpromote := hR.when tie (hR.bind (hR.log (.promoting kept)) fun _ ↦ hR.call (.promote kept))
  refine hR.bind (hset _) fun _ ↦ hR.bind hpromote fun _ ↦ ?_
  refine hR.bind (hR.when _ (hguard absorbed _)) fun _ ↦ hR.bind (hR.log _) fun _ ↦ ?_
  exact hR.bind (hR.assign absorbed _) fun _ ↦ hR.pure _

variable [DecidableEq σ]

section Step

variable {recurse : List Var → Term σ → Term σ → Script σ ε (Term σ)}
  {recurse' : List Var → Term σ → Term σ → Script σ ε' (Term σ)}
  (hrec : ∀ path t u, R (recurse path t u) (recurse' path t u))

include hrec

omit hguard in
theorem unifyLayers_congr (path : List Var) (l r : Layer σ (Term σ)) :
    R (unifyLayers recurse path l r) (unifyLayers recurse' path l r) := by
  unfold unifyLayers
  cases l.align? r with
  | none => exact hR.abort _ _
  | some a =>
    refine hR.bind (hR.mapEach (fun x ↦ ?_) a.slots) fun _ ↦ hR.pure _
    cases x with
    | same t => exact hR.pure _
    | differ t u => exact hrec path t u

omit hguard in
theorem rebind_congr (path : List Var) (v : Var) (bound l r : Layer σ (Term σ)) :
    R (rebind recurse path v bound l r) (rebind recurse' path v bound l r) :=
  hR.bind (hR.stepInto path (some v) bound) fun path ↦
    hR.bind (unifyLayers_congr hR hrec path l r) fun _ ↦
      hR.bind (hR.assign v _) fun _ ↦ hR.pure _

variable (hstrategy : mode.strategy = mode'.strategy)

include hstrategy

theorem unifyVars_congr (path : List Var) (v : Var) (l : Option (Layer σ (Term σ))) (w : Var)
    (r : Option (Layer σ (Term σ))) :
    R (unifyHeads.unifyVars mode fuel recurse path v l w r)
      (unifyHeads.unifyVars mode' fuel' recurse' path v l w r) := by
  have hbindings : R (joinVars.unifyBindings recurse path v l w r)
      (joinVars.unifyBindings recurse' path v l w r) := by
    match l, r with
    | none, none => exact hR.pure _
    | none, some r => exact hR.pure _
    | some l, none => exact hR.pure _
    | some l, some r =>
      refine hR.bind (hR.stepInto _ _ _) fun _ ↦ hR.bind (hR.stepInto _ _ _) fun path ↦ ?_
      exact hR.bind (unifyLayers_congr hR hrec path l r) fun _ ↦ hR.pure _
  unfold unifyHeads.unifyVars
  split
  · exact hR.pure _
  · unfold joinVars
    rw [hstrategy]
    refine hR.bind (hR.choose _ _ _ _ _) fun choice ↦ hR.bind hbindings fun unified ↦ ?_
    cases choice with
    | left tie => exact absorb_congr hR hguard v l w r unified tie
    | right => exact absorb_congr hR hguard w r v l unified false

theorem unifyHeads_congr (path : List Var) (l r : Head σ) :
    R (unifyHeads mode fuel recurse path l r) (unifyHeads mode' fuel' recurse' path l r) := by
  have hvars := unifyVars_congr hR hguard hrec hstrategy path
  match l, r with
  | .free v, .free w => exact hvars v none w none
  | .free v, .shape (some w) r => exact hvars v none w (some r)
  | .shape (some v) l, .free w => exact hvars v (some l) w none
  | .shape (some v) l, .shape (some w) r => exact hvars v (some l) w (some r)
  | .free v, .shape none r => exact bindFree_congr hR hguard v r
  | .shape none l, .free w => exact bindFree_congr hR hguard w l
  | .shape (some v) l, .shape none r => exact rebind_congr hR hrec path v l l r
  | .shape none l, .shape (some w) r => exact rebind_congr hR hrec path w r l r
  | .shape none l, .shape none r =>
    exact hR.bind (unifyLayers_congr hR hrec path l r) fun _ ↦ hR.pure _

end Step

theorem unifyBelow_congr (hstrategy : mode.strategy = mode'.strategy)
    (hfind : ∀ t : Term σ, R (find fuel t) (find fuel' t)) (hn : n ≤ n') (path : List Var)
    (t u : Term σ) : R (unifyBelow mode fuel n path t u) (unifyBelow mode' fuel' n' path t u) := by
  induction n generalizing n' path t u with
  | zero => exact hR.unfinished _
  | succ n ih =>
    obtain ⟨n', rfl⟩ := Nat.exists_eq_add_one.mpr (Nat.zero_lt_of_lt hn)
    refine hR.bind (hfind t) fun l ↦ hR.bind (hfind u) fun r ↦ ?_
    exact unifyHeads_congr hR hguard (ih (Nat.le_of_succ_le_succ hn)) hstrategy path l r

end Unify

section Recursions

variable {fuel fuel' n n' : ℕ} (hR : Congruence R)

include hR

theorem Walk.chase_congr (h : fuel ≤ fuel') (seen : List Var) (v : Var) :
    R (chase fuel seen v) (chase fuel' seen v) := by
  induction fuel generalizing fuel' seen v with
  | zero => exact hR.unfinished _
  | succ fuel ih =>
    obtain ⟨fuel', rfl⟩ := Nat.exists_eq_add_one.mpr (Nat.zero_lt_of_lt h)
    refine hR.bind (hR.call (.lookup v)) fun t ↦ ?_
    match t with
    | none => exact hR.pure _
    | some (.node f args) => exact hR.pure _
    | some (.var w) =>
      dsimp only
      split
      · exact hR.abort _ _
      · exact hR.bind (ih (Nat.le_of_succ_le_succ h) _ _) fun _ ↦ hR.pure _

theorem Walk.shorten_congr (w : Walk σ) : R w.shorten w.shorten :=
  hR.each (fun _ ↦ hR.bind (hR.log _) fun _ ↦ hR.assign _ _) _

theorem peek_congr (h : fuel ≤ fuel') (t : Term σ) : R (peek fuel t) (peek fuel' t) := by
  cases t with
  | node f args => exact hR.pure _
  | var v => exact hR.bind (Walk.chase_congr hR h [] v) fun _ ↦ hR.pure _

theorem find_congr (h : fuel ≤ fuel') (t : Term σ) : R (find fuel t) (find fuel' t) := by
  cases t with
  | node f args => exact hR.pure _
  | var v =>
    refine hR.bind (Walk.chase_congr hR h [] v) fun w ↦ ?_
    exact hR.bind (Walk.shorten_congr hR w) fun _ ↦ hR.pure _

theorem terminal_congr (h : fuel ≤ fuel') (t : Term σ) :
    R (terminal fuel t) (terminal fuel' t) := by
  cases t with
  | node f args => exact hR.pure _
  | var v =>
    refine hR.bind (Walk.chase_congr hR h [] v) fun w ↦ ?_
    cases w.value with
    | none => exact hR.bind (Walk.shorten_congr hR w) fun _ ↦ hR.pure _
    | some layer =>
      refine hR.bind (hR.each (fun _ ↦ ?_) _) fun _ ↦ hR.pure _
      exact hR.bind (hR.log _) fun _ ↦ hR.assign _ _

theorem search_congr (v : Var) (h : fuel ≤ fuel') (seen : List Var) (stack : List (Term σ)) :
    R (search v fuel seen stack) (search v fuel' seen stack) := by
  induction fuel generalizing fuel' seen stack with
  | zero =>
    cases stack with
    | nil => cases fuel' <;> exact hR.pure _
    | cons t stack => exact hR.unfinished _
  | succ fuel ih =>
    obtain ⟨fuel', rfl⟩ := Nat.exists_eq_add_one.mpr (Nat.zero_lt_of_lt h)
    have ih := @ih fuel' (Nat.le_of_succ_le_succ h)
    match stack with
    | [] => exact hR.pure _
    | .node f args :: stack => exact ih seen _
    | .var w :: stack =>
      rw [search, search]
      split
      · exact hR.pure _
      split
      · exact ih seen stack
      refine hR.bind (hR.call (.lookup w)) fun t ↦ ?_
      cases t with
      | none => exact ih _ _
      | some t => exact ih _ _

theorem collectFree_congr (h : fuel ≤ fuel') (seen free : List Var) (stack : List (Term σ)) :
    R (collectFree fuel seen free stack) (collectFree fuel' seen free stack) := by
  induction fuel generalizing fuel' seen free stack with
  | zero =>
    cases stack with
    | nil => cases fuel' <;> exact hR.pure _
    | cons t stack => exact hR.unfinished _
  | succ fuel ih =>
    obtain ⟨fuel', rfl⟩ := Nat.exists_eq_add_one.mpr (Nat.zero_lt_of_lt h)
    have ih := @ih fuel' (Nat.le_of_succ_le_succ h)
    match stack with
    | [] => exact hR.pure _
    | .node f args :: stack => exact ih seen free _
    | .var w :: stack =>
      rw [collectFree, collectFree]
      split
      · exact ih seen free stack
      refine hR.bind (hR.call (.lookup w)) fun t ↦ ?_
      cases t with
      | none => exact ih _ _ _
      | some t => exact ih _ _ _

theorem Layer.mapMemo_congr {f : Memo σ → Term σ → Script σ ε (Term σ × Memo σ)}
    {f' : Memo σ → Term σ → Script σ ε' (Term σ × Memo σ)}
    (h : ∀ memo t, R (f memo t) (f' memo t)) (memo : Memo σ) (layer : Layer σ (Term σ)) :
    R (layer.mapMemo f memo) (layer.mapMemo f' memo) :=
  hR.bind (hR.mapState h memo layer.slots) fun _ ↦ hR.pure _

theorem resolveWith_congr (h : fuel ≤ fuel') (hn : n ≤ n') (memo : Memo σ) (t : Term σ) :
    R (resolveWith fuel n memo t) (resolveWith fuel' n' memo t) := by
  induction n generalizing n' memo t with
  | zero => exact hR.unfinished _
  | succ n ih =>
    obtain ⟨n', rfl⟩ := Nat.exists_eq_add_one.mpr (Nat.zero_lt_of_lt hn)
    have hslots := Layer.mapMemo_congr hR (@ih n' (Nat.le_of_succ_le_succ hn))
    refine hR.bind (peek_congr hR h t) fun head ↦ ?_
    match head with
    | .free v => exact hR.pure _
    | .shape none layer => exact hslots memo layer
    | .shape (some v) layer =>
      dsimp only
      cases List.lookup v memo with
      | none => exact hR.bind (hslots _ layer) fun _ ↦ hR.pure _
      | some progress =>
        cases progress with
        | started => exact hR.abort _ _
        | done u => exact hR.pure _

theorem renameWith_congr (h : fuel ≤ fuel') (hn : n ≤ n') (memo : Memo σ) (t : Term σ) :
    R (renameWith fuel n memo t) (renameWith fuel' n' memo t) := by
  have hfinish : ∀ (v copy : Var) (memo : Memo σ),
      R (renameWith.finish v copy memo) (renameWith.finish v copy memo) :=
    fun v copy memo ↦ hR.bind (hR.log _) fun _ ↦ hR.pure _
  induction n generalizing n' memo t with
  | zero => exact hR.unfinished _
  | succ n ih =>
    obtain ⟨n', rfl⟩ := Nat.exists_eq_add_one.mpr (Nat.zero_lt_of_lt hn)
    have hslots := Layer.mapMemo_congr hR (@ih n' (Nat.le_of_succ_le_succ hn))
    refine hR.bind (find_congr hR h t) fun head ↦ ?_
    match head with
    | .shape none layer => exact hslots memo layer
    | .free v =>
      dsimp only
      cases List.lookup v memo with
      | none => exact hR.bind (hR.call .fresh) fun _ ↦ hfinish _ _ _
      | some progress =>
        cases progress with
        | started => exact hR.abort _ _
        | done u => exact hR.pure _
    | .shape (some v) layer =>
      dsimp only
      cases List.lookup v memo with
      | none =>
        refine hR.bind (hslots _ layer) fun _ ↦ ?_
        exact hR.bind (hR.newVar _) fun _ ↦ hfinish _ _ _
      | some progress =>
        cases progress with
        | started => exact hR.abort _ _
        | done u => exact hR.pure _

theorem Paths.stepInto_congr (paths : Paths) (v : Option Var) (l : Layer σ (Term σ))
    (w : Option Var) (r : Layer σ (Term σ)) :
    R (paths.stepInto v l w r) (paths.stepInto v l w r) :=
  hR.bind (hR.stepInto _ _ _) fun _ ↦ hR.bind (hR.stepInto _ _ _) fun _ ↦ hR.pure _

variable [DecidableEq σ]

theorem unify_congr (mode : Mode) (h : fuel ≤ fuel') (t u : Term σ) :
    R (unify mode fuel t u) (unify mode fuel' t u) := by
  refine hR.bind (hR.log _) fun _ ↦ ?_
  refine unifyBelow_congr hR (fun v t ↦ ?_) rfl (find_congr hR h) h [] t u
  refine hR.when _ (hR.bind (search_congr hR v h [] [t]) fun _ ↦ ?_)
  exact hR.when _ (hR.abort _ _)

theorem compareWith_congr (criterion : Criterion) (h : fuel ≤ fuel') (hn : n ≤ n')
    (paths : Paths) (ρ : Renaming) (t u : Term σ) :
    R (compareWith criterion fuel n paths ρ t u) (compareWith criterion fuel' n' paths ρ t u) := by
  induction n generalizing n' paths ρ t u with
  | zero => exact hR.unfinished _
  | succ n ih =>
    obtain ⟨n', rfl⟩ := Nat.exists_eq_add_one.mpr (Nat.zero_lt_of_lt hn)
    have ih := @ih n' (Nat.le_of_succ_le_succ hn)
    refine hR.bind (peek_congr hR h t) fun l ↦ hR.bind (peek_congr hR h u) fun r ↦ ?_
    match l, r with
    | .free v, .free w => exact hR.pure _
    | .free v, .shape w r => exact hR.pure _
    | .shape v l, .free w => exact hR.pure _
    | .shape v l, .shape w r =>
      dsimp only
      split
      · exact hR.pure _
      refine hR.bind (Paths.stepInto_congr hR paths v l w r) fun paths ↦ ?_
      cases l.align? r with
      | none => exact hR.pure _
      | some aligned =>
        refine hR.foldWhile (fun ρ a ↦ ?_) ρ aligned.slots
        cases a with
        | same t =>
          cases criterion with
          | identical => exact hR.pure _
          | renamed => exact ih paths ρ t t
        | differ t u => exact ih paths ρ t u

theorem subsumesBelow_congr (h : fuel ≤ fuel') (hn : n ≤ n') (paths : Paths) (t u : Term σ) :
    R (subsumesBelow fuel n paths t u) (subsumesBelow fuel' n' paths t u) := by
  induction n generalizing n' paths t u with
  | zero => exact hR.unfinished _
  | succ n ih =>
    obtain ⟨n', rfl⟩ := Nat.exists_eq_add_one.mpr (Nat.zero_lt_of_lt hn)
    have ih := @ih n' (Nat.le_of_succ_le_succ hn)
    refine hR.bind (find_congr hR h t) fun l ↦ hR.bind (find_congr hR h u) fun r ↦ ?_
    match l, r with
    | .free v, r => exact hR.bind (hR.when _ (hR.assign v _)) fun _ ↦ hR.pure _
    | .shape v l, .free w => exact hR.pure _
    | .shape v l, .shape w r =>
      dsimp only
      split
      · exact hR.pure _
      refine hR.bind (Paths.stepInto_congr hR paths v l w r) fun paths ↦ ?_
      cases l.align? r with
      | none => exact hR.pure _
      | some aligned =>
        refine hR.bind (hR.foldWhile (fun _ a ↦ ?_) () aligned.slots) fun _ ↦ hR.pure _
        cases a with
        | same t => exact hR.pure _
        | differ t u => exact hR.bind (ih paths t u) fun _ ↦ hR.pure _

theorem Operation.script_congr (op : Operation σ) (h : fuel ≤ fuel') :
    R (op.script fuel) (op.script fuel') := by
  cases op with
  | representative t => exact hR.map _ (hR.bind (find_congr hR h t) fun _ ↦ hR.pure _)
  | terminal t => exact hR.map _ (terminal_congr hR h t)
  | unify mode t u => exact hR.map _ (unify_congr hR mode h t u)
  | unified strategy t u => exact hR.map _ (unify_congr hR _ h t u)
  | occurs v t => exact hR.map _ (search_congr hR v h [] [t])
  | freeVars ts => exact hR.map _ (collectFree_congr hR h [] [] ts.reverse)
  | resolve t => exact hR.map _ (hR.bind (resolveWith_congr hR h h [] t) fun _ ↦ hR.pure _)
  | resolveAll ts =>
    have hts := hR.mapState (resolveWith_congr hR h h) [] ts
    exact hR.map _ (hR.bind hts fun _ ↦ hR.pure _)
  | renameApart t => exact hR.map _ (hR.bind (renameWith_congr hR h h [] t) fun _ ↦ hR.pure _)
  | renameApartAll ts =>
    have hts := hR.mapState (renameWith_congr hR h h) [] ts
    exact hR.map _ (hR.bind hts fun _ ↦ hR.pure _)
  | equal t u =>
    have htu := compareWith_congr hR .identical h h {} [] t u
    exact hR.map _ (hR.bind htu fun _ ↦ hR.pure _)
  | variant t u => exact hR.map _ (compareWith_congr hR .renamed h h {} [] t u)
  | subsumes t u => exact hR.map _ (subsumesBelow_congr hR h h {} t u)

end Recursions

end Unification
