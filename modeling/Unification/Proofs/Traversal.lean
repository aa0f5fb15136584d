import Unification.Proofs.Term
import Unification.Symbol
import Unification.Term.Tree

namespace Unification

variable {σ ε : Type}

namespace Tree

theorem toTermList_eq_map (ps : List (Tree σ)) : toTermList ps = ps.map toTerm := by
  induction ps with
  | nil => rfl
  | cons p ps ih => rw [toTermList, ih, List.map_cons]

@[simp]
theorem toTerm_node (f : σ) (ps : List (Tree σ)) : (node f ps).toTerm = .node f (ps.map toTerm) := by
  rw [toTerm, toTermList_eq_map]

end Tree

namespace Term

theorem isGroundList_eq_all (ts : List (Term σ)) : isGroundList ts = ts.all isGround := by
  induction ts with
  | nil => rfl
  | cons t ts ih => rw [isGroundList, ih, List.all_cons]

theorem isGround_iff_vars_eq_nil (t : Term σ) : t.isGround = true ↔ t.vars = [] := by
  induction t with
  | var v => simp [isGround, vars]
  | node f args ih =>
    rw [isGround, isGroundList_eq_all, List.all_eq_true, vars, varsList_eq_flatMap,
      List.flatMap_eq_nil_iff]
    exact forall₂_congr ih

theorem isSome_toTreeList? {ts : List (Term σ)} (h : ∀ t ∈ ts, t.toTree?.isSome = t.isGround) :
    (toTreeList? ts).isSome = isGroundList ts := by
  induction ts with
  | nil => rfl
  | cons t ts ih =>
    obtain ⟨ht, hts⟩ := List.forall_mem_cons.mp h
    rw [toTreeList?, isGroundList, ← ht, ← ih hts]
    cases t.toTree? with
    | none => rfl
    | some p => simp

theorem isSome_toTree? (t : Term σ) : t.toTree?.isSome = t.isGround := by
  induction t with
  | var v => rfl
  | node f args ih => rw [toTree?, Option.isSome_map, isGround, isSome_toTreeList? ih]

theorem toTreeList?_eq_some_iff {ts : List (Term σ)} {ps : List (Tree σ)}
    (h : ∀ t ∈ ts, ∀ p, t.toTree? = some p ↔ p.toTerm = t) :
    toTreeList? ts = some ps ↔ ps.map Tree.toTerm = ts := by
  induction ts generalizing ps with
  | nil => rw [toTreeList?, Option.some_inj, List.map_eq_nil_iff, eq_comm]
  | cons t ts ih =>
    obtain ⟨ht, hts⟩ := List.forall_mem_cons.mp h
    rw [toTreeList?]
    cases ps with
    | nil => cases t.toTree? <;> simp
    | cons p ps =>
      rw [List.map_cons, List.cons.injEq, ← ht, ← ih hts]
      cases t.toTree? <;> simp [and_comm]

theorem toTree?_eq_some_iff {t : Term σ} {p : Tree σ} : t.toTree? = some p ↔ p.toTerm = t := by
  induction t generalizing p with
  | var v =>
    cases p
    simp [toTree?]
  | node f args ih =>
    obtain ⟨g, ps⟩ := p
    rw [toTree?, Tree.toTerm_node, node.injEq, ← toTreeList?_eq_some_iff fun t ht _ ↦ ih t ht]
    cases toTreeList? args <;> simp [and_comm, eq_comm]

/-- Trees are the ground terms: a tree is turned into a ground term and back into itself, and only
a term without variables is turned into a tree, and back into itself. -/
theorem toTree?_inverse :
    (∀ p : Tree σ, p.toTerm.toTree? = some p ∧ p.toTerm.isGround = true) ∧
      ∀ t : Term σ, (t.toTree?.isSome = true ↔ t.isGround = true) ∧
        (t.isGround = true ↔ t.vars = []) ∧ ∀ p, t.toTree? = some p ↔ p.toTerm = t := by
  refine ⟨fun p ↦ ?_, fun t ↦ ⟨?_, isGround_iff_vars_eq_nil t, fun p ↦ toTree?_eq_some_iff⟩⟩
  · have hp : p.toTerm.toTree? = some p := toTree?_eq_some_iff.mpr rfl
    refine ⟨hp, ?_⟩
    rw [← isSome_toTree?, hp, Option.isSome_some]
  · rw [isSome_toTree?]

mutual

/-- Puts the terms of a list in the places of the variables, from left to right, and returns with
the term those that are left over. -/
def fill : Term σ → List (Term σ) → Term σ × List (Term σ)
  | .var v, us => (us.headD (.var v), us.tail)
  | .node f args, us =>
    let (args, us) := fillList args us
    (.node f args, us)

def fillList : List (Term σ) → List (Term σ) → List (Term σ) × List (Term σ)
  | [], us => ([], us)
  | t :: ts, us =>
    let (t, us) := t.fill us
    let (ts, us) := fillList ts us
    (t :: ts, us)

end

theorem fillList_map_vars {θ : Var → Term σ} {ts : List (Term σ)}
    (hts : ∀ t ∈ ts, ∀ us : List (Term σ), t.fill (t.vars.map θ ++ us) = (t.subst θ, us))
    (us : List (Term σ)) :
    fillList ts ((varsList ts).map θ ++ us) = (ts.map (subst θ), us) := by
  induction ts with
  | nil => rfl
  | cons t ts ih =>
    obtain ⟨ht, hts⟩ := List.forall_mem_cons.mp hts
    rw [varsList, List.map_append, List.append_assoc, fillList, ht]
    dsimp only
    rw [ih hts, List.map_cons]

theorem fill_map_vars (θ : Var → Term σ) (t : Term σ) (us : List (Term σ)) :
    t.fill (t.vars.map θ ++ us) = (t.subst θ, us) := by
  induction t generalizing us with
  | var v => rfl
  | node f args ih => rw [vars, fill, fillList_map_vars ih, subst_node]

section Monad

variable {m : Type → Type} [Monad m] [LawfulMonad m] (h : Var → m (Term σ))

theorem fillList_mapM {ts : List (Term σ)}
    (hts : ∀ t ∈ ts, ∀ vs : List Var, t.fill <$> (t.vars ++ vs).mapM h =
      t.substM h >>= fun u ↦ (u, ·) <$> vs.mapM h) (vs : List Var) :
    fillList ts <$> (varsList ts ++ vs).mapM h =
      substListM h ts >>= fun us ↦ (us, ·) <$> vs.mapM h := by
  induction ts with
  | nil =>
    rw [substListM, pure_bind]
    rfl
  | cons t ts ih =>
    obtain ⟨ht, hts⟩ := List.forall_mem_cons.mp hts
    let rest (u : Term σ) (us : List (Term σ)) : List (Term σ) × List (Term σ) :=
      (u :: (fillList ts us).1, (fillList ts us).2)
    have hrest (u : Term σ) : rest u <$> (varsList ts ++ vs).mapM h =
        substListM h ts >>= fun us ↦ (u :: us, ·) <$> vs.mapM h := by
      calc rest u <$> (varsList ts ++ vs).mapM h
          = (fun p ↦ (u :: p.1, p.2)) <$> fillList ts <$> (varsList ts ++ vs).mapM h := by
            rw [Functor.map_map]
        _ = substListM h ts >>= fun us ↦ (u :: us, ·) <$> vs.mapM h := by
            rw [ih hts, map_bind]
            simp only [Functor.map_map]
    calc fillList (t :: ts) <$> (varsList (t :: ts) ++ vs).mapM h
        = (fun p ↦ rest p.1 p.2) <$> t.fill <$> (t.vars ++ (varsList ts ++ vs)).mapM h := by
          rw [Functor.map_map, varsList, List.append_assoc]
          rfl
      _ = t.substM h >>= fun u ↦ rest u <$> (varsList ts ++ vs).mapM h := by
          rw [ht, map_bind]
          simp only [Functor.map_map]
      _ = substListM h (t :: ts) >>= fun us ↦ (us, ·) <$> vs.mapM h := by
          simp only [hrest, substListM, bind_assoc, pure_bind]

theorem fill_mapM (t : Term σ) (vs : List Var) : t.fill <$> (t.vars ++ vs).mapM h =
    t.substM h >>= fun u ↦ (u, ·) <$> vs.mapM h := by
  induction t generalizing vs with
  | var v => simp [vars, substM, fill]
  | node f args ih =>
    calc (node f args).fill <$> ((node f args).vars ++ vs).mapM h
        = (fun p ↦ (node f p.1, p.2)) <$> fillList args <$> (varsList args ++ vs).mapM h := by
          rw [Functor.map_map, vars]
          rfl
      _ = (node f args).substM h >>= fun u ↦ (u, ·) <$> vs.mapM h := by
          rw [fillList_mapM h ih, map_bind]
          simp [substM]

/-- An effectful substitution visits the variables in order and does nothing else. -/
theorem substM_eq_fill (t : Term σ) :
    t.substM h = (fun us ↦ (t.fill us).1) <$> t.vars.mapM h := by
  have hfill := congrArg (Functor.map Prod.fst) (fill_mapM h t [])
  simpa using hfill.symm

end Monad

section Refusing

variable {h : Var → Except ε (Term σ)} {θ : Var → Term σ} {before after asked vs : List Var}
  {v : Var} {e : ε}

def ask (h : Var → Except ε (Term σ)) (v : Var) : ExceptT ε (StateM (List Var)) (Term σ) := do
  modify (· ++ [v])
  trySubst.liftExcept (h v)

theorem run_ask (v : Var) : (ask h v).run.run asked = (h v, asked ++ [v]) := by
  rw [ask]
  cases h v <;> rfl

theorem run_bind_ask {β γ : Type} (m : ExceptT ε (StateM (List Var)) β)
    (f : β → ExceptT ε (StateM (List Var)) γ) : (m >>= f).run.run asked =
      match m.run.run asked with
      | (.ok b, asked) => (f b).run.run asked
      | (.error e, asked) => (.error e, asked) := by
  rw [ExceptT.run_bind, StateT.run_bind]
  match m.run.run asked with
  | (.ok b, asked) => rfl
  | (.error e, asked) => rfl

theorem run_mapM_ask (hvs : ∀ v ∈ vs, h v = .ok (θ v)) :
    (vs.mapM (ask h)).run.run asked = (.ok (vs.map θ), asked ++ vs) := by
  induction vs generalizing asked with
  | nil =>
    rw [List.append_nil]
    rfl
  | cons v vs ih =>
    obtain ⟨hv, hvs⟩ := List.forall_mem_cons.mp hvs
    rw [List.mapM_cons, run_bind_ask, run_ask, hv]
    dsimp only
    rw [run_bind_ask, ih hvs, List.append_assoc]
    rfl

theorem run_mapM_ask_error (hbefore : ∀ w ∈ before, h w = .ok (θ w)) (hv : h v = .error e) :
    ((before ++ v :: after).mapM (ask h)).run.run asked = (.error e, asked ++ before ++ [v]) := by
  rw [List.mapM_append, run_bind_ask, run_mapM_ask hbefore]
  dsimp only
  rw [List.mapM_cons, run_bind_ask, run_bind_ask, run_ask, hv]

theorem trySubst_eq_fill (t : Term σ) :
    t.trySubst h = ((fun us ↦ (t.fill us).1) <$> t.vars.mapM (ask h)).run.run [] :=
  congrArg (fun m ↦ m.run.run []) (substM_eq_fill (ask h) t)

theorem trySubst_of_ok {t : Term σ} (hvars : ∀ v ∈ t.vars, h v = .ok (θ v)) :
    t.trySubst h = (.ok (t.subst θ), t.vars) := by
  have hfill := fill_map_vars θ t []
  rw [List.append_nil] at hfill
  rw [trySubst_eq_fill, map_eq_pure_bind, run_bind_ask, run_mapM_ask hvars]
  dsimp only
  rw [hfill]
  rfl

theorem trySubst_of_error {t : Term σ} (ht : t.vars = before ++ v :: after)
    (hbefore : ∀ w ∈ before, h w = .ok (θ w)) (hv : h v = .error e) :
    t.trySubst h = (.error e, before ++ [v]) := by
  rw [trySubst_eq_fill, map_eq_pure_bind, run_bind_ask, ht, run_mapM_ask_error hbefore hv]
  rfl

end Refusing

/-- Substitution is a monad with the variables as its units, and the variables of what it makes are
those of the terms put in, in order. A function that may refuse a variable is asked for the
variables from left to right up to the first one that it refuses, also if it keeps a state. -/
theorem subst_lawful (t : Term σ) :
    t.subst var = t ∧
    (∀ f g : Var → Term σ, (t.subst f).subst g = t.subst fun v ↦ (f v).subst g) ∧
    (∀ f : Var → Term σ, (t.subst f).vars = t.vars.flatMap fun v ↦ (f v).vars) ∧
    (∀ (h : Var → Except ε (Term σ)) (f : Var → Term σ),
      ((∀ v ∈ t.vars, h v = .ok (f v)) → t.trySubst h = (.ok (t.subst f), t.vars)) ∧
      ∀ before v after e, t.vars = before ++ v :: after → (∀ w ∈ before, h w = .ok (f w)) →
        h v = .error e → t.trySubst h = (.error e, before ++ [v])) ∧
    (∀ (S : Type) (h : Var → ExceptT ε (StateM S) (Term σ)),
      t.substM h = (fun us ↦ (t.fill us).1) <$> t.vars.mapM h) ∧
    ∀ (f : Var → Term σ) (us : List (Term σ)), t.fill (t.vars.map f ++ us) = (t.subst f, us) := by
  refine ⟨t.subst_self, fun f g ↦ subst_subst f g t, fun f ↦ vars_subst f t, fun h f ↦ ⟨?_, ?_⟩,
    fun S h ↦ substM_eq_fill h t, fun f us ↦ fill_map_vars f t us⟩
  · exact trySubst_of_ok
  · intro before v after e ht hbefore hv
    exact trySubst_of_error ht hbefore hv

theorem subst_lawful_refused :
    let t : Term Symbol := .node .pair [.var ⟨0⟩, .node .pair [.var ⟨1⟩, .var ⟨2⟩]]
    let h (v : Var) : Except Var (Term Symbol) := if v.id = 1 then .error v else .ok (.var v)
    let moved (v : Var) : Term Symbol := .var ⟨v.id + 10⟩
    t.trySubst h = (.error ⟨1⟩, [⟨0⟩, ⟨1⟩]) ∧
      (t.trySubst fun v ↦ (.ok (moved v) : Except Var _)) =
        (.ok (.node .pair [.var ⟨10⟩, .node .pair [.var ⟨11⟩, .var ⟨12⟩]]), [⟨0⟩, ⟨1⟩, ⟨2⟩]) := by
  intro t h moved
  obtain ⟨-, -, -, htry, -⟩ := subst_lawful (ε := Var) t
  have hfirst : ∀ w ∈ [(⟨0⟩ : Var)], h w = .ok (.var w) := by
    simp [h]
  exact ⟨(htry h .var).2 [⟨0⟩] ⟨1⟩ [⟨2⟩] ⟨1⟩ rfl hfirst rfl, (htry _ moved).1 fun _ _ ↦ rfl⟩

end Term

end Unification
