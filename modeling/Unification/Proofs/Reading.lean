import Unification.Proofs.Contract
import Unification.Operation

namespace Unification

open Script Contract

variable {σ α β γ : Type}

def Contract.reading : Contract σ where
  bind _ _ _ := False
  promote _ _ := False
  fresh _ := False
  failed _ _ := True
  unfinished := True

def Script.Reads (m : Script σ Refusal α) : Prop := ∀ s, m.Meets reading (fun _ _ ↦ True) s

theorem Contract.Leads.eq_of_reading {s s' : Store σ} (h : reading.Leads s s') : s' = s := by
  refine h.invariant (I := (· = s)) rfl fun r t ht hr ↦ ?_
  cases r with
  | lookup v => exact ht
  | rank v => exact ht
  | fresh => exact hr.elim
  | bind v t => exact hr.elim
  | promote v => exact hr.elim

namespace Script.Reads

theorem run_eq {m : Script σ Refusal α} (h : m.Reads) (s : Store σ) : (m.run s).2 = s :=
  (h s).run.1.eq_of_reading

theorem pure (a : α) : (Pure.pure a : Script σ Refusal α).Reads := fun _ ↦ trivial

theorem unfinished : (Script.unfinished : Script σ Refusal α).Reads := fun _ ↦ trivial

theorem abort (e : Event σ) (c : Clash σ) : (Script.abort e c : Script σ Refusal α).Reads :=
  fun _ ↦ trivial

theorem lookup (v : Var) : (Script.lookup v : Script σ Refusal (Option (Term σ))).Reads :=
  fun _ ↦ ⟨trivial, trivial⟩

theorem bind {m : Script σ Refusal α} {f : α → Script σ Refusal β} (h : m.Reads) (hf : ∀ a, (f a).Reads) :
    (m >>= f).Reads :=
  fun s ↦ meets_bind.mpr ((h s).mono fun a s' _ _ ↦ hf a s')

end Script.Reads

/-- A property of scripts that holds of the whole when it holds of the parts. -/
structure Script.Compositional (P : ∀ ⦃α : Type⦄, Script σ Refusal α → Prop) : Prop where
  pure {α : Type} (a : α) : P (Pure.pure a : Script σ Refusal α)
  unfinished {α : Type} : P (Script.unfinished : Script σ Refusal α)
  abort {α : Type} (e : Event σ) (c : Clash σ) : P (Script.abort e c : Script σ Refusal α)
  bind {α β : Type} {m : Script σ Refusal α} {f : α → Script σ Refusal β} : P m → (∀ a, P (f a)) → P (m >>= f)

def Operation.Inspects : Operation σ → Prop
  | .occurs _ _ | .freeVars _ | .resolve _ | .resolveAll _ | .equal _ _ | .variant _ _ => True
  | _ => False

namespace Script.Compositional

variable {P : ∀ ⦃α : Type⦄, Script σ Refusal α → Prop} {fuel n : ℕ} (hP : Compositional P)

include hP

theorem map {m : Script σ Refusal α} (h : P m) (f : α → β) : P (f <$> m) := by
  rw [map_eq_pure_bind]
  exact hP.bind h fun a ↦ hP.pure (f a)

theorem mapState {f : γ → α → Script σ Refusal (β × γ)} (hf : ∀ c a, P (f c a)) (c : γ) (l : List α) :
    P (Script.mapState f c l) := by
  induction l generalizing c with
  | nil => exact hP.pure _
  | cons a l ih => exact hP.bind (hf c a) fun r ↦ hP.bind (ih r.2) fun _ ↦ hP.pure _

theorem foldWhile {f : γ → α → Script σ Refusal (Option γ)} (hf : ∀ c a, P (f c a)) (c : γ)
    (l : List α) : P (Script.foldWhile f c l) := by
  induction l generalizing c with
  | nil => exact hP.pure _
  | cons a l ih =>
    refine hP.bind (hf c a) fun o ↦ ?_
    cases o with
    | none => exact hP.pure _
    | some c => exact ih c

theorem mapMemo {f : Memo σ → Term σ → Script σ Refusal (Term σ × Memo σ)} (hf : ∀ memo t, P (f memo t))
    (memo : Memo σ) (layer : Layer σ (Term σ)) : P (layer.mapMemo f memo) :=
  hP.bind (hP.mapState hf memo layer.slots) fun _ ↦ hP.pure _

theorem resolveWith (hpeek : ∀ t, P (peek fuel t)) (memo : Memo σ) (t : Term σ) :
    P (Unification.resolveWith fuel n memo t) := by
  induction n generalizing memo t with
  | zero => exact hP.unfinished
  | succ n ih =>
    refine hP.bind (hpeek t) fun head ↦ ?_
    match head with
    | .free v => exact hP.pure _
    | .shape none layer => exact hP.mapMemo ih memo layer
    | .shape (some v) layer =>
      dsimp only
      match List.lookup v memo with
      | some (.done u) => exact hP.pure _
      | some .started => exact hP.abort _ _
      | none => exact hP.bind (hP.mapMemo ih _ layer) fun _ ↦ hP.pure _

theorem stepInto (path : List Var) (via : Option Var) (layer : Layer σ (Term σ)) :
    P (Unification.stepInto path via layer) := by
  unfold Unification.stepInto
  split
  · exact hP.pure _
  · split
    · exact hP.abort _ _
    · exact hP.pure _

variable [DecidableEq σ]

theorem compareWith (hpeek : ∀ t, P (peek fuel t)) (criterion : Criterion) (paths : Paths)
    (ρ : Renaming) (t u : Term σ) : P (Unification.compareWith criterion fuel n paths ρ t u) := by
  induction n generalizing paths ρ t u with
  | zero => exact hP.unfinished
  | succ n ih =>
    refine hP.bind (hpeek t) fun l ↦ hP.bind (hpeek u) fun r ↦ ?_
    match l, r with
    | .free v, .free w => exact hP.pure _
    | .free v, .shape w r => exact hP.pure _
    | .shape v l, .free w => exact hP.pure _
    | .shape v l, .shape w r =>
      dsimp only
      split
      · exact hP.pure _
      refine hP.bind (hP.bind (hP.stepInto _ _ _) fun _ ↦
        hP.bind (hP.stepInto _ _ _) fun _ ↦ hP.pure _) fun paths' ↦ ?_
      cases l.align? r with
      | none => exact hP.pure _
      | some aligned =>
        refine hP.foldWhile (fun ρ a ↦ ?_) ρ aligned.slots
        match a, criterion with
        | .same t, .identical => exact hP.pure _
        | .same t, .renamed => exact ih _ _ _ _
        | .differ t u, _ => exact ih _ _ _ _

theorem script {op : Operation σ} (hop : op.Inspects) (hpeek : ∀ t, P (peek fuel t))
    (hoccurs : ∀ v t, op = .occurs v t → P (occurs fuel v t))
    (hfree : ∀ ts, P (freeVars fuel ts)) : P (op.script fuel) := by
  cases op with
  | occurs v t => exact hP.map (hoccurs v t rfl) _
  | freeVars ts => exact hP.map (hfree ts) _
  | resolve t => exact hP.map (hP.bind (hP.resolveWith hpeek [] t) fun _ ↦ hP.pure _) _
  | resolveAll ts =>
    exact hP.map (hP.bind (hP.mapState (hP.resolveWith hpeek) [] ts) fun _ ↦ hP.pure _) _
  | equal t u =>
    exact hP.map (hP.bind (hP.compareWith hpeek .identical {} [] t u) fun _ ↦ hP.pure _) _
  | variant t u => exact hP.map (hP.compareWith hpeek .renamed {} [] t u) _
  | _ => exact hop.elim

end Script.Compositional

section

variable (fuel : ℕ)

theorem reads_search (v : Var) (seen : List Var) (stack : List (Term σ)) :
    (search v fuel seen stack).Reads := by
  induction fuel generalizing seen stack with
  | zero =>
    cases stack with
    | nil => exact .pure _
    | cons t stack => exact .unfinished
  | succ fuel ih =>
    match stack with
    | [] => exact .pure _
    | .var w :: stack =>
      rw [search]
      split
      · exact .pure _
      split
      · exact ih _ _
      refine .bind (.lookup w) fun b ↦ ?_
      cases b with
      | none => exact ih _ _
      | some t => exact ih _ _
    | .node f args :: stack => exact ih _ _

theorem reads_collectFree (seen free : List Var) (stack : List (Term σ)) :
    (collectFree fuel seen free stack).Reads := by
  induction fuel generalizing seen free stack with
  | zero =>
    cases stack with
    | nil => exact .pure _
    | cons t stack => exact .unfinished
  | succ fuel ih =>
    match stack with
    | [] => exact .pure _
    | .var w :: stack =>
      rw [collectFree]
      split
      · exact ih _ _ _
      refine .bind (.lookup w) fun b ↦ ?_
      cases b with
      | none => exact ih _ _ _
      | some t => exact ih _ _ _
    | .node f args :: stack => exact ih _ _ _

theorem Walk.reads_chase (seen : List Var) (v : Var) :
    (Walk.chase fuel seen v : Script σ Refusal (Walk σ)).Reads := by
  induction fuel generalizing seen v with
  | zero => exact .unfinished
  | succ fuel ih =>
    refine .bind (.lookup v) fun b ↦ ?_
    match b with
    | none => exact .pure _
    | some (.node f args) => exact .pure _
    | some (.var w) =>
      dsimp only
      split
      · exact .abort _ _
      · exact .bind (ih _ _) fun rest ↦ .pure _

theorem reads_peek (t : Term σ) : (peek fuel t).Reads := by
  cases t with
  | node f args => exact .pure _
  | var v => exact .bind (Walk.reads_chase fuel [] v) fun w ↦ .pure _

theorem Script.Reads.compositional : Compositional (σ := σ) fun _ ↦ Reads :=
  ⟨.pure, .unfinished, .abort, .bind⟩

theorem Operation.reads_script [DecidableEq σ] {op : Operation σ} (h : op.Inspects) :
    (op.script fuel).Reads :=
  Reads.compositional.script h (reads_peek fuel) (fun v t _ ↦ reads_search fuel v [] [t])
    fun ts ↦ reads_collectFree fuel [] [] ts.reverse

end

end Unification
