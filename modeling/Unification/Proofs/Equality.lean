import Mathlib.Data.Set.Function
import Unification.Proofs.Resolution
import Unification.Proofs.Unify.Entailed

namespace Unification

open Relation Script Contract

variable {σ : Type} {s : Store σ} {path : List Var} {t u : Term σ} {v w x : Var}
  {via : Option Var} {layer : Layer σ (Term σ)}

namespace Store

theorem chainEnd_of_chain (hs : s.Chained) (h : ReflTransGen s.Links v w) :
    s.chainEnd (.var v) = s.chainEnd (.var w) := by
  induction h using ReflTransGen.head_induction_on with
  | refl => rfl
  | head hl _ ih => rw [chainEnd_of_binding hs hl, ih]

theorem reaches_var : s.Reaches (.var v) w ↔ ReflTransGen s.PointsTo v w := by
  simp [Reaches]

end Store

theorem Head.At.chainEnd_eq {h : Head σ} (hh : h.At s t) (hs : s.Chained) :
    s.chainEnd t = h.tip := by
  cases hh with
  | layer l => exact s.chainEnd_node l.symbol l.slots
  | @var x o hb =>
    rw [Store.chainEnd_of_chain hs (s.reflTransGen_root x)]
    cases o with
    | none => exact Store.chainEnd_of_free hb
    | some l => exact (Store.chainEnd_of_binding hs hb).trans (s.chainEnd_node l.symbol l.slots)

theorem Head.At.free_of_free (hh : (Head.free v).At s t) :
    s.binding v = none ∧ s.Reaches t v := by
  generalize he : Head.free v = h at hh
  cases hh with
  | layer l => cases he
  | @var x o hb =>
    cases o with
    | none =>
      cases he
      exact ⟨hb, Store.reaches_var.mpr (s.reflTransGen_pointsTo_root x)⟩
    | some l => cases he

theorem Head.At.binding_of_shape (hh : (Head.shape (some v) layer).At s t) :
    s.binding v = some layer.toTerm ∧ ∃ x, t = .var x ∧ s.root x = v := by
  generalize he : Head.shape (some v) layer = h at hh
  cases hh with
  | layer l => cases he
  | @var x o hb =>
    cases o with
    | none => cases he
    | some l =>
      cases he
      exact ⟨hb, x, rfl, rfl⟩

theorem Head.At.eq_toTerm (hh : (Head.shape none layer).At s t) : t = layer.toTerm := by
  generalize he : Head.shape none layer = h at hh
  cases hh with
  | layer l =>
    cases he
    rfl
  | @var x o hb => cases o <;> cases he

theorem Head.At.reaches (hh : (Head.shape via layer).At s t) (h : s.Reaches layer.toTerm x) :
    s.Reaches t x := by
  cases via with
  | none => rwa [hh.eq_toTerm]
  | some v =>
    obtain ⟨hb, y, rfl, rfl⟩ := hh.binding_of_shape
    obtain ⟨z, hz, hzx⟩ := h
    exact Store.reaches_var.mpr
      ((s.reflTransGen_pointsTo_root y).trans (.head ⟨_, hb, hz⟩ hzx))

theorem meets_stepInto_above {failed : Failure σ Refusal → Store σ → Prop}
    (hh : (Head.shape via layer).At s t) (ha : s.Above path t)
    (hfail : ∀ v u, s.Reaches t v → s.binding v = some u → s.Reaches u v →
      failed (.clash (.occursIn v u)) s) :
    (stepInto path via layer).Meets (.blaming failed)
      (fun path' s' ↦ s' = s ∧ s.Above path' layer.toTerm) s := by
  cases via with
  | none => exact ⟨rfl, hh.eq_toTerm ▸ ha⟩
  | some v =>
    obtain ⟨hb, x, rfl, rfl⟩ := hh.binding_of_shape
    rw [meets_stepInto]
    split
    · rename_i hmem
      obtain ⟨y, ⟨u, hu, hy⟩, hyx⟩ := TransGen.head'_iff.mp (ha.root hmem)
      obtain rfl := Option.some.inj (hb.symm.trans hu)
      exact hfail _ _ (Store.reaches_var.mpr (s.reflTransGen_pointsTo_root x)) hb ⟨y, hy, hyx⟩
    · exact ⟨rfl, ha.enter hb⟩

def Renaming.Agrees (ρ : Renaming) (f : Var → Var) : Prop := ∀ p ∈ ρ, f p.1 = p.2

theorem Renaming.agrees_insertBy {ρ : Renaming} {f : Var → Var} {key : Var × Var → ℕ} :
    Renaming.Agrees (insertBy key (v, w) ρ) f ↔ ρ.Agrees f ∧ f v = w := by
  simp only [Renaming.Agrees, mem_insertBy, forall_eq_or_imp, and_comm]

namespace Criterion

def Allows (c : Criterion) (f : Var → Var) : Prop := c = .identical → f = id

structure Admits (c : Criterion) (X : Set Var) (ρ : Renaming) : Prop where
  sorted : ρ.Pairwise fun p q ↦ p.1.id < q.1.id
  nodup : (ρ.map Prod.snd).Nodup
  keys : ∀ p ∈ ρ, p.1 ∈ X
  agrees : ∃ f, c.Allows f ∧ ρ.Agrees f

/-- The answer of a comparison that started with the pairs `ρ`: the pairs that `P` needs besides, or
nothing if no one-to-one map of the variables of `X` that extends `ρ` satisfies `P`. -/
def Decides (c : Criterion) (X : Set Var) (ρ : Renaming) (P : (Var → Var) → Prop) :
    Option Renaming → Prop
  | some ρ' => c.Admits X ρ' ∧ ∀ f, c.Allows f → (ρ'.Agrees f ↔ ρ.Agrees f ∧ P f)
  | none => ∀ f, c.Allows f → Set.InjOn f X → ρ.Agrees f → ¬ P f

variable {c : Criterion} {X : Set Var} {ρ ρ' : Renaming} {P Q : (Var → Var) → Prop}
  {o : Option Renaming}

theorem Admits.nil (c : Criterion) (X : Set Var) : c.Admits X [] :=
  ⟨.nil, List.nodup_nil, nofun, id, fun _ ↦ rfl, nofun⟩

theorem Decides.congr (h : c.Decides X ρ P o) (hPQ : ∀ f, c.Allows f → (P f ↔ Q f)) :
    c.Decides X ρ Q o := by
  cases o with
  | none => exact fun f hf hinj hρ hQ ↦ h f hf hinj hρ ((hPQ f hf).mpr hQ)
  | some ρ' => exact ⟨h.1, fun f hf ↦ (h.2 f hf).trans (and_congr_right fun _ ↦ hPQ f hf)⟩

theorem Decides.of_forall (hρ : c.Admits X ρ) (hP : ∀ f, c.Allows f → P f) :
    c.Decides X ρ P (some ρ) :=
  ⟨hρ, fun f hf ↦ (and_iff_left (hP f hf)).symm⟩

theorem Decides.and (h : c.Decides X ρ P (some ρ')) (h' : c.Decides X ρ' Q o) :
    c.Decides X ρ (fun f ↦ P f ∧ Q f) o := by
  cases o with
  | none => exact fun f hf hinj hρ ⟨hP, hQ⟩ ↦ h' f hf hinj ((h.2 f hf).mpr ⟨hρ, hP⟩) hQ
  | some ρ'' =>
    refine ⟨h'.1, fun f hf ↦ ?_⟩
    rw [h'.2 f hf, h.2 f hf, and_assoc]

theorem decides_link (hρ : Criterion.renamed.Admits X ρ) (hv : v ∈ X) :
    Criterion.renamed.Decides X ρ (fun f ↦ f v = w) (ρ.link? v w) := by
  unfold Renaming.link?
  cases hlook : List.lookup v ρ with
  | some x =>
    obtain ⟨pre, post, rfl, -⟩ := List.lookup_eq_some_iff.mp hlook
    have hx : ∀ f, Renaming.Agrees (pre ++ (v, x) :: post) f → f v = x :=
      fun f hf ↦ hf (v, x) (by simp)
    dsimp only
    split
    · rename_i hxw
      exact ⟨hρ, fun f _ ↦ (and_iff_left_of_imp fun hf ↦ (hx f hf).trans hxw).symm⟩
    · rename_i hxw
      exact fun f _ _ hf hw ↦ hxw ((hx f hf).symm.trans hw)
  | none =>
    have hkeys : ∀ p ∈ ρ, v ≠ p.1 := fun p hp ↦ by
      simpa using List.lookup_eq_none_iff.mp hlook p hp
    dsimp only
    split
    · rename_i hw
      obtain ⟨p, hp, rfl⟩ := List.mem_map.mp hw
      intro f _ hinj hf hfv
      exact hkeys p hp (hinj hv (hρ.keys p hp) (hfv.trans (hf p hp).symm))
    · rename_i hw
      refine ⟨⟨?_, ?_, ?_, ?_⟩, fun f _ ↦ Renaming.agrees_insertBy⟩
      · exact strictlySorted_insertBy hρ.sorted fun p hp he ↦ hkeys p hp (Var.eq_of_id_eq he)
      · rw [((perm_insertBy _ _ ρ).map Prod.snd).nodup_iff]
        exact List.nodup_cons.mpr ⟨hw, hρ.nodup⟩
      · intro p hp
        rcases mem_insertBy.mp hp with rfl | hp
        · exact hv
        · exact hρ.keys p hp
      · obtain ⟨f, -, hf⟩ := hρ.agrees
        refine ⟨Function.update f v w, nofun, Renaming.agrees_insertBy.mpr ⟨fun p hp ↦ ?_, ?_⟩⟩
        · rw [Function.update_of_ne (hkeys p hp).symm]
          exact hf p hp
        · exact Function.update_self v w f

theorem decides_leaf (hρ : c.Admits X ρ) (hv : v ∈ X) :
    c.Decides X ρ (fun f ↦ f v = w) (c.leaf? v w ρ) := by
  cases c with
  | identical =>
    dsimp only [leaf?]
    split
    · rename_i hvw
      exact .of_forall hρ fun f hf ↦ by rw [hf rfl, id_eq, hvw]
    · rename_i hvw
      intro f hf _ _ hfv
      rw [hf rfl] at hfv
      exact hvw hfv
  | renamed => exact decides_link hρ hv

end Criterion

inductive Term.Renamed (f : Var → Var) (R : Term σ → Term σ → Prop) : Term σ → Term σ → Prop
  | var (v : Var) : Renamed f R (.var v) (.var (f v))
  | node (g : σ) {ts us : List (Term σ)} :
      List.Forall₂ R ts us → Renamed f R (.node g ts) (.node g us)

/-- What a comparison is to find out about two terms and a map of variables can be read off the
ends of their chains. -/
structure Criterion.TestsFor (c : Criterion) (s : Store σ)
    (R : (Var → Var) → Term σ → Term σ → Prop) : Prop where
  ends : ∀ f, c.Allows f → ∀ t u,
    R f t u ↔ Term.Renamed f (R f) (s.chainEnd t) (s.chainEnd u)
  refl : c = .identical → ∀ f t, R f t t

theorem Term.renamed_toTerm_iff {f : Var → Var} {R : Term σ → Term σ → Prop}
    {l r : Layer σ (Term σ)} : Term.Renamed f R l.toTerm r.toTerm ↔
      l.symbol = r.symbol ∧ List.Forall₂ R l.slots r.slots := by
  obtain ⟨g, ts⟩ := l
  obtain ⟨g', us⟩ := r
  constructor
  · rintro ⟨⟩
    exact ⟨rfl, ‹_›⟩
  · rintro ⟨rfl, h⟩
    exact .node g h

section Compare

variable {c : Criterion} {X : Set Var} {ρ : Renaming} {f : Var → Var}
  {R : (Var → Var) → Term σ → Term σ → Prop} {l r : Layer σ (Term σ)} {w : Option Var}
  {n fuel : ℕ} {paths : Paths}

theorem Criterion.TestsFor.tips {h h' : Head σ} (hR : c.TestsFor s R) (hs : s.Chained)
    (hh : h.At s t) (hh' : h'.At s u) (hf : c.Allows f) :
    R f t u ↔ Term.Renamed f (R f) h.tip h'.tip := by
  rw [hR.ends f hf, hh.chainEnd_eq hs, hh'.chainEnd_eq hs]

theorem meets_foldWhile_decides {α : Type} {K : Contract σ} {P : α → (Var → Var) → Prop}
    {step : Renaming → α → Script σ Refusal (Option Renaming)} {as : List α}
    (hstep : ∀ a ∈ as, ∀ ρ, c.Admits X ρ →
      (step ρ a).Meets K (fun o s' ↦ s' = s ∧ c.Decides X ρ (P a) o) s)
    (hρ : c.Admits X ρ) : (foldWhile step ρ as).Meets K
      (fun o s' ↦ s' = s ∧ c.Decides X ρ (fun f ↦ ∀ a ∈ as, P a f) o) s := by
  induction as generalizing ρ with
  | nil => exact ⟨rfl, .of_forall hρ fun f _ ↦ nofun⟩
  | cons a as ih =>
    refine meets_bind.mpr ((hstep a List.mem_cons_self ρ hρ).mono ?_)
    rintro (_ | ρ') s' - ⟨rfl, hfirst⟩
    · exact ⟨rfl, fun f hf hinj hρ hP ↦ hfirst f hf hinj hρ (hP a List.mem_cons_self)⟩
    · refine (ih (fun b hb ↦ hstep b (List.mem_cons_of_mem a hb)) hfirst.1).mono ?_
      rintro o s' - ⟨rfl, hrest⟩
      exact ⟨rfl, (hfirst.and hrest).congr fun f _ ↦ by rw [List.forall_mem_cons]⟩

/-- Two terms below the paths that lead to them. The free variables of the left one belong to `X`,
and a variable on a cycle below them may be blamed. -/
structure Compared (failed : Failure σ Refusal → Store σ → Prop) (s : Store σ) (X : Set Var)
    (paths : Paths) (t u : Term σ) : Prop where
  left : s.Above paths.left t
  right : s.Above paths.right u
  free : ∀ v, s.Reaches t v → s.binding v = none → v ∈ X
  blames : ∀ v x, s.Reaches t v ∨ s.Reaches u v → s.binding v = some x → s.Reaches x v →
    failed (.clash (.occursIn v x)) s

variable [DecidableEq σ] {failed : Failure σ Refusal → Store σ → Prop}

theorem meets_pathsStepInto_above (h : Compared failed s X paths t u)
    (hl : (Head.shape via l).At s t) (hr : (Head.shape w r).At s u) :
    (paths.stepInto via l w r).Meets (.blaming failed) (fun paths' s' ↦ s' = s ∧
      ∀ a, l.align? r = some a → ∀ x ∈ a.slots, Compared failed s X paths' x.left x.right) s := by
  refine meets_bind.mpr ((meets_stepInto_above hl h.left fun v x hv ↦ h.blames v x (.inl hv)).mono
    fun left s₁ _ ⟨h₁, hleft⟩ ↦ ?_)
  subst h₁
  refine meets_bind.mpr ((meets_stepInto_above hr h.right fun v x hv ↦ h.blames v x (.inr hv)).mono
    fun right s₂ _ ⟨h₂, hright⟩ ↦ ?_)
  subst h₂
  refine ⟨rfl, fun a ha x hx ↦ ?_⟩
  have hreachl := fun v (hv : s₂.Reaches x.left v) ↦
    hl.reaches (Store.reaches_of_slot (Layer.left_mem ha hx) hv)
  have hreachr := fun v (hv : s₂.Reaches x.right v) ↦
    hr.reaches (Store.reaches_of_slot (Layer.right_mem ha hx) hv)
  exact ⟨hleft.slot (Layer.left_mem ha hx), hright.slot (Layer.right_mem ha hx),
    fun v hv ↦ h.free v (hreachl v hv),
    fun v y hv ↦ h.blames v y (hv.imp (hreachl v) (hreachr v))⟩

theorem meets_compareWith_decides (hs : s.Chained) (hR : c.TestsFor s R)
    (h : Compared failed s X paths t u) (hρ : c.Admits X ρ) :
    (compareWith c fuel n paths ρ t u).Meets (.blaming failed)
      (fun o s' ↦ s' = s ∧ c.Decides X ρ (R · t u) o) s := by
  induction n generalizing paths ρ t u with
  | zero => exact trivial
  | succ n ih =>
    have hends : ∀ {t : Term σ}, ∀ v x, t = .var v → Walk.Circles s [] v x →
        failed (.clash (.occursIn x (.var x))) s :=
      fun v x _ hx ↦ absurd (hx.loops nofun).2 (hs x)
    refine meets_bind.mpr ((meets_peek_at hends).mono fun l s₁ _ ⟨h₁, hl⟩ ↦ ?_)
    subst h₁
    refine meets_bind.mpr ((meets_peek_at hends).mono fun r s₂ _ ⟨h₂, hr⟩ ↦ ?_)
    subst h₂
    have htips := fun f (hf : c.Allows f) ↦ (hR.tips hs hl hr hf).symm
    match l, r with
    | .free v, .free w =>
      obtain ⟨hv, htv⟩ := hl.free_of_free
      refine ⟨rfl, (Criterion.decides_leaf hρ (h.free v htv hv)).congr fun f hf ↦ ?_⟩
      rw [← htips f hf]
      exact ⟨fun h ↦ h ▸ .var v, fun h ↦ by cases h; rfl⟩
    | .free v, .shape w r => exact ⟨rfl, fun f hf _ _ h ↦ nomatch (htips f hf).mpr h⟩
    | .shape v l, .free w => exact ⟨rfl, fun f hf _ _ h ↦ nomatch (htips f hf).mpr h⟩
    | .shape v l, .shape w r =>
      dsimp only
      split
      · -- The variable that both chains end at is bound to one layer.
        rename_i hsame
        obtain ⟨hc, hv, rfl⟩ := hsame
        obtain ⟨v, rfl⟩ := Option.isSome_iff_exists.mp hv
        have hbound := hl.binding_of_shape.1.symm.trans hr.binding_of_shape.1
        obtain rfl := Layer.toTerm_injective (Option.some.inj hbound)
        refine ⟨rfl, .of_forall hρ fun f hf ↦ (htips f hf).mp ?_⟩
        exact Term.renamed_toTerm_iff.mpr
          ⟨rfl, List.forall₂_same.mpr fun x _ ↦ hR.refl hc f x⟩
      refine meets_bind.mpr ((meets_pathsStepInto_above h hl hr).mono
        fun paths' s₃ _ ⟨h₃, hslots⟩ ↦ ?_)
      subst h₃
      cases ha : l.align? r with
      | none =>
        refine ⟨rfl, fun f hf _ _ h ↦ ?_⟩
        obtain ⟨hsymbol, hargs⟩ := Term.renamed_toTerm_iff.mp ((htips f hf).mpr h)
        exact Layer.align?_ne_none hsymbol hargs.length_eq ha
      | some aligned =>
        have hall : ∀ f, c.Allows f → ((∀ x ∈ aligned.slots, R f x.left x.right) ↔ R f t u) := by
          intro f hf
          rw [← htips f hf, ← Layer.forall₂_slots_iff ha]
          exact (and_iff_right (Layer.symbol_eq ha)).symm.trans Term.renamed_toTerm_iff.symm
        refine (meets_foldWhile_decides (fun x hx ρ hρ ↦ ?_) hρ).mono fun o s' _ h ↦
          ⟨h.1, h.2.congr hall⟩
        have hrec := ih (hslots aligned ha x hx) hρ
        cases x with
        | same t =>
          cases c with
          | identical => exact ⟨rfl, .of_forall hρ fun f _ ↦ hR.refl rfl f t⟩
          | renamed => exact hrec
        | differ t u => exact hrec

end Compare

theorem Term.renamed_id_iff {R : Term σ → Term σ → Prop} :
    Term.Renamed id R t u ↔ Term.SameHead R t u := by
  constructor
  · rintro (v | ⟨g, h⟩)
    · exact .var v
    · exact .node g h
  · rintro (v | ⟨g, h⟩)
    · exact .var v
    · exact .node g h

theorem Store.testsFor_alike (s : Store σ) : Criterion.identical.TestsFor s fun _ ↦ s.Alike where
  ends f hf t u := by rw [hf rfl, Term.renamed_id_iff, Store.alike_iff]
  refl _ _ t := .refl s t

namespace Operation

variable [DecidableEq σ]

theorem run_equal (hs : s.Chained) (a b : Term σ) :
    (∃ r, (equal a b).run s = (.ok (.bool r), s) ∧ (r = true ↔ s.Alike a b)) ∨
      ∃ v x, (equal a b).run s = (.error (.clash (.occursIn v x)), s) ∧
        (s.Reaches a v ∨ s.Reaches b v) ∧ s.binding v = some x ∧ s.Reaches x v := by
  have hmeets : ((equal a b).script ((equal a b).fuel s.weight)).Meets
      (.blaming fun e s' ↦ s' = s ∧ ∃ v x, e = .clash (.occursIn v x) ∧
        (s.Reaches a v ∨ s.Reaches b v) ∧ s.binding v = some x ∧ s.Reaches x v)
      (fun x s' ↦ s' = s ∧ ∃ r, x = .bool r ∧ (r = true ↔ s.Alike a b)) s := by
    refine meets_map.mpr (meets_bind.mpr ((meets_compareWith_decides hs s.testsFor_alike
      ⟨s.above_nil a, s.above_nil b, fun v _ _ ↦ Set.mem_univ v,
        fun v x hv hb hx ↦ ⟨rfl, v, x, rfl, hv, hb, hx⟩⟩ (.nil _ _)).mono ?_))
    rintro (_ | ρ) s' - ⟨rfl, h⟩
    · refine ⟨rfl, false, rfl, iff_of_false Bool.false_ne_true ?_⟩
      exact h id (fun _ ↦ rfl) (Set.injOn_id _) nofun
    · obtain ⟨f, hf, hρ⟩ := h.1.agrees
      exact ⟨rfl, true, rfl, iff_of_true rfl ((h.2 f hf).mp hρ).2⟩
  rcases run_ends rfl hmeets with ⟨_, s', hrun, rfl, r, rfl, hr⟩ |
    ⟨_, s', hrun, rfl, v, x, rfl, hvx⟩
  · exact .inl ⟨r, hrun, hr⟩
  · exact .inr ⟨v, x, hrun, hvx⟩

theorem run_equal_of_acyclic (hs : s.Acyclic) (a b : Term σ) :
    (equal a b).run s = (.ok (.bool (s.resolved a = s.resolved b)), s) := by
  rcases run_equal hs.chained a b with ⟨r, hrun, hr⟩ | ⟨v, x, -, -, hb, y, hy, hyv⟩
  · rw [Store.alike_iff_resolved_eq hs] at hr
    rw [hrun, Bool.eq_iff_iff.mpr (hr.trans decide_eq_true_iff.symm)]
  · exact absurd (.head' ⟨x, hb, hy⟩ hyv) (hs v)

/-- If the comparison of two terms has an answer, it is whether they denote the same tree. It has
none only if a cycle of bindings can be reached, and without cycles it compares what the terms
resolve to. -/
theorem equal_exact (hs : s.Chained) (a b : Term σ) :
    ((equal a b).run s = (.ok (.bool true), s) ∧ (∀ n, s.unfold n a = s.unfold n b) ∨
      (equal a b).run s = (.ok (.bool false), s) ∧ (∃ n, s.unfold n a ≠ s.unfold n b) ∨
      ∃ v u, (equal a b).run s = (.error (.clash (.occursIn v u)), s) ∧
        (occurs v u).run s = (.ok (.bool true), s) ∧
        (s.Reaches a v ∨ s.Reaches b v) ∧ TransGen s.PointsTo v v) ∧
    (s.Acyclic → ∃ ra rb, (resolve a).run s = (.ok (.term ra), s) ∧
      (resolve b).run s = (.ok (.term rb), s) ∧
      (equal a b).run s = (.ok (.bool (ra = rb)), s)) := by
  rcases run_equal hs a b with ⟨r, hrun, hr⟩ | ⟨v, x, hrun, hv, hb, y, hy, hyv⟩
  · refine ⟨?_, fun hs ↦ ⟨s.resolved a, s.resolved b, run_resolve_of_acyclic hs a,
      run_resolve_of_acyclic hs b, ?_⟩⟩
    · cases r with
      | true => exact .inl ⟨hrun, hr.mp rfl⟩
      | false =>
        refine .inr (.inl ⟨hrun, not_forall.mp fun h ↦ ?_⟩)
        exact Bool.false_ne_true (hr.mpr h)
    · rw [Store.alike_iff_resolved_eq hs] at hr
      rw [hrun, Bool.eq_iff_iff.mpr (hr.trans decide_eq_true_iff.symm)]
  · have hloop : TransGen s.PointsTo v v := .head' ⟨x, hb, hy⟩ hyv
    refine ⟨.inr (.inr ⟨v, x, hrun, ?_, hv, hloop⟩), fun hs ↦ absurd hloop (hs v)⟩
    exact run_occurs_eq_true.mpr ⟨y, hy, hyv⟩

theorem equal_exact_loops :
    (equal (.var ⟨0⟩) (.var ⟨1⟩)).run Store.loops = (.ok (.bool true), Store.loops) ∧
      (∀ n, Store.loops.unfold n (.var ⟨0⟩) = Store.loops.unfold n (.var ⟨1⟩)) ∧
      (equal (.var ⟨0⟩) (.node .pair [.var ⟨1⟩, .var ⟨2⟩])).run Store.twin =
        (.ok (.bool false), Store.twin) ∧
      (∃ n, Store.twin.unfold n (.var ⟨0⟩) ≠
        Store.twin.unfold n (.node .pair [.var ⟨1⟩, .var ⟨2⟩])) ∧
      ∃ ra rb, (resolve (.var ⟨0⟩)).run Store.twin = (.ok (.term ra), Store.twin) ∧
        (resolve (.node .pair [.var ⟨1⟩, .var ⟨2⟩])).run Store.twin =
          (.ok (.term rb), Store.twin) ∧ ra ≠ rb := by
  have hloops : (equal (.var ⟨0⟩) (.var ⟨1⟩)).run Store.loops =
      (.ok (.bool true), Store.loops) := rfl
  have htwin : (equal (.var ⟨0⟩) (.node .pair [.var ⟨1⟩, .var ⟨2⟩])).run Store.twin =
      (.ok (.bool false), Store.twin) := rfl
  refine ⟨hloops, ?_, htwin, ?_⟩
  · rcases (equal_exact Store.chained_loops (.var ⟨0⟩) (.var ⟨1⟩)).1 with
      ⟨-, h⟩ | ⟨h, -⟩ | ⟨_, _, h, -⟩
    · exact h
    · cases hloops.symm.trans h
    · cases hloops.symm.trans h
  · obtain ⟨hexact, hresolved⟩ := equal_exact Store.acyclic_twin.chained (.var ⟨0⟩)
      (.node .pair [.var ⟨1⟩, .var ⟨2⟩])
    obtain ⟨ra, rb, hra, hrb, hrun⟩ := hresolved Store.acyclic_twin
    have hne : ra ≠ rb := by
      rintro rfl
      rw [htwin, decide_eq_true rfl] at hrun
      cases hrun
    rcases hexact with ⟨h, -⟩ | ⟨-, n, hn⟩ | ⟨_, _, h, -⟩
    · cases htwin.symm.trans h
    · exact ⟨⟨n, hn⟩, ra, rb, hra, hrb, hne⟩
    · cases htwin.symm.trans h

end Operation

end Unification
