import Unification.Proofs.Confined
import Unification.Reach

namespace Unification

open Relation Script Contract

variable {σ : Type} {s : Store σ} {K : Contract σ} {v w : Var} {seen : List Var}
  {stack : List (Term σ)}

namespace Store

/-- The variables that were seen point to variables that were seen or wait on the stack. -/
def Frontier (s : Store σ) (seen : List Var) (stack : List (Term σ)) : Prop :=
  ∀ x ∈ seen, ∀ y, s.PointsTo x y → y ∈ seen ∨ ∃ t ∈ stack, y ∈ t.vars

theorem Frontier.again (h : s.Frontier seen (.var w :: stack)) (hw : w ∈ seen) :
    s.Frontier seen stack := by
  intro x hx y hxy
  rcases h x hx y hxy with hy | ⟨t, ht, hy⟩
  · exact .inl hy
  · rcases List.mem_cons.mp ht with rfl | ht
    · exact .inl (Term.mem_vars_var.mp hy ▸ hw)
    · exact .inr ⟨t, ht, hy⟩

theorem Frontier.free (h : s.Frontier seen (.var w :: stack)) (hw : s.binding w = none) :
    s.Frontier (w :: seen) stack := by
  refine again (w := w) (fun x hx y hxy ↦ ?_) List.mem_cons_self
  rcases List.mem_cons.mp hx with rfl | hx
  · obtain ⟨t, ht, -⟩ := hxy
    rw [hw] at ht
    cases ht
  · exact (h x hx y hxy).imp_left (List.mem_cons_of_mem w)

theorem Frontier.bound {t : Term σ} (h : s.Frontier seen (.var w :: stack))
    (hw : s.binding w = some t) : s.Frontier (w :: seen) (t :: stack) := by
  refine again (w := w) (fun x hx y hxy ↦ ?_) List.mem_cons_self
  rcases List.mem_cons.mp hx with rfl | hx
  · obtain ⟨u, hu, hy⟩ := hxy
    obtain rfl : t = u := Option.some.inj (hw.symm.trans hu)
    exact .inr ⟨t, by simp, hy⟩
  · rcases h x hx y hxy with hy | ⟨u, hu, hy⟩
    · exact .inl (List.mem_cons_of_mem w hy)
    · refine .inr ⟨u, ?_, hy⟩
      rcases List.mem_cons.mp hu with rfl | hu
      · exact List.mem_cons_self
      · simp [hu]

theorem Frontier.node {f : σ} {args : List (Term σ)}
    (h : s.Frontier seen (.node f args :: stack)) :
    s.Frontier seen (args.reverse ++ stack) := by
  intro x hx y hxy
  rcases h x hx y hxy with hy | ⟨t, ht, hy⟩
  · exact .inl hy
  · rcases List.mem_cons.mp ht with rfl | ht
    · obtain ⟨u, hu, hy⟩ := Term.mem_vars_node.mp hy
      exact .inr ⟨u, by simp [hu], hy⟩
    · exact .inr ⟨t, by simp [ht], hy⟩

theorem Frontier.mem_of_reaches (h : s.Frontier seen []) (hv : ReflTransGen s.PointsTo w v)
    (hw : w ∈ seen) : v ∈ seen := by
  induction hv with
  | refl => exact hw
  | tail _ hxy ih =>
    rcases h _ ih _ hxy with hy | ⟨t, ht, -⟩
    · exact hy
    · cases ht

def Covers (all seen : List Var) (stack : List (Term σ)) : Prop :=
  (∀ x ∈ seen, x ∈ all) ∧ ∀ t ∈ stack, ∀ x ∈ t.vars, x ∈ all

theorem Covers.cons {all : List Var} (h : Covers all seen stack) (hw : w ∈ all) :
    Covers all seen (.var w :: stack) := by
  refine ⟨h.1, fun t ht x hx ↦ ?_⟩
  rcases List.mem_cons.mp ht with rfl | ht
  · exact Term.mem_vars_var.mp hx ▸ hw
  · exact h.2 t ht x hx

theorem Covers.unsee {all : List Var} {stack' : List (Term σ)} (h : Covers all (w :: seen) stack')
    (hsub : ∀ t ∈ stack, t ∈ stack') : Covers all seen (.var w :: stack) :=
  Covers.cons ⟨fun x hx ↦ h.1 x (List.mem_cons_of_mem w hx), fun t ht ↦ h.2 t (hsub t ht)⟩
    (h.1 w List.mem_cons_self)

theorem Covers.node {all : List Var} {f : σ} {args : List (Term σ)}
    (h : Covers all seen (args.reverse ++ stack)) : Covers all seen (.node f args :: stack) := by
  refine ⟨h.1, fun t ht x hx ↦ ?_⟩
  rcases List.mem_cons.mp ht with rfl | ht
  · obtain ⟨u, hu, hx⟩ := Term.mem_vars_node.mp hx
    exact h.2 u (by simp [hu]) x hx
  · exact h.2 t (by simp [ht]) x hx

theorem reaches_of_binding {t : Term σ} (h : s.binding w = some t) (hr : s.Reaches t v) :
    s.Reaches (.var w) v := by
  obtain ⟨x, hx, hxv⟩ := hr
  exact ⟨w, Term.mem_vars_var.mpr rfl, .head ⟨t, h, hx⟩ hxv⟩

theorem reaches_iff_of_binding {t : Term σ} (h : s.binding w = some t) (hne : w ≠ v) :
    s.Reaches (.var w) v ↔ s.Reaches t v := by
  refine ⟨?_, reaches_of_binding h⟩
  rintro ⟨x, hx, hxv⟩
  obtain rfl := Term.mem_vars_var.mp hx
  rcases hxv.cases_head with rfl | ⟨y, ⟨u, hu, hy⟩, hyv⟩
  · exact absurd rfl hne
  · obtain rfl := Option.some.inj (h.symm.trans hu)
    exact ⟨y, hy, hyv⟩

theorem reaches_of_slot {f : σ} {args : List (Term σ)} {t : Term σ} (ht : t ∈ args)
    (hr : s.Reaches t v) : s.Reaches (.node f args) v := by
  obtain ⟨x, hx, hxv⟩ := hr
  exact ⟨x, Term.mem_vars_node.mpr ⟨t, ht, hx⟩, hxv⟩

end Store

/-- The fuel covers what is on the stack, and a binding for each variable that was not seen. -/
structure Room (V : Finset Var) (D : ℕ) (s : Store σ) (fuel : ℕ) (seen : List Var)
    (stack : List (Term σ)) : Prop where
  within : s.Within V D
  nodup : seen.Nodup
  seen_mem : ∀ x ∈ seen, x ∈ V
  stack_mem : ∀ t ∈ stack, ∀ w ∈ t.vars, w ∈ V
  enough : (stack.map Term.size).sum + (V.card - seen.length) * (D + 1) ≤ fuel

namespace Room

variable {V : Finset Var} {D fuel : ℕ}

theorem again (h : Room V D s (fuel + 1) seen (.var w :: stack)) : Room V D s fuel seen stack := by
  refine ⟨h.within, h.nodup, h.seen_mem, fun t ht ↦ h.stack_mem t (List.mem_cons_of_mem _ ht), ?_⟩
  have he := h.enough
  rw [List.map_cons, List.sum_cons, Term.size_var] at he
  omega

theorem mem (h : Room V D s fuel seen (.var w :: stack)) : w ∈ V :=
  h.stack_mem (.var w) List.mem_cons_self w (Term.mem_vars_var.mpr rfl)

theorem see (h : Room V D s (fuel + 1) seen (.var w :: stack)) (hw : w ∉ seen) :
    (w :: seen).Nodup ∧ (∀ x ∈ w :: seen, x ∈ V) ∧ (stack.map Term.size).sum +
      (V.card - (w :: seen).length) * (D + 1) + (D + 1) ≤ fuel := by
  have hnodup := List.nodup_cons.mpr ⟨hw, h.nodup⟩
  have hmem : ∀ x ∈ w :: seen, x ∈ V := by
    intro x hx
    rcases List.mem_cons.mp hx with rfl | hx
    · exact h.mem
    · exact h.seen_mem x hx
  refine ⟨hnodup, hmem, ?_⟩
  have hle := length_le_card hnodup hmem
  have he := h.enough
  rw [List.length_cons] at hle ⊢
  rw [List.map_cons, List.sum_cons, Term.size_var] at he
  obtain ⟨n, hn⟩ : ∃ n, V.card - seen.length = n + 1 := ⟨V.card - seen.length - 1, by omega⟩
  have hn' : V.card - (seen.length + 1) = n := by omega
  rw [hn, Nat.succ_mul] at he
  rw [hn']
  omega

theorem free (h : Room V D s (fuel + 1) seen (.var w :: stack)) (hw : w ∉ seen) :
    Room V D s fuel (w :: seen) stack := by
  obtain ⟨hnodup, hmem, he⟩ := h.see hw
  exact ⟨h.within, hnodup, hmem, h.again.stack_mem, by omega⟩

theorem bound {t : Term σ} (h : Room V D s (fuel + 1) seen (.var w :: stack)) (hw : w ∉ seen)
    (ht : s.binding w = some t) : Room V D s fuel (w :: seen) (t :: stack) := by
  obtain ⟨hnodup, hmem, he⟩ := h.see hw
  obtain ⟨hvars, hsize⟩ := h.within w h.mem t ht
  refine ⟨h.within, hnodup, hmem, fun u hu ↦ ?_, ?_⟩
  · rcases List.mem_cons.mp hu with rfl | hu
    · exact hvars
    · exact h.again.stack_mem u hu
  · rw [List.map_cons, List.sum_cons]
    omega

theorem node {f : σ} {args : List (Term σ)}
    (h : Room V D s (fuel + 1) seen (.node f args :: stack)) :
    Room V D s fuel seen (args.reverse ++ stack) := by
  refine ⟨h.within, h.nodup, h.seen_mem, fun t ht ↦ ?_, ?_⟩
  · rcases List.mem_append.mp ht with ht | ht
    · intro w hw
      refine h.stack_mem _ List.mem_cons_self w (Term.mem_vars_node.mpr ⟨t, ?_, hw⟩)
      exact List.mem_reverse.mp ht
    · exact h.stack_mem t (List.mem_cons_of_mem _ ht)
  · have he := h.enough
    rw [List.map_cons, List.sum_cons, Term.size_node] at he
    rw [List.map_append, List.sum_append, List.map_reverse, List.sum_reverse]
    omega

end Room

theorem meets_search {fuel : ℕ} {post : Bool → Store σ → Prop}
    (htrue : (∃ t ∈ stack, s.Reaches t v) → post true s)
    (hfalse : ∀ all, s.Frontier all [] → v ∉ all → Store.Covers all seen stack → post false s)
    (hfront : s.Frontier seen stack) (hv : v ∉ seen)
    (hfuel : K.unfinished ∨ ∃ V D, Room V D s fuel seen stack) :
    (search v fuel seen stack).Meets K post s := by
  induction fuel generalizing seen stack with
  | zero =>
    cases stack with
    | nil => exact hfalse seen hfront hv ⟨fun _ h ↦ h, nofun⟩
    | cons t stack =>
      rcases hfuel with hfuel | ⟨V, D, hroom⟩
      · exact hfuel
      · have he := hroom.enough
        have hpos := t.size_pos
        rw [List.map_cons, List.sum_cons] at he
        omega
  | succ fuel ih =>
    cases stack with
    | nil => exact hfalse seen hfront hv ⟨fun _ h ↦ h, nofun⟩
    | cons t stack =>
      have hrest : (∃ t ∈ stack, s.Reaches t v) → post true s :=
        fun ⟨u, hu, hr⟩ ↦ htrue ⟨u, List.mem_cons_of_mem t hu, hr⟩
      cases t with
      | var w =>
        rw [search]
        by_cases hw : w = v
        · rw [if_pos hw]
          exact htrue ⟨.var w, List.mem_cons_self, w, Term.mem_vars_var.mpr rfl, hw ▸ .refl⟩
        rw [if_neg hw]
        by_cases hseen : w ∈ seen
        · rw [if_pos hseen]
          exact ih hrest (fun all ha hva hc ↦ hfalse all ha hva (hc.cons (hc.1 w hseen)))
            (hfront.again hseen) hv (hfuel.imp_right fun ⟨V, D, h⟩ ↦ ⟨V, D, h.again⟩)
        · have hv' : v ∉ w :: seen := by
            intro hmem
            rcases List.mem_cons.mp hmem with he | hmem
            · exact hw he.symm
            · exact hv hmem
          rw [if_neg hseen, meets_bind, meets_lookup]
          cases hb : s.binding w with
          | none =>
            exact ih hrest (fun all ha hva hc ↦ hfalse all ha hva (hc.unsee fun _ h ↦ h))
              (hfront.free hb) hv' (hfuel.imp_right fun ⟨V, D, h⟩ ↦ ⟨V, D, h.free hseen⟩)
          | some t =>
            refine ih ?_ (fun all ha hva hc ↦
                hfalse all ha hva (hc.unsee fun _ h ↦ List.mem_cons_of_mem t h))
              (hfront.bound hb) hv' (hfuel.imp_right fun ⟨V, D, h⟩ ↦ ⟨V, D, h.bound hseen hb⟩)
            rintro ⟨u, hu, hr⟩
            rcases List.mem_cons.mp hu with rfl | hu
            · exact htrue ⟨.var w, List.mem_cons_self, Store.reaches_of_binding hb hr⟩
            · exact hrest ⟨u, hu, hr⟩
      | node f args =>
        rw [search]
        refine ih ?_ (fun all ha hva hc ↦ hfalse all ha hva hc.node) hfront.node hv
          (hfuel.imp_right fun ⟨V, D, h⟩ ↦ ⟨V, D, h.node⟩)
        rintro ⟨u, hu, hr⟩
        rcases List.mem_append.mp hu with hu | hu
        · exact htrue ⟨_, List.mem_cons_self, Store.reaches_of_slot (List.mem_reverse.mp hu) hr⟩
        · exact hrest ⟨u, hu, hr⟩

theorem meets_occurs {fuel : ℕ} {t : Term σ} {post : Bool → Store σ → Prop}
    (htrue : s.Reaches t v → post true s) (hfalse : ¬ s.Reaches t v → post false s)
    (hfuel : K.unfinished ∨ ∃ V D, s.Within V D ∧ t.Within V D ∧ D + V.card * (D + 1) ≤ fuel) :
    (occurs fuel v t).Meets K post s := by
  refine meets_search ?_ ?_ nofun List.not_mem_nil ?_
  · rintro ⟨u, hu, hr⟩
    rw [List.mem_singleton.mp hu] at hr
    exact htrue hr
  · intro all ha hva hc
    refine hfalse fun ⟨w, hw, hwv⟩ ↦ hva ?_
    exact ha.mem_of_reaches hwv (hc.2 t (List.mem_singleton.mpr rfl) w hw)
  · refine hfuel.imp_right fun ⟨V, D, hs, ht, he⟩ ↦ ⟨V, D, hs, List.nodup_nil, nofun, ?_, ?_⟩
    · intro u hu
      rw [List.mem_singleton.mp hu]
      exact ht.1
    · have hsize := ht.2
      rw [List.map_singleton, List.sum_singleton, List.length_nil, Nat.sub_zero]
      omega

namespace Store

/-- How far the search for the free variables of some terms has come: those that were seen are found,
and what is still to come waits on the stack. -/
structure Collected (s : Store σ) (ts : List (Term σ)) (seen found : List Var)
    (stack : List (Term σ)) : Prop where
  sorted : found.Pairwise fun v w ↦ v.id < w.id
  mem_found : ∀ v, v ∈ found ↔ v ∈ seen ∧ s.binding v = none
  frontier : s.Frontier seen stack
  reached : ∀ v, (v ∈ seen ∨ ∃ t ∈ stack, v ∈ t.vars) → ∃ t ∈ ts, s.Reaches t v
  awaited : ∀ t ∈ ts, ∀ v ∈ t.vars, v ∈ seen ∨ ∃ u ∈ stack, v ∈ u.vars

namespace Collected

variable {ts : List (Term σ)} {found : List Var} {t : Term σ}

theorem start (s : Store σ) (ts : List (Term σ)) : s.Collected ts [] [] ts.reverse where
  sorted := .nil
  mem_found v := by simp
  frontier := nofun
  reached v hv := by
    obtain ⟨t, ht, hv⟩ := hv.resolve_left List.not_mem_nil
    exact ⟨t, List.mem_reverse.mp ht, v, hv, .refl⟩
  awaited t ht v hv := .inr ⟨t, List.mem_reverse.mpr ht, hv⟩

theorem again (h : s.Collected ts seen found (.var w :: stack)) (hw : w ∈ seen) :
    s.Collected ts seen found stack where
  sorted := h.sorted
  mem_found := h.mem_found
  frontier := h.frontier.again hw
  reached v hv := h.reached v (hv.imp_right fun ⟨t, ht, hv⟩ ↦ ⟨t, List.mem_cons_of_mem _ ht, hv⟩)
  awaited t ht v hv := by
    rcases h.awaited t ht v hv with hv | ⟨u, hu, hv⟩
    · exact .inl hv
    · rcases List.mem_cons.mp hu with rfl | hu
      · exact .inl (Term.mem_vars_var.mp hv ▸ hw)
      · exact .inr ⟨u, hu, hv⟩

theorem head (h : s.Collected ts seen found (t :: stack)) (hw : w ∈ t.vars) :
    ∃ t ∈ ts, s.Reaches t w := h.reached w (.inr ⟨t, List.mem_cons_self, hw⟩)

theorem awaited_see (h : s.Collected ts seen found (.var w :: stack)) :
    ∀ t ∈ ts, ∀ v ∈ t.vars, v ∈ w :: seen ∨ ∃ u ∈ stack, v ∈ u.vars := by
  intro t ht v hv
  rcases h.awaited t ht v hv with hv | ⟨u, hu, hv⟩
  · exact .inl (List.mem_cons_of_mem w hv)
  · rcases List.mem_cons.mp hu with rfl | hu
    · exact .inl (Term.mem_vars_var.mp hv ▸ List.mem_cons_self)
    · exact .inr ⟨u, hu, hv⟩

theorem free (h : s.Collected ts seen found (.var w :: stack)) (hseen : w ∉ seen)
    (hw : s.binding w = none) :
    s.Collected ts (w :: seen) (insertBy Var.id w found) stack where
  sorted := by
    refine strictlySorted_insertBy h.sorted fun v hv he ↦ hseen ?_
    obtain rfl := Var.eq_of_id_eq he
    exact ((h.mem_found w).mp hv).1
  mem_found v := by
    rw [mem_insertBy, h.mem_found, List.mem_cons, or_and_right]
    exact or_congr_left (iff_self_and.mpr fun hv ↦ hv ▸ hw)
  frontier := h.frontier.free hw
  reached v hv := by
    rcases hv with hv | ⟨t, ht, hv⟩
    · rcases List.mem_cons.mp hv with rfl | hv
      · exact h.head (Term.mem_vars_var.mpr rfl)
      · exact h.reached v (.inl hv)
    · exact h.reached v (.inr ⟨t, List.mem_cons_of_mem _ ht, hv⟩)
  awaited := h.awaited_see

theorem bound (h : s.Collected ts seen found (.var w :: stack)) (hw : s.binding w = some t) :
    s.Collected ts (w :: seen) found (t :: stack) where
  sorted := h.sorted
  mem_found v := by
    rw [h.mem_found, List.mem_cons, or_and_right]
    refine (or_iff_right ?_).symm
    rintro ⟨rfl, hv⟩
    cases hw.symm.trans hv
  frontier := h.frontier.bound hw
  reached v hv := by
    obtain ⟨u, hu, x, hx, hxw⟩ := h.head (w := w) (Term.mem_vars_var.mpr rfl)
    rcases hv with hv | ⟨t', ht, hv⟩
    · rcases List.mem_cons.mp hv with rfl | hv
      · exact ⟨u, hu, x, hx, hxw⟩
      · exact h.reached v (.inl hv)
    · rcases List.mem_cons.mp ht with rfl | ht
      · exact ⟨u, hu, x, hx, hxw.tail ⟨_, hw, hv⟩⟩
      · exact h.reached v (.inr ⟨t', List.mem_cons_of_mem _ ht, hv⟩)
  awaited t' ht v hv := (h.awaited_see t' ht v hv).imp_right fun ⟨u, hu, hv⟩ ↦
    ⟨u, List.mem_cons_of_mem t hu, hv⟩

theorem node {f : σ} {args : List (Term σ)}
    (h : s.Collected ts seen found (.node f args :: stack)) :
    s.Collected ts seen found (args.reverse ++ stack) where
  sorted := h.sorted
  mem_found := h.mem_found
  frontier := h.frontier.node
  reached v hv := by
    refine h.reached v (hv.imp_right fun ⟨t, ht, hv⟩ ↦ ?_)
    rcases List.mem_append.mp ht with ht | ht
    · exact ⟨_, List.mem_cons_self, Term.mem_vars_node.mpr ⟨t, List.mem_reverse.mp ht, hv⟩⟩
    · exact ⟨t, List.mem_cons_of_mem _ ht, hv⟩
  awaited t ht v hv := by
    refine (h.awaited t ht v hv).imp_right fun ⟨u, hu, hv⟩ ↦ ?_
    rcases List.mem_cons.mp hu with rfl | hu
    · obtain ⟨x, hx, hv⟩ := Term.mem_vars_node.mp hv
      exact ⟨x, by simp [hx], hv⟩
    · exact ⟨u, by simp [hu], hv⟩

theorem mem_found_iff (h : s.Collected ts seen found []) :
    v ∈ found ↔ s.binding v = none ∧ ∃ t ∈ ts, s.Reaches t v := by
  rw [h.mem_found, and_comm]
  refine and_congr_right fun _ ↦ ⟨fun hv ↦ h.reached v (.inl hv), ?_⟩
  rintro ⟨t, ht, w, hw, hwv⟩
  rcases h.awaited t ht w hw with hw | ⟨u, hu, -⟩
  · exact h.frontier.mem_of_reaches hwv hw
  · cases hu

end Collected

end Store

theorem meets_collectFree {fuel : ℕ} {ts : List (Term σ)} {found : List Var}
    {post : List Var → Store σ → Prop}
    (hpost : ∀ all found, s.Collected ts all found [] → post found s)
    (h : s.Collected ts seen found stack)
    (hfuel : K.unfinished ∨ ∃ V D, Room V D s fuel seen stack) :
    (collectFree fuel seen found stack).Meets K post s := by
  induction fuel generalizing seen found stack with
  | zero =>
    cases stack with
    | nil => exact hpost _ _ h
    | cons t stack =>
      rcases hfuel with hfuel | ⟨V, D, hroom⟩
      · exact hfuel
      · have he := hroom.enough
        have hpos := t.size_pos
        rw [List.map_cons, List.sum_cons] at he
        omega
  | succ fuel ih =>
    cases stack with
    | nil => exact hpost _ _ h
    | cons t stack =>
      cases t with
      | node f args => exact ih h.node (hfuel.imp_right fun ⟨V, D, h⟩ ↦ ⟨V, D, h.node⟩)
      | var w =>
        rw [collectFree]
        by_cases hseen : w ∈ seen
        · rw [if_pos hseen]
          exact ih (h.again hseen) (hfuel.imp_right fun ⟨V, D, h⟩ ↦ ⟨V, D, h.again⟩)
        · rw [if_neg hseen, meets_bind, meets_lookup]
          cases hb : s.binding w with
          | none =>
            exact ih (h.free hseen hb) (hfuel.imp_right fun ⟨V, D, h⟩ ↦ ⟨V, D, h.free hseen⟩)
          | some t =>
            exact ih (h.bound hb) (hfuel.imp_right fun ⟨V, D, h⟩ ↦ ⟨V, D, h.bound hseen hb⟩)

theorem meets_freeVars {fuel : ℕ} {ts : List (Term σ)} {post : List Var → Store σ → Prop}
    (hpost : ∀ vs, (vs.Pairwise fun v w ↦ v.id < w.id) →
      (∀ v, v ∈ vs ↔ s.binding v = none ∧ ∃ t ∈ ts, s.Reaches t v) → post vs s)
    (hfuel : K.unfinished ∨ ∃ V D, s.Within V D ∧ (∀ t ∈ ts, t.Within V D) ∧
      Term.sizeList ts + V.card * (D + 1) ≤ fuel) :
    (freeVars fuel ts).Meets K post s := by
  refine meets_collectFree (fun _ found h ↦ hpost found h.sorted fun v ↦ h.mem_found_iff)
    (.start s ts) (hfuel.imp_right fun ⟨V, D, hs, hts, he⟩ ↦ ⟨V, D, hs, List.nodup_nil, nofun,
      fun t ht ↦ (hts t (List.mem_reverse.mp ht)).1, ?_⟩)
  rwa [List.map_reverse, List.sum_reverse, ← Term.sizeList_eq_sum, List.length_nil, Nat.sub_zero]

end Unification
