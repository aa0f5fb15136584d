import Mathlib.Data.List.Forall2
import Unification.Proofs.Resolved

namespace Unification

variable {σ : Type}

inductive Unfolding (σ : Type) where
  | cut
  | free (v : Var)
  | node (symbol : σ) (slots : List (Unfolding σ))

inductive Term.SameHead (R : Term σ → Term σ → Prop) : Term σ → Term σ → Prop
  | var (v : Var) : SameHead R (.var v) (.var v)
  | node (f : σ) {ts us : List (Term σ)} : List.Forall₂ R ts us → SameHead R (.node f ts) (.node f us)

namespace Store

variable {s s' : Store σ} {t u : Term σ} {v w : Var}

def follow (s : Store σ) : ℕ → Term σ → Term σ
  | 0, t => t
  | _ + 1, .node f args => .node f args
  | n + 1, .var v => (s.binding v).elim (.var v) (s.follow n)

def chainEnd (s : Store σ) (t : Term σ) : Term σ := s.follow s.entries.size t

/-- The tree that a term denotes in a store, down to the depth `n`. -/
def unfold (s : Store σ) : ℕ → Term σ → Unfolding σ
  | 0, _ => .cut
  | n + 1, t =>
    match s.chainEnd t with
    | .var v => .free v
    | .node f args => .node f (args.map (s.unfold n))

/-- Two terms that denote the same tree, which may be infinite. -/
def Alike (s : Store σ) (t u : Term σ) : Prop := ∀ n, s.unfold n t = s.unfold n u

theorem follow_node (s : Store σ) (n : ℕ) (f : σ) (args : List (Term σ)) :
    s.follow n (.node f args) = .node f args := by cases n <;> rfl

theorem follow_of_free (n : ℕ) (h : s.binding v = none) : s.follow n (.var v) = .var v := by
  cases n with
  | zero => rfl
  | succ n => simp only [follow, h, Option.elim_none]

theorem follow_eq_of_height {μ : Var → ℕ} (hμ : ∀ v w, s.Links v w → μ w < μ v)
    (hpos : ∀ v t, s.binding v = some t → 0 < μ v) (n m : ℕ) (t : Term σ)
    (ht : ∀ v, t = .var v → μ v ≤ n) (hm : n ≤ m) : s.follow m t = s.follow n t := by
  induction n generalizing m t with
  | zero =>
    cases t with
    | node f args => exact follow_node s m f args
    | var v =>
      cases hb : s.binding v with
      | none => exact follow_of_free m hb
      | some u =>
        have h₁ := hpos v u hb
        have h₂ := ht v rfl
        omega
  | succ n ih =>
    obtain ⟨m, rfl⟩ : ∃ k, m = k + 1 := ⟨m - 1, by omega⟩
    cases t with
    | node f args => rfl
    | var v =>
      rw [follow, follow]
      cases hb : s.binding v with
      | none => rfl
      | some u =>
        refine ih m u (fun w hw ↦ ?_) (by omega)
        have h₁ := hμ v w (by rw [Links, hb, hw])
        have h₂ := ht v rfl
        omega

@[simp]
theorem chainEnd_node (s : Store σ) (f : σ) (args : List (Term σ)) :
    s.chainEnd (.node f args) = .node f args := follow_node s _ f args

theorem chainEnd_of_free (h : s.binding v = none) : s.chainEnd (.var v) = .var v :=
  follow_of_free _ h

theorem chainEnd_of_binding (hs : s.Chained) (h : s.binding v = some t) :
    s.chainEnd (.var v) = s.chainEnd t := by
  obtain ⟨μ, hμ, hle, hpos⟩ := hs.exists_height
  obtain ⟨n, hn⟩ : ∃ n, s.entries.size = n + 1 := by
    have h₁ := hpos v t h
    have h₂ := hle v
    exact ⟨s.entries.size - 1, by omega⟩
  have ht : ∀ w, t = .var w → μ w ≤ n := by
    intro w hw
    have h₁ := hμ v w (by rw [Links, h, hw])
    have h₂ := hle v
    omega
  rw [chainEnd, chainEnd, hn, follow_eq_of_height hμ hpos n (n + 1) t ht n.le_succ]
  simp only [follow, h, Option.elim_some]

theorem Alike.refl (s : Store σ) (t : Term σ) : s.Alike t t := fun _ ↦ rfl

theorem Alike.symm (h : s.Alike t u) : s.Alike u t := fun n ↦ (h n).symm

theorem Alike.trans {x : Term σ} (h : s.Alike t u) (h' : s.Alike u x) : s.Alike t x :=
  fun n ↦ (h n).trans (h' n)

theorem alike_of_chainEnd_eq (h : s.chainEnd t = s.chainEnd u) : s.Alike t u := by
  intro n
  cases n with
  | zero => rfl
  | succ n => rw [unfold, unfold, h]

theorem alike_of_binding (hs : s.Chained) (h : s.binding v = some t) : s.Alike (.var v) t :=
  alike_of_chainEnd_eq (chainEnd_of_binding hs h)

theorem map_eq_of_forall₂ {α β γ : Type} {f : α → γ} {g : β → γ} {l : List α} {l' : List β}
    (h : List.Forall₂ (fun a b ↦ f a = g b) l l') : l.map f = l'.map g := by
  induction h with
  | nil => rfl
  | cons h _ ih => rw [List.map_cons, List.map_cons, h, ih]

theorem forall₂_alike_iff {ts us : List (Term σ)} :
    List.Forall₂ s.Alike ts us ↔ ∀ n, ts.map (s.unfold n) = us.map (s.unfold n) := by
  constructor
  · exact fun h n ↦ map_eq_of_forall₂ (h.imp fun _ _ h ↦ h n)
  · intro h
    induction ts generalizing us with
    | nil =>
      obtain rfl := List.map_eq_nil_iff.mp (h 0).symm
      exact .nil
    | cons t ts ih =>
      cases us with
      | nil => exact absurd (h 0) (List.cons_ne_nil _ _)
      | cons u us =>
        exact .cons (fun n ↦ (List.cons.inj (h n)).1) (ih fun n ↦ (List.cons.inj (h n)).2)

theorem alike_iff : s.Alike t u ↔ Term.SameHead s.Alike (s.chainEnd t) (s.chainEnd u) := by
  constructor
  · intro h
    have hn : ∀ n, s.unfold (n + 1) t = s.unfold (n + 1) u := fun n ↦ h (n + 1)
    simp only [unfold] at hn
    cases ht : s.chainEnd t with
    | var v =>
      cases hu : s.chainEnd u with
      | var w =>
        simp only [ht, hu, Unfolding.free.injEq] at hn
        exact hn 0 ▸ .var v
      | node g us => simp [ht, hu] at hn
    | node f ts =>
      cases hu : s.chainEnd u with
      | var w => simp [ht, hu] at hn
      | node g us =>
        simp only [ht, hu, Unfolding.node.injEq] at hn
        obtain rfl := (hn 0).1
        exact .node f (forall₂_alike_iff.mpr fun n ↦ (hn n).2)
  · intro h n
    cases n with
    | zero => rfl
    | succ n =>
      rw [unfold, unfold]
      generalize s.chainEnd t = x at h ⊢
      generalize s.chainEnd u = y at h ⊢
      cases h with
      | var v => rfl
      | node f h => exact congrArg (Unfolding.node f) (forall₂_alike_iff.mp h n)

theorem Alike.chainEnd_eq_var (h : s.Alike t u) (ht : s.chainEnd t = .var v) :
    s.chainEnd u = .var v := by
  have hh := alike_iff.mp h
  rw [ht] at hh
  generalize s.chainEnd u = y at hh ⊢
  cases hh
  rfl

theorem Alike.chainEnd_eq_node {f : σ} {ts : List (Term σ)} (h : s.Alike t u)
    (ht : s.chainEnd t = .node f ts) :
    ∃ us, s.chainEnd u = .node f us ∧ List.Forall₂ s.Alike ts us := by
  have hh := alike_iff.mp h
  rw [ht] at hh
  generalize s.chainEnd u = y at hh ⊢
  cases hh with
  | node _ h => exact ⟨_, rfl, h⟩

theorem alike_node {f : σ} {ts us : List (Term σ)} (h : List.Forall₂ s.Alike ts us) :
    s.Alike (.node f ts) (.node f us) := by
  rw [alike_iff, chainEnd_node, chainEnd_node]
  exact .node f h

/-- A store keeps the equations of another one if ends of chains that were free are followed
further, and structures at the end of a chain are exchanged for structures with alike slots. -/
theorem Alike.transfer
    (hvar : ∀ t v, s.chainEnd t = .var v → s'.chainEnd t = s'.chainEnd (.var v))
    (hnode : ∀ t f ts, s.chainEnd t = .node f ts →
      ∃ us, s'.chainEnd t = .node f us ∧ List.Forall₂ s.Alike ts us)
    (h : s.Alike t u) : s'.Alike t u := by
  intro n
  induction n generalizing t u with
  | zero => rfl
  | succ n ih =>
    cases ht : s.chainEnd t with
    | var v =>
      have hu := h.chainEnd_eq_var ht
      exact alike_of_chainEnd_eq ((hvar t v ht).trans (hvar u v hu).symm) (n + 1)
    | node f ts =>
      obtain ⟨us, hu, hslots⟩ := h.chainEnd_eq_node ht
      obtain ⟨ts', ht', hts⟩ := hnode t f ts ht
      obtain ⟨us', hu', hus⟩ := hnode u f us hu
      rw [unfold, unfold, ht', hu']
      have hslots' : List.Forall₂ s.Alike ts' us' := forall₂_alike_iff.mpr fun n ↦
        (forall₂_alike_iff.mp hts n).symm.trans
          ((forall₂_alike_iff.mp hslots n).trans (forall₂_alike_iff.mp hus n))
      exact congrArg (Unfolding.node f) (map_eq_of_forall₂ (hslots'.imp fun _ _ h ↦ ih h))

theorem resolved_chainEnd (hs : s.Acyclic) (t : Term σ) :
    s.resolved (s.chainEnd t) = s.resolved t := by
  induction t using hs.chained.induct with
  | node f args => rw [chainEnd_node]
  | free v hv => rw [chainEnd_of_free hv]
  | bound v t hv ih => rw [chainEnd_of_binding hs.chained hv, ih, resolved_of_binding hs hv]

theorem resolved_eq_of_alike (hs : s.Acyclic) (h : s.Alike t u) : s.resolved t = s.resolved u := by
  induction t using hs.induct generalizing u with
  | node f args ih =>
    obtain ⟨us, hu, hslots⟩ := h.chainEnd_eq_node (chainEnd_node s f args)
    rw [← resolved_chainEnd hs u, hu, resolved_node, resolved_node]
    congr 1
    have hargs := (List.forall₂_and_left _ _).mpr ⟨ih, hslots⟩
    exact map_eq_of_forall₂ (hargs.imp fun _ _ h ↦ h.1 h.2)
  | free v hv =>
    have hu := h.chainEnd_eq_var (chainEnd_of_free hv)
    rw [← resolved_chainEnd hs u, hu]
  | bound v t hv ih =>
    rw [resolved_of_binding hs hv]
    exact ih ((alike_of_binding hs.chained hv).symm.trans h)

end Store

theorem Layer.alike_toTerm_iff {s : Store σ} {l r : Layer σ (Term σ)} :
    s.Alike l.toTerm r.toTerm ↔ l.symbol = r.symbol ∧ List.Forall₂ s.Alike l.slots r.slots := by
  constructor
  · intro h
    obtain ⟨us, hr, hslots⟩ := h.chainEnd_eq_node (s.chainEnd_node l.symbol l.slots)
    rw [Layer.toTerm, Store.chainEnd_node] at hr
    obtain ⟨hsymbol, rfl⟩ := Term.node.inj hr
    exact ⟨hsymbol.symm, hslots⟩
  · rintro ⟨hsymbol, hslots⟩
    rw [Layer.toTerm, Layer.toTerm, hsymbol]
    exact Store.alike_node hslots

end Unification
