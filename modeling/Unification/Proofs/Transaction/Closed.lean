import Unification.Proofs.Memo
import Unification.Store.Transaction

namespace Unification

open Relation

variable {σ : Type} {s : Store σ} {u : Term σ} {v : Var} {n m : ℕ}

def Term.Below (n : ℕ) (t : Term σ) : Prop := ∀ v ∈ t.vars, v.id < n

instance : Decidable (u.Below n) := inferInstanceAs (Decidable (∀ v ∈ u.vars, v.id < n))

namespace Term.Below

theorem mono (h : u.Below n) (hle : n ≤ m) : u.Below m := fun v hv ↦ (h v hv).trans_le hle

theorem slot {f : σ} {args : List (Term σ)} (h : (node f args).Below n) (hu : u ∈ args) :
    u.Below n := fun v hv ↦ h v (mem_vars_node.mpr ⟨u, hu, hv⟩)

theorem node {f : σ} {args : List (Term σ)} (h : ∀ u ∈ args, u.Below n) :
    (Term.node f args).Below n := by
  intro v hv
  obtain ⟨u, hu, hv⟩ := mem_vars_node.mp hv
  exact h u hu v hv

end Term.Below

theorem Term.below_var : (var v : Term σ).Below n ↔ v.id < n := by
  simp [Below]

def Entry.Below (n : ℕ) (e : Entry σ) : Prop := ∀ t, e.binding = some t → t.Below n

def Saved.Below (n : ℕ) (w : Saved σ) : Prop := w.id < n ∧ ∀ e, w.previous = some e → e.Below n

theorem Entry.Below.mono {e : Entry σ} (h : e.Below n) (hle : n ≤ m) : e.Below m :=
  fun t ht ↦ (h t ht).mono hle

theorem Saved.Below.mono {w : Saved σ} (h : w.Below n) (hle : n ≤ m) : w.Below m :=
  ⟨h.1.trans_le hle, fun e he ↦ (h.2 e he).mono hle⟩

namespace Store

def Contained (s : Store σ) : Prop :=
  ∀ id e, s.entries[id]? = some e → id < s.next ∧ e.Below s.next

namespace Contained

theorem entry_below (h : s.Contained) (v : Var) : (s.entry v).Below s.next := by
  unfold entry
  cases he : s.entries[v.id]? with
  | none => exact nofun
  | some e => exact (h v.id e he).2

theorem below_of_binding (h : s.Contained) (hv : s.binding v = some u) : u.Below s.next :=
  h.entry_below v u hv

theorem entry_of_le (h : s.Contained) (hv : s.next ≤ v.id) : s.entry v = {} := by
  unfold entry
  cases he : s.entries[v.id]? with
  | none => rfl
  | some e => exact absurd (h v.id e he).1 (Nat.not_lt.mpr hv)

theorem free_of_le (h : s.Contained) (hv : s.next ≤ v.id) : s.binding v = none := by
  rw [binding, h.entry_of_le hv]

theorem id_lt_of_reflTransGen {w : Var} (h : s.Contained) (hv : v.id < s.next)
    (hvw : ReflTransGen s.PointsTo v w) : w.id < s.next := by
  induction hvw with
  | refl => exact hv
  | tail _ hxy _ =>
    obtain ⟨t, ht, hy⟩ := hxy
    exact h.below_of_binding ht _ hy

theorem id_lt_of_reaches (h : s.Contained) (hu : u.Below s.next) (hv : s.Reaches u v) :
    v.id < s.next := by
  obtain ⟨w, hw, hwv⟩ := hv
  exact h.id_lt_of_reflTransGen (hu w hw) hwv

theorem update {f : Entry σ → Entry σ} (h : s.Contained) (hv : v.id < s.next)
    (hf : (f (s.entry v)).Below s.next) : (s.update v f).Contained := by
  intro id e he
  rw [next_update]
  simp only [Store.update, Std.ExtTreeMap.getElem?_insert, Nat.compare_eq_eq] at he
  split at he
  · rename_i hid
    obtain rfl := Option.some.inj he
    exact ⟨hid ▸ hv, hf⟩
  · exact h id e he

theorem bind (h : s.Contained) (hv : v.id < s.next) (hu : u.Below s.next) :
    (s.bind v u).Contained :=
  h.update hv fun _ ht ↦ Option.some.inj ht ▸ hu

end Contained

/-- Every variable that stands in the entries or in the journal is allocated. -/
structure Closed (s : Store σ) : Prop where
  entries : ∀ id e, s.entries[id]? = some e → id < s.next ∧ e.Below s.next
  journal : ∀ frame ∈ s.journal, ∀ w ∈ frame, w.Below s.next

namespace Closed

theorem new (config : Config) : ({ config } : Store σ).Closed :=
  ⟨fun id e h ↦ by simp at h, nofun⟩

theorem contained (h : s.Closed) : s.Contained := h.entries

theorem update {f : Entry σ → Entry σ} (h : s.Closed) (hv : v.id < s.next)
    (hf : (f (s.entry v)).Below s.next) : (s.update v f).Closed := by
  refine ⟨h.contained.update hv hf, ?_⟩
  rw [next_update]
  intro frame hframe w hw
  change frame ∈ (s.save v).journal at hframe
  unfold save at hframe
  split at hframe
  · exact h.journal frame hframe w hw
  · rename_i top rest hjournal
    have htop : ∀ frame ∈ top :: rest, ∀ w ∈ frame, w.Below s.next := hjournal ▸ h.journal
    rcases List.mem_cons.mp hframe with rfl | hframe
    · rcases List.mem_cons.mp hw with rfl | hw
      · exact ⟨hv, fun e he ↦ (h.entries v.id e he).2⟩
      · exact htop top List.mem_cons_self w hw
    · exact htop frame (List.mem_cons_of_mem top hframe) w hw

theorem fresh (h : s.Closed) : s.fresh.2.Closed := by
  unfold Store.fresh
  split
  · exact h
  · have hle : s.next ≤ s.next + 1 := Nat.le_succ _
    refine ⟨fun id e he ↦ ?_, fun frame hframe w hw ↦ (h.journal frame hframe w hw).mono hle⟩
    exact ⟨(h.entries id e he).1.trans_le hle, (h.entries id e he).2.mono hle⟩

theorem begin (h : s.Closed) : s.begin.Closed := by
  refine ⟨h.entries, fun frame hframe w hw ↦ ?_⟩
  rcases List.mem_cons.mp hframe with rfl | hframe
  · cases hw
  · exact h.journal frame hframe w hw

theorem keepFrame (h : s.Closed) : s.keepFrame.Closed := by
  unfold Store.keepFrame
  split
  · exact h
  · exact ⟨h.entries, nofun⟩
  · rename_i frame parent rest hjournal
    have htop : ∀ f ∈ frame :: parent :: rest, ∀ w ∈ f, w.Below s.next := hjournal ▸ h.journal
    refine ⟨h.entries, fun f hf w hw ↦ ?_⟩
    rcases List.mem_cons.mp hf with rfl | hf
    · rcases List.mem_append.mp hw with hw | hw
      · exact htop frame List.mem_cons_self w hw
      · exact htop parent (List.mem_cons_of_mem _ List.mem_cons_self) w hw
    · exact htop f (List.mem_cons_of_mem _ (List.mem_cons_of_mem _ hf)) w hw

theorem undo {entries : Std.ExtTreeMap Nat (Entry σ)} {frame : List (Saved σ)}
    (h : ∀ id (e : Entry σ), entries[id]? = some e → id < n ∧ e.Below n)
    (hframe : ∀ w ∈ frame, w.Below n) :
    ∀ id e, (undo entries frame)[id]? = some e → id < n ∧ e.Below n := by
  induction frame generalizing entries with
  | nil => exact h
  | cons w frame ih =>
    refine ih (fun id e he ↦ ?_) fun x hx ↦ hframe x (List.mem_cons_of_mem w hx)
    obtain ⟨hid, hprevious⟩ := hframe w List.mem_cons_self
    cases hw : w.previous with
    | none =>
      simp only [hw, Std.ExtTreeMap.getElem?_erase] at he
      split at he
      · cases he
      · exact h id e he
    | some old =>
      simp only [hw, Std.ExtTreeMap.getElem?_insert, Nat.compare_eq_eq] at he
      split at he
      · rename_i heq
        obtain rfl := Option.some.inj he
        exact ⟨heq ▸ hid, hprevious _ hw⟩
      · exact h id e he

theorem dropFrame (h : s.Closed) : s.dropFrame.Closed := by
  unfold Store.dropFrame
  split
  · exact h
  · rename_i frame rest hjournal
    have htop : ∀ f ∈ frame :: rest, ∀ w ∈ f, w.Below s.next := hjournal ▸ h.journal
    refine ⟨undo h.entries (htop frame List.mem_cons_self), fun f hf ↦ ?_⟩
    exact htop f (List.mem_cons_of_mem _ hf)

theorem closeFrame (keep : Bool) (h : s.Closed) : (s.closeFrame keep).Closed := by
  cases keep with
  | true => exact h.keepFrame
  | false => exact h.dropFrame

end Closed

theorem next_closeFrame (keep : Bool) (s : Store σ) : (s.closeFrame keep).next = s.next := by
  cases keep with
  | true =>
    change s.keepFrame.next = s.next
    unfold keepFrame
    split <;> rfl
  | false =>
    change s.dropFrame.next = s.next
    unfold dropFrame
    split <;> rfl

theorem config_closeFrame (keep : Bool) (s : Store σ) :
    (s.closeFrame keep).config = s.config := by
  cases keep with
  | true =>
    change s.keepFrame.config = s.config
    unfold keepFrame
    split <;> rfl
  | false =>
    change s.dropFrame.config = s.config
    unfold dropFrame
    split <;> rfl

theorem config_update (s : Store σ) (v : Var) (f : Entry σ → Entry σ) :
    (s.update v f).config = s.config := by
  unfold update save
  split <;> rfl

end Store

end Unification
