import Unification.Operation
import Unification.Proofs.Contract
import Unification.Proofs.Transaction.Snapshots
import Unification.Session.Run

namespace Unification

variable {σ ε α : Type}

theorem Script.run_keeps {I : Store σ → Prop} (hI : ∀ r s, I s → I (Store.perform r s).2)
    (m : Script σ Refusal α) {s : Store σ} (hs : I s) : I (m.run s).2 := by
  induction m generalizing s with
  | pure a => exact hs
  | fail e => exact hs
  | unfinished => exact hs
  | note e next ih => exact ih hs
  | call r next ih =>
    rw [run_call]
    exact ih _ (hI r s hs)

namespace Store

variable {s t base : Store σ} {floor : ℕ}

theorem OpenSince.perform (h : base.OpenSince s) (r : Request σ) :
    base.OpenSince (s.perform r).2 := by
  cases r with
  | lookup v => exact h
  | rank v => exact h
  | fresh =>
    obtain ⟨frame, frames, h⟩ := h
    exact ⟨_, _, h.fresh⟩
  | bind v t => exact h.update v _
  | promote v => exact h.update v _

theorem depth_perform (r : Request σ) (s : Store σ) : (s.perform r).2.depth = s.depth := by
  cases r with
  | lookup v => rfl
  | rank v => rfl
  | fresh => exact depth_fresh s
  | bind v t => exact depth_update s v _
  | promote v => exact depth_update s v _

theorem depth_closeFrames (keep : Bool) (n : ℕ) (s : Store σ) :
    (closeFrames keep n s).depth = s.depth - n := by
  induction n generalizing s with
  | zero => rfl
  | succ n ih =>
    rw [closeFrames, ih, depth_closeFrame]
    omega

theorem entries_closeFrames_true (n : ℕ) (s : Store σ) :
    (closeFrames true n s).entries = s.entries := by
  induction n generalizing s with
  | zero => rfl
  | succ n ih =>
    have hkeep : s.keepFrame.entries = s.entries := by
      unfold keepFrame
      split <;> rfl
    exact (ih _).trans hkeep

theorem OpenSince.closeFrames (keep : Bool) (n : ℕ) (h : base.OpenSince s)
    (hn : base.depth + n < s.depth) : base.OpenSince (closeFrames keep n s) := by
  induction n generalizing s with
  | zero => exact h
  | succ n ih =>
    refine ih (h.closeFrame keep (by omega)) ?_
    rw [depth_closeFrame]
    omega

theorem RestsOn.closeFrames_false {frames : List (List (Saved σ))} (h : base.RestsOn s frames) :
    base.RestsOn (Store.closeFrames false frames.length s) [] := by
  induction frames generalizing s with
  | nil => exact h
  | cons frame frames ih => exact ih h.dropFrame

theorem depth_act_le {a : Action σ} (ha : a ≠ .begin) : (s.act a).2.depth ≤ s.depth := by
  cases a with
  | begin => exact absurd rfl ha
  | commit =>
    rw [act_commit, depth_closeFrame]
    exact Nat.sub_le _ _
  | rollback =>
    rw [act_rollback, depth_closeFrame]
    exact Nat.sub_le _ _
  | fresh => exact (depth_fresh s).le
  | bind v t => exact (depth_update s v _).le
  | promote v => exact (depth_update s v _).le

theorem atomically_of_error {f : Store σ → Except ε α × Store σ} {e : ε}
    (he : (f s.begin).1 = .error e) :
    s.atomically f = (.error e, (f s.begin).2.closeTo s.depth false) := by
  change ((f s.begin).1, (f s.begin).2.closeTo s.depth (f s.begin).1.isOk) = _
  rw [he]
  rfl

theorem atomically_of_ok {f : Store σ → Except ε α × Store σ} {a : α}
    (ha : (f s.begin).1 = .ok a) :
    s.atomically f = (.ok a, (f s.begin).2.closeTo s.depth true) := by
  change ((f s.begin).1, (f s.begin).2.closeTo s.depth (f s.begin).1.isOk) = _
  rw [ha]
  rfl

variable [DecidableEq σ]

theorem depth_operation (op : Operation σ) (s : Store σ) : (op.run s).2.depth = s.depth :=
  Script.run_keeps (I := fun t ↦ t.depth = s.depth)
    (fun r t ht ↦ (depth_perform r t).trans ht) _ rfl

/-- A store is reached from another one by calls, operations and atomic sections, one after
another, with at least `floor` transactions open all the time. -/
inductive Journey (floor : ℕ) : Store σ → Store σ → Prop
  | start (s : Store σ) : Journey floor s s
  | act {s t : Store σ} (a : Action σ) : Journey floor s t → floor ≤ (t.act a).2.depth →
      Journey floor s (t.act a).2
  | operation {s t : Store σ} (op : Operation σ) : Journey floor s t →
      Journey floor s (op.run t).2
  | atomically {ε α : Type} {s t : Store σ} (f : Store σ → Except ε α × Store σ) :
      Journey floor s t → Journey floor t.begin (f t.begin).2 → Journey floor s (t.atomically f).2

namespace Journey

theorem mono {lower : ℕ} (h : Journey floor s t) (hle : lower ≤ floor) : Journey lower s t := by
  induction h with
  | start s => exact .start s
  | act a _ hd ih => exact .act a ih (hle.trans hd)
  | operation op _ ih => exact .operation op ih
  | atomically f _ _ ih ihf => exact .atomically f ih ihf

theorem openSince (h : Journey (base.depth + 1) s t) (hs : base.OpenSince s) :
    base.OpenSince t := by
  induction h with
  | start s => exact hs
  | act a _ hd ih => exact (ih hs).act a hd
  | operation op _ ih => exact Script.run_keeps (fun r _ h ↦ h.perform r) _ (ih hs)
  | @atomically ε α s t f _ _ ih ihf =>
    -- The body may close the transaction of its own section, but not the one that began at `base`.
    have ht := ih hs
    have hf : base.OpenSince (f t.begin).2 := ihf (ht.act .begin (Nat.lt_succ_of_lt ht.depth_lt))
    refine hf.closeFrames _ _ ?_
    have h₁ := ht.depth_lt
    have h₂ := hf.depth_lt
    omega

theorem closeFrame (keep : Bool) (h : Journey floor s t) (hd : floor < t.depth) :
    Journey floor s (t.closeFrame keep) := by
  have hd' : floor ≤ (t.closeFrame keep).depth := by
    rw [depth_closeFrame]
    omega
  cases keep with
  | true =>
    rw [← act_commit] at hd' ⊢
    exact .act .commit h hd'
  | false =>
    rw [← act_rollback] at hd' ⊢
    exact .act .rollback h hd'

end Journey

def Begun (s : Store σ) : Prop :=
  ∀ i < s.depth, ∃ base : Store σ, base.depth = i ∧ Journey (i + 1) base.begin s

namespace Begun

theorem begin (h : s.Begun) : s.begin.Begun := by
  intro i hi
  rcases Nat.lt_succ_iff_lt_or_eq.mp hi with hlt | rfl
  · obtain ⟨base, hd, hj⟩ := h i hlt
    exact ⟨base, hd, .act .begin hj hi⟩
  · exact ⟨s, rfl, .start _⟩

theorem closeFrame (keep : Bool) (h : s.Begun) : (s.closeFrame keep).Begun := by
  intro i hi
  rw [depth_closeFrame] at hi
  obtain ⟨base, hd, hj⟩ := h i (by omega)
  exact ⟨base, hd, hj.closeFrame keep (by omega)⟩

theorem closeFrames (keep : Bool) (n : ℕ) (h : s.Begun) : (closeFrames keep n s).Begun := by
  induction n generalizing s with
  | zero => exact h
  | succ n ih => exact ih (h.closeFrame keep)

theorem act (h : s.Begun) (a : Action σ) : (s.act a).2.Begun := by
  by_cases ha : a = .begin
  · subst ha
    exact h.begin
  · have hle : (s.act a).2.depth ≤ s.depth := depth_act_le ha
    intro i hi
    obtain ⟨base, hd, hj⟩ := h i (by omega)
    exact ⟨base, hd, .act a hj hi⟩

/-- Transactions are opened and closed in the right order, so a store that is reached from a new
one can tell for each open transaction when it began. -/
theorem journey (h : Journey floor s t) (hs : s.Begun) : t.Begun := by
  induction h with
  | start s => exact hs
  | act a _ _ ih => exact (ih hs).act a
  | @operation s t op _ ih =>
    intro i hi
    rw [depth_operation] at hi
    obtain ⟨base, hd, hj⟩ := ih hs i hi
    exact ⟨base, hd, .operation op hj⟩
  | atomically f _ _ ih ihf => exact (ihf (ih hs).begin).closeFrames _ _

end Begun

/-- An atomic section leaves nothing behind if its body fails, and everything if it succeeds. In
the latter case its writes belong to the transaction around it, so that each transaction that was
open before can still be taken back. -/
theorem atomically_all_or_nothing {config : Config} (hs : Journey 0 { config } s)
    (f : Store σ → Except ε α × Store σ)
    (hf : Journey (s.depth + 1) s.begin (f s.begin).2) :
    (∀ e, (f s.begin).1 = .error e → ∃ s', s.atomically f = (.error e, s') ∧
      s'.config = s.config ∧ s'.entries = s.entries ∧ s'.journal = s.journal ∧ s.next ≤ s'.next) ∧
    (∀ a, (f s.begin).1 = .ok a → ∃ s', s.atomically f = (.ok a, s') ∧
      s'.entries = (f s.begin).2.entries ∧ s'.depth = s.depth ∧
      (∀ i < s.depth, ∃ base : Store σ, base.depth = i ∧ Journey (i + 1) base.begin s) ∧
      ∀ base : Store σ, Journey (base.depth + 1) base.begin s →
        ∀ t, Journey (base.depth + 1) s' t → t.depth = base.depth + 1 →
          ∃ u, t.rollback = .ok u ∧ u.entries = base.entries) := by
  have hopen : s.OpenSince (f s.begin).2 := hf.openSince (.begin_self s)
  constructor
  · intro e he
    refine ⟨_, atomically_of_error he, ?_⟩
    obtain ⟨frame, frames, h⟩ := hopen
    have hcount : (f s.begin).2.depth - s.depth = (frame :: frames).length := by
      rw [h.depth_eq, Nat.add_sub_cancel]
    have hrest := h.closeFrames_false
    rw [closeTo, hcount]
    exact ⟨hrest.config, hrest.entries, hrest.journal, hrest.next⟩
  · intro a ha
    have hnew : Begun ({ config } : Store σ) := fun i hi ↦ absurd hi (Nat.not_lt_zero i)
    refine ⟨_, atomically_of_ok ha, entries_closeFrames_true _ _, ?_, hnew.journey hs, ?_⟩
    · have hlt := hopen.depth_lt
      rw [closeTo, depth_closeFrames]
      omega
    · intro base hbase t ht hdepth
      have hsince : base.OpenSince s := hbase.openSince (.begin_self base)
      have hbody := hf.mono (Nat.succ_le_succ hsince.depth_lt.le)
      have hsection := (Journey.atomically f (.start s) hbody).openSince hsince
      rw [atomically_of_ok ha] at hsection
      obtain ⟨u, hu, hentries, -⟩ := (ht.openSince hsection).rollback hdepth
      exact ⟨u, hu, hentries⟩

def unifyInside (a b : Term Symbol) (s : Store Symbol) :
    Except (Failure Symbol Refusal) Unit × Store Symbol :=
  let (outcome, t) := (Operation.unify {} a b).run s.begin
  (match outcome with
    | .error e => .error e
    | _ => .ok (), t)

theorem journey_unifyInside (a b : Term Symbol) (s : Store Symbol) :
    Journey s.depth s (s.unifyInside a b).2 :=
  .operation (.unify {} a b) (.act .begin (.start s) (Nat.le_succ _))

theorem atomically_clash_leaves_nothing :
    ∃ s', (default : Store Symbol).begin.atomically
        (unifyInside (.node .pair [.var ⟨0⟩, .node (.int 1) []])
          (.node .pair [.node (.int 5) [], .node (.int 2) []])) =
        (.error (.clash (.mismatch ⟨.int 1, []⟩ ⟨.int 2, []⟩)), s') ∧
      s'.entries = (default : Store Symbol).entries ∧
      s'.journal = (default : Store Symbol).begin.journal := by
  have hs : Journey 0 { config := {} } (default : Store Symbol).begin :=
    .act .begin (.start _) (Nat.zero_le _)
  have hbody := journey_unifyInside (.node .pair [.var ⟨0⟩, .node (.int 1) []])
    (.node .pair [.node (.int 5) [], .node (.int 2) []]) (default : Store Symbol).begin.begin
  obtain ⟨s', hrun, -, hentries, hjournal, -⟩ :=
    (atomically_all_or_nothing hs (unifyInside _ _) hbody).1 _ rfl
  exact ⟨s', hrun, hentries, hjournal⟩

end Store

namespace Session

variable [DecidableEq σ]

def body (s : Session σ) (commands : List (Command σ)) (abort : Bool) (t : Store σ) :
    Except Cause (List (Step σ (Reply σ))) × Store σ :=
  let (steps, cause, inner) := Command.runUntilFault commands (s.setStore t)
  (match cause.or (if abort then some .aborted else none) with
    | none => .ok steps
    | some cause => .error cause, inner.store)

theorem run_atomically_store {s : Session σ} (h : s.backing = .standard)
    (commands : List (Command σ)) (abort : Bool) :
    ((Command.atomically commands abort).run s).2.store =
      (s.store.atomically (s.body commands abort)).2 := by
  rw [Command.run, if_neg (not_not.mpr h)]
  unfold Store.atomically body
  match Command.runUntilFault commands (s.setStore s.store.begin) with
  | (steps, cause, inner) =>
    dsimp only
    cases cause.or (if abort then some .aborted else none) with
    | none => rfl
    | some cause => rfl

end Session

end Unification
