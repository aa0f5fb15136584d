import Mathlib.Data.Nat.Notation
import Unification.Store.Transaction
import Unification.Symbol

namespace Unification

variable {σ S : Type}

inductive Action (σ : Type) where
  | begin
  | commit
  | rollback
  | fresh
  | bind (v : Var) (t : Term σ)
  | promote (v : Var)
deriving DecidableEq, Repr

namespace Action

abbrev Answer := Except Refusal (Option Var)

def trace (step : Action σ → S → Answer × S) : List (Action σ) → S → List (Answer × S)
  | [], _ => []
  | a :: as, s => step a s :: trace step as (step a s).2

def run (step : Action σ → S → Answer × S) (as : List (Action σ)) (s : S) : S :=
  as.foldl (fun s a ↦ (step a s).2) s

theorem run_append (step : Action σ → S → Answer × S) (as bs : List (Action σ)) (s : S) :
    run step (as ++ bs) s = run step bs (run step as s) := List.foldl_append

def settle (s : S) : Except Refusal S → Answer × S
  | .ok t => (.ok none, t)
  | .error e => (.error e, s)

end Action

/-- A store that copies all of its entries whenever a transaction begins. The newest copy comes
first. -/
structure Snapshots (σ : Type) where
  config : Config := {}
  next : Nat := 0
  entries : Std.ExtTreeMap Nat (Entry σ) := ∅
  saved : List (Std.ExtTreeMap Nat (Entry σ)) := []

namespace Snapshots

def begin (s : Snapshots σ) : Snapshots σ := { s with saved := s.entries :: s.saved }

def commit (s : Snapshots σ) : Except Refusal (Snapshots σ) :=
  match s.saved with
  | [] => .error .noTransaction
  | _ :: saved => .ok { s with saved }

def rollback (s : Snapshots σ) : Except Refusal (Snapshots σ) :=
  match s.saved with
  | [] => .error .noTransaction
  | entries :: saved => .ok { s with entries, saved }

def allocate (s : Snapshots σ) : Action.Answer × Snapshots σ :=
  if 0xFFFFFFFFFFFFFFFF ≤ s.next then (.error (.exhausted 0xFFFFFFFFFFFFFFFF), s)
  else (.ok (some ⟨s.next⟩), { s with next := s.next + 1 })

def fresh (s : Snapshots σ) : Action.Answer × Snapshots σ :=
  match s.config.variableLimit with
  | none => s.allocate
  | some limit => if limit ≤ s.next then (.error (.exhausted limit), s) else s.allocate

def entry (s : Snapshots σ) (v : Var) : Entry σ := s.entries[v.id]?.getD {}

def set (s : Snapshots σ) (v : Var) (e : Entry σ) : Snapshots σ :=
  { s with entries := s.entries.insert v.id e }

def act : Action σ → Snapshots σ → Action.Answer × Snapshots σ
  | .begin, s => (.ok none, s.begin)
  | .commit, s => Action.settle s s.commit
  | .rollback, s => Action.settle s s.rollback
  | .fresh, s => s.fresh
  | .bind v t, s => (.ok none, s.set v ⟨(s.entry v).rank, some t⟩)
  | .promote v, s =>
    let ⟨rank, binding⟩ := s.entry v
    (.ok none, s.set v ⟨if 255 ≤ rank then rank else rank + 1, binding⟩)

end Snapshots

namespace Store

def act : Action σ → Store σ → Action.Answer × Store σ
  | .begin, s => (.ok none, s.begin)
  | .commit, s => Action.settle s s.commit
  | .rollback, s => Action.settle s s.rollback
  | .fresh, s => (s.fresh.1.map some, s.fresh.2)
  | .bind v t, s => (.ok none, s.bind v t)
  | .promote v, s => (.ok none, s.promote v)

variable {s : Store σ} {entries : Std.ExtTreeMap Nat (Entry σ)} {frame parent : List (Saved σ)}

theorem undo_append : undo entries (frame ++ parent) = undo (undo entries frame) parent :=
  List.foldl_append

theorem undo_insert (id : Nat) (e : Entry σ) :
    undo (entries.insert id e) (⟨id, entries[id]?⟩ :: frame) = undo entries frame := by
  change undo _ frame = _
  congr 1
  apply Std.ExtTreeMap.ext_getElem?
  intro k
  cases h : entries[id]? with
  | none =>
    -- An entry that was not there before has to go, and not to become an empty one.
    simp only [Std.ExtTreeMap.getElem?_erase, Std.ExtTreeMap.getElem?_insert, Nat.compare_eq_eq]
    grind
  | some e' =>
    simp only [Std.ExtTreeMap.getElem?_insert, Nat.compare_eq_eq]
    grind

def past (entries : Std.ExtTreeMap Nat (Entry σ)) :
    List (List (Saved σ)) → List (Std.ExtTreeMap Nat (Entry σ))
  | [] => []
  | frame :: rest => undo entries frame :: past (undo entries frame) rest

theorem length_past (entries : Std.ExtTreeMap Nat (Entry σ)) (journal : List (List (Saved σ))) :
    (past entries journal).length = journal.length := by
  induction journal generalizing entries with
  | nil => rfl
  | cons frame rest ih => rw [past, List.length_cons, List.length_cons, ih]

def toSnapshots (s : Store σ) : Snapshots σ :=
  ⟨s.config, s.next, s.entries, past s.entries s.journal⟩

theorem settle_commit (s : Store σ) :
    Action.settle s.toSnapshots s.toSnapshots.commit =
      ((Action.settle s s.commit).1, (Action.settle s s.commit).2.toSnapshots) := by
  obtain ⟨config, next, entries, journal⟩ := s
  match journal with
  | [] => rfl
  | [frame] => rfl
  | frame :: parent :: rest =>
    simp [commit, keepFrame, toSnapshots, Snapshots.commit, Action.settle, past, undo_append]

theorem settle_rollback (s : Store σ) :
    Action.settle s.toSnapshots s.toSnapshots.rollback =
      ((Action.settle s s.rollback).1, (Action.settle s s.rollback).2.toSnapshots) := by
  obtain ⟨config, next, entries, journal⟩ := s
  cases journal with
  | nil => rfl
  | cons frame rest => rfl

theorem toSnapshots_allocate {s : Store σ} (h : s.reachedLimit? = none) :
    s.toSnapshots.allocate = (s.fresh.1.map some, s.fresh.2.toSnapshots) := by
  unfold Snapshots.allocate fresh
  rw [exhausted?, h, Option.none_or]
  change (if maxCounter ≤ s.next then _ else _) = _
  by_cases hlt : s.next < maxCounter
  · rw [if_neg (Nat.not_le.mpr hlt), if_pos hlt]
    rfl
  · rw [if_pos (Nat.not_lt.mp hlt), if_neg hlt]
    rfl

theorem toSnapshots_fresh (s : Store σ) :
    s.toSnapshots.fresh = (s.fresh.1.map some, s.fresh.2.toSnapshots) := by
  unfold Snapshots.fresh
  change (match s.config.variableLimit with | none => _ | some limit => _) = _
  cases hlimit : s.config.variableLimit with
  | none => exact toSnapshots_allocate (by rw [reachedLimit?, hlimit, Option.filter_none])
  | some limit =>
    change (if limit ≤ s.next then _ else _) = _
    split
    · rename_i hle
      have hreached : s.reachedLimit? = some limit := by
        rw [reachedLimit?, hlimit, Option.filter_some, if_pos (decide_eq_true hle)]
      rw [fresh, exhausted?, hreached]
      rfl
    · rename_i hlt
      refine toSnapshots_allocate ?_
      rw [reachedLimit?, hlimit, Option.filter_some, if_neg (by simpa using hlt)]

theorem toSnapshots_update (s : Store σ) (v : Var) (f : Entry σ → Entry σ) :
    (s.update v f).toSnapshots = s.toSnapshots.set v (f (s.entry v)) := by
  obtain ⟨config, next, entries, journal⟩ := s
  cases journal with
  | nil => rfl
  | cons frame rest =>
    simp [update, save, toSnapshots, past, Snapshots.set, undo_insert, entry]

theorem toSnapshots_promote (s : Store σ) (v : Var) :
    (s.promote v).toSnapshots = (s.toSnapshots.act (.promote v)).2 := by
  have hrank : (s.entry v).promote.rank =
      if 255 ≤ (s.entry v).rank then (s.entry v).rank else (s.entry v).rank + 1 := by
    rw [Entry.promote, Entry.maxRank]
    split
    · rename_i hlt
      exact (if_neg (Nat.not_le.mpr hlt)).symm
    · rename_i hle
      exact (if_pos (Nat.not_lt.mp hle)).symm
  refine (toSnapshots_update s v _).trans ?_
  exact congrArg (fun rank ↦ s.toSnapshots.set v ⟨rank, s.binding v⟩) hrank

/-- An action on a store is the same action on the snapshots that its journal stands for. -/
theorem act_toSnapshots (a : Action σ) (s : Store σ) :
    s.toSnapshots.act a = ((s.act a).1, (s.act a).2.toSnapshots) := by
  cases a with
  | begin => rfl
  | commit => exact settle_commit s
  | rollback => exact settle_rollback s
  | fresh => exact toSnapshots_fresh s
  | bind v t => exact congrArg (Prod.mk _) (toSnapshots_update s v (.bind t)).symm
  | promote v => exact congrArg (Prod.mk _) (toSnapshots_promote s v).symm

theorem trace_toSnapshots (as : List (Action σ)) (s : Store σ) :
    Action.trace Snapshots.act as s.toSnapshots =
      (Action.trace act as s).map fun r ↦ (r.1, r.2.toSnapshots) := by
  induction as generalizing s with
  | nil => rfl
  | cons a as ih =>
    rw [Action.trace, Action.trace, act_toSnapshots, ih, List.map_cons]

@[simp]
theorem depth_update (s : Store σ) (v : Var) (f : Entry σ → Entry σ) :
    (s.update v f).depth = s.depth := by
  obtain ⟨config, next, entries, journal⟩ := s
  cases journal with
  | nil => rfl
  | cons frame rest => rfl

@[simp]
theorem depth_fresh (s : Store σ) : s.fresh.2.depth = s.depth := by
  unfold fresh
  split <;> rfl

@[simp]
theorem depth_closeFrame (keep : Bool) (s : Store σ) :
    (s.closeFrame keep).depth = s.depth - 1 := by
  obtain ⟨config, next, entries, journal⟩ := s
  match keep, journal with
  | true, [] => rfl
  | true, [frame] => rfl
  | true, frame :: parent :: rest => rfl
  | false, [] => rfl
  | false, frame :: rest => rfl

theorem act_commit (s : Store σ) : (s.act .commit).2 = s.closeFrame true := by
  obtain ⟨config, next, entries, journal⟩ := s
  cases journal with
  | nil => rfl
  | cons frame rest => rfl

theorem act_rollback (s : Store σ) : (s.act .rollback).2 = s.closeFrame false := by
  obtain ⟨config, next, entries, journal⟩ := s
  cases journal with
  | nil => rfl
  | cons frame rest => rfl

theorem rollback_eq_ok (h : 0 < s.depth) : s.rollback = .ok s.dropFrame := by
  unfold rollback
  rw [if_neg (by simpa [depth, List.length_pos_iff] using h)]

/-- A store with transactions open that `base` did not have: their frames lie on the journal of
`base`, and taking back their writes gives the entries of `base`. -/
structure RestsOn (base s : Store σ) (frames : List (List (Saved σ))) : Prop where
  journal : s.journal = frames ++ base.journal
  entries : undo s.entries frames.flatten = base.entries
  config : s.config = base.config
  next : base.next ≤ s.next

namespace RestsOn

variable {base s : Store σ} {frame parent : List (Saved σ)} {frames : List (List (Saved σ))}

theorem refl (base : Store σ) : base.RestsOn base [] := ⟨rfl, rfl, rfl, Nat.le_refl _⟩

theorem depth_eq (h : base.RestsOn s frames) : s.depth = frames.length + base.depth := by
  rw [depth, h.journal, List.length_append, depth]

theorem begin (h : base.RestsOn s frames) : base.RestsOn s.begin ([] :: frames) :=
  ⟨congrArg ([] :: ·) h.journal, h.entries, h.config, h.next⟩

theorem update (h : base.RestsOn s (frame :: frames)) (v : Var) (f : Entry σ → Entry σ) :
    base.RestsOn (s.update v f) ((⟨v.id, s.entries[v.id]?⟩ :: frame) :: frames) := by
  have hsave : s.save v = { s with
      journal := (⟨v.id, s.entries[v.id]?⟩ :: frame) :: (frames ++ base.journal) } := by
    rw [save, h.journal]
    rfl
  unfold Store.update
  rw [hsave]
  refine ⟨rfl, ?_, h.config, h.next⟩
  rw [List.flatten_cons, List.cons_append, undo_insert, ← List.flatten_cons]
  exact h.entries

theorem fresh (h : base.RestsOn s frames) : base.RestsOn s.fresh.2 frames := by
  unfold Store.fresh
  split
  · exact h
  · exact ⟨h.journal, h.entries, h.config, Nat.le_succ_of_le h.next⟩

theorem keepFrame (h : base.RestsOn s (frame :: parent :: frames)) :
    base.RestsOn s.keepFrame ((frame ++ parent) :: frames) := by
  unfold Store.keepFrame
  rw [h.journal]
  refine ⟨rfl, ?_, h.config, h.next⟩
  rw [List.flatten_cons, List.append_assoc, ← List.flatten_cons, ← List.flatten_cons]
  exact h.entries

theorem dropFrame (h : base.RestsOn s (frame :: frames)) : base.RestsOn s.dropFrame frames := by
  unfold Store.dropFrame
  rw [h.journal]
  refine ⟨rfl, ?_, h.config, h.next⟩
  change undo (undo s.entries frame) frames.flatten = base.entries
  rw [← undo_append]
  exact h.entries

end RestsOn

/-- The transaction that began when the store was `base` is still open. -/
def OpenSince (base s : Store σ) : Prop := ∃ frame frames, base.RestsOn s (frame :: frames)

namespace OpenSince

variable {base s : Store σ}

theorem begin_self (base : Store σ) : base.OpenSince base.begin := ⟨[], [], (RestsOn.refl base).begin⟩

theorem depth_lt (h : base.OpenSince s) : base.depth < s.depth := by
  obtain ⟨frame, frames, h⟩ := h
  rw [h.depth_eq, List.length_cons]
  omega

theorem update (h : base.OpenSince s) (v : Var) (f : Entry σ → Entry σ) :
    base.OpenSince (s.update v f) := by
  obtain ⟨frame, frames, h⟩ := h
  exact ⟨_, _, h.update v f⟩

theorem closeFrame (h : base.OpenSince s) (keep : Bool) (hd : base.depth + 1 < s.depth) :
    base.OpenSince (s.closeFrame keep) := by
  obtain ⟨frame, frames, h⟩ := h
  cases frames with
  | nil =>
    rw [h.depth_eq, List.length_singleton] at hd
    omega
  | cons parent frames =>
    cases keep with
    | true => exact ⟨_, _, h.keepFrame⟩
    | false => exact ⟨_, _, h.dropFrame⟩

theorem act (h : base.OpenSince s) (a : Action σ) (hd : base.depth < (s.act a).2.depth) :
    base.OpenSince (s.act a).2 := by
  cases a with
  | begin =>
    obtain ⟨frame, frames, h⟩ := h
    exact ⟨_, _, h.begin⟩
  | commit =>
    rw [act_commit, depth_closeFrame] at hd
    rw [act_commit]
    exact h.closeFrame true (by omega)
  | rollback =>
    rw [act_rollback, depth_closeFrame] at hd
    rw [act_rollback]
    exact h.closeFrame false (by omega)
  | fresh =>
    obtain ⟨frame, frames, h⟩ := h
    exact ⟨_, _, h.fresh⟩
  | bind v t => exact h.update v _
  | promote v => exact h.update v _

theorem run (as : List (Action σ)) (h : base.OpenSince s)
    (hd : ∀ r ∈ Action.trace Store.act as s, base.depth < r.2.depth) :
    base.OpenSince (Action.run Store.act as s) := by
  induction as generalizing s with
  | nil => exact h
  | cons a as ih =>
    rw [Action.trace, List.forall_mem_cons] at hd
    exact ih (h.act a hd.1) hd.2

theorem rollback (h : base.OpenSince s) (hd : s.depth = base.depth + 1) :
    ∃ t, s.rollback = .ok t ∧ t.entries = base.entries ∧ t.journal = base.journal ∧
      t.config = base.config ∧ t.next = s.next ∧ base.next ≤ t.next := by
  obtain ⟨frame, frames, h⟩ := h
  have hframes : frames = [] := by
    have hlen := h.depth_eq
    rw [List.length_cons] at hlen
    exact List.length_eq_zero_iff.mp (by omega)
  subst hframes
  have hnext : s.dropFrame.next = s.next := by
    unfold Store.dropFrame
    split <;> rfl
  have ht := h.dropFrame
  exact ⟨s.dropFrame, rollback_eq_ok (by omega), ht.entries, ht.journal, ht.config, hnext, ht.next⟩

end OpenSince

/-- The journal does what a stack of copies of the entries would do, whatever is called in whatever
order. In particular, a transaction that is taken back leaves the entries as they were when it
began, also if transactions inside it were committed. -/
theorem trace_refines_snapshots (config : Config) (as : List (Action σ)) :
    (Action.trace act as { config }).map
        (fun r ↦ (r.1, r.2.config, r.2.next, r.2.entries, r.2.depth)) =
      (Action.trace Snapshots.act as { config }).map
        (fun r ↦ (r.1, r.2.config, r.2.next, r.2.entries, r.2.saved.length)) ∧
    ∀ before body s u, as = before ++ .begin :: body ++ [.rollback] →
      s = Action.run act before { config } → u = Action.run act body s.begin →
      (∀ r ∈ Action.trace act body s.begin, s.depth < r.2.depth) → u.depth = s.depth + 1 →
      ∃ t, u.rollback = .ok t ∧ t = Action.run act as { config } ∧ t.entries = s.entries ∧
        t.depth = s.depth ∧ t.next = u.next ∧ s.next ≤ t.next := by
  constructor
  · have htrace := trace_toSnapshots as { config }
    change Action.trace Snapshots.act as { config } = _ at htrace
    rw [htrace, List.map_map]
    refine List.map_congr_left fun r _ ↦ ?_
    simp only [Function.comp_apply, toSnapshots, length_past, depth]
  · intro before body s u has hs hu hopen hdepth
    have h : s.OpenSince u := hu ▸ (OpenSince.begin_self s).run body hopen
    obtain ⟨t, ht, hentries, hjournal, -, hnext, hle⟩ := h.rollback hdepth
    refine ⟨t, ht, ?_, hentries, congrArg List.length hjournal, hnext, hle⟩
    have hact : (u.act .rollback).2 = t := by
      rw [act, ht]
      rfl
    rw [has, Action.run_append, Action.run_append, ← hs]
    change t = (act .rollback (Action.run act body s.begin)).2
    rw [← hu, hact]

theorem trace_refines_snapshots_nested :
    ∃ t, Store.rollback (Action.run act [.bind ⟨0⟩ (.var ⟨1⟩), .begin, .bind ⟨0⟩ (.var ⟨2⟩),
        .promote ⟨3⟩, .commit] (Store.begin (Action.run act [.fresh, .bind ⟨0⟩ (.node (.int 5) [])]
          (default : Store Symbol)))) = .ok t ∧
      t.entries = (Action.run act [.fresh, .bind ⟨0⟩ (.node (.int 5) [])]
        (default : Store Symbol)).entries := by
  have h := (trace_refines_snapshots (σ := Symbol) {} ([.fresh, .bind ⟨0⟩ (.node (.int 5) [])] ++
    .begin :: [.bind ⟨0⟩ (.var ⟨1⟩), .begin, .bind ⟨0⟩ (.var ⟨2⟩), .promote ⟨3⟩, .commit] ++
    [.rollback])).2 _ _ _ _ rfl rfl rfl (by decide) rfl
  obtain ⟨t, ht, -, hentries, -⟩ := h
  exact ⟨t, ht, hentries⟩

end Store

end Unification
