import Mathlib.Data.List.Range
import Unification.Proofs.Termination
import Unification.Proofs.Transaction.Atomic
import Unification.Proofs.Transaction.Closed

namespace Unification

open Script Contract Term

variable {σ α : Type} {s s' t : Store σ} {u : Term σ} {v : Var} {n fuel : ℕ} {memo : Memo σ}

namespace Store

def handout (s : Store σ) : Request σ → List (Var × Store σ)
  | .fresh => match s.fresh with
    | (.ok v, t) => [(v, t)]
    | (.error _, _) => []
  | _ => []

end Store

namespace Script

def handouts : Script σ Refusal α → Store σ → List (Var × Store σ)
  | .pure _, _ | .fail _, _ | .unfinished, _ => []
  | .note _ next, s => next.handouts s
  | .call r next, s =>
    let (a, t) := Store.perform r s
    s.handout r ++ (next a).handouts t

end Script

namespace Store

/-- What is handed out between two stores are the next identifiers, none of them in use. -/
structure Issues (s : Store σ) (out : List (Var × Store σ)) (t : Store σ) : Prop where
  closed : t.Closed
  config : t.config = s.config
  next : t.next = s.next + out.length
  ids : out.map (fun p ↦ p.1.id) = List.range' s.next out.length
  untouched : ∀ p ∈ out, p.2.entry p.1 = {}
  limit : s.next ≤ s.config.capacity → t.next ≤ s.config.capacity

namespace Issues

variable {out out' : List (Var × Store σ)} {r : Store σ}

theorem nothing (ht : t.Closed) (hconfig : t.config = s.config) (hnext : t.next = s.next) :
    s.Issues [] t :=
  ⟨ht, hconfig, hnext, rfl, nofun, fun hl ↦ hnext ▸ hl⟩

theorem trans (h : s.Issues out t) (h' : t.Issues out' r) : s.Issues (out ++ out') r := by
  refine ⟨h'.closed, h'.config.trans h.config, ?_, ?_, fun p hp ↦ ?_, fun hle ↦ ?_⟩
  · rw [h'.next, h.next, List.length_append, Nat.add_assoc]
  · rw [List.map_append, h.ids, h'.ids, h.next, List.length_append, List.range'_append_1]
  · rcases List.mem_append.mp hp with hp | hp
    · exact h.untouched p hp
    · exact h'.untouched p hp
  · exact h.config ▸ h'.limit (h.config ▸ h.limit hle)

theorem update {f : Entry σ → Entry σ} (hs : s.Closed) (hv : v.id < s.next)
    (hf : (f (s.entry v)).Below s.next) : s.Issues [] (s.update v f) :=
  nothing (hs.update hv hf) (s.config_update v f) (s.next_update v f)

theorem fresh (hs : s.Closed) : s.Issues (s.handout .fresh) s.fresh.2 := by
  have hclosed := hs.fresh
  unfold Store.fresh at hclosed
  unfold handout Store.fresh
  cases hlimit : s.exhausted? with
  | some l => exact nothing hs rfl rfl
  | none =>
    rw [hlimit] at hclosed
    refine ⟨hclosed, rfl, rfl, rfl, fun p hp ↦ ?_, fun _ ↦ exhausted?_eq_none.mp hlimit⟩
    rw [List.mem_singleton.mp hp]
    exact hs.contained.entry_of_le (v := ⟨s.next⟩) le_rfl

end Issues

end Store

namespace Contract

/-- The runs that mention only variables which are allocated by then. -/
def allocated : Contract σ where
  bind s v t := v.id < s.next ∧ t.Below s.next
  promote s v := v.id < s.next
  fresh _ := True
  failed _ _ := True
  unfinished := True

theorem issues_perform {r : Request σ} (hs : s.Closed) (hr : allocated.Permits s r) :
    s.Issues (s.handout r) (Store.perform r s).2 := by
  cases r with
  | lookup v => exact .nothing hs rfl rfl
  | rank v => exact .nothing hs rfl rfl
  | fresh => exact .fresh hs
  | bind v u =>
    refine .update hs hr.1 fun u' hu' ↦ ?_
    obtain rfl := Option.some.inj hu'
    exact hr.2
  | promote v => exact .update hs hr fun u hu ↦ hs.contained.entry_below v u hu

theorem issues_run {m : Script σ Refusal α} {post : α → Store σ → Prop} (h : m.Meets allocated post s)
    (hs : s.Closed) : s.Issues (m.handouts s) (m.run s).2 := by
  induction m generalizing s with
  | pure a => exact .nothing hs rfl rfl
  | fail e => exact .nothing hs rfl rfl
  | unfinished => exact .nothing hs rfl rfl
  | note e next ih => exact ih h hs
  | call r next ih =>
    obtain ⟨hr, hnext⟩ := meets_call.mp h
    have hstep := issues_perform hs hr
    exact hstep.trans (ih _ hnext hstep.closed)

theorem Leads.closed (h : allocated.Leads s s') (hs : s.Closed) : s'.Closed :=
  h.invariant hs fun _ _ hs hr ↦ (issues_perform hs hr).closed

theorem meets_allocated_of_confined {V : Finset Var} {D : ℕ} {m : Script σ Refusal α}
    {post : α → Store σ → Prop} (h : m.Meets (confined V D) post s) (hV : ∀ v ∈ V, v.id < s.next) :
    m.Meets allocated post s := by
  -- Nothing is allocated on the way, so a variable of `V` stays below the same counter.
  refine h.weaken_of_invariant (I := fun s' ↦ s'.next = s.next) rfl (fun r s' hs' hr ↦ ?_)
    (fun s' r hs' hr ↦ ?_) (fun _ _ h ↦ h) nofun
  · cases r with
    | lookup w => exact hs'
    | rank w => exact hs'
    | fresh => exact hr.elim
    | bind w u => exact (s'.next_update w _).trans hs'
    | promote w => exact (s'.next_update w _).trans hs'
  · cases r with
    | lookup w => exact trivial
    | rank w => exact trivial
    | fresh => exact trivial
    | bind w u =>
      exact ⟨(hV w hr.1).trans_eq hs'.symm, fun x hx ↦ (hV x (hr.2.1 x hx)).trans_eq hs'.symm⟩
    | promote w => exact (hV w hr).trans_eq hs'.symm

end Contract

section Allocated

variable {w : Walk σ}

theorem Walk.Follows.allocated (hw : w.Follows s v) (hs : s.Closed) (hv : v.id < s.next) :
    w.root.id < s.next ∧ ∀ p ∈ w.passed, p.id < s.next :=
  hw.stays (fun _ _ _ hl ↦ Term.below_var.mp (hs.contained.below_of_binding hl)) hv

theorem Walk.meets_shorten_allocated (hw : w.Follows s v) (hs : s.Closed) (hv : v.id < s.next) :
    w.shorten.Meets allocated (fun _ _ ↦ True) s := by
  obtain ⟨hroot, hpassed⟩ := hw.allocated hs hv
  have hI : w.shorten.Meets allocated (fun _ s' ↦ s'.next = s.next) s := by
    refine meets_each (fun p hp s' hs' ↦ meets_bind.mpr (meets_log.mpr ?_)) rfl
    refine meets_assign.mpr ⟨⟨?_, ?_⟩, (s'.next_update p _).trans hs'⟩
    · exact (hpassed p (List.dropLast_subset _ hp)).trans_eq hs'.symm
    · exact (Term.below_var.mpr hroot).mono hs'.ge
  exact hI.mono fun _ _ _ _ ↦ trivial

def Head.Below (n : ℕ) : Head σ → Prop
  | .free v => v.id < n
  | .shape _ layer => layer.toTerm.Below n

theorem Walk.Follows.head_below (hw : w.Follows s v) (hs : s.Closed) (hv : v.id < s.next) :
    w.head.Below s.next := by
  have hb := hw.binding_root
  unfold Walk.head
  cases hl : w.value with
  | none => exact (hw.allocated hs hv).1
  | some layer =>
    rw [hl, Option.map_some] at hb
    exact hs.contained.below_of_binding hb

theorem Head.Below.mono {m : ℕ} {h : Head σ} (hh : h.Below n) (hle : n ≤ m) : h.Below m := by
  cases h with
  | free v => exact hh.trans_le hle
  | shape via layer => exact Term.Below.mono hh hle

theorem meets_find_allocated (hs : s.Closed) (hu : u.Below s.next) :
    (find fuel u).Meets allocated (fun h s' ↦ h.Below s'.next) s := by
  cases u with
  | node f args => exact hu
  | var v =>
    have hv := Term.below_var.mp hu
    refine meets_bind.mpr (Walk.meets_chase (fun w hw ↦ ?_) (fun _ _ _ ↦ trivial) nofun
      (.inl trivial))
    refine meets_bind.mpr ((Walk.meets_shorten_allocated hw hs hv).mono fun _ s' hlead _ ↦ ?_)
    exact (hw.head_below hs hv).mono hlead.next_le

theorem meets_fresh_allocated (s : Store σ) :
    Script.fresh.Meets allocated (fun v s' ↦ (var v : Term σ).Below s'.next) s :=
  meets_fresh trivial (fun _ _ ↦ trivial) fun _ ↦ Term.below_var.mpr (Nat.lt_succ_self _)

theorem meets_newVar_allocated (hu : u.Below s.next) :
    (Script.newVar u).Meets allocated (fun v s' ↦ (var v : Term σ).Below s'.next) s := by
  refine meets_bind.mpr ((meets_fresh_allocated s).mono fun v s₁ hlead hv ↦ meets_bind.mpr ?_)
  refine meets_assign.mpr ⟨⟨Term.below_var.mp hv, hu.mono hlead.next_le⟩, ?_⟩
  exact hv.mono (s₁.next_update v _).ge

theorem meets_promoteBind_allocated (hv : v.id < s.next) (hu : u.Below s.next) :
    (Session.promoteBind v u).Meets allocated (fun _ _ ↦ True) s := by
  have hle : s.next ≤ (s.promote v).next := (s.next_update v _).ge
  refine meets_bind.mpr (meets_promote.mpr ⟨hv, meets_bind.mpr (meets_assign.mpr ⟨?_, trivial⟩)⟩)
  exact ⟨hv.trans_le hle, hu.mono hle⟩

def Memo.Below (n : ℕ) (memo : Memo σ) : Prop :=
  ∀ v u, List.lookup v memo = some (.done u) → u.Below n

namespace Memo.Below

theorem nil (n : ℕ) : Memo.Below n ([] : Memo σ) := nofun

theorem mono {m : ℕ} (h : memo.Below n) (hle : n ≤ m) : memo.Below m :=
  fun v u hu ↦ (h v u hu).mono hle

theorem start (h : memo.Below n) (v : Var) : Memo.Below n ((v, .started) :: memo) := by
  intro x u hx
  rw [lookup_cons] at hx
  split at hx
  · cases hx
  · exact h x u hx

theorem finish (h : memo.Below n) (v : Var) (hu : u.Below n) :
    Memo.Below n ((v, .done u) :: memo) := by
  intro x r hx
  rw [lookup_cons] at hx
  split at hx
  · obtain rfl : u = r := by simpa using hx
    exact hu
  · exact h x r hx

end Memo.Below

theorem meets_mapState_allocated {f : Memo σ → Term σ → Script σ Refusal (Term σ × Memo σ)}
    {ts : List (Term σ)} (hs : s.Closed) (hts : ∀ t ∈ ts, t.Below s.next) (hm : memo.Below s.next)
    (hf : ∀ t (memo : Memo σ) (s : Store σ), s.Closed → t.Below s.next → memo.Below s.next →
      (f memo t).Meets allocated (fun r s' ↦ r.1.Below s'.next ∧ r.2.Below s'.next) s) :
    (mapState f memo ts).Meets allocated
      (fun r s' ↦ (∀ u ∈ r.1, u.Below s'.next) ∧ r.2.Below s'.next) s := by
  have hI : (mapState f memo ts).Meets allocated
      (fun r s' ↦ (s'.Closed ∧ s.next ≤ s'.next ∧ r.2.Below s'.next) ∧
        ∀ u ∈ r.1, u.Below s'.next) s := by
    refine meets_mapState_forall
      (I := fun (memo : Memo σ) s' ↦ s'.Closed ∧ s.next ≤ s'.next ∧ memo.Below s'.next)
      (R := fun s' (u : Term σ) ↦ u.Below s'.next) (fun t ht memo s₁ ⟨hs₁, hle, hm⟩ ↦ ?_)
      (fun u s₁ s₂ hlead hu ↦ hu.mono hlead.next_le) ⟨hs, le_rfl, hm⟩
    refine (hf t memo s₁ hs₁ ((hts t ht).mono hle) hm).mono fun r s₂ hlead ⟨hr, hm'⟩ ↦ ?_
    exact ⟨⟨hlead.closed hs₁, hle.trans hlead.next_le, hm'⟩, hr⟩
  exact hI.mono fun r s' _ ⟨⟨_, _, hm⟩, hus⟩ ↦ ⟨hus, hm⟩

theorem meets_renameWith_allocated (hs : s.Closed) (hu : u.Below s.next) (hm : memo.Below s.next) :
    (renameWith fuel n memo u).Meets allocated
      (fun r s' ↦ r.1.Below s'.next ∧ r.2.Below s'.next) s := by
  induction n generalizing memo u s with
  | zero => exact trivial
  | succ n ih =>
    have hlayer : ∀ (layer : Layer σ (Term σ)) (memo : Memo σ) (s : Store σ), s.Closed →
        layer.toTerm.Below s.next → memo.Below s.next →
        (layer.mapMemo (renameWith fuel n) memo).Meets allocated
          (fun r s' ↦ r.1.Below s'.next ∧ r.2.Below s'.next) s := by
      intro layer memo s hs hl hm
      refine meets_bind.mpr ((meets_mapState_allocated hs (fun t ht ↦ hl.slot ht) hm
        fun t memo s hs ht hm ↦ ih hs ht hm).mono fun r s' _ ⟨hr, hm'⟩ ↦ ?_)
      exact ⟨.node hr, hm'⟩
    refine meets_bind.mpr ((meets_find_allocated hs hu).mono fun head s₁ hlead hhead ↦ ?_)
    have hs₁ := hlead.closed hs
    have hm₁ := hm.mono hlead.next_le
    match head with
    | .shape none layer => exact hlayer layer memo s₁ hs₁ hhead hm₁
    | .free v =>
      dsimp only
      match hv : List.lookup v memo with
      | some (.done r) => exact ⟨hm₁ v r hv, hm₁⟩
      | some .started => exact trivial
      | none =>
        refine meets_bind.mpr ((meets_fresh_allocated s₁).mono fun x s₂ hlead hx ↦ ?_)
        exact ⟨hx, (hm₁.mono hlead.next_le).finish v hx⟩
    | .shape (some v) layer =>
      dsimp only
      match hv : List.lookup v memo with
      | some (.done r) => exact ⟨hm₁ v r hv, hm₁⟩
      | some .started => exact trivial
      | none =>
        refine meets_bind.mpr ((hlayer layer _ s₁ hs₁ hhead (hm₁.start v)).mono
          fun r s₂ _ ⟨hr, hm₂⟩ ↦ meets_bind.mpr ?_)
        refine (meets_newVar_allocated hr).mono fun x s₃ hlead hx ↦ ?_
        exact ⟨hx, (hm₂.mono hlead.next_le).finish v hx⟩

theorem meets_renameApart_allocated (hs : s.Closed) (hu : u.Below s.next) :
    (renameApart fuel u).Meets allocated (fun _ _ ↦ True) s :=
  meets_bind.mpr ((meets_renameWith_allocated hs hu (.nil _)).mono fun _ _ _ _ ↦ trivial)

theorem meets_renameApartAll_allocated {ts : List (Term σ)} (hs : s.Closed)
    (hts : ∀ t ∈ ts, t.Below s.next) :
    (renameApartAll fuel ts).Meets allocated (fun _ _ ↦ True) s := by
  have hcopies := meets_mapState_allocated (f := renameWith fuel fuel) hs hts (.nil _)
    fun _ _ _ hs ht hm ↦ meets_renameWith_allocated hs ht hm
  exact meets_bind.mpr (hcopies.mono fun _ _ _ _ ↦ trivial)

end Allocated

namespace Operation

variable [DecidableEq σ]

theorem meets_script_allocated (op : Operation σ) (hs : s.Closed)
    (hop : ∀ t ∈ op.terms, t.Below s.next) :
    (op.script (op.fuel s.weight)).Meets allocated (fun _ _ ↦ True) s := by
  have hkeeps : op.allocates = false →
      (op.script (op.fuel s.weight)).Meets allocated (fun _ _ ↦ True) s := by
    intro hkeep
    obtain ⟨V, hcard, hwithin, hterms, hreach⟩ := s.exists_within op.terms
    rw [sizeList_terms] at hcard hwithin hterms
    have hfuel := op.lt_fuel le_rfl hcard
    refine meets_allocated_of_confined (meets_script_confined hkeep hwithin hterms
      (Nat.le_add_left _ _) hfuel) fun v hv ↦ ?_
    obtain ⟨t, ht, htv⟩ := hreach v hv
    exact hs.contained.id_lt_of_reaches (hop t ht) htv
  cases op with
  | renameApart t => exact (meets_renameApart_allocated hs (hop t List.mem_cons_self)).map _
  | renameApartAll ts => exact (meets_renameApartAll_allocated hs hop).map _
  | _ => exact hkeeps rfl

end Operation

inductive Call (σ : Type) where
  | act (a : Action σ)
  | newVar (t : Term σ)
  | promoteBind (v : Var) (t : Term σ)
  | operation (op : Operation σ)

namespace Call

def terms : Call σ → List (Term σ)
  | .act (.bind v t) | .promoteBind v t => [var v, t]
  | .act (.promote v) => [var v]
  | .act .begin | .act .commit | .act .rollback | .act .fresh => []
  | .newVar t => [t]
  | .operation op => op.terms

variable [DecidableEq σ]

def run (s : Store σ) : Call σ → Store σ
  | .act a => (s.act a).2
  | .newVar t => ((Script.newVar t).run s).2
  | .promoteBind v t => ((Session.promoteBind v t).run s).2
  | .operation op => (op.run s).2

def handouts (s : Store σ) : Call σ → List (Var × Store σ)
  | .act .fresh => s.handout .fresh
  | .act .begin | .act .commit | .act .rollback | .act (.bind _ _) | .act (.promote _) => []
  | .newVar t => (Script.newVar t).handouts s
  | .promoteBind v t => (Session.promoteBind v t).handouts s
  | .operation op => (op.script (op.fuel s.weight)).handouts s

theorem issues {c : Call σ} (hs : s.Closed) (hc : ∀ t ∈ c.terms, t.Below s.next) :
    s.Issues (c.handouts s) (c.run s) := by
  cases c with
  | act a =>
    cases a with
    | begin => exact .nothing hs.begin rfl rfl
    | commit =>
      rw [run, Store.act_commit]
      exact .nothing (hs.closeFrame true) (s.config_closeFrame true) (s.next_closeFrame true)
    | rollback =>
      rw [run, Store.act_rollback]
      exact .nothing (hs.closeFrame false) (s.config_closeFrame false) (s.next_closeFrame false)
    | fresh => exact .fresh hs
    | bind v t =>
      have hv := below_var.mp (hc (var v) List.mem_cons_self)
      exact issues_perform (r := .bind v t) hs ⟨hv, hc t (by simp [terms])⟩
    | promote v =>
      exact issues_perform (r := .promote v) hs (below_var.mp (hc (var v) List.mem_cons_self))
  | newVar t => exact issues_run (meets_newVar_allocated (hc t List.mem_cons_self)) hs
  | promoteBind v t =>
    have hv := below_var.mp (hc (var v) List.mem_cons_self)
    exact issues_run (meets_promoteBind_allocated hv (hc t (by simp [terms]))) hs
  | operation op => exact issues_run (op.meets_script_allocated hs hc) hs

end Call

namespace Store

variable {out out' : List (Var × Store σ)} {r : Store σ} {ε : Type}

theorem Issues.nodup (h : s.Issues out t) : (out.map Prod.fst).Nodup := by
  refine List.Nodup.of_map Var.id ?_
  rw [List.map_map]
  exact h.ids ▸ List.nodup_range'

theorem Issues.closeFrames (keep : Bool) (k : ℕ) (h : s.Issues out t) :
    s.Issues out (closeFrames keep k t) := by
  induction k generalizing t with
  | zero => exact h
  | succ k ih =>
    have hclose : t.Issues [] (t.closeFrame keep) :=
      .nothing (h.closed.closeFrame keep) (t.config_closeFrame keep) (t.next_closeFrame keep)
    exact ih (List.append_nil out ▸ h.trans hclose)

variable [DecidableEq σ]

/-- A store is reached from another one by calls and atomic sections, one after another, that
mention allocated variables only. The list holds the variables that are handed out on the way,
each with the store right after. -/
inductive Dealings : Store σ → List (Var × Store σ) → Store σ → Prop
  | start (s : Store σ) : Dealings s [] s
  | call {s t : Store σ} {out : List (Var × Store σ)} (c : Call σ) :
      Dealings s out t → (∀ u ∈ c.terms, u.Below t.next) →
      Dealings s (out ++ c.handouts t) (c.run t)
  | atomically {ε α : Type} {s t : Store σ} {out out' : List (Var × Store σ)}
      (f : Store σ → Except ε α × Store σ) :
      Dealings s out t → Dealings t.begin out' (f t.begin).2 →
      Dealings s (out ++ out') (t.atomically f).2

namespace Dealings

theorem trans (h : Dealings s out t) (h' : Dealings t out' r) : Dealings s (out ++ out') r := by
  induction h' with
  | start t => rwa [List.append_nil]
  | call c _ hc ih => exact List.append_assoc .. ▸ .call c (ih h) hc
  | atomically f _ hf ih _ => exact List.append_assoc .. ▸ .atomically f (ih h) hf

/-- What is reached inside an atomic section is also reached by calls, of which one opens a
transaction. -/
theorem inside (h : Dealings s out t) (h' : Dealings t.begin out' r) :
    Dealings s (out ++ out') r := by
  have hbegin : Dealings s (out ++ []) t.begin := h.call (.act .begin) nofun
  rw [List.append_nil] at hbegin
  exact hbegin.trans h'

/-- An atomic section is given up or kept, but what it handed out is never handed out again. -/
theorem issues (h : Dealings s out t) (hs : s.Closed) : s.Issues out t := by
  induction h with
  | start s => exact .nothing hs rfl rfl
  | call c _ hc ih => exact (ih hs).trans (c.issues (ih hs).closed hc)
  | @atomically ε α s t out out' f _ _ ih ihf =>
    have ht := ih hs
    have hbegin : t.Issues [] t.begin := .nothing ht.closed.begin rfl rfl
    have hbody : t.Issues out' (f t.begin).2 := hbegin.trans (ihf ht.closed.begin)
    exact ht.trans (hbody.closeFrames _ _)

end Dealings

/-- Identifiers are fresh, never used again and within the limit, whatever becomes of the calls and
of the transactions around them. -/
theorem dealings_allocate_once {config : Config} (h : Dealings { config } out t) :
    t.Closed ∧ (out.map Prod.fst).Nodup ∧
      (∀ p ∈ out, p.2.binding p.1 = none ∧ p.2.rank p.1 = 0) ∧ t.next = out.length ∧
      (∀ l, config.variableLimit = some l → t.next ≤ l) ∧ t.next ≤ maxCounter ∧
      ∀ e, t.fresh.1 = .error e → t.fresh.2 = t := by
  have hissues := h.issues (.new config)
  have hroom := hissues.limit (Nat.zero_le _)
  refine ⟨hissues.closed, hissues.nodup, fun p hp ↦ ?_, ?_,
    fun l hl ↦ hroom.trans (Config.capacity_le_limit hl),
    hroom.trans config.capacity_le_maxCounter, fun e he ↦ ?_⟩
  · rw [binding, rank, hissues.untouched p hp]
    exact ⟨rfl, rfl⟩
  · rw [hissues.next]
    exact Nat.zero_add _
  · unfold fresh at he ⊢
    split at he
    · rfl
    · cases he

def paired : Store Symbol :=
  (Call.newVar (.node (.fn "f") [.var ⟨0⟩])).run ((Call.act .fresh).run { config := ⟨some 5⟩ })

def abandonCopy (t : Term Symbol) (s : Store Symbol) : Except Unit Unit × Store Symbol :=
  (.error (), (Call.operation (.renameApart t)).run s)

theorem dealings_allocate_once_abandoned :
    ∃ (out : List (Var × Store Symbol)) (t : Store Symbol),
      Dealings { config := ⟨some 5⟩ } out t ∧
      t = (Call.act .fresh).run (paired.atomically (abandonCopy (.var ⟨1⟩))).2 ∧
      out.map Prod.fst = [⟨0⟩, ⟨1⟩, ⟨2⟩, ⟨3⟩, ⟨4⟩] ∧
      t.binding ⟨3⟩ = none ∧ t.fresh.1 = .error (.exhausted 5) ∧
      t.Closed ∧ (out.map Prod.fst).Nodup ∧
      (∀ p ∈ out, p.2.binding p.1 = none ∧ p.2.rank p.1 = 0) ∧ t.next = out.length ∧
      t.next ≤ 5 ∧ t.next ≤ maxCounter ∧ t.fresh.2 = t := by
  have hnew : ∀ u ∈ (Call.newVar (.node (.fn "f") [.var ⟨0⟩]) : Call Symbol).terms, u.Below 1 := by
    simp [Call.terms, Below]
  have hcopy : ∀ u ∈ (Call.operation (.renameApart (.var ⟨1⟩)) : Call Symbol).terms, u.Below 2 := by
    simp [Call.terms, Operation.terms, Below]
  have hpaired : Dealings { config := ⟨some 5⟩ } _ paired :=
    ((Dealings.start _).call (.act .fresh) (List.forall_mem_nil _)).call _ hnew
  have hbody : Dealings paired.begin _ (abandonCopy (.var ⟨1⟩) paired.begin).2 :=
    .call (.operation (.renameApart (.var ⟨1⟩))) (.start _) hcopy
  have hrun := (hpaired.atomically _ hbody).call (.act .fresh) (List.forall_mem_nil _)
  obtain ⟨hclosed, hnodup, hfree, hnext, hlimit, hcount, hsame⟩ := dealings_allocate_once hrun
  exact ⟨_, _, hrun, rfl, rfl, rfl, rfl, hclosed, hnodup, hfree, hnext, hlimit 5 rfl, hcount,
    hsame _ rfl⟩

end Store

end Unification
