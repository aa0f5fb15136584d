import Unification.Session.Command
import Unification.Store.Transaction

namespace Unification

variable {σ ε : Type}

structure Session (σ : Type) where
  backing : Backing := .standard
  machine : Metered (Store σ) := ⟨{}, none⟩
  saved : List (String × Metered (Store σ)) := []

namespace Session

def store (s : Session σ) : Store σ := s.machine.store

def setStore (s : Session σ) (t : Store σ) : Session σ :=
  { s with machine := { s.machine with store := t } }

def allocate : Nat → Value σ → Script σ ε (Value σ)
  | 0, last => return last
  | n + 1, _ => do
    let v ← Script.fresh
    allocate n (.var v)

def promoteTimes (v : Var) : Nat → Script σ ε (Value σ)
  | 0 => return .nothing
  | n + 1 => do
    Script.promote v
    promoteTimes v n

def promoteBind (v : Var) (t : Term σ) : Script σ ε (Value σ) := do
  Script.promote v
  Script.assign v t
  return .nothing

/-- A session over a new store with the first variables allocated, as many as the limit allows. -/
def start (backing : Backing) (config : Config) (vars : Nat) : Session σ :=
  { backing, machine := ((allocate vars .nothing).run ⟨{ config }, none⟩).2 }

def quiet (s : Session σ) (reply : Reply σ) : Step σ (Reply σ) × Session σ :=
  (⟨reply, s.store, [], []⟩, s)

/-- Runs a script. A call made on its own fails with the error of the store as it is. -/
def exec (s : Session σ) (direct : Bool) (m : Script σ (Metered.Error Refusal) (Value σ)) :
    Step σ (Reply σ) × Session σ :=
  let (outcome, machine) := m.run s.machine
  let reply := match outcome with
    | .ok a => .value a
    | .error (.store e) => .fault (if direct then .refused e else .failed (.store e))
    | .error (.clash c) => .fault (.failed (.clash c))
    | .unfinished => .fault .unfinished
  (⟨reply, machine.store, m.events s.machine, m.requests s.machine⟩, { s with machine })

def transact (s : Session σ) (e : Event σ) (result : Except Refusal (Store σ)) :
    Step σ (Reply σ) × Session σ :=
  if s.backing = .unbounded then s.quiet (.fault .unsupported)
  else
    match result with
    | .error e => s.quiet (.fault (.refused (.store e)))
    | .ok t => (⟨.value .nothing, t, [e], []⟩, s.setStore t)

def restore (s : Session σ) (machine : Metered (Store σ)) : Step σ (Reply σ) × Session σ :=
  { s with machine }.quiet (.value .nothing)

def closeAtomic (outer inner : Session σ) (cause : Option Cause)
    (steps : List (Step σ (Reply σ))) : Step σ (Reply σ) × Session σ :=
  let t := inner.store.closeTo outer.store.depth cause.isNone
  (⟨.atomic cause steps, t, [.began (outer.store.depth + 1), .closed cause.isNone], []⟩,
    inner.setStore t)

end Session

variable [DecidableEq σ]

mutual

def Command.run : Command σ → Session σ → Step σ (Reply σ) × Session σ
  | .fresh times, s => s.exec true (Session.allocate times .nothing)
  | .bind v t, s => s.exec true ((fun _ ↦ .nothing) <$> Script.assign v t)
  | .lookup v, s => s.exec true ((fun t ↦ t.elim .nothing .term) <$> Script.lookup v)
  | .entry v, s => s.exec true (.entry <$> Script.rank v)
  | .rank v, s => s.quiet (.value (.number (s.store.rank v)))
  | .promote v times, s => s.exec true (Session.promoteTimes v times)
  | .newVar t, s => s.exec true (.var <$> Script.newVar t)
  | .promoteBind v t, s => s.exec true (Session.promoteBind v t)
  | .begin, s => s.transact (.began (s.store.depth + 1)) (.ok s.store.begin)
  | .commit, s => s.transact (.committed s.store.frameSize) s.store.commit
  | .rollback, s => s.transact (.rolledBack s.store.frameSize) s.store.rollback
  | .atomically body abort, s =>
    if s.backing ≠ .standard then s.quiet (.fault .unsupported)
    else
      let (steps, cause, t) := Command.runUntilFault body (s.setStore s.store.begin)
      s.closeAtomic t (cause.or (if abort then some .aborted else none)) steps
  | .summary, s => s.quiet (.value (.summary s.store))
  | .snapshot name, s =>
    { s with saved := (name, s.machine) :: s.saved }.quiet (.value .nothing)
  | .unchanged name, s =>
    match List.lookup name s.saved with
    | none => s.quiet (.fault .malformed)
    | some m => s.quiet (.value (.bool (m.store = s.store)))
  | .restore name, s =>
    match List.lookup name s.saved with
    | none => s.quiet (.fault .malformed)
    | some m => s.restore m
  | .setFuel fuel, s =>
    if s.backing = .metered then
      { s with machine := { s.machine with fuel } }.quiet (.value .nothing)
    else s.quiet (.fault .unsupported)
  | .operation op, s => s.exec false (op.script (op.fuel s.store.weight))
  | .malformed, s => s.quiet (.fault .malformed)

def Command.runUntilFault :
    List (Command σ) → Session σ → List (Step σ (Reply σ)) × Option Cause × Session σ
  | [], s => ([], none, s)
  | c :: cs, s =>
    let (step, s) := c.run s
    match step.reply.cause? with
    | some cause => ([step], some cause, s)
    | none =>
      let (steps, cause, s) := Command.runUntilFault cs s
      (step :: steps, cause, s)

end

def Session.runAll : List (Command σ) → Session σ → List (Step σ (Reply σ)) × Session σ
  | [], s => ([], s)
  | c :: cs, s =>
    let (step, s) := c.run s
    let (steps, s) := Session.runAll cs s
    (step :: steps, s)

end Unification
