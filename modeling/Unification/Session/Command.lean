import Unification.Operation
import Unification.Store.Metered

namespace Unification

variable {σ : Type}

/-- The kinds of store a session can work on: one with transactions and a limit, one that never
refuses a variable and has no transactions, and one that meters its calls. -/
inductive Backing where
  | standard
  | unbounded
  | metered
deriving DecidableEq, Repr

inductive Command (σ : Type) where
  | fresh (times : Nat)
  | bind (v : Var) (t : Term σ)
  | lookup (v : Var)
  | entry (v : Var)
  | rank (v : Var)
  | promote (v : Var) (times : Nat)
  | newVar (t : Term σ)
  | promoteBind (v : Var) (t : Term σ)
  | begin
  | commit
  | rollback
  | atomically (body : List (Command σ)) (abort : Bool)
  | summary
  | snapshot (name : String)
  | unchanged (name : String)
  | restore (name : String)
  | setFuel (fuel : Option Nat)
  | operation (op : Operation σ)
  | malformed

inductive Fault (σ : Type) where
  | malformed
  | unsupported
  | refused (e : Metered.Error Refusal)
  | failed (e : Failure σ (Metered.Error Refusal))
  | unfinished

/-- The kind of a fault, which is all that an atomic section passes on. -/
inductive Cause where
  | malformed
  | unsupported
  | exhausted
  | noTransaction
  | outOfFuel
  | occursIn
  | mismatch
  | store
  | unfinished
  | aborted
deriving DecidableEq, Repr

def Fault.cause : Fault σ → Cause
  | .malformed => .malformed
  | .unsupported => .unsupported
  | .refused .outOfFuel => .outOfFuel
  | .refused (.store (.exhausted _)) => .exhausted
  | .refused (.store .noTransaction) => .noTransaction
  | .failed (.clash (.occursIn _ _)) => .occursIn
  | .failed (.clash (.mismatch _ _)) => .mismatch
  | .failed (.store _) => .store
  | .unfinished => .unfinished

structure Step (σ ρ : Type) where
  reply : ρ
  store : Store σ
  events : List (Event σ)
  requests : List (Request σ)

inductive Reply (σ : Type) where
  | value (a : Value σ)
  | fault (e : Fault σ)
  | atomic (cause : Option Cause) (steps : List (Step σ (Reply σ)))

def Reply.cause? : Reply σ → Option Cause
  | .value _ => none
  | .fault e => some e.cause
  | .atomic cause _ => cause

end Unification
