import Unification.Layer
import Unification.Mode

namespace Unification

inductive Level where
  | trace
  | debug
deriving DecidableEq, Repr

inductive Event (σ : Type) where
  | unifying (mode : Mode) (left right : Term σ)
  | mismatch (left right : Layer σ (Term σ))
  | refused (v : Var) (t : Term σ)
  | promoting (v : Var)
  | linking (v root : Var)
  | shortened (link root : Var)
  | collapsed (link : Var)
  | looped (v : Var)
  | reentered (v : Var)
  | cyclic (v : Var)
  | renamed (v copy : Var)
  | bound (v : Var) (t : Term σ)
  | rebound (v : Var)
  | promoted (v : Var) (rank : Nat)
  | exhausted (limit : Nat)
  | began (depth : Nat)
  | committed (writes : Nat)
  | rolledBack (writes : Nat)
  | closed (kept : Bool)

def Event.level {σ : Type} : Event σ → Level
  | .unifying _ _ _ | .promoting _ | .linking _ _ | .shortened _ _ | .collapsed _
  | .renamed _ _ | .bound _ _ | .rebound _ | .promoted _ _ => .trace
  | .mismatch _ _ | .refused _ _ | .looped _ | .reentered _ | .cyclic _ | .exhausted _
  | .began _ | .committed _ | .rolledBack _ | .closed _ => .debug

end Unification
