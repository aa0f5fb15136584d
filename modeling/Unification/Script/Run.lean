import Unification.Script.Basic

namespace Unification

variable {σ ε S α : Type}

/-- Something that answers the calls of a script. A refused call may still have changed it. -/
class Backend (σ ε : outParam Type) (S : Type) where
  perform : (r : Request σ) → S → Except ε r.Answer × S
  events : Request σ → S → List (Event σ)

namespace Script

variable [Backend σ ε S]

def run : Script σ ε α → S → Outcome σ ε α × S
  | .pure a, s => (.ok a, s)
  | .fail e, s => (.error e, s)
  | .unfinished, s => (.unfinished, s)
  | .note _ next, s => next.run s
  | .call r next, s =>
    let (a, s) := Backend.perform r s
    (next a).run s

def andThen {β : Type} (next : α → S → Outcome σ ε β × S) :
    Outcome σ ε α × S → Outcome σ ε β × S
  | (.ok a, s) => next a s
  | (.error e, s) => (.error e, s)
  | (.unfinished, s) => (.unfinished, s)

theorem run_bind {β : Type} (m : Script σ ε α) (f : α → Script σ ε β) (s : S) :
    (m >>= f).run s = andThen (fun a ↦ (f a).run) (m.run s) := by
  change (m.bind f).run s = _
  induction m generalizing s with
  | pure _ | fail _ | unfinished => rfl
  | note e next ih => exact ih s
  | call r next ih => exact ih _ _

def requests : Script σ ε α → S → List (Request σ)
  | .pure _, _ | .fail _, _ | .unfinished, _ => []
  | .note _ next, s => next.requests s
  | .call r next, s =>
    let (a, s) := Backend.perform r s
    r :: (next a).requests s

def events : Script σ ε α → S → List (Event σ)
  | .pure _, _ | .fail _, _ | .unfinished, _ => []
  | .note e next, s => e :: next.events s
  | .call r next, s =>
    let (a, s') := Backend.perform r s
    Backend.events r s ++ (next a).events s'

end Script

namespace Store

def perform : (r : Request σ) → Store σ → Except Refusal r.Answer × Store σ
  | .lookup v, s => (.ok (s.binding v), s)
  | .fresh, s => s.fresh
  | .bind v t, s => (.ok (), s.bind v t)
  | .rank v, s => (.ok (s.entry v), s)
  | .promote v, s => (.ok (), s.promote v)

def events : Request σ → Store σ → List (Event σ)
  | .lookup _, _ | .rank _, _ => []
  | .fresh, s => s.reachedLimit?.toList.map .exhausted
  | .bind v t, s => .bound v t :: if (s.binding v).isSome then [.rebound v] else []
  | .promote v, s => [.promoted v (s.promote v |>.rank v)]

instance : Backend σ Refusal (Store σ) where
  perform := perform
  events := events

end Store

end Unification
