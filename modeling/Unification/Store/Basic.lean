import Std.Data.ExtTreeMap
import Unification.Term.Basic
import Unification.Store.Config

namespace Unification

variable {σ : Type}

/-- What a store keeps for a variable. The rank is meant to bound the length of the chains of
variables that end here; it says nothing about the bound term. -/
structure Entry (σ : Type) where
  rank : Nat := 0
  binding : Option (Term σ) := none
deriving DecidableEq, Repr, Inhabited

namespace Entry

def maxRank : Nat := 255

def bind (t : Term σ) (e : Entry σ) : Entry σ := { e with binding := some t }

def promote (e : Entry σ) : Entry σ :=
  { e with rank := if e.rank < maxRank then e.rank + 1 else e.rank }

def weight (e : Entry σ) : Nat := 1 + (e.binding.elim 0 Term.size)

end Entry

structure Saved (σ : Type) where
  id : Nat
  previous : Option (Entry σ)
deriving DecidableEq, Repr

/-- The entries of the variables that were ever bound or promoted, a counter for the next
identifier, and a journal of what the open transactions overwrote. The innermost transaction comes
first, and in each of them the newest write. -/
structure Store (σ : Type) where
  config : Config := {}
  next : Nat := 0
  entries : Std.ExtTreeMap Nat (Entry σ) := ∅
  journal : List (List (Saved σ)) := []

namespace Store

instance : Inhabited (Store σ) := ⟨{}⟩

instance [DecidableEq σ] : DecidableEq (Store σ) := fun s t ↦
  decidable_of_iff
    (s.config = t.config ∧ s.next = t.next ∧ s.entries = t.entries ∧ s.journal = t.journal)
    (by cases s; cases t; simp)

def entry (s : Store σ) (v : Var) : Entry σ := s.entries[v.id]?.getD {}

def binding (s : Store σ) (v : Var) : Option (Term σ) := (s.entry v).binding

def rank (s : Store σ) (v : Var) : Nat := (s.entry v).rank

def depth (s : Store σ) : Nat := s.journal.length

def boundCount (s : Store σ) : Nat :=
  (s.entries.toList.filter fun e ↦ e.2.binding.isSome).length

def touched (s : Store σ) : List (Nat × Entry σ) :=
  s.entries.toList.filter fun e ↦ e.2.rank ≠ 0 ∨ e.2.binding.isSome

def weight (s : Store σ) : Nat := s.entries.toList.foldr (fun e n ↦ e.2.weight + n) 0

def save (s : Store σ) (v : Var) : Store σ :=
  match s.journal with
  | [] => s
  | frame :: rest => { s with journal := (⟨v.id, s.entries[v.id]?⟩ :: frame) :: rest }

def update (s : Store σ) (v : Var) (f : Entry σ → Entry σ) : Store σ :=
  { s.save v with entries := s.entries.insert v.id (f (s.entry v)) }

@[simp]
theorem entry_update (s : Store σ) (v w : Var) (f : Entry σ → Entry σ) :
    (s.update v f).entry w = if w = v then f (s.entry v) else s.entry w := by
  cases v
  cases w
  simp only [update, entry, Std.ExtTreeMap.getElem?_insert, Nat.compare_eq_eq, Var.mk.injEq]
  grind

def bind (s : Store σ) (v : Var) (t : Term σ) : Store σ := s.update v (Entry.bind t)

def promote (s : Store σ) (v : Var) : Store σ := s.update v Entry.promote

/-- The counter is a word of 64 bits, and stops here. -/
def maxCounter : Nat := 0xFFFFFFFFFFFFFFFF

def reachedLimit? (s : Store σ) : Option Nat :=
  s.config.variableLimit.filter (· ≤ s.next)

/-- What forbids a further variable, if anything does. A counter that cannot grow counts only where
the limit of the configuration is not reached before. -/
def exhausted? (s : Store σ) : Option Nat :=
  s.reachedLimit?.or (if s.next < maxCounter then none else some maxCounter)

/-- Hands out the next identifier. What an unallocated variable was bound to stays bound. -/
def fresh (s : Store σ) : Except Refusal Var × Store σ :=
  match s.exhausted? with
  | some limit => (.error (.exhausted limit), s)
  | none => (.ok ⟨s.next⟩, { s with next := s.next + 1 })

end Store

end Unification
