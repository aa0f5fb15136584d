import Unification.Store.Basic

namespace Unification.Store

variable {σ α ε : Type}

def begin (s : Store σ) : Store σ := { s with journal := [] :: s.journal }

def undo (entries : Std.ExtTreeMap Nat (Entry σ)) (frame : List (Saved σ)) :
    Std.ExtTreeMap Nat (Entry σ) :=
  frame.foldl (fun m w ↦ match w.previous with
    | some e => m.insert w.id e
    | none => m.erase w.id) entries

def keepFrame (s : Store σ) : Store σ :=
  match s.journal with
  | [] => s
  | [_] => { s with journal := [] }
  | frame :: parent :: rest => { s with journal := (frame ++ parent) :: rest }

def dropFrame (s : Store σ) : Store σ :=
  match s.journal with
  | [] => s
  | frame :: rest => { s with entries := undo s.entries frame, journal := rest }

def commit (s : Store σ) : Except Refusal (Store σ) :=
  if s.journal.isEmpty then .error .noTransaction else .ok s.keepFrame

/-- Restores every entry written since the innermost transaction began. The counter stays. -/
def rollback (s : Store σ) : Except Refusal (Store σ) :=
  if s.journal.isEmpty then .error .noTransaction else .ok s.dropFrame

def frameSize (s : Store σ) : Nat := (s.journal.headD []).length

def closeFrame (keep : Bool) (s : Store σ) : Store σ := if keep then s.keepFrame else s.dropFrame

def closeFrames (keep : Bool) : Nat → Store σ → Store σ
  | 0, s => s
  | n + 1, s => closeFrames keep n (closeFrame keep s)

def closeTo (depth : Nat) (keep : Bool) (s : Store σ) : Store σ :=
  closeFrames keep (s.depth - depth) s

/-- Runs `f` in a transaction of its own, which is kept if `f` succeeds and taken back if it
fails, together with every transaction that `f` left open. -/
def atomically (s : Store σ) (f : Store σ → Except ε α × Store σ) : Except ε α × Store σ :=
  let (result, t) := f s.begin
  (result, t.closeTo s.depth result.isOk)

end Unification.Store
