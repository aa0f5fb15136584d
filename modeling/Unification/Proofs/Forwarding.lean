import Unification.Proofs.Fuel
import Unification.Store.Metered
import Unification.Symbol

namespace Unification

variable {σ ε ε' S M α : Type}

def Outcome.mapStore (f : ε → ε') : Outcome σ ε α → Outcome σ ε' α
  | .ok a => .ok a
  | .error (.clash c) => .error (.clash c)
  | .error (.store e) => .error (.store (f e))
  | .unfinished => .unfinished

def Backend.performAll [Backend σ ε S] (s : S) (calls : List (Request σ)) : S :=
  calls.foldl (fun s r ↦ (Backend.perform r s).2) s

/-- A wrapper that passes so many calls on to the store inside and fails every later one with `e`,
without a change. -/
structure Wrapper (σ ε S M : Type) {ε' : Type} [Backend σ ε S] [Backend σ ε' M] (e : ε') where
  wrap : ℕ → S → M
  forward : ε → ε'
  perform_zero : ∀ (r : Request σ) (s : S), Backend.perform r (wrap 0 s) = (.error e, wrap 0 s)
  perform_succ : ∀ (r : Request σ) (n : ℕ) (s : S), Backend.perform r (wrap (n + 1) s) =
    ((Backend.perform r s).1.mapError forward, wrap n (Backend.perform r s).2)

namespace Script

/-- Two scripts for stores with different errors that do the same: they make the same calls and go on
alike, and a refused call ends both at once with the error that it was refused with. -/
inductive Forwards : Script σ ε α → Script σ ε' α → Prop
  | pure (a : α) : Forwards (.pure a) (.pure a)
  | clash (c : Clash σ) : Forwards (.fail (.clash c)) (.fail (.clash c))
  | unfinished : Forwards .unfinished .unfinished
  | note (e : Event σ) {m : Script σ ε α} {m' : Script σ ε' α} : Forwards m m' →
      Forwards (.note e m) (.note e m')
  | call (r : Request σ) {f : Except ε r.Answer → Script σ ε α}
      {f' : Except ε' r.Answer → Script σ ε' α} :
      (∀ a, Forwards (f (.ok a)) (f' (.ok a))) →
      (∀ e, f (.error e) = .fail (.store e)) → (∀ e, f' (.error e) = .fail (.store e)) →
      Forwards (.call r f) (.call r f')

theorem Approximates.forwards {m : Script σ ε α} {m' : Script σ ε' α} (h : m.Approximates m')
    (h' : m'.Approximates m) : m.Forwards m' := by
  induction h with
  | unfinished m' =>
    cases h'
    exact .unfinished
  | pure a => exact .pure a
  | clash c => exact .clash c
  | note e _ ih =>
    cases h' with
    | note _ h' => exact .note e (ih h')
  | call r _ he he' ih =>
    cases h' with
    | call _ h' _ _ => exact .call r (fun a ↦ ih a (h' a)) he he'

namespace Forwards

variable [Backend σ ε S] [Backend σ ε' M] {e : ε'} {m : Script σ ε' α} {m' : Script σ ε α} {k : ℕ}
  {s : S}

theorem requests_wrap (W : Wrapper σ ε S M e) (h : m.Forwards m') (k : ℕ) (s : S) :
    m.requests (W.wrap k s) = (m'.requests s).take (k + 1) := by
  induction h generalizing k s with
  | pure a | clash c | unfinished => rfl
  | note e _ ih => exact ih k s
  | call r _ he he' ih =>
    cases k with
    | zero =>
      simp only [requests, W.perform_zero, he, List.take_succ_cons, List.take_zero]
    | succ k =>
      simp only [requests, W.perform_succ, List.take_succ_cons]
      rcases Backend.perform r s with ⟨e | a, s'⟩
      · rw [Except.mapError, he, he']
        rfl
      · exact congrArg (r :: ·) (ih a k s')

theorem run_wrap_of_le (W : Wrapper σ ε S M e) (h : m.Forwards m')
    (hk : (m'.requests s).length ≤ k) :
    m.run (W.wrap k s) =
      ((m'.run s).1.mapStore W.forward, W.wrap (k - (m'.requests s).length) (m'.run s).2) := by
  induction h generalizing k s with
  | pure a | clash c | unfinished => rfl
  | note e _ ih => exact ih hk
  | call r _ he he' ih =>
    cases k with
    | zero => simp [requests] at hk
    | succ k =>
      simp only [requests, List.length_cons, Nat.add_le_add_iff_right] at hk
      simp only [run, requests, W.perform_succ, List.length_cons, Nat.add_sub_add_right]
      rcases hp : Backend.perform r s with ⟨e | a, s'⟩
      · rw [Except.mapError, he, he']
        rfl
      · rw [hp] at hk
        exact ih a hk

theorem run_wrap_of_lt (W : Wrapper σ ε S M e) (h : m.Forwards m')
    (hk : k < (m'.requests s).length) :
    m.run (W.wrap k s) =
      (.error (.store e), W.wrap 0 (Backend.performAll s ((m'.requests s).take k))) := by
  induction h generalizing k s with
  | pure a | clash c | unfinished => exact absurd hk (Nat.not_lt_zero k)
  | note e _ ih => exact ih hk
  | call r _ he he' ih =>
    cases k with
    | zero =>
      simp only [run, W.perform_zero, he]
      rfl
    | succ k =>
      simp only [requests, List.length_cons, Nat.add_lt_add_iff_right] at hk
      simp only [run, requests, W.perform_succ, List.take_succ_cons]
      rcases hp : Backend.perform r s with ⟨e | a, s'⟩
      · rw [hp, he'] at hk
        exact absurd hk (Nat.not_lt_zero k)
      · rw [hp] at hk
        refine (ih a hk).trans ?_
        rw [Backend.performAll, Backend.performAll, List.foldl_cons, hp]

end Forwards

end Script

def Metered.wrapper [Backend σ ε S] : Wrapper σ ε S (Metered S) (Error.outOfFuel (ε := ε)) where
  wrap k s := ⟨s, some k⟩
  forward := .store
  perform_zero _ _ := rfl
  perform_succ r n s := by
    change forward r s (some n) = _
    unfold forward
    rcases Backend.perform r s with ⟨_ | a, s'⟩ <;> rfl

namespace Operation

variable [DecidableEq σ]

def calls (op : Operation σ) (s : Store σ) : List (Request σ) :=
  (op.script (op.fuel s.weight)).requests s

theorem script_forwards (op : Operation σ) (fuel : ℕ) :
    (op.script fuel : Script σ ε _).Forwards (op.script fuel : Script σ ε' _) :=
  (op.script_approximates le_rfl).forwards (op.script_approximates le_rfl)

variable [Backend σ ε M] {e : ε}

/-- A store that fails after `k` calls stops an operation that needs more of them, at once: there is
one failing call, its error is the result, and nothing else is done. An operation that needs no
more calls does not notice. -/
theorem run_wrap (W : Wrapper σ Refusal (Store σ) M e) (op : Operation σ) (k : ℕ) (s : Store σ) :
    let script : Script σ ε (Value σ) := op.script (op.fuel s.weight)
    let calls := op.calls s
    if calls.length ≤ k then
      script.run (W.wrap k s) =
          ((op.run s).1.mapStore W.forward, W.wrap (k - calls.length) (op.run s).2) ∧
        script.requests (W.wrap k s) = calls
    else
      script.run (W.wrap k s) =
          (.error (.store e), W.wrap 0 (Backend.performAll s (calls.take k))) ∧
        ∃ r, script.requests (W.wrap k s) = calls.take k ++ [r] := by
  intro script calls
  have hforwards : script.Forwards (op.script (op.fuel s.weight) : Script σ Refusal _) :=
    op.script_forwards _
  have hrequests : script.requests (W.wrap k s) = calls.take (k + 1) :=
    hforwards.requests_wrap W k s
  split
  · rename_i hle
    refine ⟨hforwards.run_wrap_of_le W hle, ?_⟩
    rw [hrequests, List.take_of_length_le (Nat.le_succ_of_le hle)]
  · rename_i hlt
    have hk : k < calls.length := Nat.lt_of_not_le hlt
    refine ⟨hforwards.run_wrap_of_lt W hk, calls[k], ?_⟩
    rw [hrequests, List.take_add_one, List.getElem?_eq_getElem hk, Option.toList_some]

theorem run_wrap_promoted :
    let op : Operation Symbol := .unify ⟨.ranked, false⟩ (.var ⟨0⟩) (.var ⟨1⟩)
    let script : Script Symbol (Metered.Error Refusal) (Value Symbol) :=
      op.script (op.fuel ({} : Store Symbol).weight)
    script.run (⟨{}, some 5⟩ : Metered (Store Symbol)) =
        (.error (.store .outOfFuel), ⟨Store.promote {} ⟨0⟩, some 0⟩) ∧
      ∃ r, script.requests (⟨{}, some 5⟩ : Metered (Store Symbol)) =
        [.lookup ⟨0⟩, .lookup ⟨1⟩, .rank ⟨0⟩, .rank ⟨1⟩, .promote ⟨0⟩] ++ [r] :=
  run_wrap Metered.wrapper (.unify ⟨.ranked, false⟩ (.var ⟨0⟩) (.var ⟨1⟩)) 5 {}

end Operation

end Unification
