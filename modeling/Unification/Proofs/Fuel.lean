import Unification.Proofs.Congruence
import Unification.Proofs.Contract

namespace Unification

variable {σ ε ε' S α β : Type}

namespace Script

/-- The first script is the second one, cut short in some places where it ran out of fuel. The stores
that they are meant for may have different errors: both end with the error of a refused call, and do
nothing after it. -/
inductive Approximates : Script σ ε α → Script σ ε' α → Prop
  | unfinished (m : Script σ ε' α) : Approximates .unfinished m
  | pure (a : α) : Approximates (.pure a) (.pure a)
  | clash (c : Clash σ) : Approximates (.fail (.clash c)) (.fail (.clash c))
  | note (e : Event σ) {m : Script σ ε α} {m' : Script σ ε' α} : Approximates m m' →
      Approximates (.note e m) (.note e m')
  | call (r : Request σ) {f : Except ε r.Answer → Script σ ε α}
      {f' : Except ε' r.Answer → Script σ ε' α} :
      (∀ a, Approximates (f (.ok a)) (f' (.ok a))) →
      (∀ e, f (.error e) = .fail (.store e)) → (∀ e, f' (.error e) = .fail (.store e)) →
      Approximates (.call r f) (.call r f')

namespace Approximates

theorem bind {m : Script σ ε α} {m' : Script σ ε' α} {f : α → Script σ ε β}
    {f' : α → Script σ ε' β} (h : m.Approximates m') (hf : ∀ a, (f a).Approximates (f' a)) :
    (m >>= f).Approximates (m' >>= f') := by
  induction h with
  | unfinished m => exact .unfinished _
  | pure a => exact hf a
  | clash c => exact .clash c
  | note e _ ih => exact .note e ih
  | call r _ he he' ih =>
    exact .call r ih (fun e ↦ congrArg (Script.bind · f) (he e))
      fun e ↦ congrArg (Script.bind · f') (he' e)

theorem congruence :
    Congruence fun α (m : Script σ ε α) (m' : Script σ ε' α) ↦ m.Approximates m' where
  pure := .pure
  abort e c := .note e (.clash c)
  log e := .note e (.pure ())
  call r := .call r .pure (fun _ ↦ rfl) fun _ ↦ rfl
  unfinished := .unfinished
  bind := .bind

theorem run_eq [Backend σ ε S] {m m' : Script σ ε α} (h : m.Approximates m') {s : S}
    (hs : (m.run s).1 ≠ .unfinished) : m'.run s = m.run s := by
  induction h generalizing s with
  | unfinished m => exact absurd rfl hs
  | pure a => rfl
  | clash c => rfl
  | note e _ ih => exact ih hs
  | call r _ he he' ih =>
    simp only [run] at hs ⊢
    rcases hp : Backend.perform r s with ⟨e | a, s'⟩
    · rw [he, he']
    · rw [hp] at hs
      exact ih a hs

theorem clash_of_error {m m' : Script σ Refusal α} (hm : m.Approximates m') {K : Contract σ}
    {post : α → Store σ → Prop} {s : Store σ} (h : m.Meets K post s) (hK : ∀ s, ¬ K.fresh s)
    {e : Failure σ Refusal} (he : (m.run s).1 = .error e) : ∃ c, e = .clash c := by
  induction hm generalizing s with
  | unfinished m' | pure a => cases he
  | clash c =>
    cases he
    exact ⟨c, rfl⟩
  | note e _ ih => exact ih h he
  | call r _ _ _ ih =>
    obtain ⟨hr, hnext⟩ := meets_call.mp h
    cases r with
    | fresh => exact absurd hr (hK s)
    | lookup v => exact ih _ hnext he
    | bind v t => exact ih _ hnext he
    | rank v => exact ih _ hnext he
    | promote v => exact ih _ hnext he

end Approximates

end Script

namespace Operation

theorem script_approximates [DecidableEq σ] (op : Operation σ) {fuel fuel' : ℕ} (h : fuel ≤ fuel') :
    (op.script fuel : Script σ ε _).Approximates (op.script fuel' : Script σ ε' _) :=
  op.script_congr Script.Approximates.congruence h

theorem lt_fuel (op : Operation σ) {weight m c : ℕ} (hm : m ≤ weight + op.weight) (hc : c ≤ m) :
    m + 2 * (c * (m + 1)) < op.fuel weight := by
  have hmul : c * (m + 1) ≤ m * (m + 1) := Nat.mul_le_mul_right (m + 1) hc
  rw [fuel]
  calc m + 2 * (c * (m + 1))
      < 2 * ((m + 1) * (m + 1)) := by rw [Nat.succ_mul m]; omega
    _ ≤ 2 * (m + 1) * (2 * (m + 1)) := by
      rw [Nat.mul_assoc 2]
      exact Nat.mul_le_mul_left 2 (Nat.mul_le_mul_left (m + 1) (by omega))
    _ ≤ 2 * (weight + op.weight + 1) * (2 * (weight + op.weight + 1)) :=
      Nat.mul_le_mul (by omega) (by omega)
    _ ≤ 2 * (weight + op.weight + 1) * (2 * (weight + op.weight + 1)) *
        (2 * (weight + op.weight + 1)) := Nat.le_mul_of_pos_right _ (by omega)

end Operation

end Unification
