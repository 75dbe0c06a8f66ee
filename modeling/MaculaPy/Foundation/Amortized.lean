import MaculaPy.Foundation.Runs

/-! # Amortized runs

A potential is kept beside the state: an action may spend of it, and may earn. However the
actions are interleaved, a run spends no more than it began with and earned.
-/
namespace MaculaPy.Runs
variable {S A : Type*} {step : S → A → Option S} {ok : S → A → Prop}

/-- What a list of actions costs together. -/
def total (f : A → ℕ) : List A → ℕ
  | [] => 0
  | a :: as => f a + total f as

structure Amortized (step : S → A → Option S) (spends earns : A → ℕ) (holds : S → ℕ → Prop) :
    Prop where
  paid : ∀ s a t n, holds s n → step s a = some t → ∃ m, holds t m ∧ m + spends a ≤ n + earns a

theorem Amortized.run {spends earns : A → ℕ} {holds : S → ℕ → Prop}
    (h : Amortized step spends earns holds) {s t : S} {as : List A} (hr : Run step ok s as t)
    {n : ℕ} (hn : holds s n) :
    ∃ m, holds t m ∧ m + total spends as ≤ n + total earns as := by
  induction hr generalizing n with
  | refl s => exact ⟨n,hn,Nat.le_refl n⟩
  | @step s u v a as _ he _ ih =>
    obtain ⟨m,hm,hle⟩ := h.paid s a u n hn he
    obtain ⟨k,hk,hle'⟩ := ih hm
    refine ⟨k,hk,?_⟩
    rw [total,total]
    omega

end MaculaPy.Runs
