import MaculaPy.Foundation.Runs

/-! # Simulation

A system simulates another when each step of the first is matched by a few steps of the
second, which a map of the actions names. Then every run of the first has a run of the second
beside it, and what every run of the second keeps can be read off the first.
-/
namespace MaculaPy.Runs
variable {S T A B : Type*}

/-- Related states stay related: a step is matched by the actions that `label` gives for it. -/
structure Simulation (step : S → A → Option S) (ok : S → A → Prop) (step' : T → B → Option T)
    (label : S → A → List B) (R : S → T → Prop) : Prop where
  matched : ∀ s a s' t, R s t → ok s a → step s a = some s' →
    ∃ t', exec step' t (label s a) = some t' ∧ R s' t'

variable {step : S → A → Option S} {ok : S → A → Prop} {step' : T → B → Option T}
  {label : S → A → List B} {R : S → T → Prop}

theorem exec_append {s : S} {as bs : List A} :
    exec step s (as ++ bs) = (exec step s as).bind fun t => exec step t bs := by
  induction as generalizing s with
  | nil => rfl
  | cons a as ih =>
    rw [List.cons_append,exec,exec]
    cases step s a with
    | none => rfl
    | some u => exact ih

/-- Beside every run there is one of the other system. -/
theorem Simulation.run (h : Simulation step ok step' label R) {s s' : S} {as : List A} {t : T}
    (hr : Run step ok s as s') (hR : R s t) : ∃ bs t', exec step' t bs = some t' ∧ R s' t' := by
  induction hr generalizing t with
  | refl s => exact ⟨[],t,rfl,hR⟩
  | @step s u v a as hok he hr ih =>
    obtain ⟨t1,h1,hR1⟩ := h.matched s a u t hR hok he
    obtain ⟨bs,t2,h2,hR2⟩ := ih hR1
    refine ⟨label s a ++ bs,t2,?_,hR2⟩
    rw [exec_append,h1]
    exact h2

theorem Simulation.reachable (h : Simulation step ok step' label R) {s s' : S} {t : T}
    (hr : Reachable step ok s s') (hR : R s t) : ∃ t', Reachable step' free t t' ∧ R s' t' := by
  obtain ⟨as,hr⟩ := hr
  obtain ⟨bs,t',he,hR'⟩ := h.run hr hR
  exact ⟨t',.of_exec bs he,hR'⟩

end MaculaPy.Runs
