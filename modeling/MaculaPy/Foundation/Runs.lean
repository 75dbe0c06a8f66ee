import Mathlib.Data.List.Basic
import Mathlib.Logic.Relation

/-! # Guarded runs of a partial transition function

A system is a partial function `step` from a state and an action; a guard says in
which states an action is admitted. Safety of every run is reduced once to one
initial fact and one preservation fact, and an executed list of actions is a run.
-/
namespace MaculaPy.Runs
variable {S A : Type*}

/-- A finite run, every step of which the guard admits in the state before it. -/
inductive Run (step : S → A → Option S) (ok : S → A → Prop) : S → List A → S → Prop
  | refl (s : S) : Run step ok s [] s
  | step {s t u : S} {a : A} {as : List A} (hok : ok s a) (he : step s a = some t)
      (hr : Run step ok t as u) : Run step ok s (a :: as) u

/-- The guard that admits every action. -/
def free : S → A → Prop := fun _ _ => True

/-- Some admitted run leads from `init` to `s`. -/
def Reachable (step : S → A → Option S) (ok : S → A → Prop) (init s : S) : Prop :=
  ∃ as, Run step ok init as s

/-- The state a list of actions leads to, when each of them is enabled. -/
def exec (step : S → A → Option S) : S → List A → Option S
  | s, [] => some s
  | s, a :: as => (step s a).bind (fun t => exec step t as)

/-- The system that takes only the steps a guard admits. -/
def guarded (step : S → A → Option S) (ok : S → A → Bool) (s : S) (a : A) : Option S :=
  if ok s a then step s a else none

variable {step : S → A → Option S} {ok : S → A → Prop}

theorem Run.single {s t : S} {a : A} (hok : ok s a) (he : step s a = some t) :
    Run step ok s [a] t := .step hok he (.refl t)

theorem Run.trans {s t u : S} {as bs : List A} (h : Run step ok s as t)
    (h' : Run step ok t bs u) : Run step ok s (as ++ bs) u := by
  induction h with
  | refl => exact h'
  | step hok he _ ih => exact .step hok he (ih h')

/-- What holds at the start and survives each admitted step holds at the end. -/
theorem Run.invariant {P : S → Prop}
    (hstep : ∀ s a t, P s → ok s a → step s a = some t → P t)
    {s t : S} {as : List A} (h : Run step ok s as t) (hs : P s) : P t := by
  induction h with
  | refl => exact hs
  | step hok he _ ih => exact ih (hstep _ _ _ hs hok he)

theorem Run.mono {ok' : S → A → Prop} (hok : ∀ s a, ok s a → ok' s a) {s t : S} {as : List A}
    (h : Run step ok s as t) : Run step ok' s as t := by
  induction h with
  | refl => exact .refl _
  | step ha he _ ih => exact .step (hok _ _ ha) he ih

theorem Reachable.refl (s : S) : Reachable step ok s s := ⟨[],.refl s⟩

theorem Reachable.tail {s t u : S} {a : A} (h : Reachable step ok s t) (hok : ok t a)
    (he : step t a = some u) : Reachable step ok s u := by
  obtain ⟨as,hr⟩ := h
  exact ⟨as ++ [a],hr.trans (.single hok he)⟩

theorem Reachable.trans {s t u : S} (h : Reachable step ok s t) (h' : Reachable step ok t u) :
    Reachable step ok s u := by
  obtain ⟨as,hr⟩ := h
  obtain ⟨bs,hr'⟩ := h'
  exact ⟨as ++ bs,hr.trans hr'⟩

theorem Reachable.mono {ok' : S → A → Prop} (hok : ∀ s a, ok s a → ok' s a) {s t : S}
    (h : Reachable step ok s t) : Reachable step ok' s t := by
  obtain ⟨as,hr⟩ := h
  exact ⟨as,hr.mono hok⟩

/-- The induction rule for reachable states: the step may use that the state before
it is reachable. -/
theorem Reachable.induct {P : S → Prop} {init : S} (h0 : P init)
    (hstep : ∀ s a t, Reachable step ok init s → P s → ok s a → step s a = some t → P t)
    {s : S} (h : Reachable step ok init s) : P s := by
  obtain ⟨as,hr⟩ := h
  refine (hr.invariant (P := fun s => Reachable step ok init s ∧ P s) ?_ ⟨.refl init,h0⟩).2
  rintro s a t ⟨hs,hp⟩ hok he
  exact ⟨hs.tail hok he,hstep s a t hs hp hok he⟩

/-- An executed list of actions is a run. -/
theorem Run.of_exec {s t : S} {as : List A} (he : exec step s as = some t) :
    Run step free s as t := by
  induction as generalizing s with
  | nil =>
    cases he
    exact .refl _
  | cons a as ih =>
    obtain ⟨u,hu,he⟩ := Option.bind_eq_some_iff.mp he
    exact .step trivial hu (ih he)

theorem Reachable.of_exec {s t : S} (as : List A) (he : exec step s as = some t) :
    Reachable step free s t := ⟨as,.of_exec he⟩

/-- An executed list of actions that the guard admits in any state is a guarded run. -/
theorem Reachable.of_exec_of_forall {s t : S} (as : List A) (he : exec step s as = some t)
    (hok : ∀ a ∈ as, ∀ u, ok u a) : Reachable step ok s t := by
  induction as generalizing s with
  | nil =>
    cases he
    exact .refl _
  | cons a as ih =>
    obtain ⟨u,hu,he⟩ := Option.bind_eq_some_iff.mp he
    obtain ⟨bs,hb⟩ := ih he (fun b hb => hok b (List.mem_cons_of_mem a hb))
    exact ⟨a :: bs,.step (hok a List.mem_cons_self s) hu hb⟩

theorem Run.of_guarded {ok : S → A → Bool} {s t : S} {as : List A}
    (h : Run (guarded step ok) free s as t) : Run step (fun s a => ok s a = true) s as t := by
  induction h with
  | refl => exact .refl _
  | step _ he _ ih =>
    unfold guarded at he
    split at he
    · next hok => exact .step hok he ih
    · cases he

/-- An executed list of actions, each of which the guard admits, is a guarded run. -/
theorem Reachable.of_guarded {ok : S → A → Bool} {s t : S} (as : List A)
    (he : exec (guarded step ok) s as = some t) :
    Reachable step (fun s a => ok s a = true) s t := ⟨as,.of_guarded (.of_exec he)⟩

end MaculaPy.Runs
