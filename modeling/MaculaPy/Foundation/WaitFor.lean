import Mathlib.Logic.Function.Basic
import Mathlib.Logic.Relation

/-! # Which task waits for which

A table gives, for each task, the tasks it waits for; a task reaches another that it waits
for, directly or through others. What a task itself waits for has no say in which tasks
reach it.
-/
namespace MaculaPy.WaitFor
open Relation
variable {T : Type*}

/-- `x` is `y`, or waits for it, directly or through other tasks. -/
def Reaches (awaits : T → List T) : T → T → Prop := ReflTransGen (fun a b => b ∈ awaits a)

variable {awaits awaits' : T → List T} {x y t : T}

theorem Reaches.refl (awaits : T → List T) (x : T) : Reaches awaits x x := ReflTransGen.refl

theorem Reaches.step (h : y ∈ awaits x) (ht : Reaches awaits y t) : Reaches awaits x t :=
  ReflTransGen.head h ht

/-- A task that waits for none reaches itself alone. -/
theorem Reaches.of_none (h : Reaches awaits x t) (hx : awaits x = []) : x = t := by
  rcases ReflTransGen.cases_head h with rfl | ⟨y,hy,_⟩
  · rfl
  · rw [hx] at hy
    cases hy

/-- A task is reached the same in two tables that differ in what it waits for itself. -/
theorem Reaches.of_agree (hs : ∀ a, a ≠ t → ∀ b ∈ awaits' a, b ∈ awaits a)
    (h : Reaches awaits' x t) : Reaches awaits x t := by
  induction h using ReflTransGen.head_induction_on with
  | refl => exact .refl _ _
  | @head a b hab _ ih =>
    by_cases ha : a = t
    · rw [ha]
      exact .refl _ _
    · exact .step (hs a ha b hab) ih

variable [DecidableEq T]

/-- When `x` comes to wait for `ys`, a task that reaches another did so before, or reaches `x`
and one of `ys` reaches the other. -/
theorem Reaches.of_update {a : T} {ys : List T} (h : Reaches (Function.update awaits x ys) a t) :
    Reaches awaits a t ∨ Reaches awaits a x ∧ ∃ y ∈ ys, Reaches awaits y t := by
  induction h using ReflTransGen.head_induction_on with
  | refl => exact Or.inl (.refl _ _)
  | @head a b hab _ ih =>
    by_cases ha : a = x
    · subst ha
      rw [Function.update_self] at hab
      rcases ih with h | ⟨_,h⟩
      · exact Or.inr ⟨.refl _ _,b,hab,h⟩
      · exact Or.inr ⟨.refl _ _,h⟩
    · rw [Function.update_of_ne ha] at hab
      rcases ih with h | ⟨hx,h⟩
      · exact Or.inl (.step hab h)
      · exact Or.inr ⟨.step hab hx,h⟩

end MaculaPy.WaitFor
