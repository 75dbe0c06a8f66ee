import Mathlib.Data.List.Basic

/-! # Prefix codes

A code writes each symbol as a word, and a word is told from what follows it. Words written
one after another give their symbols back, at the end of the text or at a mark that begins no
word.
-/
namespace MaculaPy.PrefixCode
variable {α β : Type*} {P : α → Prop} {f : α → List β}

/-- Among the symbols that `P` admits, a text that begins with a word tells which, and where
the word ends. -/
def IsCode (P : α → Prop) (f : α → List β) : Prop :=
  ∀ a b r r', P a → P b → f a ++ r = f b ++ r' → a = b ∧ r = r'

/-- A code that can be read back is one. -/
theorem IsCode.of_read {read : List β → Option (α × List β)}
    (h : ∀ a r, P a → read (f a ++ r) = some (a,r)) : IsCode P f := by
  intro a b r r' ha hb he
  have hr := h a r ha
  rw [he,h b r' hb] at hr
  obtain ⟨rfl,rfl⟩ := Prod.mk.inj (Option.some.inj hr)
  exact ⟨rfl,rfl⟩

/-- Texts of words are told apart where no word is empty. -/
theorem IsCode.flatMap_injective (hf : IsCode P f) (hn : ∀ a, P a → f a ≠ []) {xs ys : List α}
    (hx : ∀ a ∈ xs, P a) (hy : ∀ a ∈ ys, P a) (h : xs.flatMap f = ys.flatMap f) : xs = ys := by
  induction xs generalizing ys with
  | nil =>
    cases ys with
    | nil => rfl
    | cons b ys =>
      obtain ⟨hb,_⟩ := List.append_eq_nil_iff.mp h.symm
      exact absurd hb (hn b (hy b List.mem_cons_self))
  | cons a xs ih =>
    cases ys with
    | nil =>
      obtain ⟨ha,_⟩ := List.append_eq_nil_iff.mp h
      exact absurd ha (hn a (hx a List.mem_cons_self))
    | cons b ys =>
      obtain ⟨rfl,ht⟩ := hf a b _ _ (hx a List.mem_cons_self) (hy b List.mem_cons_self) h
      rw [ih (fun c hc => hx c (List.mem_cons_of_mem _ hc))
        (fun c hc => hy c (List.mem_cons_of_mem _ hc)) ht]

/-- Words up to a mark that begins none of them. -/
theorem IsCode.flatMap_until (hf : IsCode P f) {m : β} (hm : ∀ a r r', P a → f a ++ r ≠ m :: r')
    {xs ys : List α} {r r' : List β} (hx : ∀ a ∈ xs, P a) (hy : ∀ a ∈ ys, P a)
    (h : xs.flatMap f ++ m :: r = ys.flatMap f ++ m :: r') : xs = ys ∧ r = r' := by
  induction xs generalizing ys with
  | nil =>
    cases ys with
    | nil => exact ⟨rfl,List.tail_eq_of_cons_eq h⟩
    | cons b ys =>
      rw [List.flatMap_cons,List.append_assoc] at h
      exact absurd h.symm (hm b _ _ (hy b List.mem_cons_self))
  | cons a xs ih =>
    cases ys with
    | nil =>
      rw [List.flatMap_cons,List.append_assoc] at h
      exact absurd h (hm a _ _ (hx a List.mem_cons_self))
    | cons b ys =>
      rw [List.flatMap_cons,List.flatMap_cons,List.append_assoc,List.append_assoc] at h
      obtain ⟨rfl,ht⟩ := hf a b _ _ (hx a List.mem_cons_self) (hy b List.mem_cons_self) h
      obtain ⟨rfl,hr⟩ := ih (fun c hc => hx c (List.mem_cons_of_mem _ hc))
        (fun c hc => hy c (List.mem_cons_of_mem _ hc)) ht
      exact ⟨rfl,hr⟩

/-- The text is over, or goes on with what is not in `p`. -/
def Stops (p : β → Prop) : List β → Prop
  | [] => True
  | c :: _ => ¬ p c

/-- A word in `p` ends where the text leaves `p`. -/
theorem append_inj_of_stops {p : β → Prop} {xs ys r r' : List β} (hx : ∀ c ∈ xs, p c)
    (hy : ∀ c ∈ ys, p c) (hr : Stops p r) (hr' : Stops p r') (h : xs ++ r = ys ++ r') :
    xs = ys ∧ r = r' := by
  induction xs generalizing ys with
  | nil =>
    cases ys with
    | nil => exact ⟨rfl,h⟩
    | cons c ys =>
      have hc : r = c :: (ys ++ r') := h
      rw [hc] at hr
      exact absurd (hy c List.mem_cons_self) hr
  | cons c xs ih =>
    cases ys with
    | nil =>
      have hc : c :: (xs ++ r) = r' := h
      rw [← hc] at hr'
      exact absurd (hx c List.mem_cons_self) hr'
    | cons d ys =>
      obtain ⟨rfl,ht⟩ := List.cons.inj h
      obtain ⟨rfl,hrr⟩ := ih (fun c hc => hx c (List.mem_cons_of_mem _ hc))
        (fun c hc => hy c (List.mem_cons_of_mem _ hc)) ht
      exact ⟨rfl,hrr⟩

end MaculaPy.PrefixCode
