import Mathlib.Logic.Function.Basic

/-! # What is held, and by whom

Places hold values. Each of any number of owners holds at most one place, no two the same, and
a place that nobody holds any more while its value is still there is lost. One owner at a time
takes a place that is empty, which loses the one it held, or empties its own.
-/
namespace MaculaPy.Holdings
variable {ι α β : Type*}

structure Ledger (heap : α → Option β) (holds : ι → Option α) (lost : α → β → Prop) : Prop where
  mapped : ∀ i a, holds i = some a → heap a ≠ none
  apart : ∀ i j a, holds i = some a → holds j = some a → i = j
  kept : ∀ a b, lost a b → heap a = some b ∧ ∀ i, holds i ≠ some a
  found : ∀ a b, heap a = some b → (∃ i, holds i = some a) ∨ lost a b

/-- What one owner, which held `o`, may do to the places of all. -/
structure Shift (heap heap' : α → Option β) (o o' : Option α) (lost lost' : α → β → Prop) :
    Prop where
  same : ∀ a, heap a ≠ none → o ≠ some a → heap' a = heap a
  mapped : ∀ a, o' = some a → heap' a ≠ none
  own : ∀ a, o' = some a → o = some a ∨ heap a = none
  found : ∀ a b, heap' a = some b → o = some a ∨ heap a = none → o' = some a ∨ lost' a b
  losing : ∀ a b, lost' a b → lost a b ∨
    (o = some a ∨ heap a = none) ∧ heap' a = some b ∧ o' ≠ some a
  stays : ∀ a b, lost a b → lost' a b

variable {heap heap' heap'' : α → Option β} {holds : ι → Option α}
  {lost lost' lost'' : α → β → Prop} {o o' o'' : Option α} {i j : ι} {a : α}

theorem Ledger.init : Ledger (fun _ : α => (none : Option β)) (fun _ : ι => none)
    (fun _ _ => False) where
  mapped _ _ h := by cases h
  apart _ _ _ h := by cases h
  kept _ _ h := h.elim
  found _ _ h := by cases h

/-- When nobody holds a place, what is there is lost. -/
theorem Ledger.rest (h : Ledger heap holds lost) (hr : ∀ i, holds i = none) (a : α) (b : β) :
    heap a = some b ↔ lost a b := by
  constructor
  · intro hb
    rcases h.found a b hb with ⟨i,hi⟩ | hl
    · rw [hr i] at hi
      cases hi
    · exact hl
  · intro hl
    exact (h.kept a b hl).1

/-- The places of the others are as they were. -/
theorem Ledger.frame (h : Ledger heap holds lost) (hs : Shift heap heap' (holds i) o' lost lost')
    (hj : j ≠ i) (ha : holds j = some a) : heap' a = heap a :=
  hs.same a (h.mapped j a ha) (fun hi => hj (h.apart j i a ha hi))

theorem Ledger.move [DecidableEq ι] (h : Ledger heap holds lost)
    (hs : Shift heap heap' (holds i) o' lost lost') :
    Ledger heap' (Function.update holds i o') lost' := by
  have hother {j : ι} (hj : j ≠ i) : Function.update holds i o' j = holds j :=
    Function.update_of_ne hj o' holds
  have hself : Function.update holds i o' i = o' := Function.update_self i o' holds
  -- A place that the owner has now was its own or empty, so no other has it.
  have hnot {j : ι} {a : α} (hj : j ≠ i) (ha : holds j = some a) : o' ≠ some a := by
    intro ho
    rcases hs.own a ho with hi | hn
    · exact hj (h.apart j i a ha hi)
    · exact h.mapped j a ha hn
  constructor
  · intro j a ha
    by_cases hj : j = i
    · subst hj
      exact hs.mapped a (hself.symm.trans ha)
    · rw [hother hj] at ha
      rw [h.frame hs hj ha]
      exact h.mapped j a ha
  · intro j k a hja hka
    by_cases hj : j = i <;> by_cases hk : k = i
    · rw [hj,hk]
    · subst hj
      rw [hself] at hja
      rw [hother hk] at hka
      exact absurd hja (hnot hk hka)
    · subst hk
      rw [hself] at hka
      rw [hother hj] at hja
      exact absurd hka (hnot hj hja)
    · rw [hother hj] at hja
      rw [hother hk] at hka
      exact h.apart j k a hja hka
  · intro a b hl
    rcases hs.losing a b hl with hl | ⟨ho,hb,hn⟩
    · obtain ⟨hb,hfree⟩ := h.kept a b hl
      have hm : heap a ≠ none := by rw [hb]; exact Option.some_ne_none b
      refine ⟨(hs.same a hm (hfree i)).trans hb,?_⟩
      intro j ha
      by_cases hj : j = i
      · subst hj
        rcases hs.own a (hself.symm.trans ha) with hi | hn
        · exact hfree j hi
        · exact hm hn
      · exact hfree j ((hother hj).symm.trans ha)
    · refine ⟨hb,?_⟩
      intro j ha
      by_cases hj : j = i
      · subst hj
        exact hn (hself.symm.trans ha)
      · rw [hother hj] at ha
        rcases ho with hi | he
        · exact hj (h.apart j i a ha hi)
        · exact h.mapped j a ha he
  · intro a b hb
    by_cases hi : holds i = some a ∨ heap a = none
    · rcases hs.found a b hb hi with ho | hl
      · exact .inl ⟨i,hself.trans ho⟩
      · exact .inr hl
    · rw [not_or] at hi
      rw [hs.same a hi.2 hi.1] at hb
      rcases h.found a b hb with ⟨j,hj⟩ | hl
      · have hne : j ≠ i := fun he => hi.1 (he ▸ hj)
        exact .inl ⟨j,(hother hne).trans hj⟩
      · exact .inr (hs.stays a b hl)

theorem Shift.keep (hm : ∀ a, o = some a → heap a ≠ none) : Shift heap heap o o lost lost where
  same _ _ _ := rfl
  mapped := hm
  own _ h := .inl h
  found a _ hb ho := ho.imp_right fun hn => by rw [hn] at hb; cases hb
  losing _ _ hl := .inl hl
  stays _ _ hl := hl

theorem Shift.own_or_empty (hs : Shift heap heap' o o' lost lost')
    (ha : o' = some a ∨ heap' a = none) : o = some a ∨ heap a = none := by
  rcases ha with ho | hn
  · exact hs.own a ho
  · by_contra hc
    rw [not_or] at hc
    exact hc.2 ((hs.same a hc.2 hc.1).symm.trans hn)

/-- What an owner does in two steps. -/
theorem Shift.trans (hs : Shift heap heap' o o' lost lost')
    (hs' : Shift heap' heap'' o' o'' lost' lost'') : Shift heap heap'' o o'' lost lost'' where
  same a ha ho := by
    have he := hs.same a ha ho
    have hn : o' ≠ some a := fun h => (hs.own a h).elim ho ha
    rw [← he] at ha
    exact (hs'.same a ha hn).trans he
  mapped := hs'.mapped
  own a h := hs.own_or_empty (hs'.own a h)
  found a b hb ho := by
    by_cases hc : o' = some a ∨ heap' a = none
    · exact hs'.found a b hb hc
    · rw [not_or] at hc
      rw [hs'.same a hc.2 hc.1] at hb
      rcases hs.found a b hb ho with h | h
      · exact absurd h hc.1
      · exact .inr (hs'.stays a b h)
  losing a b hl := by
    rcases hs'.losing a b hl with hl | ⟨ho,hb,hn⟩
    · refine (hs.losing a b hl).imp_right ?_
      rintro ⟨ho,hb,hn⟩
      have hm : heap' a ≠ none := by rw [hb]; exact Option.some_ne_none b
      refine ⟨ho,(hs'.same a hm hn).trans hb,?_⟩
      intro h
      exact (hs'.own a h).elim hn hm
    · exact .inr ⟨hs.own_or_empty ho,hb,hn⟩
  stays a b h := hs'.stays a b (hs.stays a b h)

variable [DecidableEq α]

theorem Shift.release : Shift heap (Function.update heap a none) (some a) none lost lost where
  same c _ hc := Function.update_of_ne (fun he => hc (congrArg some he.symm)) _ _
  mapped _ h := by cases h
  own _ h := by cases h
  found c b hb ho := by
    by_cases hc : c = a
    · subst hc
      rw [Function.update_self] at hb
      cases hb
    · rw [Function.update_of_ne hc] at hb
      rcases ho with ho | hn
      · exact absurd (Option.some.inj ho).symm hc
      · rw [hn] at hb
        cases hb
  losing _ _ hl := .inl hl
  stays _ _ hl := hl

/-- The owner takes a place that is empty, and loses the one it held. -/
theorem Shift.acquire {b : β} (ha : heap a = none)
    (hl : ∀ c d, lost' c d ↔ lost c d ∨ o = some c ∧ heap c = some d) :
    Shift heap (Function.update heap a (some b)) o (some a) lost lost' := by
  have hold {c : α} (hc : heap c ≠ none) : Function.update heap a (some b) c = heap c := by
    refine Function.update_of_ne ?_ _ _
    rintro rfl
    exact hc ha
  constructor
  · intro c hc _
    exact hold hc
  · intro c hc
    cases hc
    rw [Function.update_self]
    exact Option.some_ne_none b
  · intro c hc
    cases hc
    exact .inr ha
  · intro c d hd ho
    by_cases hc : c = a
    · exact .inl (congrArg some hc.symm)
    · rw [Function.update_of_ne hc] at hd
      rcases ho with ho | hn
      · exact .inr ((hl c d).mpr (.inr ⟨ho,hd⟩))
      · rw [hn] at hd
        cases hd
  · intro c d hcd
    refine ((hl c d).mp hcd).imp_right ?_
    rintro ⟨ho,hd⟩
    have hn : heap c ≠ none := by rw [hd]; exact Option.some_ne_none d
    refine ⟨.inl ho,(hold hn).trans hd,?_⟩
    intro he
    cases he
    exact hn ha
  · intro c d hcd
    exact (hl c d).mpr (.inl hcd)

end MaculaPy.Holdings
