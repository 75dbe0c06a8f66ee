import Mathlib.Data.List.Basic

/-! # Histories of tagged events

A history lists events, the newest first. A law says which events may follow which
histories, and a history tagged by component is lawful when each component's own is.
-/
namespace MaculaPy.History
variable {α β ι : Type*}

/-- Each event obeys the law in the history before it. -/
def Lawful (P : List α → α → Prop) : List α → Prop
  | [] => True
  | a :: t => P t a ∧ Lawful P t

variable {P Q : List α → α → Prop}

theorem lawful_iff {t : List α} : Lawful P t ↔ ∀ u a v, t = u ++ a :: v → P v a := by
  induction t with
  | nil => simp [Lawful]
  | cons b t ih =>
    rw [Lawful,ih]
    constructor
    · rintro ⟨hb,ht⟩ u a v he
      cases u with
      | nil =>
        cases he
        exact hb
      | cons c u =>
        cases he
        exact ht u a v rfl
    · intro h
      exact ⟨h [] b t rfl,fun u a v he => h (b :: u) a v (by rw [he,List.cons_append])⟩

theorem Lawful.append {s t : List α} (ht : Lawful P t)
    (hs : ∀ u a v, s = u ++ a :: v → P (v ++ t) a) : Lawful P (s ++ t) := by
  induction s with
  | nil => exact ht
  | cons a s ih =>
    exact ⟨hs [] a s rfl,ih (fun u b v he => hs (a :: u) b v (by rw [he,List.cons_append]))⟩

section Views
variable [DecidableEq ι]

/-- The events of one component. -/
def view (i : ι) (t : List (ι × β)) : List β :=
  t.filterMap (fun x => if x.1 = i then some x.2 else none)

@[simp] theorem view_nil (i : ι) : view i ([] : List (ι × β)) = [] := rfl

theorem view_cons (i : ι) (x : ι × β) (t : List (ι × β)) :
    view i (x :: t) = if x.1 = i then x.2 :: view i t else view i t := by
  by_cases h : x.1 = i <;> simp [view,h]

@[simp] theorem view_append (i : ι) (t u : List (ι × β)) :
    view i (t ++ u) = view i t ++ view i u := List.filterMap_append

@[simp] theorem view_tag (i : ι) (t : List β) : view i (t.map (Prod.mk i)) = t := by
  induction t with
  | nil => rfl
  | cons b t ih => simp [view_cons,ih]

theorem view_tag_of_ne {i j : ι} (h : j ≠ i) (t : List β) : view i (t.map (Prod.mk j)) = [] := by
  induction t with
  | nil => rfl
  | cons b t ih => simp [view_cons,h,ih]

theorem mem_view {i : ι} {b : β} {t : List (ι × β)} : b ∈ view i t ↔ (i,b) ∈ t := by
  induction t with
  | nil => simp
  | cons x t ih =>
    obtain ⟨j,c⟩ := x
    rw [view_cons]
    by_cases h : j = i
    · simp [h,ih]
    · simp [h,ih,Ne.symm h]

/-- A law each component obeys on its own holds of the tagged history. -/
theorem lawful_of_views {R : List β → β → Prop} {t : List (ι × β)}
    (h : ∀ i, Lawful R (view i t)) : Lawful (fun t x => R (view x.1 t) x.2) t := by
  apply lawful_iff.mpr
  rintro u ⟨i,b⟩ v rfl
  apply lawful_iff.mp (h i) (view i u) b (view i v)
  rw [view_append,view_cons,if_pos rfl]

/-- What `f` reads off the events, with the component each of them is of. -/
def tagged {γ : Type*} (f : β → Option γ) (t : List (ι × β)) : List (ι × γ) :=
  t.filterMap (fun x => (f x.2).map (Prod.mk x.1))

variable {γ : Type*} {f : β → Option γ}

omit [DecidableEq ι] in
@[simp] theorem tagged_append (t u : List (ι × β)) :
    tagged f (t ++ u) = tagged f t ++ tagged f u := List.filterMap_append

omit [DecidableEq ι] in
theorem tagged_tag (i : ι) (t : List β) :
    tagged f (t.map (Prod.mk i)) = (t.filterMap f).map (Prod.mk i) := by
  rw [tagged,List.filterMap_map,List.map_filterMap]
  rfl

omit [DecidableEq ι] in
theorem mem_tagged {i : ι} {c : γ} {t : List (ι × β)} :
    (i,c) ∈ tagged f t ↔ ∃ b, (i,b) ∈ t ∧ f b = some c := by
  rw [tagged,List.mem_filterMap]
  constructor
  · rintro ⟨⟨j,b⟩,hb,hc⟩
    obtain ⟨c',hf,he⟩ := Option.map_eq_some_iff.mp hc
    cases he
    exact ⟨b,hb,hf⟩
  · rintro ⟨b,hb,hf⟩
    exact ⟨(i,b),hb,by simp [hf]⟩

theorem filter_tagged (i : ι) (t : List (ι × β)) :
    (tagged f t).filter (fun x => x.1 = i) = ((view i t).filterMap f).map (Prod.mk i) := by
  induction t with
  | nil => rfl
  | cons x t ih =>
    obtain ⟨j,b⟩ := x
    have hc : tagged f ((j,b) :: t) = ((f b).map (Prod.mk j)).toList ++ tagged f t := by
      cases hb : f b <;> simp [tagged,hb]
    rw [hc,view_cons,List.filter_append,ih]
    by_cases h : j = i
    · cases hb : f b <;> simp [h,hb]
    · cases hb : f b <;> simp [h]

end Views
end MaculaPy.History
