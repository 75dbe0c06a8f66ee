import MaculaPy.Wire.Value

/-! # The values inside a value

A property of every value that a value is made of, read off the value's own shape.
-/
namespace MaculaPy.Wire

/-- The values a value is made of, to any depth, itself included; the keys of a dict are
looked at with the dict. -/
inductive PyVal.Inside (w : PyVal) : PyVal → Prop
  | self : Inside w w
  | list {v : PyVal} {vs : List PyVal} (hv : v ∈ vs) (hw : Inside w v) : Inside w (.list vs)
  | tuple {v : PyVal} {vs : List PyVal} (hv : v ∈ vs) (hw : Inside w v) : Inside w (.tuple vs)
  | dict {k v : PyVal} {items : List (PyVal × PyVal)} (hv : (k,v) ∈ items) (hw : Inside w v) :
    Inside w (.dict items)

theorem PyVal.inside_list {w : PyVal} {vs : List PyVal} :
    w.Inside (.list vs) ↔ w = .list vs ∨ ∃ v ∈ vs, w.Inside v := by
  constructor
  · intro h
    cases h with
    | self => exact Or.inl rfl
    | list hv hw => exact Or.inr ⟨_,hv,hw⟩
  · rintro (rfl | ⟨v,hv,hw⟩)
    · exact .self
    · exact .list hv hw

theorem PyVal.inside_tuple {w : PyVal} {vs : List PyVal} :
    w.Inside (.tuple vs) ↔ w = .tuple vs ∨ ∃ v ∈ vs, w.Inside v := by
  constructor
  · intro h
    cases h with
    | self => exact Or.inl rfl
    | tuple hv hw => exact Or.inr ⟨_,hv,hw⟩
  · rintro (rfl | ⟨v,hv,hw⟩)
    · exact .self
    · exact .tuple hv hw

theorem PyVal.inside_dict {w : PyVal} {items : List (PyVal × PyVal)} :
    w.Inside (.dict items) ↔ w = .dict items ∨ ∃ x ∈ items, w.Inside x.2 := by
  constructor
  · intro h
    cases h with
    | self => exact Or.inl rfl
    | dict hv hw => exact Or.inr ⟨_,hv,hw⟩
  · rintro (rfl | ⟨⟨k,v⟩,hv,hw⟩)
    · exact .self
    · exact .dict hv hw

/-- Every value inside has the property. -/
def PyVal.All (P : PyVal → Prop) (v : PyVal) : Prop := ∀ w : PyVal, w.Inside v → P w

section All
variable {P : PyVal → Prop}

theorem PyVal.all_leaf {v : PyVal} (h : ∀ w : PyVal, w.Inside v → w = v) : v.All P ↔ P v := by
  constructor
  · exact fun hv => hv v .self
  · intro hv w hw
    rwa [h w hw]

theorem PyVal.all_list {vs : List PyVal} :
    (PyVal.list vs).All P ↔ P (.list vs) ∧ ∀ v ∈ vs, v.All P := by
  constructor
  · exact fun h => ⟨h _ .self,fun v hv w hw => h w (.list hv hw)⟩
  · intro h w hw
    rcases PyVal.inside_list.mp hw with rfl | ⟨v,hv,hw⟩
    · exact h.1
    · exact h.2 v hv w hw

theorem PyVal.all_tuple {vs : List PyVal} :
    (PyVal.tuple vs).All P ↔ P (.tuple vs) ∧ ∀ v ∈ vs, v.All P := by
  constructor
  · exact fun h => ⟨h _ .self,fun v hv w hw => h w (.tuple hv hw)⟩
  · intro h w hw
    rcases PyVal.inside_tuple.mp hw with rfl | ⟨v,hv,hw⟩
    · exact h.1
    · exact h.2 v hv w hw

theorem PyVal.all_dict {items : List (PyVal × PyVal)} :
    (PyVal.dict items).All P ↔ P (.dict items) ∧ ∀ x ∈ items, x.2.All P := by
  constructor
  · exact fun h => ⟨h _ .self,fun x hx w hw => h w (.dict hx hw)⟩
  · intro h w hw
    rcases PyVal.inside_dict.mp hw with rfl | ⟨x,hx,hw⟩
    · exact h.1
    · exact h.2 x hx w hw

end All

section Results
variable {ε α β : Type*}

theorem map_eq_ok {x : Except ε α} {f : α → β} {b : β} :
    x.map f = .ok b ↔ ∃ a, x = .ok a ∧ f a = b := by
  cases x <;> simp [Except.map]

theorem bind_eq_ok {x : Except ε α} {f : α → Except ε β} {b : β} :
    x.bind f = .ok b ↔ ∃ a, x = .ok a ∧ f a = .ok b := by
  cases x <;> simp [Except.bind]

theorem bind_map_eq_ok {x : Except ε α} {y : Except ε (List β)} {f : α → β} {bs : List β} :
    (x.bind fun a => y.map (f a :: ·)) = .ok bs ↔
      ∃ a bs', x = .ok a ∧ y = .ok bs' ∧ f a :: bs' = bs := by
  cases x <;> cases y <;> simp [Except.bind,Except.map]

end Results
end MaculaPy.Wire
