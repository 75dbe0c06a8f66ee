import MaculaPy.Wire.Inside

/-! # What encodes

`encode_payload` accepts a value exactly when every value inside it can be carried, and
what it emits has the same numbers in the same places.
-/
namespace MaculaPy.Wire

/-- What is asked of each value: no boolean, no integer outside int64, no infinity or NaN,
no key that is not a text, and nothing of another type. -/
def PyVal.Carried : PyVal → Prop
  | .bool _ => False
  | .int i => int64Min ≤ i ∧ i ≤ int64Max
  | .float x => x.finite = true
  | .dict items => ∀ x ∈ items, ∃ s, x.1 = .str s
  | .other _ => False
  | _ => True

/-- A literal that is neither a text nor `null`. -/
inductive Leaf
  | bool (b : Bool)
  | int (i : ℤ)
  | float (x : Binary64)
  deriving DecidableEq, Repr

def Leaf.Carried : Leaf → Prop
  | .bool _ => False
  | .int i => int64Min ≤ i ∧ i ≤ int64Max
  | .float x => x.finite = true

mutual
/-- The literals of a value, in order. -/
def PyVal.leaves : PyVal → List Leaf
  | .bool b => [.bool b]
  | .int i => [.int i]
  | .float x => [.float x]
  | .list vs => leavesList vs
  | .tuple vs => leavesList vs
  | .dict items => leavesMap items
  | _ => []

def leavesList : List PyVal → List Leaf
  | [] => []
  | v :: vs => v.leaves ++ leavesList vs

def leavesMap : List (PyVal × PyVal) → List Leaf
  | [] => []
  | (_,v) :: items => v.leaves ++ leavesMap items
end

mutual
/-- The literals of a JSON text, in order. -/
def Json.leaves : Json → List Leaf
  | .bool b => [.bool b]
  | .int i => [.int i]
  | .float x => [.float x]
  | .arr js => jsonLeavesList js
  | .obj ms => jsonLeavesMap ms
  | _ => []

def jsonLeavesList : List Json → List Leaf
  | [] => []
  | j :: js => j.leaves ++ jsonLeavesList js

def jsonLeavesMap : List (PyStr × Json) → List Leaf
  | [] => []
  | (_,j) :: ms => j.leaves ++ jsonLeavesMap ms
end

/-- Every value inside a value is carried. -/
def PyVal.Whole (v : PyVal) : Prop := v.All PyVal.Carried

theorem PyVal.whole_list {vs : List PyVal} : (PyVal.list vs).Whole ↔ ∀ v ∈ vs, v.Whole :=
  PyVal.all_list.trans (and_iff_right trivial)

theorem PyVal.whole_tuple {vs : List PyVal} : (PyVal.tuple vs).Whole ↔ ∀ v ∈ vs, v.Whole :=
  PyVal.all_tuple.trans (and_iff_right trivial)

theorem PyVal.whole_dict {items : List (PyVal × PyVal)} : (PyVal.dict items).Whole ↔
    ∀ x ∈ items, (∃ s, x.1 = .str s) ∧ x.2.Whole := by
  rw [PyVal.Whole,PyVal.all_dict,PyVal.Carried,← forall₂_and]
  rfl

/-- A pair of results is a result exactly when both are. -/
theorem ok_cons_iff {α β : Type*} {x : Except PyError α} {y : Except PyError (List β)} {f : α → β}
    {P : α → Prop} {Q : List β → Prop} {R : List β → Prop}
    (hR : ∀ a bs, R (f a :: bs) ↔ P a ∧ Q bs) :
    (∃ bs, (x.bind fun a => y.map (f a :: ·)) = .ok bs ∧ R bs) ↔
      (∃ a, x = .ok a ∧ P a) ∧ ∃ bs, y = .ok bs ∧ Q bs := by
  cases x with
  | error e => simp [Except.bind]
  | ok a => cases y <;> simp [Except.bind,Except.map,hR]

mutual
/-- A value encodes to finite JSON exactly when every value inside it is carried. -/
theorem toWire_iff : ∀ v : PyVal, (∃ j, toWire v = .ok j ∧ j.finite = true) ↔ v.Whole
  | .none => by
    rw [PyVal.Whole,PyVal.all_leaf (by rintro w ⟨⟩; rfl)]
    simp [toWire,Json.finite,PyVal.Carried]
  | .bool b => by
    rw [PyVal.Whole,PyVal.all_leaf (by rintro w ⟨⟩; rfl)]
    simp [toWire,PyVal.Carried]
  | .int i => by
    rw [PyVal.Whole,PyVal.all_leaf (by rintro w ⟨⟩; rfl),toWire,PyVal.Carried]
    split
    · next h => simp [Json.finite,h]
    · next h => simp [h]
  | .float x => by
    rw [PyVal.Whole,PyVal.all_leaf (by rintro w ⟨⟩; rfl)]
    simp [toWire,Json.finite,PyVal.Carried]
  | .str s => by
    rw [PyVal.Whole,PyVal.all_leaf (by rintro w ⟨⟩; rfl)]
    simp [toWire,Json.finite,PyVal.Carried]
  | .bytes k bs => by
    rw [PyVal.Whole,PyVal.all_leaf (by rintro w ⟨⟩; rfl)]
    simp [toWire,Json.finite,Json.finiteMap,PyVal.Carried]
  | .list vs => by
    rw [PyVal.whole_list,← toWireList_iff vs,toWire]
    cases toWireList vs <;> simp [Except.map,Json.finite]
  | .tuple vs => by
    rw [PyVal.whole_tuple,← toWireList_iff vs,toWire]
    cases toWireList vs <;> simp [Except.map,Json.finite]
  | .dict items => by
    rw [PyVal.whole_dict,← toWireMap_iff items,toWire]
    cases toWireMap items <;> simp [Except.map,Json.finite]
  | .other t => by
    rw [PyVal.Whole,PyVal.all_leaf (by rintro w ⟨⟩; rfl)]
    simp [toWire,PyVal.Carried]

theorem toWireList_iff : ∀ vs : List PyVal,
    (∃ js, toWireList vs = .ok js ∧ Json.finiteList js = true) ↔ ∀ v ∈ vs, v.Whole
  | [] => by simp [toWireList,Json.finiteList]
  | v :: vs => by
    rw [List.forall_mem_cons,← toWire_iff v,← toWireList_iff vs,toWireList]
    exact ok_cons_iff (f := id) (fun j js => by simp [Json.finiteList])

theorem toWireMap_iff : ∀ items : List (PyVal × PyVal),
    (∃ ms, toWireMap items = .ok ms ∧ Json.finiteMap ms = true) ↔
      ∀ x ∈ items, (∃ s, x.1 = .str s) ∧ x.2.Whole
  | [] => by simp [toWireMap,Json.finiteMap]
  | (k,v) :: items => by
    rw [List.forall_mem_cons,← toWire_iff v,← toWireMap_iff items]
    cases k with
    | str s =>
      rw [toWireMap]
      refine (ok_cons_iff (f := Prod.mk s) (P := fun j => j.finite = true)
        (Q := fun ms => Json.finiteMap ms = true) (fun j ms => by simp [Json.finiteMap])).trans ?_
      simp
    | _ => simp [toWireMap]
end

mutual
/-- What is emitted has the literals of the value, in the same order. -/
theorem toWire_leaves : ∀ (v : PyVal) (j : Json), toWire v = .ok j → j.leaves = v.leaves
  | .none,j,h => by cases h; rfl
  | .bool b,j,h => by simp [toWire] at h
  | .int i,j,h => by
    rw [toWire] at h
    split at h <;> cases h
    rfl
  | .float x,j,h => by cases h; rfl
  | .str s,j,h => by cases h; rfl
  | .bytes k bs,j,h => by cases h; rfl
  | .list vs,j,h => by
    rw [toWire] at h
    obtain ⟨js,hjs,rfl⟩ := map_eq_ok.mp h
    exact toWireList_leaves vs js hjs
  | .tuple vs,j,h => by
    rw [toWire] at h
    obtain ⟨js,hjs,rfl⟩ := map_eq_ok.mp h
    exact toWireList_leaves vs js hjs
  | .dict items,j,h => by
    rw [toWire] at h
    obtain ⟨ms,hms,rfl⟩ := map_eq_ok.mp h
    exact toWireMap_leaves items ms hms
  | .other t,j,h => by simp [toWire] at h

theorem toWireList_leaves : ∀ (vs : List PyVal) (js : List Json), toWireList vs = .ok js →
    jsonLeavesList js = leavesList vs
  | [],js,h => by cases h; rfl
  | v :: vs,js,h => by
    rw [toWireList] at h
    obtain ⟨j,js',hj,hjs,rfl⟩ := bind_map_eq_ok.mp h
    rw [jsonLeavesList,leavesList,toWire_leaves v j hj,toWireList_leaves vs js' hjs]

theorem toWireMap_leaves : ∀ (items : List (PyVal × PyVal)) (ms : List (PyStr × Json)),
    toWireMap items = .ok ms → jsonLeavesMap ms = leavesMap items
  | [],ms,h => by cases h; rfl
  | (k,v) :: items,ms,h => by
    cases k with
    | str s =>
      rw [toWireMap] at h
      obtain ⟨j,ms',hj,hms,rfl⟩ := bind_map_eq_ok.mp h
      rw [jsonLeavesMap,leavesMap,toWire_leaves v j hj,toWireMap_leaves items ms' hms]
    | _ => simp [toWireMap] at h
end

mutual
/-- The literals of a value all of which is carried. -/
theorem leaves_carried : ∀ v : PyVal, v.Whole → ∀ l ∈ v.leaves, l.Carried
  | .none,_ => by simp [PyVal.leaves]
  | .bool b,h => absurd (h _ .self) id
  | .int i,h => by
    intro l hl
    obtain rfl := List.mem_singleton.mp hl
    exact h _ .self
  | .float x,h => by
    intro l hl
    obtain rfl := List.mem_singleton.mp hl
    exact h _ .self
  | .str s,_ => by simp [PyVal.leaves]
  | .bytes k bs,_ => by simp [PyVal.leaves]
  | .list vs,h => leavesList_carried vs (PyVal.whole_list.mp h)
  | .tuple vs,h => leavesList_carried vs (PyVal.whole_tuple.mp h)
  | .dict items,h => leavesMap_carried items (fun x hx => (PyVal.whole_dict.mp h x hx).2)
  | .other t,_ => by simp [PyVal.leaves]

theorem leavesList_carried : ∀ vs : List PyVal, (∀ v ∈ vs, v.Whole) →
    ∀ l ∈ leavesList vs, l.Carried
  | [],_ => by simp [leavesList]
  | v :: vs,h => by
    rw [List.forall_mem_cons] at h
    intro l hl
    rcases List.mem_append.mp hl with hl | hl
    · exact leaves_carried v h.1 l hl
    · exact leavesList_carried vs h.2 l hl

theorem leavesMap_carried : ∀ items : List (PyVal × PyVal), (∀ x ∈ items, x.2.Whole) →
    ∀ l ∈ leavesMap items, l.Carried
  | [],_ => by simp [leavesMap]
  | (k,v) :: items,h => by
    rw [List.forall_mem_cons] at h
    intro l hl
    rcases List.mem_append.mp hl with hl | hl
    · exact leaves_carried v h.1 l hl
    · exact leavesMap_carried items h.2 l hl
end

theorem encodePayload_eq_ok {v : PyVal} {j : Json} :
    encodePayload v = .ok j ↔ toWire v = .ok j ∧ j.finite = true := by
  rw [encodePayload]
  cases toWire v with
  | error e => simp [Except.bind]
  | ok k =>
    simp only [Except.bind,dumps,Except.ok.injEq]
    split
    · next hf =>
      refine ⟨?_,fun h => congrArg Except.ok h.1⟩
      rintro ⟨⟩
      exact ⟨rfl,hf⟩
    · next hf =>
      simp only [reduceCtorEq,false_iff,not_and]
      rintro rfl
      exact hf

end MaculaPy.Wire
