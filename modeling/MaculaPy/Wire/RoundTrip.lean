import MaculaPy.Wire.Value
import Mathlib.Data.List.Nodup

/-! # Decoding what was encoded

A payload comes back from its JSON, tuples as lists and every kind of bytes as `bytes`,
unless it holds a dict that looks like the tag of a bytes value: one whose only key is
`$bytes`, with a text under it.
-/
namespace MaculaPy.Wire

/-- The items of a dict that cannot be told from an encoded bytes value. -/
def IsTag (items : List (PyVal × PyVal)) : Prop := ∃ s, items = [(.str bytesKey,.str s)]

mutual
/-- What a payload may hold: the values macula's wire carries, to any depth. -/
def PyVal.Payload : PyVal → Prop
  | .none => True
  | .bool _ => False
  | .int i => int64Min ≤ i ∧ i ≤ int64Max
  | .float x => x.finite = true
  | .str s => s.scalar = true
  | .bytes _ _ => True
  | .list vs => PayloadList vs
  | .tuple vs => PayloadList vs
  | .dict items => (items.map Prod.fst).Nodup ∧ PayloadMap items
  | .other _ => False

def PayloadList : List PyVal → Prop
  | [] => True
  | v :: vs => v.Payload ∧ PayloadList vs

def PayloadMap : List (PyVal × PyVal) → Prop
  | [] => True
  | (k,v) :: items => (∃ s : PyStr, k = .str s ∧ s.scalar = true) ∧ v.Payload ∧ PayloadMap items
end

mutual
/-- A value as it comes back: tuples as lists, every kind of bytes as `bytes`. -/
def PyVal.normal : PyVal → PyVal
  | .bytes _ bs => .bytes .bytes bs
  | .list vs => .list (normalList vs)
  | .tuple vs => .list (normalList vs)
  | .dict items => .dict (normalMap items)
  | v => v

def normalList : List PyVal → List PyVal
  | [] => []
  | v :: vs => v.normal :: normalList vs

def normalMap : List (PyVal × PyVal) → List (PyVal × PyVal)
  | [] => []
  | (k,v) :: items => (k,v.normal) :: normalMap items
end

mutual
/-- No dict at any depth looks like the tag of a bytes value. -/
def PyVal.NoTag : PyVal → Prop
  | .list vs => NoTagList vs
  | .tuple vs => NoTagList vs
  | .dict items => ¬ IsTag items ∧ NoTagMap items
  | _ => True

def NoTagList : List PyVal → Prop
  | [] => True
  | v :: vs => v.NoTag ∧ NoTagList vs

def NoTagMap : List (PyVal × PyVal) → Prop
  | [] => True
  | (_,v) :: items => v.NoTag ∧ NoTagMap items
end

section Lists
variable {α β ε : Type*}

theorem bind_map_cons {a : Except ε α} {as : Except ε (List β)} {f : α → β} {y : β} {ys : List β} :
    ((a.bind fun x => as.map (f x :: ·)) = .ok (y :: ys)) ↔
      a.map f = .ok y ∧ as = .ok ys := by
  cases a with
  | error e => simp [Except.bind,Except.map]
  | ok x => cases as <;> simp [Except.bind,Except.map]

end Lists

theorem strItems_injective {d d' : List (PyStr × PyVal)} (h : strItems d = strItems d') :
    d = d' := by
  refine List.map_injective_iff.mpr ?_ h
  rintro ⟨k,v⟩ ⟨k',v'⟩ he
  simpa using he

theorem foldl_setItem {d acc : List (PyStr × PyVal)} (h : ((acc ++ d).map Prod.fst).Nodup) :
    d.foldl setItem acc = acc ++ d := by
  induction d generalizing acc with
  | nil => simp
  | cons x d ih =>
    have hx : acc.any (fun y => y.1 = x.1) = false := by
      rw [List.any_eq_false]
      intro y hy
      rw [List.map_append,List.nodup_append] at h
      have hne := h.2.2 y.1 (List.mem_map_of_mem hy) x.1 (by simp)
      simpa using hne
    have hs : setItem acc x = acc ++ [x] := by rw [setItem,hx,if_neg Bool.false_ne_true]
    rw [List.foldl_cons,hs,ih (by simpa using h),List.append_assoc,List.singleton_append]

/-- A dict made of items with distinct keys has them as they are. -/
theorem foldl_setItem_nil {d : List (PyStr × PyVal)} (h : (d.map Prod.fst).Nodup) :
    d.foldl setItem [] = d := by
  refine (foldl_setItem ?_).trans (List.nil_append d)
  rwa [List.nil_append]

theorem decodeMap_keys {ms : List (PyStr × Json)} {d : List (PyStr × PyVal)}
    (h : decodeMap ms = .ok d) : d.map Prod.fst = ms.map Prod.fst := by
  induction ms generalizing d with
  | nil =>
    cases h
    rfl
  | cons m ms ih =>
    obtain ⟨k,j⟩ := m
    rw [decodeMap] at h
    cases hj : decodePayload j with
    | error e => simp [hj,Except.bind] at h
    | ok v =>
      cases hm : decodeMap ms with
      | error e => simp [hj,hm,Except.bind,Except.map] at h
      | ok d' =>
        simp only [hj,hm,Except.bind,Except.map,Except.ok.injEq] at h
        rw [← h,List.map_cons,List.map_cons,ih hm]

/-- A dict that is not a tag goes through the hook as it is. -/
theorem fromWire_of_not_tag {d : List (PyStr × PyVal)} (h : ¬ IsTag (strItems d)) :
    fromWire d = .ok (strDict d) := by
  unfold fromWire
  split
  · next k s =>
    split
    · next hk => exact absurd ⟨s,by simp [strItems,hk]⟩ h
    · rfl
  · rfl

theorem fromWire_of_tag {d : List (PyStr × PyVal)} (h : IsTag (strItems d))
    (items : List (PyVal × PyVal)) : fromWire d ≠ .ok (.dict items) := by
  obtain ⟨s,hs⟩ := h
  have hd : d = [(bytesKey,.str s)] := strItems_injective hs
  rw [hd]
  simp only [fromWire,↓reduceIte]
  cases b64decode s <;> simp [Except.map]

/-- The decoded object is the dict of its members, unless that dict looks like a tag. -/
theorem decodePayload_obj {ms : List (PyStr × Json)} (hn : (ms.map Prod.fst).Nodup)
    (items : List (PyVal × PyVal)) : decodePayload (.obj ms) = .ok (.dict items) ↔
      (∃ d, decodeMap ms = .ok d ∧ strItems d = items) ∧ ¬ IsTag items := by
  rw [decodePayload]
  cases hm : decodeMap ms with
  | error e => simp [Except.bind]
  | ok d =>
    have hd : d.foldl setItem [] = d := foldl_setItem_nil (decodeMap_keys hm ▸ hn)
    simp only [Except.bind,hd]
    by_cases ht : IsTag (strItems d)
    · have hne := fromWire_of_tag ht items
      constructor
      · exact fun h => absurd h hne
      · rintro ⟨⟨d',hd',rfl⟩,hnt⟩
        cases hd'
        exact absurd ht hnt
    · rw [fromWire_of_not_tag ht,strDict]
      constructor
      · intro h
        have hi : strItems d = items := by simpa using h
        exact ⟨⟨d,rfl,hi⟩,hi ▸ ht⟩
      · rintro ⟨⟨d',hd',rfl⟩,_⟩
        cases hd'
        rfl

theorem isTag_normalMap {items : List (PyVal × PyVal)} (hp : PayloadMap items) :
    IsTag (normalMap items) ↔ IsTag items := by
  constructor
  · rintro ⟨s,hs⟩
    cases items with
    | nil => cases hs
    | cons x items =>
      obtain ⟨k,v⟩ := x
      cases items with
      | nil =>
        obtain ⟨rfl,hv⟩ : k = .str bytesKey ∧ v.normal = .str s := by simpa [normalMap] using hs
        cases v <;> simp_all [PyVal.normal,IsTag]
      | cons y items => simp [normalMap] at hs
  · rintro ⟨s,rfl⟩
    exact ⟨s,rfl⟩

/-- What a dict of texts encodes to has the keys of the dict. -/
theorem nodup_keys {items : List (PyVal × PyVal)} {ms : List (PyStr × Json)}
    (hk : items.map Prod.fst = ms.map (fun m => .str m.1)) (hn : (items.map Prod.fst).Nodup) :
    (ms.map Prod.fst).Nodup := by
  rw [hk] at hn
  have hm : ms.map (fun m => PyVal.str m.1) = (ms.map Prod.fst).map PyVal.str := by
    rw [List.map_map]
    rfl
  rw [hm] at hn
  exact List.Nodup.of_map _ hn

mutual
/-- A payload encodes, to finite JSON, and comes back unless a dict in it looks like a tag. -/
theorem toWire_payload : ∀ v : PyVal, v.Payload → ∃ j, toWire v = .ok j ∧ j.finite = true ∧
    (decodePayload j = .ok v.normal ↔ v.NoTag)
  | .none,_ => ⟨.null,rfl,rfl,by simp [decodePayload,PyVal.normal,PyVal.NoTag]⟩
  | .int i,h =>
    ⟨.int i,by rw [toWire]; exact if_pos h,rfl,by simp [decodePayload,PyVal.normal,PyVal.NoTag]⟩
  | .float x,h => ⟨.float x,rfl,h,by simp [decodePayload,PyVal.normal,PyVal.NoTag]⟩
  | .str s,_ => ⟨.str s,rfl,rfl,by simp [decodePayload,PyVal.normal,PyVal.NoTag]⟩
  | .bytes k bs,_ => by
    refine ⟨.obj [(bytesKey,.str (b64encode bs))],rfl,rfl,?_⟩
    simp [decodePayload,decodeMap,Except.bind,Except.map,setItem,fromWire,PyVal.normal,PyVal.NoTag]
  | .list vs,h => by
    obtain ⟨js,hj,hf,hd⟩ := toWireList_payload vs h
    refine ⟨.arr js,by rw [toWire,hj]; rfl,hf,?_⟩
    rw [PyVal.NoTag,← hd,decodePayload,PyVal.normal]
    cases decodeList js <;> simp [Except.map]
  | .tuple vs,h => by
    obtain ⟨js,hj,hf,hd⟩ := toWireList_payload vs h
    refine ⟨.arr js,by rw [toWire,hj]; rfl,hf,?_⟩
    rw [PyVal.NoTag,← hd,decodePayload,PyVal.normal]
    cases decodeList js <;> simp [Except.map]
  | .dict items,⟨hn,hp⟩ => by
    obtain ⟨ms,hm,hf,hk,hd⟩ := toWireMap_payload items hp
    refine ⟨.obj ms,by rw [toWire,hm]; rfl,hf,?_⟩
    rw [PyVal.NoTag,← hd,PyVal.normal,decodePayload_obj (nodup_keys hk hn),isTag_normalMap hp]
    exact and_comm

theorem toWireList_payload : ∀ vs : List PyVal, PayloadList vs → ∃ js, toWireList vs = .ok js ∧
    Json.finiteList js = true ∧ (decodeList js = .ok (normalList vs) ↔ NoTagList vs)
  | [],_ => ⟨[],rfl,rfl,by simp [decodeList,normalList,NoTagList]⟩
  | v :: vs,⟨hv,hvs⟩ => by
    obtain ⟨j,hj,hf,hd⟩ := toWire_payload v hv
    obtain ⟨js,hjs,hfs,hds⟩ := toWireList_payload vs hvs
    refine ⟨j :: js,by rw [toWireList,hj,hjs]; rfl,by simp [Json.finiteList,hf,hfs],?_⟩
    rw [NoTagList,← hd,← hds,decodeList,normalList]
    apply (bind_map_cons (f := id)).trans
    cases decodePayload j <;> simp [Except.map]

theorem toWireMap_payload : ∀ items : List (PyVal × PyVal), PayloadMap items →
    ∃ ms, toWireMap items = .ok ms ∧ Json.finiteMap ms = true ∧
      items.map Prod.fst = ms.map (fun m => .str m.1) ∧
      ((∃ d, decodeMap ms = .ok d ∧ strItems d = normalMap items) ↔ NoTagMap items)
  | [],_ => ⟨[],rfl,rfl,rfl,by simp [decodeMap,normalMap,NoTagMap,strItems]⟩
  | (k,v) :: items,⟨⟨s,hs,_⟩,hv,hvs⟩ => by
    obtain ⟨j,hj,hf,hd⟩ := toWire_payload v hv
    obtain ⟨ms,hm,hfs,hk,hds⟩ := toWireMap_payload items hvs
    subst hs
    refine ⟨(s,j) :: ms,by rw [toWireMap,hj,hm]; rfl,by simp [Json.finiteMap,hf,hfs],
      by rw [List.map_cons,List.map_cons,hk],?_⟩
    rw [NoTagMap,← hd,← hds,normalMap]
    constructor
    · rintro ⟨d,h,hi⟩
      cases d with
      | nil => cases hi
      | cons x d =>
        obtain ⟨k,w⟩ := x
        obtain ⟨hb,hm⟩ := (bind_map_cons (f := Prod.mk s)).mp h
        obtain ⟨⟨rfl,rfl⟩,hx⟩ : (k = s ∧ w = v.normal) ∧ strItems d = normalMap items := by
          simpa [strItems] using hi
        refine ⟨?_,d,hm,hx⟩
        cases hj : decodePayload j <;> simp_all [Except.map]
    · rintro ⟨h,d,hm,hi⟩
      refine ⟨(s,v.normal) :: d,(bind_map_cons (f := Prod.mk s)).mpr ⟨by rw [h]; rfl,hm⟩,?_⟩
      simpa [strItems] using hi
end

/-- A dict of a tuple, of bytes and of a number. -/
def sample : PyVal :=
  .dict [(.str (.ofCodes [107]),.tuple [.bytes .bytearray [1,2,3],.int (-1),.none])]

/-- The dict with the text of three encoded bytes under `$bytes`. -/
def lookalike : PyVal := .dict [(.str bytesKey,.str (.ofCodes [65,81,73,68]))]

end MaculaPy.Wire
