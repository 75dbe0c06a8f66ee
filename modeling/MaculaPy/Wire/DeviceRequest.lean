import MaculaPy.Wire.Inside
import MaculaPy.Wire.RoundTrip

/-! # A device's request as JSON

Under the HTTP rule a request is written by `json.dumps` itself, which turns keys that are
not texts into texts. The body read back is the request given exactly when every key in it
is a text.
-/
namespace MaculaPy.Wire

inductive Rule
  | http
  | mesh
  deriving DecidableEq, Repr

/-- `rule_code`. -/
def Rule.code : Rule → ℤ
  | .http => 0
  | .mesh => 1

inductive DeviceRequest
  | mapping (v : PyVal)
  | text (s : PyStr)

/-- What `request_json` returns, before it is encoded: JSON written here, or a text as given. -/
inductive Body
  | json (j : Json)
  | text (s : PyStr)

def notSerializable (v : PyVal) : PyError :=
  .typeError s!"Object of type {v.typeName} is not JSON serializable"

def outOfRange : PyError := .valueError "Out of range float values are not JSON compliant"

/-- `s.encode()` of a text with a lone surrogate. -/
def surrogatesNotAllowed : PyError := .valueError "surrogates not allowed"

section Dumps
variable (floatText : Binary64 → PyStr)

/-- The member name `json.dumps` makes of a key; `floatText` is `float.__repr__`. -/
def memberName : PyVal → Except PyError PyStr
  | .str s => .ok s
  | .bool b => .ok (.ofString (if b then "true" else "false"))
  | .none => .ok (.ofString "null")
  | .int i => .ok (.ofString (toString i))
  | .float x => if x.finite then .ok (floatText x) else .error outOfRange
  | k => .error (.typeError s!"keys must be str, int, float, bool or None, not {k.typeName}")

mutual
/-- `json.dumps` with `allow_nan=False`, of any value. -/
def dumpsValue : PyVal → Except PyError Json
  | .none => .ok .null
  | .bool b => .ok (.bool b)
  | .int i => .ok (.int i)
  | .float x => if x.finite then .ok (.float x) else .error outOfRange
  | .str s => .ok (.str s)
  | .bytes k bs => .error (notSerializable (.bytes k bs))
  | .list vs => (dumpsList vs).map .arr
  | .tuple vs => (dumpsList vs).map .arr
  | .dict items => (dumpsMap items).map .obj
  | .other t => .error (notSerializable (.other t))

def dumpsList : List PyVal → Except PyError (List Json)
  | [] => .ok []
  | v :: vs => (dumpsValue v).bind fun j => (dumpsList vs).map (j :: ·)

def dumpsMap : List (PyVal × PyVal) → Except PyError (List (PyStr × Json))
  | [] => .ok []
  | (k,v) :: items => (memberName floatText k).bind fun s =>
    (dumpsValue v).bind fun j => (dumpsMap items).map ((s,j) :: ·)
end

/-- `request_json`. -/
def requestJson : DeviceRequest → Rule → Except PyError Body
  | .text s,.http => if s.scalar then .ok (.text s) else .error surrogatesNotAllowed
  | .text _,.mesh => .error (.typeError "macula-py: a mesh request is a mapping, not JSON text")
  | .mapping v,.http => (dumpsValue floatText v).map .json
  | .mapping v,.mesh => (encodePayload v).map .json

end Dumps

mutual
/-- `json.loads`. -/
def loads : Json → PyVal
  | .null => .none
  | .bool b => .bool b
  | .int i => .int i
  | .float x => .float x
  | .str s => .str s
  | .arr js => .list (loadsList js)
  | .obj ms => strDict ((loadsMap ms).foldl setItem [])

def loadsList : List Json → List PyVal
  | [] => []
  | j :: js => loads j :: loadsList js

def loadsMap : List (PyStr × Json) → List (PyStr × PyVal)
  | [] => []
  | (k,j) :: ms => (k,loads j) :: loadsMap ms
end

mutual
/-- A value with its tuples as lists. -/
def PyVal.listed : PyVal → PyVal
  | .list vs => .list (listedList vs)
  | .tuple vs => .list (listedList vs)
  | .dict items => .dict (listedMap items)
  | v => v

def listedList : List PyVal → List PyVal
  | [] => []
  | v :: vs => v.listed :: listedList vs

def listedMap : List (PyVal × PyVal) → List (PyVal × PyVal)
  | [] => []
  | (k,v) :: items => (k,v.listed) :: listedMap items
end

mutual
/-- No object, at any depth, has two members of one name. -/
def Json.DistinctNames : Json → Prop
  | .arr js => DistinctNamesList js
  | .obj ms => (ms.map Prod.fst).Nodup ∧ DistinctNamesMap ms
  | _ => True

def DistinctNamesList : List Json → Prop
  | [] => True
  | j :: js => j.DistinctNames ∧ DistinctNamesList js

def DistinctNamesMap : List (PyStr × Json) → Prop
  | [] => True
  | (_,j) :: ms => j.DistinctNames ∧ DistinctNamesMap ms
end

def PyVal.KeysText : PyVal → Prop
  | .dict items => ∀ x ∈ items, ∃ s, x.1 = .str s
  | _ => True

def PyVal.KeysDistinct : PyVal → Prop
  | .dict items => (items.map Prod.fst).Nodup
  | _ => True

/-- Every key of every dict inside is a text. -/
def PyVal.TextKeys (v : PyVal) : Prop := v.All PyVal.KeysText

/-- No dict inside has a key twice, as in any Python value. -/
def PyVal.DistinctKeys (v : PyVal) : Prop := v.All PyVal.KeysDistinct

theorem loadsMap_keys (ms : List (PyStr × Json)) :
    (loadsMap ms).map Prod.fst = ms.map Prod.fst := by
  induction ms with
  | nil => rfl
  | cons m ms ih => rw [loadsMap,List.map_cons,List.map_cons,ih]

theorem mem_setItem {d : List (PyStr × PyVal)} {x y : PyStr × PyVal} (h : y ∈ setItem d x) :
    y ∈ d ∨ y = x := by
  unfold setItem at h
  split at h
  · obtain ⟨z,hz,rfl⟩ := List.mem_map.mp h
    split
    · exact Or.inr rfl
    · exact Or.inl hz
  · simpa using h

theorem mem_foldl_setItem {d acc : List (PyStr × PyVal)} {y : PyStr × PyVal}
    (h : y ∈ d.foldl setItem acc) : y ∈ acc ∨ y ∈ d := by
  induction d generalizing acc with
  | nil => exact Or.inl h
  | cons x d ih =>
    rcases ih h with h | h
    · apply (mem_setItem h).imp_right
      rintro rfl
      exact List.mem_cons_self
    · exact Or.inr (List.mem_cons_of_mem x h)

mutual
/-- What is read back has only texts for keys. -/
theorem loads_textKeys : ∀ j : Json, (loads j).TextKeys
  | .null => (PyVal.all_leaf (by rintro w ⟨⟩; rfl)).mpr trivial
  | .bool b => (PyVal.all_leaf (by rintro w ⟨⟩; rfl)).mpr trivial
  | .int i => (PyVal.all_leaf (by rintro w ⟨⟩; rfl)).mpr trivial
  | .float x => (PyVal.all_leaf (by rintro w ⟨⟩; rfl)).mpr trivial
  | .str s => (PyVal.all_leaf (by rintro w ⟨⟩; rfl)).mpr trivial
  | .arr js => PyVal.all_list.mpr ⟨trivial,loadsList_textKeys js⟩
  | .obj ms => by
    refine PyVal.all_dict.mpr ⟨?_,?_⟩
    · rintro x hx
      obtain ⟨y,_,rfl⟩ := List.mem_map.mp hx
      exact ⟨y.1,rfl⟩
    · rintro x hx
      obtain ⟨y,hy,rfl⟩ := List.mem_map.mp hx
      exact loadsMap_textKeys ms y ((mem_foldl_setItem hy).resolve_left (by simp))

theorem loadsList_textKeys : ∀ js : List Json, ∀ v ∈ loadsList js, v.TextKeys
  | [] => by simp [loadsList]
  | j :: js => List.forall_mem_cons.mpr ⟨loads_textKeys j,loadsList_textKeys js⟩

theorem loadsMap_textKeys : ∀ ms : List (PyStr × Json), ∀ x ∈ loadsMap ms, x.2.TextKeys
  | [] => by simp [loadsMap]
  | (_,j) :: ms => List.forall_mem_cons.mpr ⟨loads_textKeys j,loadsMap_textKeys ms⟩
end

mutual
/-- Reading tuples as lists leaves the keys as they are. -/
theorem textKeys_of_listed : ∀ v : PyVal, v.listed.TextKeys → v.TextKeys
  | .none,h => h
  | .bool _,h => h
  | .int _,h => h
  | .float _,h => h
  | .str _,h => h
  | .bytes _ _,h => h
  | .list vs,h => PyVal.all_list.mpr ⟨trivial,textKeys_of_listedList vs (PyVal.all_list.mp h).2⟩
  | .tuple vs,h => PyVal.all_tuple.mpr ⟨trivial,textKeys_of_listedList vs (PyVal.all_list.mp h).2⟩
  | .dict items,h => by
    obtain ⟨hk,hv⟩ := PyVal.all_dict.mp h
    have hi := textKeys_of_listedMap items (fun x hx => ⟨hk x hx,hv x hx⟩)
    exact PyVal.all_dict.mpr ⟨fun x hx => (hi x hx).1,fun x hx => (hi x hx).2⟩
  | .other _,h => h

theorem textKeys_of_listedList : ∀ vs : List PyVal, (∀ v ∈ listedList vs, v.TextKeys) →
    ∀ v ∈ vs, v.TextKeys
  | [],_ => by simp
  | v :: vs,h => by
    obtain ⟨hv,hvs⟩ := List.forall_mem_cons.mp h
    exact List.forall_mem_cons.mpr ⟨textKeys_of_listed v hv,textKeys_of_listedList vs hvs⟩

theorem textKeys_of_listedMap : ∀ items : List (PyVal × PyVal),
    (∀ x ∈ listedMap items, (∃ s, x.1 = .str s) ∧ x.2.TextKeys) →
    ∀ x ∈ items, (∃ s, x.1 = .str s) ∧ x.2.TextKeys
  | [],_ => by simp
  | (k,v) :: items,h => by
    obtain ⟨⟨hk,hv⟩,hi⟩ := List.forall_mem_cons.mp h
    exact List.forall_mem_cons.mpr ⟨⟨hk,textKeys_of_listed v hv⟩,textKeys_of_listedMap items hi⟩
end

section Read
variable {floatText : Binary64 → PyStr}

mutual
/-- With texts for keys, what was written is read back, and no member of it repeats. -/
theorem loads_dumps : ∀ (v : PyVal) (j : Json), v.TextKeys → v.DistinctKeys →
    dumpsValue floatText v = .ok j → loads j = v.listed ∧ j.DistinctNames
  | .none,j,_,_,h => by cases h; exact ⟨rfl,trivial⟩
  | .bool b,j,_,_,h => by cases h; exact ⟨rfl,trivial⟩
  | .int i,j,_,_,h => by cases h; exact ⟨rfl,trivial⟩
  | .float x,j,_,_,h => by
    rw [dumpsValue] at h
    split at h <;> cases h
    exact ⟨rfl,trivial⟩
  | .str s,j,_,_,h => by cases h; exact ⟨rfl,trivial⟩
  | .bytes k bs,j,_,_,h => by cases h
  | .list vs,j,ht,hd,h => by
    obtain ⟨js,hjs,rfl⟩ := map_eq_ok.mp h
    obtain ⟨hl,hn⟩ := loads_dumpsList vs js (PyVal.all_list.mp ht).2 (PyVal.all_list.mp hd).2 hjs
    exact ⟨congrArg PyVal.list hl,hn⟩
  | .tuple vs,j,ht,hd,h => by
    obtain ⟨js,hjs,rfl⟩ := map_eq_ok.mp h
    obtain ⟨hl,hn⟩ := loads_dumpsList vs js (PyVal.all_tuple.mp ht).2 (PyVal.all_tuple.mp hd).2 hjs
    exact ⟨congrArg PyVal.list hl,hn⟩
  | .dict items,j,ht,hd,h => by
    obtain ⟨ms,hms,rfl⟩ := map_eq_ok.mp h
    obtain ⟨htk,htv⟩ := PyVal.all_dict.mp ht
    obtain ⟨hdk,hdv⟩ := PyVal.all_dict.mp hd
    obtain ⟨hl,hk,hn⟩ := loads_dumpsMap items ms htk htv hdv hms
    have hnodup : (ms.map Prod.fst).Nodup := nodup_keys hk hdk
    have hfold : (loadsMap ms).foldl setItem [] = loadsMap ms :=
      foldl_setItem_nil (loadsMap_keys ms ▸ hnodup)
    refine ⟨?_,hnodup,hn⟩
    rw [loads,hfold,strDict,hl,PyVal.listed]
  | .other t,j,_,_,h => by cases h

theorem loads_dumpsList : ∀ (vs : List PyVal) (js : List Json), (∀ v ∈ vs, v.TextKeys) →
    (∀ v ∈ vs, v.DistinctKeys) → dumpsList floatText vs = .ok js →
    loadsList js = listedList vs ∧ DistinctNamesList js
  | [],js,_,_,h => by cases h; exact ⟨rfl,trivial⟩
  | v :: vs,js,ht,hd,h => by
    obtain ⟨j,js',hj,hjs,rfl⟩ := bind_map_eq_ok.mp h
    obtain ⟨htv,htvs⟩ := List.forall_mem_cons.mp ht
    obtain ⟨hdv,hdvs⟩ := List.forall_mem_cons.mp hd
    obtain ⟨hl,hn⟩ := loads_dumps v j htv hdv hj
    obtain ⟨hls,hns⟩ := loads_dumpsList vs js' htvs hdvs hjs
    exact ⟨by rw [loadsList,listedList,hl,hls],hn,hns⟩

theorem loads_dumpsMap : ∀ (items : List (PyVal × PyVal)) (ms : List (PyStr × Json)),
    (∀ x ∈ items, ∃ s, x.1 = .str s) → (∀ x ∈ items, x.2.TextKeys) →
    (∀ x ∈ items, x.2.DistinctKeys) → dumpsMap floatText items = .ok ms →
    strItems (loadsMap ms) = listedMap items ∧
      items.map Prod.fst = ms.map (fun m => .str m.1) ∧ DistinctNamesMap ms
  | [],ms,_,_,_,h => by cases h; exact ⟨rfl,rfl,trivial⟩
  | (k,v) :: items,ms,hk,ht,hd,h => by
    obtain ⟨⟨s,hs⟩,hks⟩ := List.forall_mem_cons.mp hk
    obtain ⟨htv,hts⟩ := List.forall_mem_cons.mp ht
    obtain ⟨hdv,hds⟩ := List.forall_mem_cons.mp hd
    obtain rfl : k = .str s := hs
    obtain ⟨j,ms',hj,hms,rfl⟩ := bind_map_eq_ok.mp h
    obtain ⟨hl,hn⟩ := loads_dumps v j htv hdv hj
    obtain ⟨hls,hkeys,hns⟩ := loads_dumpsMap items ms' hks hts hds hms
    refine ⟨?_,by rw [List.map_cons,List.map_cons,hkeys],hn,hns⟩
    rw [strItems] at hls
    rw [loadsMap,strItems,List.map_cons,hls,listedMap,hl]
end

end Read

/-- A request whose one key is a text. -/
def joinRequest : PyVal := .dict [(.str (.ofCodes [118]),.int 2)]

/-- A request with the number 1 and the text `1` as keys. -/
def numberKey : PyVal :=
  .dict [(.int 1,.str (.ofCodes [97])),(.str (.ofCodes [49]),.str (.ofCodes [98]))]

end MaculaPy.Wire
