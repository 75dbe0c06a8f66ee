import MaculaPy.Wire.NativeError
import MaculaPy.Wire.PayloadText
import MaculaPy.Wire.Request

/-! # What items hold

Requests, events, stream frames and seal reports, as they are read off the dict that an item of
the native layer is decoded to.
-/
namespace MaculaPy.Wire

/-- What reading an item raises: a `KeyError`, or the error of a value that is no dict. -/
inductive ReadError
  | key (k : PyStr)
  | typeError (type : String)
  | attributeError (type : String)

def itemAt (items : List (PyVal × PyVal)) (k : PyStr) : Option PyVal :=
  items.findSome? fun x =>
    match x.1 with
    | .str s => if s = k then some x.2 else none
    | _ => none

namespace PyVal

/-- `item[k]`. -/
def field (v : PyVal) (k : PyStr) : Except ReadError PyVal :=
  match v with
  | .dict items => (itemAt items k).elim (.error (.key k)) .ok
  | v => .error (.typeError v.typeName)

/-- `item.get(k, default)`. -/
def get (v : PyVal) (k : PyStr) (default : PyVal) : Except ReadError PyVal :=
  match v with
  | .dict items => .ok ((itemAt items k).getD default)
  | v => .error (.attributeError v.typeName)

/-- `value == 1`. -/
def isOne : PyVal → Bool
  | .int i => i = 1
  | .bool b => b
  | .float x => x.bits = 0x3ff0000000000000#64
  | _ => false

/-- `bool(value)`. -/
def truthy : PyVal → Bool
  | .none => false
  | .bool b => b
  | .int i => i != 0
  | .float x => x.nonzero
  | .str s => !s.isEmpty
  | .bytes _ bs => !bs.isEmpty
  | .list vs => !vs.isEmpty
  | .tuple vs => !vs.isEmpty
  | .dict items => !items.isEmpty
  | .other _ => true

/-- `value == text`. -/
def is (text : String) : PyVal → Bool
  | .str s => s = .ofString text
  | _ => false

end PyVal

structure Request where
  caller : PyVal
  realm : PyVal
  procedure : PyVal
  payload : PyVal
  deadlineMs : PyVal
  sealed : Bool

/-- `request_from`. -/
def requestFrom (item : PyVal) : Except ReadError Request := do
  let caller ← item.field callerKey
  let realm ← item.field realmKey
  let procedure ← item.field procedureKey
  let payload ← item.get payloadKey .none
  let deadlineMs ← item.field deadlineKey
  let isSealed ← item.field sealedKey
  return ⟨caller,realm,procedure,payload,deadlineMs,isSealed.isOne⟩

structure SealReport where
  sealed : Bool
  provider : PyVal
  sealKeyId : PyVal

/-- `seal_report`. -/
def sealReport (item : PyVal) : Except ReadError SealReport := do
  let isSealed ← item.field sealedKey
  let provider ← item.field (.ofString "provider")
  let sealKeyId ← item.get (.ofString "seal_key_id") .none
  return ⟨isSealed.isOne,provider,sealKeyId⟩

structure Event where
  publisher : PyVal
  realm : PyVal
  topic : PyVal
  seq : PyVal
  publishedAt : PyVal
  payload : PyVal
  deliveredVia : PyVal
  sealed : Bool
  sealKeyId : PyVal
  unopened : PyVal

/-- The event that `Subscription.next` makes of an item. -/
def eventFrom (item : PyVal) : Except ReadError Event := do
  let publisher ← item.field (.ofString "publisher")
  let realm ← item.field realmKey
  let topic ← item.field (.ofString "topic")
  let seq ← item.field (.ofString "seq")
  let publishedAt ← item.field (.ofString "published_at")
  let payload ← item.get payloadKey .none
  let deliveredVia ← item.field (.ofString "delivered_via")
  let isSealed ← item.get sealedKey .none
  let sealKeyId ← item.get (.ofString "seal_key_id") .none
  let unopened ← item.get (.ofString "unopened") .none
  return ⟨publisher,realm,topic,seq,publishedAt,payload,deliveredVia,isSealed.isOne,sealKeyId,
    unopened⟩

inductive StreamFrame
  | data (body encoding : PyVal)
  | ended (role : PyVal)
  | reply (payload : PyVal)
  | eof

/-- What `_frame` raises: a `StreamError`, the `MaculaError` of an unknown kind, or what reading
the item raises. -/
inductive FrameError
  | stream (code detail : PyStr) (relay : Bool)
  | unknown (text : PyStr)
  | read (e : ReadError)

section Frames
variable (repr : PyVal → PyStr)

/-- `str(value or "")`. -/
def textOr (v : PyVal) : PyStr :=
  if v.truthy then
    match v with
    | .str s => s
    | v => repr v
  else []

/-- `_frame`. -/
def frame : PyVal → Except FrameError StreamFrame
  | .dict items =>
    let get (k : String) (default : PyVal) := (itemAt items (.ofString k)).getD default
    let kind := get "kind" .none
    if kind.is "data" then .ok (.data (get "body" .none) (get "encoding" (.str [])))
    else if kind.is "end" then .ok (.ended (get "role" (.str [])))
    else if kind.is "reply" then .ok (.reply (get "payload" .none))
    else if kind.is "eof" then .ok .eof
    else if kind.is "error" then
      .error (.stream (textOr repr (get "code" .none)) (textOr repr (get "message" .none))
        (get "relay" .none).isOne)
    else .error (.unknown (.ofString "macula-py: a stream frame of unknown kind " ++ repr kind))
  | v => .error (.read (.attributeError v.typeName))

end Frames

/-- An object with distinct keys, which is no tag, is decoded to the dict of its members. -/
theorem decode_members {ms : List (PyStr × Json)} {d : List (PyStr × PyVal)}
    (hd : decodeMap ms = .ok d) (hn : (ms.map Prod.fst).Nodup)
    (hk : ms.map Prod.fst ≠ [bytesKey]) : decodePayload (.obj ms) = .ok (strDict d) := by
  refine (decodePayload_obj hn _).mpr ⟨⟨d,hd,rfl⟩,?_⟩
  rintro ⟨s,hs⟩
  obtain rfl : d = [(bytesKey,.str s)] := strItems_injective hs
  exact hk (decodeMap_keys hd).symm

/-- A text that denotes such an object is read as the dict. -/
theorem decodeText_members {num : Numbers} {s : PyStr} {ms : List (PyStr × Json)}
    {d : List (PyStr × PyVal)} (hl : loadsText num s = some (.obj ms)) (hd : decodeMap ms = .ok d)
    (hn : (ms.map Prod.fst).Nodup) (hk : ms.map Prod.fst ≠ [bytesKey]) :
    decodeText num s = some (.ok (strDict d)) := by
  rw [decodeText,hl,Option.map_some,decode_members hd hn hk]

/-- Only a text is written as one. -/
theorem eq_str_of_toWire {v : PyVal} {s : PyStr} (h : toWire v = .ok (.str s)) : v = .str s := by
  cases v with
  | str t =>
    cases h
    rfl
  | int i =>
    rw [toWire] at h
    split at h <;> cases h
  | list vs => cases hv : toWireList vs <;> simp [toWire,hv,Except.map] at h
  | tuple vs => cases hv : toWireList vs <;> simp [toWire,hv,Except.map] at h
  | dict items => cases hv : toWireMap items <;> simp [toWire,hv,Except.map] at h
  | _ => simp [toWire] at h

theorem isTag_of_toWireMap {items : List (PyVal × PyVal)} {s : PyStr}
    (h : toWireMap items = .ok [(bytesKey,.str s)]) : IsTag items := by
  cases items with
  | nil => cases h
  | cons x items =>
    obtain ⟨k,v⟩ := x
    cases k with
    | str t =>
      rw [toWireMap] at h
      obtain ⟨j,ms,hj,hms,he⟩ := bind_map_eq_ok.mp h
      simp only [List.cons.injEq,Prod.mk.injEq] at he
      obtain ⟨⟨rfl,rfl⟩,rfl⟩ := he
      obtain rfl := eq_str_of_toWire hj
      cases items with
      | nil => exact ⟨s,rfl⟩
      | cons y items =>
        obtain ⟨k,w⟩ := y
        cases k with
        | str t =>
          rw [toWireMap] at hms
          obtain ⟨_,_,_,_,he⟩ := bind_map_eq_ok.mp hms
          cases he
        | _ => simp [toWireMap] at hms
    | _ => simp [toWireMap] at h

mutual
/-- What a payload without a dict like a tag is written as is a tree of the payload language. -/
theorem jsonPayload_of_toWire : ∀ (v : PyVal) (j : Json), v.Payload → v.NoTag →
    toWire v = .ok j → j.Payload
  | .none,j,_,_,h => by
    cases h
    trivial
  | .bool _,_,hv,_,_ => hv.elim
  | .int i,j,hv,_,h => by
    rw [toWire] at h
    split at h
    · cases h
      exact hv
    · cases h
  | .float x,j,hv,_,h => by
    cases h
    exact hv
  | .str s,j,_,_,h => by
    cases h
    trivial
  | .bytes k bs,j,_,_,h => by
    cases h
    refine ⟨by simp,?_,trivial,trivial⟩
    intro s hs
    simp only [List.cons.injEq,Prod.mk.injEq,Json.str.injEq,true_and,and_true] at hs
    exact ⟨bs,hs.symm⟩
  | .list vs,j,hv,ht,h => by
    rw [toWire] at h
    obtain ⟨js,hjs,rfl⟩ := map_eq_ok.mp h
    exact jsonPayload_of_toWireList vs js hv ht hjs
  | .tuple vs,j,hv,ht,h => by
    rw [toWire] at h
    obtain ⟨js,hjs,rfl⟩ := map_eq_ok.mp h
    exact jsonPayload_of_toWireList vs js hv ht hjs
  | .dict items,j,hv,ht,h => by
    rw [toWire] at h
    obtain ⟨ms,hms,rfl⟩ := map_eq_ok.mp h
    obtain ⟨ms',hms',-,hk,-⟩ := toWireMap_payload items hv.2
    rw [hms] at hms'
    cases hms'
    refine ⟨nodup_keys hk hv.1,?_,jsonPayload_of_toWireMap items ms hv.2 ht.2 hms⟩
    rintro s rfl
    exact absurd (isTag_of_toWireMap hms) ht.1
  | .other _,_,hv,_,_ => hv.elim

theorem jsonPayload_of_toWireList : ∀ (vs : List PyVal) (js : List Json), PayloadList vs →
    NoTagList vs → toWireList vs = .ok js → JsonPayloadList js
  | [],js,_,_,h => by
    cases h
    trivial
  | v :: vs,js,hv,ht,h => by
    rw [toWireList] at h
    obtain ⟨j,js',hj,hjs,rfl⟩ := bind_map_eq_ok.mp h
    exact ⟨jsonPayload_of_toWire v j hv.1 ht.1 hj,jsonPayload_of_toWireList vs js' hv.2 ht.2 hjs⟩

theorem jsonPayload_of_toWireMap : ∀ (items : List (PyVal × PyVal)) (ms : List (PyStr × Json)),
    PayloadMap items → NoTagMap items → toWireMap items = .ok ms → JsonPayloadMap ms
  | [],ms,_,_,h => by
    cases h
    trivial
  | (k,v) :: items,ms,⟨⟨s,hk,_⟩,hv,hi⟩,ht,h => by
    subst hk
    rw [toWireMap] at h
    obtain ⟨j,ms',hj,hms,rfl⟩ := bind_map_eq_ok.mp h
    exact ⟨jsonPayload_of_toWire v j hv ht.1 hj,jsonPayload_of_toWireMap items ms' hi ht.2 hms⟩
end

end MaculaPy.Wire
