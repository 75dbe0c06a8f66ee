import MaculaPy.Serving.Answer
import MaculaPy.Wire.Items

/-! # A remote call

`Pool.call` on one node and the handler of a served procedure on another, from the payload the one
is called with to what the call returns or raises. The native layers and the mesh between the two
hand on what a text denotes; each may write it in its own way.
-/
namespace MaculaPy.Peers
open Wire Serving

/-- What a request says beside its payload. -/
structure Exchange where
  caller : PyStr
  realm : PyStr
  procedure : PyStr
  deadlineMs : ℤ
  sealed : Bool

namespace Exchange
variable (x : Exchange)

/-- The members of a request, as `macula_served_next` gives them. -/
def members (payload : Json) : List (PyStr × Json) :=
  [(callerKey,.str x.caller),(realmKey,.str x.realm),(procedureKey,.str x.procedure),
    (payloadKey,payload),(deadlineKey,.int x.deadlineMs),
    (sealedKey,.int (if x.sealed then 1 else 0))]

def request (payload : PyVal) : Request :=
  ⟨.str x.caller,.str x.realm,.str x.procedure,payload,.int x.deadlineMs,x.sealed⟩

end Exchange

def handlerErrorCode : PyStr := .ofString "handler_error"

/-- What lies between a caller and a provider. A UTF-8 text with a payload reaches the other side
as a text that denotes the same, a request with its other members beside it, and the detail of an
error as the provider error of a handler. -/
structure Mesh (num : Numbers) where
  exchange : Exchange
  request : PyStr → PyStr
  result : PyStr → PyStr
  error : PyStr → PyStr
  asks : ∀ s j, s.scalar = true → j.Payload → loadsText num s = some j →
    loadsText num (request s) = some (.obj (exchange.members j))
  answers : ∀ s j, s.scalar = true → j.Payload → loadsText num s = some j →
    loadsText num (result s) = some j
  fails : ∀ detail, detail.scalar = true → ∃ ms, loadsText num (error detail) = some (.obj ms) ∧
    member? ms "kind" = some (.str (.ofString "provider_error")) ∧
    errorGet ms "code" = .str handlerErrorCode ∧ errorGet ms "detail" = .str detail

/-- How `call` ends: it returns, `encode_payload` refuses the payload, the native layer reports an
error, what it gives cannot be read, or the provider never answers. -/
inductive CallEnd
  | returned (v : PyVal)
  | refused (e : PyError)
  | raised (e : NativeException)
  | unread
  | unanswered

section Call
variable (num : Numbers) (floatText : Binary64 → Numeral) (repr : Json → PyStr)

/-- `dispatch` of an item's text, up to the answer that `_answer_call` makes. -/
def answered (handler : Request → HandlerEnd) (item : PyStr) : Option Answer :=
  match decodeText num item with
  | some (.ok v) =>
    match requestFrom v with
    | .ok q => answerOf (handler q)
    | .error _ => none
  | _ => none

variable {num}

/-- What `call` makes of what the native layer gives for an answer. -/
def Mesh.received (m : Mesh num) : Answer → CallEnd
  | .reply j =>
    match decodeText num (m.result (dumpsText floatText true j)) with
    | some (.ok v) => .returned v
    | _ => .unread
  | .error detail =>
    match nativeError repr (loadsText num) (m.error detail) with
    | .ok e => .raised e
    | .error _ => .unread

/-- `call` over the mesh. -/
def Mesh.call (m : Mesh num) (handler : Request → HandlerEnd) (payload : PyVal) : CallEnd :=
  match encodeText floatText payload with
  | .error e => .refused e
  | .ok s => (answered num handler (m.request s)).elim .unanswered (m.received floatText repr)

end Call

/-- What a call would end with that reached the handler by itself: the result as payloads come
back, or the handler's error as the provider's. -/
def handled : HandlerEnd → CallEnd
  | .returned r =>
    match encodePayload r with
    | .ok _ => .returned r.normal
    | .error e => .raised (.provider handlerErrorCode e.text)
  | .raised text => .raised (.provider handlerErrorCode text)
  | .cancelled args => .raised (.provider handlerErrorCode (detail args))

/-- A result that is a payload or is refused, and an error that UTF-8 can carry. -/
def Sound : HandlerEnd → Prop
  | .returned r => (∃ j, encodePayload r = .ok j) → r.Payload ∧ r.NoTag
  | .raised text => text.scalar = true
  | .cancelled _ => True

variable {num : Numbers} {floatText : Binary64 → Numeral} {repr : Json → PyStr}
  {handler : Request → HandlerEnd}

theorem scalar_detail (args : List PyVal) : (detail args).scalar = true := by
  unfold detail
  split
  · split <;> decide
  · decide

theorem encodePayload_payload {v : PyVal} (hv : v.Payload) (ht : v.NoTag) :
    ∃ j, encodePayload v = .ok j ∧ j.Payload ∧ decodePayload j = .ok v.normal := by
  obtain ⟨j,hj,hfin,hd⟩ := toWire_payload v hv
  exact ⟨j,by rw [encodePayload,hj,Except.bind,dumps,if_pos hfin],
    jsonPayload_of_toWire v j hv ht hj,hd.mpr ht⟩

theorem scalar_dumpsText (j : Json) : (dumpsText floatText true j).scalar = true :=
  PyStr.scalar_ofCodes (Doc.text_lt _)

/-- The text of a payload is a UTF-8 text that denotes what the payload is written as. -/
theorem loadsText_payload (hf : ReadsFloats num floatText) {v : PyVal} {j : Json}
    (hv : v.Payload) (hj : encodePayload v = .ok j) :
    loadsText num (dumpsText floatText true j) = some j :=
  loadsText_encodeText hf (scalar_of_payload v hv) hj

/-- A request is read as what it says. -/
theorem requestFrom_members (x : Exchange) {j : Json} {v : PyVal} (hd : decodePayload j = .ok v) :
    ∃ item, decodePayload (.obj (x.members j)) = .ok item ∧ requestFrom item = .ok (x.request v) := by
  have hmap : decodeMap (x.members j) = .ok [(callerKey,.str x.caller),(realmKey,.str x.realm),
      (procedureKey,.str x.procedure),(payloadKey,v),(deadlineKey,.int x.deadlineMs),
      (sealedKey,.int (if x.sealed then 1 else 0))] := by
    simp [Exchange.members,decodeMap,decodePayload,hd,Except.bind,Except.map]
  have hn : ((x.members j).map Prod.fst).Nodup := by
    change [callerKey,realmKey,procedureKey,payloadKey,deadlineKey,sealedKey].Nodup
    decide
  refine ⟨_,decode_members hmap hn (by simp [Exchange.members]),?_⟩
  have hone : (PyVal.int (if x.sealed then 1 else 0)).isOne = x.sealed := by
    cases x.sealed <;> rfl
  have hread : requestFrom (strDict [(callerKey,.str x.caller),(realmKey,.str x.realm),
      (procedureKey,.str x.procedure),(payloadKey,v),(deadlineKey,.int x.deadlineMs),
      (sealedKey,.int (if x.sealed then 1 else 0))]) = .ok ⟨.str x.caller,.str x.realm,
        .str x.procedure,v,.int x.deadlineMs,(PyVal.int (if x.sealed then 1 else 0)).isOne⟩ := rfl
  rw [hread,hone]
  rfl

theorem str_or (s : PyStr) : str repr ((Json.str s).or (.str [])) = s := by
  cases s <;> rfl

/-- A handler's error is raised as the provider's. -/
theorem nativeError_fails (m : Mesh num) {detail : PyStr} (h : detail.scalar = true) :
    nativeError repr (loadsText num) (m.error detail) =
      .ok (.provider handlerErrorCode detail) := by
  obtain ⟨ms,hms,hk,hc,hd⟩ := m.fails detail h
  have hnot : (Json.str (.ofString "provider_error")).is "cancelled" = false := by decide
  have hkind : (Json.str (.ofString "provider_error")).is "provider_error" = true := by decide
  simp only [nativeError,hms,hk,errorOf,hnot,hkind,hc,hd,str_or,Bool.false_eq_true,if_false,
    if_true]

/-- The answer a provider makes of the handler's end, as the caller has it. -/
theorem received_answer (repr : Json → PyStr) (hf : ReadsFloats num floatText) (m : Mesh num)
    {o : HandlerEnd} (ho : Sound o) :
    ∃ a, answerOf o = some a ∧ m.received floatText repr a = handled o := by
  cases o with
  | returned r =>
    cases hr : encodePayload r with
    | error e =>
      refine ⟨.error e.text,by simp [answerOf,hr,errorAnswer,e.scalar_text],?_⟩
      simp only [Mesh.received,nativeError_fails m e.scalar_text,handled,hr]
    | ok j =>
      obtain ⟨hp,ht⟩ := ho ⟨j,hr⟩
      obtain ⟨j',hj',hpay,hd⟩ := encodePayload_payload hp ht
      rw [hr] at hj'
      cases hj'
      have hres := m.answers _ j (scalar_dumpsText j) hpay (loadsText_payload hf hp hr)
      refine ⟨.reply j,by simp [answerOf,hr],?_⟩
      simp only [Mesh.received,decodeText,hres,Option.map_some,hd,handled,hr]
  | raised text =>
    have ht : text.scalar = true := ho
    refine ⟨.error text,by simp [answerOf,errorAnswer,ht],?_⟩
    simp only [Mesh.received,nativeError_fails m ht,handled]
  | cancelled args =>
    refine ⟨.error (detail args),rfl,?_⟩
    simp only [Mesh.received,nativeError_fails m (scalar_detail args),handled]

/-- The item that a payload reaches the provider in is read as the request it was sent with. -/
theorem requestFrom_asked (hf : ReadsFloats num floatText) (m : Mesh num) {p : PyVal} {s : PyStr}
    (hp : p.Payload) (ht : p.NoTag) (hs : encodeText floatText p = .ok s) :
    ∃ item, decodeText num (m.request s) = some (.ok item) ∧
      requestFrom item = .ok (m.exchange.request p.normal) := by
  obtain ⟨j,hj,hpay,hd⟩ := encodePayload_payload hp ht
  rw [encodeText,hj] at hs
  cases hs
  have hreq := m.asks _ j (scalar_dumpsText j) hpay (loadsText_payload hf hp hj)
  obtain ⟨item,hitem,hread⟩ := requestFrom_members m.exchange hd
  exact ⟨item,by rw [decodeText,hreq,Option.map_some,hitem],hread⟩

theorem encodeText_payload (floatText : Binary64 → Numeral) {p : PyVal} (hp : p.Payload) (ht : p.NoTag) :
    ∃ s, encodeText floatText p = .ok s := by
  obtain ⟨j,hj,-⟩ := encodePayload_payload hp ht
  exact ⟨dumpsText floatText true j,by rw [encodeText,hj]; rfl⟩

/-- A tree that is read back as it is written. -/
structure Writable (j : Json) : Prop where
  fits : j.Fits bitsNumbers
  apart : ∀ t ∈ (j.doc bitsText).texts, Apart t.codes

theorem Writable.read_back {j : Json} (h : Writable j) :
    loadsText bitsNumbers (dumpsText bitsText false j) = some j :=
  loadsText_of_apart bits_readsFloats h.fits h.apart

theorem writable_str {s : PyStr} (hs : s.scalar = true) : Writable (.str s) where
  fits := trivial
  apart t ht := by
    obtain rfl := List.mem_singleton.mp ht
    exact PyStr.apart_of_scalar hs

theorem writable_label (s : String) : Writable (.str (.ofString s)) :=
  writable_str (PyStr.scalar_ofString s)

theorem writable_int {i : ℤ} (hi : int64Min ≤ i ∧ i ≤ int64Max) : Writable (.int i) where
  fits := bitsNumbers.fits_int64 hi
  apart t ht := by cases ht

theorem writable_payload {s : PyStr} {j : Json} (hs : s.scalar = true) (hj : j.Payload)
    (hl : loadsText bitsNumbers s = some j) : Writable j :=
  ⟨fits_of_payload j hj,apart_of_read hs hl⟩

theorem writable_members {ms : List (PyStr × Json)}
    (h : ∀ m ∈ ms, m.1.scalar = true ∧ Writable m.2) : Writable (.obj ms) := by
  induction ms with
  | nil => exact ⟨trivial,fun t ht => by cases ht⟩
  | cons m ms ih =>
    obtain ⟨hkey,hm⟩ := h m List.mem_cons_self
    have hms := ih fun n hn => h n (List.mem_cons_of_mem m hn)
    refine ⟨⟨hm.fits,hms.fits⟩,fun t ht => ?_⟩
    change t ∈ m.1 :: (m.2.doc bitsText).texts ++ ((Json.obj ms).doc bitsText).texts at ht
    rw [List.cons_append,List.mem_cons,List.mem_append] at ht
    rcases ht with rfl | ht | ht
    · exact PyStr.apart_of_scalar hkey
    · exact hm.apart t ht
    · exact hms.apart t ht

def anExchange : Exchange := ⟨.ofCodes [97],.ofCodes [98],.ofCodes [99],1000,true⟩

def aFailure (detail : PyStr) : List (PyStr × Json) :=
  [(.ofString "kind",.str (.ofString "provider_error")),(.ofString "code",.str handlerErrorCode),
    (.ofString "detail",.str detail)]

/-- A mesh that writes every text anew, with spaces. -/
def spacing : Mesh bitsNumbers where
  exchange := anExchange
  request s := (loadsText bitsNumbers s).elim [] fun j =>
    dumpsText bitsText false (.obj (anExchange.members j))
  result s := (loadsText bitsNumbers s).elim [] (dumpsText bitsText false)
  error detail := dumpsText bitsText false (.obj (aFailure detail))
  asks s j hs hj hl := by
    have hkeys : ∀ t ∈ [callerKey,anExchange.caller,realmKey,anExchange.realm,procedureKey,
        anExchange.procedure,payloadKey,deadlineKey,sealedKey], t.scalar = true := by decide
    have hint : ∀ i ∈ [anExchange.deadlineMs,if anExchange.sealed then 1 else 0],
        int64Min ≤ i ∧ i ≤ int64Max := by decide
    simp only [List.forall_mem_cons,List.not_mem_nil,false_implies,implies_true,and_true]
      at hkeys hint
    rw [hl,Option.elim_some]
    refine (writable_members ?_).read_back
    simp [Exchange.members,hkeys,writable_str,writable_int hint.1,writable_int hint.2,
      writable_payload hs hj hl]
  answers s j hs hj hl := by
    rw [hl,Option.elim_some]
    exact (writable_payload hs hj hl).read_back
  fails detail hs := by
    refine ⟨aFailure detail,(writable_members ?_).read_back,rfl,rfl,rfl⟩
    simp [aFailure,PyStr.scalar_ofString,writable_label,writable_str hs,handlerErrorCode]

/-- A handler that gives back its payload with some bytes. -/
def withBytes (q : Request) : HandlerEnd := .returned (.tuple [q.payload,.bytes .bytearray [1]])

end MaculaPy.Peers
