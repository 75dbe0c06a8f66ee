import MaculaPy.Wire.RoundTrip

/-! # Requests from the wire

The values macula's wire carries and the JSON the native layer renders them as. A map
whose only key is `$bytes` renders as the tag of a bytes value does, and what decodes it
reads its text as base64, so not every wire value decodes.
-/
namespace MaculaPy.Wire

inductive WireValue
  | null
  | int (i : ℤ)
  | float (x : Binary64)
  | text (s : PyStr)
  | bytes (bs : List UInt8)
  | list (vs : List WireValue)
  | map (members : List (PyStr × WireValue))

mutual
/-- Integers are int64, floats finite, texts UTF-8 and the keys of a map distinct. -/
def WireValue.Valid : WireValue → Prop
  | .null => True
  | .int i => int64Min ≤ i ∧ i ≤ int64Max
  | .float x => x.finite = true
  | .text s => s.scalar = true
  | .bytes _ => True
  | .list vs => ValidList vs
  | .map ms => (ms.map Prod.fst).Nodup ∧ ValidMap ms

def ValidList : List WireValue → Prop
  | [] => True
  | v :: vs => v.Valid ∧ ValidList vs

def ValidMap : List (PyStr × WireValue) → Prop
  | [] => True
  | (k,v) :: ms => k.scalar = true ∧ v.Valid ∧ ValidMap ms
end

mutual
/-- The JSON the native layer makes of a wire value. -/
def WireValue.render : WireValue → Json
  | .null => .null
  | .int i => .int i
  | .float x => .float x
  | .text s => .str s
  | .bytes bs => .obj [(bytesKey,.str (b64encode bs))]
  | .list vs => .arr (renderList vs)
  | .map ms => .obj (renderMap ms)

def renderList : List WireValue → List Json
  | [] => []
  | v :: vs => v.render :: renderList vs

def renderMap : List (PyStr × WireValue) → List (PyStr × Json)
  | [] => []
  | (k,v) :: ms => (k,v.render) :: renderMap ms
end

mutual
/-- Every map, at any depth, whose only key is `$bytes` and holds a text holds base64. -/
def WireValue.TagsDecode : WireValue → Prop
  | .null => True
  | .int _ => True
  | .float _ => True
  | .text _ => True
  | .bytes _ => True
  | .list vs => TagsDecodeList vs
  | .map ms => (∀ s, ms = [(bytesKey,.text s)] → ∃ bs, b64decode s = .ok bs) ∧ TagsDecodeMap ms

def TagsDecodeList : List WireValue → Prop
  | [] => True
  | v :: vs => v.TagsDecode ∧ TagsDecodeList vs

def TagsDecodeMap : List (PyStr × WireValue) → Prop
  | [] => True
  | (_,v) :: ms => v.TagsDecode ∧ TagsDecodeMap ms
end

theorem renderMap_keys (ms : List (PyStr × WireValue)) :
    (renderMap ms).map Prod.fst = ms.map Prod.fst := by
  induction ms with
  | nil => rfl
  | cons m ms ih => rw [renderMap,List.map_cons,List.map_cons,ih]

/-- The hook fails on the tag of a text that is not base64, and on nothing else. -/
theorem fromWire_ok_iff (d : List (PyStr × PyVal)) : (∃ v, fromWire d = .ok v) ↔
    ∀ s, d = [(bytesKey,.str s)] → ∃ bs, b64decode s = .ok bs := by
  by_cases ht : IsTag (strItems d)
  · obtain ⟨s,hs⟩ := ht
    obtain rfl : d = [(bytesKey,.str s)] := strItems_injective hs
    simp only [fromWire,↓reduceIte]
    cases hb : b64decode s with
    | error e => simp [Except.map,hb]
    | ok bs => simp [Except.map,hb]
  · have hno : ∀ s, d ≠ [(bytesKey,.str s)] := by
      rintro s rfl
      exact ht ⟨s,rfl⟩
    constructor
    · exact fun _ s h => absurd h (hno s)
    · exact fun _ => ⟨_,fromWire_of_not_tag ht⟩

theorem fromWire_ne_str (d : List (PyStr × PyVal)) (s : PyStr) : fromWire d ≠ .ok (.str s) := by
  unfold fromWire
  split
  · next k t =>
    split
    · cases b64decode t <;> simp [Except.map]
    · simp [strDict]
  · simp [strDict]

/-- Only a text decodes to a text. -/
theorem text_of_decode {w : WireValue} {s : PyStr} (h : decodePayload w.render = .ok (.str s)) :
    w = .text s := by
  have hobj : ∀ ms, decodePayload (.obj ms) ≠ .ok (.str s) := by
    intro ms
    rw [decodePayload]
    cases decodeMap ms with
    | error e => simp [Except.bind]
    | ok d => exact fromWire_ne_str _ s
  cases w with
  | text t =>
    have ht : t = s := by simpa [WireValue.render,decodePayload] using h
    rw [ht]
  | list vs =>
    rw [WireValue.render,decodePayload] at h
    cases hd : decodeList (renderList vs) <;> simp [hd,Except.map] at h
  | bytes bs => exact absurd h (hobj _)
  | map ms => exact absurd h (hobj _)
  | _ => simp [WireValue.render,decodePayload] at h

/-- A map decodes to the dict the hook takes for a tag only when it is one. -/
theorem tag_of_decodeMap {ms : List (PyStr × WireValue)} {s : PyStr}
    (h : decodeMap (renderMap ms) = .ok [(bytesKey,.str s)]) : ms = [(bytesKey,.text s)] := by
  cases ms with
  | nil => simp [renderMap,decodeMap] at h
  | cons m ms =>
    obtain ⟨k,w⟩ := m
    rw [renderMap,decodeMap] at h
    obtain ⟨hw,hms⟩ := (bind_map_cons (f := Prod.mk k)).mp h
    have hdec : k = bytesKey ∧ decodePayload w.render = .ok (.str s) := by
      cases hd : decodePayload w.render <;> simp_all [Except.map]
    have hnil : ms = [] := by
      have hk := decodeMap_keys hms
      rw [renderMap_keys] at hk
      simpa using hk.symm
    rw [hnil,hdec.1,text_of_decode hdec.2]

/-- An object with distinct keys decodes when its members do and the hook takes the dict. -/
theorem decodes_obj {ms : List (PyStr × Json)} (hn : (ms.map Prod.fst).Nodup) :
    (∃ v, decodePayload (.obj ms) = .ok v) ↔
      ∃ d, decodeMap ms = .ok d ∧ ∀ s, d = [(bytesKey,.str s)] → ∃ bs, b64decode s = .ok bs := by
  rw [decodePayload]
  cases hm : decodeMap ms with
  | error e => simp [Except.bind]
  | ok d =>
    have hd : d.foldl setItem [] = d := foldl_setItem_nil (decodeMap_keys hm ▸ hn)
    simp only [Except.bind,hd,fromWire_ok_iff]
    simp

theorem decodes_cons {α : Type*} {x : Except PyError PyVal} {y : Except PyError (List α)}
    {f : PyVal → α} : (∃ zs, (x.bind fun v => y.map (f v :: ·)) = .ok zs) ↔
      (∃ v, x = .ok v) ∧ ∃ zs, y = .ok zs := by
  cases x <;> cases y <;> simp [Except.bind,Except.map]

mutual
/-- A wire value decodes exactly if every map in it that renders as a tag holds base64. -/
theorem render_decodes : ∀ w : WireValue, w.Valid →
    ((∃ v, decodePayload w.render = .ok v) ↔ w.TagsDecode)
  | .null,_ => by simp [WireValue.render,decodePayload,WireValue.TagsDecode]
  | .int i,_ => by simp [WireValue.render,decodePayload,WireValue.TagsDecode]
  | .float x,_ => by simp [WireValue.render,decodePayload,WireValue.TagsDecode]
  | .text s,_ => by simp [WireValue.render,decodePayload,WireValue.TagsDecode]
  | .bytes bs,_ => by
    rw [WireValue.render,decodes_obj (by simp),WireValue.TagsDecode]
    simp [decodeMap,decodePayload,Except.bind,Except.map]
  | .list vs,h => by
    have hvs := renderList_decodes vs h
    rw [WireValue.render,WireValue.TagsDecode,← hvs,decodePayload]
    cases decodeList (renderList vs) <;> simp [Except.map]
  | .map ms,⟨hn,hv⟩ => by
    have hms := renderMap_decodes ms hv
    rw [WireValue.render,decodes_obj ((renderMap_keys ms).symm ▸ hn),WireValue.TagsDecode,← hms]
    constructor
    · rintro ⟨d,hd,hb⟩
      refine ⟨fun s hs => hb s ?_,d,hd⟩
      rw [hs] at hd
      exact (Except.ok.inj hd).symm
    · rintro ⟨hb,d,hd⟩
      refine ⟨d,hd,fun s hs => hb s ?_⟩
      rw [hs] at hd
      exact tag_of_decodeMap hd

theorem renderList_decodes : ∀ vs : List WireValue, ValidList vs →
    ((∃ us, decodeList (renderList vs) = .ok us) ↔ TagsDecodeList vs)
  | [],_ => by simp [renderList,decodeList,TagsDecodeList]
  | v :: vs,⟨hv,hvs⟩ => by
    rw [renderList,decodeList,TagsDecodeList,← render_decodes v hv,← renderList_decodes vs hvs]
    exact decodes_cons (f := id)

theorem renderMap_decodes : ∀ ms : List (PyStr × WireValue), ValidMap ms →
    ((∃ d, decodeMap (renderMap ms) = .ok d) ↔ TagsDecodeMap ms)
  | [],_ => by simp [renderMap,decodeMap,TagsDecodeMap]
  | (k,v) :: ms,⟨_,hv,hvs⟩ => by
    rw [renderMap,decodeMap,TagsDecodeMap,← render_decodes v hv,← renderMap_decodes ms hvs]
    exact decodes_cons (f := Prod.mk k)
end

/-- A served call's or stream session's request, as `macula_served_next` gives it. -/
structure WireRequest where
  caller : PyStr
  realm : PyStr
  procedure : PyStr
  payload : WireValue
  deadlineMs : ℤ
  sealed : Bool

def callerKey : PyStr := .ofCodes [99,97,108,108,101,114]
def realmKey : PyStr := .ofCodes [114,101,97,108,109]
def procedureKey : PyStr := .ofCodes [112,114,111,99,101,100,117,114,101]
def payloadKey : PyStr := .ofCodes [112,97,121,108,111,97,100]
def deadlineKey : PyStr := .ofCodes [100,101,97,100,108,105,110,101,95,109,115]
def sealedKey : PyStr := .ofCodes [115,101,97,108,101,100]

def WireRequest.members (q : WireRequest) : List (PyStr × Json) :=
  [(callerKey,.str q.caller),(realmKey,.str q.realm),(procedureKey,.str q.procedure),
    (payloadKey,q.payload.render),(deadlineKey,.int q.deadlineMs),
    (sealedKey,.int (if q.sealed then 1 else 0))]

def WireRequest.render (q : WireRequest) : Json := .obj q.members

/-- What `decode_payload` raises on an item: an error of the hook, or the interpreter's
`RecursionError` on too deep a text. -/
inductive ItemError
  | recursion
  | decode (e : PyError)

/-- `decode_payload` of an item, with no item for a JSON null; `deep` says for which texts
`json.loads` runs out of the interpreter's recursion limit. -/
def decodeItem (deep : Json → Bool) (j : Json) : Except ItemError (Option PyVal) :=
  if deep j then .error .recursion
  else match decodePayload j with
    | .error e => .error (.decode e)
    | .ok .none => .ok none
    | .ok v => .ok (some v)

theorem fromWire_ne_none (d : List (PyStr × PyVal)) : fromWire d ≠ .ok .none := by
  unfold fromWire
  split
  · next k t =>
    split
    · cases b64decode t <;> simp [Except.map]
    · simp [strDict]
  · simp [strDict]

/-- An object decodes to an item when it decodes at all. -/
theorem decodeItem_obj_iff (deep : Json → Bool) (ms : List (PyStr × Json)) :
    (∃ item, decodeItem deep (.obj ms) = .ok (some item)) ↔
      deep (.obj ms) = false ∧ ∃ v, decodePayload (.obj ms) = .ok v := by
  have hne : decodePayload (.obj ms) ≠ .ok .none := by
    rw [decodePayload]
    cases decodeMap ms with
    | error e => simp [Except.bind]
    | ok d => exact fromWire_ne_none _
  unfold decodeItem
  cases hdeep : deep (.obj ms) with
  | true => simp
  | false =>
    simp only [Bool.false_eq_true,↓reduceIte,true_and]
    cases hd : decodePayload (.obj ms) with
    | error e => simp
    | ok v => cases v <;> simp_all

theorem members_nodup (q : WireRequest) : (q.members.map Prod.fst).Nodup := by
  have hn : [callerKey,realmKey,procedureKey,payloadKey,deadlineKey,sealedKey].Nodup := by decide
  exact hn

theorem decodeMap_members (q : WireRequest) :
    (∃ d, decodeMap q.members = .ok d) ↔ ∃ v, decodePayload q.payload.render = .ok v := by
  cases hd : decodePayload q.payload.render <;>
    simp [WireRequest.members,decodeMap,decodePayload,hd,Except.bind,Except.map]

/-- A request decodes exactly if it is not too deep and its payload decodes. -/
theorem decodeItem_render_iff (deep : Json → Bool) (q : WireRequest) (hq : q.payload.Valid) :
    (∃ item, decodeItem deep q.render = .ok (some item)) ↔
      deep q.render = false ∧ q.payload.TagsDecode := by
  rw [← render_decodes q.payload hq,WireRequest.render,decodeItem_obj_iff,
    decodes_obj (members_nodup q),← decodeMap_members]
  refine and_congr_right (fun _ => exists_congr (fun d => and_iff_left_of_imp ?_))
  intro hd s hs
  have hlen := congrArg List.length (decodeMap_keys hd)
  simp [hs,WireRequest.members] at hlen

end MaculaPy.Wire
