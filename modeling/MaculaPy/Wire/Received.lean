import MaculaPy.Wire.RoundTrip

/-! # Sending back what was received

The JSON of the payload language, with canonical base64 in every tag, decodes to a value
that encodes to the same JSON. A decoded dict never looks like a tag, so nothing in it is
mistaken for one on the way back.
-/
namespace MaculaPy.Wire

mutual
/-- The JSON of payloads: no booleans, integers within int64, finite floats, objects with
distinct keys, and canonical base64 in every object that is a tag. -/
def Json.Payload : Json → Prop
  | .null => True
  | .bool _ => False
  | .int i => int64Min ≤ i ∧ i ≤ int64Max
  | .float x => x.finite = true
  | .str _ => True
  | .arr js => JsonPayloadList js
  | .obj ms => (ms.map Prod.fst).Nodup ∧
      (∀ s, ms = [(bytesKey,.str s)] → ∃ bs, s = b64encode bs) ∧ JsonPayloadMap ms

def JsonPayloadList : List Json → Prop
  | [] => True
  | j :: js => j.Payload ∧ JsonPayloadList js

def JsonPayloadMap : List (PyStr × Json) → Prop
  | [] => True
  | (_,j) :: ms => j.Payload ∧ JsonPayloadMap ms
end

/-- Members that decode to the items of a tag are the members of one. -/
theorem tag_of_toWireMap {d : List (PyStr × PyVal)} {ms : List (PyStr × Json)}
    (h : toWireMap (strItems d) = .ok ms) (ht : IsTag (strItems d)) :
    ∃ s, d = [(bytesKey,.str s)] ∧ ms = [(bytesKey,.str s)] := by
  obtain ⟨s,hs⟩ := ht
  rw [hs] at h
  refine ⟨s,strItems_injective hs,?_⟩
  simpa [toWireMap,toWire,Except.bind,Except.map] using h.symm

mutual
/-- A tree of the payload language decodes, to a value that is written as the same tree. -/
theorem toWire_decodePayload : ∀ j : Json, j.Payload → j.finite = true ∧
    ∃ v, decodePayload j = .ok v ∧ toWire v = .ok j
  | .null,_ => ⟨rfl,.none,rfl,rfl⟩
  | .int i,h => ⟨rfl,.int i,rfl,by rw [toWire]; exact if_pos h⟩
  | .float x,h => ⟨h,.float x,rfl,rfl⟩
  | .str s,_ => ⟨rfl,.str s,rfl,rfl⟩
  | .arr js,h => by
    obtain ⟨hf,vs,hd,he⟩ := toWire_decodeList js h
    exact ⟨hf,.list vs,by rw [decodePayload,hd]; rfl,by rw [toWire,he]; rfl⟩
  | .obj ms,⟨hn,ht,hm⟩ => by
    obtain ⟨hf,d,hd,he⟩ := toWire_decodeMap ms hm
    have hfold : d.foldl setItem [] = d := foldl_setItem_nil (decodeMap_keys hd ▸ hn)
    refine ⟨hf,?_⟩
    simp only [decodePayload,hd,Except.bind,hfold]
    by_cases htag : IsTag (strItems d)
    · obtain ⟨s,rfl,rfl⟩ := tag_of_toWireMap he htag
      obtain ⟨bs,rfl⟩ := ht s rfl
      exact ⟨.bytes .bytes bs,by simp [fromWire,Except.map],rfl⟩
    · exact ⟨strDict d,fromWire_of_not_tag htag,by rw [strDict,toWire,he]; rfl⟩

theorem toWire_decodeList : ∀ js : List Json, JsonPayloadList js → Json.finiteList js = true ∧
    ∃ vs, decodeList js = .ok vs ∧ toWireList vs = .ok js
  | [],_ => ⟨rfl,[],rfl,rfl⟩
  | j :: js,⟨hj,hjs⟩ => by
    obtain ⟨hf,v,hd,he⟩ := toWire_decodePayload j hj
    obtain ⟨hfs,vs,hds,hes⟩ := toWire_decodeList js hjs
    refine ⟨by simp [Json.finiteList,hf,hfs],v :: vs,?_,?_⟩
    · simp [decodeList,hd,hds,Except.bind,Except.map]
    · simp [toWireList,he,hes,Except.bind,Except.map]

theorem toWire_decodeMap : ∀ ms : List (PyStr × Json), JsonPayloadMap ms →
    Json.finiteMap ms = true ∧ ∃ d, decodeMap ms = .ok d ∧ toWireMap (strItems d) = .ok ms
  | [],_ => ⟨rfl,[],rfl,rfl⟩
  | (k,j) :: ms,⟨hj,hms⟩ => by
    obtain ⟨hf,v,hd,he⟩ := toWire_decodePayload j hj
    obtain ⟨hfs,d,hds,hes⟩ := toWire_decodeMap ms hms
    refine ⟨by simp [Json.finiteMap,hf,hfs],(k,v) :: d,?_,?_⟩
    · simp [decodeMap,hd,hds,Except.bind,Except.map]
    · rw [strItems] at hes
      simp [strItems,toWireMap,he,hes,Except.bind,Except.map]
end

/-- A tag inside an object whose only key is the tag's. -/
def nestedTag : Json := .obj [(bytesKey,.obj [(bytesKey,.str (b64encode [1,2,3]))])]

end MaculaPy.Wire
