import MaculaPy.Wire.ReadBack
import MaculaPy.Wire.Received

/-! # Payloads as text

`encode_payload` and `decode_payload` between a Python value and the text that crosses to the
native layer, with the reader and the writer of JSON in between: what is decoded is what was
encoded, and what was decoded can be sent back.
-/
namespace MaculaPy.Wire
open PrefixCode Readers

section Text
variable (num : Numbers) (floatText : Binary64 → Numeral)

/-- `encode_payload`, as a text. -/
def encodeText (v : PyVal) : Except PyError PyStr :=
  (encodePayload v).map (dumpsText floatText true)

/-- `decode_payload` of a text, where `none` is a `JSONDecodeError`. -/
def decodeText (s : PyStr) : Option (Except PyError PyVal) := (loadsText num s).map decodePayload

end Text

variable {num : Numbers} {floatText : Binary64 → Numeral}

/-! ## What was encoded -/

mutual
theorem toWire_fits : ∀ (v : PyVal) (j : Json), toWire v = .ok j → j.finite = true → j.Fits num
  | .none,j,h,_ => by
    cases h
    trivial
  | .bool b,j,h,_ => by simp [toWire] at h
  | .int i,j,h,_ => by
    rw [toWire] at h
    split at h
    · next hi =>
      cases h
      exact num.fits_int64 hi
    · cases h
  | .float x,j,h,hf => by
    cases h
    exact hf
  | .str s,j,h,_ => by
    cases h
    trivial
  | .bytes k bs,j,h,_ => by
    cases h
    exact ⟨trivial,trivial⟩
  | .list vs,j,h,hf => by
    rw [toWire] at h
    obtain ⟨js,hjs,rfl⟩ := map_eq_ok.mp h
    exact toWireList_fits vs js hjs hf
  | .tuple vs,j,h,hf => by
    rw [toWire] at h
    obtain ⟨js,hjs,rfl⟩ := map_eq_ok.mp h
    exact toWireList_fits vs js hjs hf
  | .dict items,j,h,hf => by
    rw [toWire] at h
    obtain ⟨ms,hms,rfl⟩ := map_eq_ok.mp h
    exact toWireMap_fits items ms hms hf
  | .other t,j,h,_ => by simp [toWire] at h

theorem toWireList_fits : ∀ (vs : List PyVal) (js : List Json), toWireList vs = .ok js →
    Json.finiteList js = true → FitsList num js
  | [],js,h,_ => by
    cases h
    trivial
  | v :: vs,js,h,hf => by
    rw [toWireList] at h
    obtain ⟨j,js',hj,hjs,rfl⟩ := bind_map_eq_ok.mp h
    rw [Json.finiteList,Bool.and_eq_true] at hf
    exact ⟨toWire_fits v j hj hf.1,toWireList_fits vs js' hjs hf.2⟩

theorem toWireMap_fits : ∀ (items : List (PyVal × PyVal)) (ms : List (PyStr × Json)),
    toWireMap items = .ok ms → Json.finiteMap ms = true → FitsMembers num ms
  | [],ms,h,_ => by
    cases h
    trivial
  | (k,v) :: items,ms,h,hf => by
    cases k with
    | str s =>
      rw [toWireMap] at h
      obtain ⟨j,ms',hj,hms,rfl⟩ := bind_map_eq_ok.mp h
      rw [Json.finiteMap,Bool.and_eq_true] at hf
      exact ⟨toWire_fits v j hj hf.1,toWireMap_fits items ms' hms hf.2⟩
    | _ => simp [toWireMap] at h
end

mutual
theorem scalar_of_payload : ∀ v : PyVal, v.Payload → v.Scalar
  | .none,_ => PyVal.scalar_none
  | .int i,_ => PyVal.scalar_int i
  | .float x,_ => PyVal.scalar_float x
  | .str _,h => PyVal.scalar_str.mpr h
  | .bytes k bs,_ => PyVal.scalar_bytes k bs
  | .list vs,h => PyVal.scalar_list.mpr (scalar_of_payloadList vs h)
  | .tuple vs,h => PyVal.scalar_tuple.mpr (scalar_of_payloadList vs h)
  | .dict items,h => PyVal.scalar_dict.mpr (scalar_of_payloadMap items h.2)

theorem scalar_of_payloadList : ∀ vs : List PyVal, PayloadList vs → ∀ v ∈ vs, v.Scalar
  | [],_ => by simp
  | v :: vs,h => List.forall_mem_cons.mpr ⟨scalar_of_payload v h.1,scalar_of_payloadList vs h.2⟩

theorem scalar_of_payloadMap : ∀ items : List (PyVal × PyVal), PayloadMap items →
    ∀ x ∈ items, (∀ s, x.1 = .str s → s.scalar = true) ∧ x.2.Scalar
  | [],_ => by simp
  | (k,v) :: items,⟨⟨s,hk,hs⟩,hv,hi⟩ => by
    refine List.forall_mem_cons.mpr ⟨⟨?_,scalar_of_payload v hv⟩,scalar_of_payloadMap items hi⟩
    rintro t rfl
    cases hk
    exact hs
end

/-- What a value encodes to is read back as the very tree, where no text in the value has a
lone surrogate. -/
theorem loadsText_encodeText (hf : ReadsFloats num floatText) {v : PyVal} {j : Json}
    (hs : v.Scalar) (hj : encodePayload v = .ok j) :
    loadsText num (dumpsText floatText true j) = some j := by
  obtain ⟨i,hi,hd⟩ := bind_eq_ok.mp hj
  unfold dumps at hd
  split at hd
  · next hfin =>
    cases hd
    have hscalar := (toWire_scalar floatText v j hi).mpr hs
    exact loadsText_of_apart hf (toWire_fits v j hi hfin)
      (fun s hmem => PyStr.apart_of_scalar (hscalar s hmem))
  · cases hd

/-- No low surrogate begins what an escape of none stands before. -/
theorem Chars.head_not_low {t s : List ℕ} (h : Chars t s) (ht : ∀ c ∈ t, IsScalar c)
    (hn : ¬ BeginsLow t) : ∀ v ∈ s.head?, ¬ IsLow v := by
  cases h with
  | close => simp
  | @raw c t s hc h =>
    rintro v ⟨⟩ hl
    have hs := ht c List.mem_cons_self
    unfold IsScalar at hs
    unfold IsLow at hl
    omega
  | @short x c t s hx h =>
    rintro v ⟨⟩ hl
    have hlt := short_lt hx
    unfold IsLow at hl
    omega
  | @pair w w' t s u v hw hw' hu hv h =>
    intro x hx hl
    have hj : join u v = x := by simpa using hx
    unfold IsHigh at hu
    unfold IsLow at hl
    unfold join at hj
    omega
  | @unit w t s u hw hu h =>
    rintro v ⟨⟩ hl
    exact hn ⟨w,u,t,rfl,hw,hl⟩

/-- A string without raw surrogates stands for a text in which every pair is joined. -/
theorem Chars.apart {t s : List ℕ} (h : Chars t s) (ht : ∀ c ∈ t, IsScalar c) : Apart s := by
  have hcons : ∀ {t s : List ℕ} {c : ℕ}, (IsHigh c → ¬ BeginsLow t) → Chars t s →
      (∀ d ∈ t, IsScalar d) → Apart s → Apart (c :: s) := by
    intro t s c hc h ht hs
    refine List.isChain_cons.mpr ⟨?_,hs⟩
    rintro v hv ⟨hu,hl⟩
    exact h.head_not_low ht (hc hu) v hv hl
  induction h with
  | close => exact List.isChain_nil
  | @raw c t s hc h ih =>
    have ht' := fun d hd => ht d (List.mem_cons_of_mem c hd)
    have hs := ht c List.mem_cons_self
    refine hcons (fun hh => ?_) h ht' (ih ht')
    unfold IsScalar at hs
    unfold IsHigh at hh
    omega
  | @short x c t s hx h ih =>
    have ht' := fun d hd => ht d (List.mem_cons_of_mem _ (List.mem_cons_of_mem _ hd))
    refine hcons (fun hh => ?_) h ht' (ih ht')
    have hlt := short_lt hx
    unfold IsHigh at hh
    omega
  | @pair w w' t s u v hw hw' hu hv h ih =>
    have ht' := fun d hd => ht d (List.mem_append_right _ hd)
    refine hcons (fun hh => ?_) h ht' (ih ht')
    unfold IsHigh at hu
    unfold IsHigh join at hh
    omega
  | @unit w t s u hw hn h ih =>
    have ht' := fun d hd => ht d (List.mem_append_right _ hd)
    exact hcons hn h ht' (ih ht')

theorem mem_textsList {ds : List Doc} {s : PyStr} (h : s ∈ textsList ds) :
    ∃ d ∈ ds, s ∈ d.texts := by
  induction ds with
  | nil => cases h
  | cons d ds ih =>
    rcases List.mem_append.mp h with h | h
    · exact ⟨d,List.mem_cons_self,h⟩
    · obtain ⟨e,he,hs⟩ := ih h
      exact ⟨e,List.mem_cons_of_mem d he,hs⟩

theorem mem_textsMembers {ms : List (PyStr × Doc)} {s : PyStr} (h : s ∈ textsMembers ms) :
    ∃ m ∈ ms, s = m.1 ∨ s ∈ m.2.texts := by
  induction ms with
  | nil => cases h
  | cons m ms ih =>
    rw [textsMembers,List.cons_append] at h
    rcases List.mem_cons.mp h with h | h
    · exact ⟨m,List.mem_cons_self,Or.inl h⟩
    · rcases List.mem_append.mp h with h | h
      · exact ⟨m,List.mem_cons_self,Or.inr h⟩
      · obtain ⟨n,hn,hs⟩ := ih h
        exact ⟨n,List.mem_cons_of_mem m hn,hs⟩

theorem mem_docList {js : List Json} {d : Doc} (h : d ∈ docList floatText js) :
    ∃ j ∈ js, d = j.doc floatText := by
  induction js with
  | nil => cases h
  | cons j js ih =>
    rcases List.mem_cons.mp h with h | h
    · exact ⟨j,List.mem_cons_self,h⟩
    · obtain ⟨i,hi,hd⟩ := ih h
      exact ⟨i,List.mem_cons_of_mem j hi,hd⟩

theorem mem_docMembers {ms : List (PyStr × Json)} {m : PyStr × Doc}
    (h : m ∈ docMembers floatText ms) : ∃ x ∈ ms, m = (x.1,x.2.doc floatText) := by
  induction ms with
  | nil => cases h
  | cons x ms ih =>
    rcases List.mem_cons.mp h with h | h
    · exact ⟨x,List.mem_cons_self,h⟩
    · obtain ⟨y,hy,hm⟩ := ih h
      exact ⟨y,List.mem_cons_of_mem x hy,hm⟩

theorem Chars.coded {t s : List ℕ} (h : Chars t s) (ht : ∀ c ∈ t, IsScalar c) :
    ∀ c ∈ s, Coded c := by
  induction h with
  | close => simp
  | @raw c t s hc h ih =>
    obtain ⟨hs,ht⟩ := List.forall_mem_cons.mp ht
    exact List.forall_mem_cons.mpr ⟨hs.coded,ih ht⟩
  | @short x c t s hx h ih =>
    have hlt := short_lt hx
    refine List.forall_mem_cons.mpr ⟨?_,ih (fun d hd => ht d (by simp [hd]))⟩
    unfold Coded
    omega
  | @pair w w' t s u v hw hw' hu hv h ih =>
    refine List.forall_mem_cons.mpr ⟨?_,ih (fun d hd => ht d (by simp [hd]))⟩
    unfold IsHigh at hu
    unfold IsLow at hv
    unfold Coded join
    omega
  | @unit w t s u hw hn h ih =>
    have hlt := hw.isUnit
    refine List.forall_mem_cons.mpr ⟨?_,ih (fun d hd => ht d (by simp [hd]))⟩
    unfold IsUnit at hlt
    unfold Coded
    omega

theorem Chars.apart_ofCodes {t s : List ℕ} (h : Chars t s) (ht : ∀ c ∈ t, IsScalar c) :
    Apart (PyStr.ofCodes s).codes := by
  rw [PyStr.codes_ofCodes_of_coded (h.coded ht)]
  exact h.apart ht

/-- In a text without lone surrogates, no text of the tree it denotes has a pair unjoined. -/
theorem Value.apart : ∀ (n : ℕ) {t : List ℕ} {j : Json}, Value num t j → t.length ≤ n →
    (∀ c ∈ t, IsScalar c) → ∀ s ∈ (j.doc floatText).texts, Apart s.codes := by
  intro n
  induction n with
  | zero =>
    intro t j h hn
    obtain ⟨c,cs,rfl,_⟩ := h.head
    simp at hn
  | succ n ih =>
    intro t j h hn ht s hs
    cases h with
    | constant h =>
      simp only [constants,List.mem_cons,Prod.mk.injEq,List.not_mem_nil,or_false] at h
      rcases h with ⟨_,rfl⟩ | ⟨_,rfl⟩ | ⟨_,rfl⟩ | ⟨_,rfl⟩ | ⟨_,rfl⟩ | ⟨_,rfl⟩
      all_goals simp [Json.doc,Doc.texts] at hs
    | number h =>
      obtain ⟨u,v,_,_,_,hj⟩ := h
      split at hj
      · obtain ⟨i,_,rfl⟩ := Option.map_eq_some_iff.mp hj
        simp [Json.doc,Doc.texts] at hs
      · subst hj
        simp [Json.doc,Doc.texts] at hs
    | @str t k h =>
      obtain rfl : s = .ofCodes k := by simpa [Json.doc,Doc.texts] using hs
      exact h.apart_ofCodes (fun c hc => ht c (List.mem_cons_of_mem _ hc))
    | noItems hw => simp [Json.doc,docList,Doc.texts,textsList] at hs
    | @arr w t js hw h =>
      obtain ⟨d,hd,hs⟩ := mem_textsList hs
      obtain ⟨j,hj,rfl⟩ := mem_docList hd
      obtain ⟨u,hu,hlt,hmem⟩ := h.parts j hj
      refine ih hu ?_ (fun c hc => ht c ?_) s hs
      · simp at hn
        omega
      · simp [hmem c hc]
    | noMembers hw => simp [Json.doc,docMembers,Doc.texts,textsMembers] at hs
    | @obj w t ms hw h =>
      obtain ⟨m,hm,hs⟩ := mem_textsMembers hs
      obtain ⟨x,hx,rfl⟩ := mem_docMembers hm
      obtain ⟨u,hu,hlt,hmem⟩ := h.parts x hx
      cases hu with
      | @mk k c v w' t' j hk hv hw' hV =>
        have ht' : ∀ d ∈ 34 :: k ++ v ++ 58 :: w' ++ t', IsScalar d := fun d hd =>
          ht d (by simp [hmem d hd])
        rcases hs with rfl | hs
        · exact hk.apart_ofCodes (fun d hd => ht' d (by simp [hd]))
        · refine ih hV ?_ (fun d hd => ht' d (by simp [hd])) s hs
          simp at hn hlt
          omega

/-- What is read of a UTF-8 text has no pair unjoined. -/
theorem apart_of_read {s : PyStr} {j : Json} (hs : s.scalar = true)
    (hread : loadsText num s = some j) : ∀ t ∈ (j.doc floatText).texts, Apart t.codes := by
  obtain ⟨a,t,b,hsplit,_,_,hV⟩ := loadsText_sound hread
  exact hV.apart _ le_rfl (fun c hc => PyStr.scalar_iff.mp hs c (by simp [hsplit,hc]))

mutual
theorem fits_of_payload : ∀ j : Json, j.Payload → j.Fits num
  | .null,_ => trivial
  | .int _,h => num.fits_int64 h
  | .float _,h => h
  | .str _,_ => trivial
  | .arr js,h => fits_of_payloadList js h
  | .obj ms,h => fits_of_payloadMembers ms h.2.2

theorem fits_of_payloadList : ∀ js : List Json, JsonPayloadList js → FitsList num js
  | [],_ => trivial
  | j :: js,h => ⟨fits_of_payload j h.1,fits_of_payloadList js h.2⟩

theorem fits_of_payloadMembers : ∀ ms : List (PyStr × Json), JsonPayloadMap ms →
    FitsMembers num ms
  | [],_ => trivial
  | (_,j) :: ms,h => ⟨fits_of_payload j h.1,fits_of_payloadMembers ms h.2⟩
end

/-- `[ "\\u0061" ]`, a text that the binding itself would write otherwise. -/
def spaced : PyStr := .ofCodes [91,32,34,92,117,48,48,54,49,34,32,93]

end MaculaPy.Wire
