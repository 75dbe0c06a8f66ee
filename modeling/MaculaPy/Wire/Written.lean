import MaculaPy.Wire.DeviceRequest
import MaculaPy.Wire.JsonText

/-! # The texts of a value as written

What `encode_payload` and `json.dumps` write of a value has no lone surrogate exactly when the
texts inside the value have none: names and numbers made along the way are ASCII.
-/
namespace MaculaPy.Wire

theorem PyStr.scalar_ofCodes {ns : List ℕ} (h : ∀ n ∈ ns, n < 128) :
    (PyStr.ofCodes ns).scalar = true := by
  rw [PyStr.scalar_iff,PyStr.codes_ofCodes h]
  intro c hc
  have hlt := h c hc
  unfold IsScalar
  omega

/-- The text it is, or its keys that are texts, have no lone surrogate. -/
def PyVal.Encodes : PyVal → Prop
  | .str s => s.scalar = true
  | .dict items => ∀ x ∈ items, ∀ s, x.1 = .str s → s.scalar = true
  | _ => True

/-- No text inside a value has a lone surrogate. -/
def PyVal.Scalar (v : PyVal) : Prop := v.All PyVal.Encodes

theorem PyVal.scalar_list {vs : List PyVal} : (PyVal.list vs).Scalar ↔ ∀ v ∈ vs, v.Scalar :=
  PyVal.all_list.trans (and_iff_right trivial)

theorem PyVal.scalar_tuple {vs : List PyVal} : (PyVal.tuple vs).Scalar ↔ ∀ v ∈ vs, v.Scalar :=
  PyVal.all_tuple.trans (and_iff_right trivial)

theorem PyVal.scalar_dict {items : List (PyVal × PyVal)} : (PyVal.dict items).Scalar ↔
    ∀ x ∈ items, (∀ s, x.1 = .str s → s.scalar = true) ∧ x.2.Scalar := by
  rw [PyVal.Scalar,PyVal.all_dict,PyVal.Encodes,← forall₂_and]
  rfl

theorem PyVal.scalar_leaf {v : PyVal} (h : ∀ w : PyVal, w.Inside v → w = v) (hv : v.Encodes) :
    v.Scalar :=
  (PyVal.all_leaf h).mpr hv

@[simp] theorem PyVal.scalar_none : PyVal.none.Scalar :=
  PyVal.scalar_leaf (by rintro w ⟨⟩; rfl) trivial

@[simp] theorem PyVal.scalar_bool (b : Bool) : (PyVal.bool b).Scalar :=
  PyVal.scalar_leaf (by rintro w ⟨⟩; rfl) trivial

@[simp] theorem PyVal.scalar_int (i : ℤ) : (PyVal.int i).Scalar :=
  PyVal.scalar_leaf (by rintro w ⟨⟩; rfl) trivial

@[simp] theorem PyVal.scalar_float (x : Binary64) : (PyVal.float x).Scalar :=
  PyVal.scalar_leaf (by rintro w ⟨⟩; rfl) trivial

@[simp] theorem PyVal.scalar_bytes (k : BytesLike) (bs : List UInt8) :
    (PyVal.bytes k bs).Scalar :=
  PyVal.scalar_leaf (by rintro w ⟨⟩; rfl) trivial

@[simp] theorem PyVal.scalar_str {s : PyStr} : (PyVal.str s).Scalar ↔ s.scalar = true :=
  PyVal.all_leaf (by rintro w ⟨⟩; rfl)

section Doc
variable (floatText : Binary64 → Numeral)

theorem scalar_bytes (bs : List UInt8) :
    ((Json.obj [(bytesKey,.str (b64encode bs))]).doc floatText).Scalar := by
  have hkey : bytesKey.scalar = true := PyStr.scalar_ofCodes (by decide)
  have htext : (b64encode bs).scalar = true := PyStr.scalar_ofCodes (Base64.encode_lt bs)
  simp [Json.doc,docMembers,hkey,htext]

mutual
theorem toWire_scalar : ∀ (v : PyVal) (j : Json), toWire v = .ok j →
    ((j.doc floatText).Scalar ↔ v.Scalar)
  | .none,j,h => by
    cases h
    exact iff_of_true Doc.scalar_null PyVal.scalar_none
  | .bool b,j,h => by simp [toWire] at h
  | .int i,j,h => by
    rw [toWire] at h
    split at h <;> cases h
    exact iff_of_true (Doc.scalar_number _) (PyVal.scalar_int i)
  | .float x,j,h => by
    cases h
    exact iff_of_true (Doc.scalar_number _) (PyVal.scalar_float x)
  | .str s,j,h => by
    cases h
    exact Doc.scalar_str.trans PyVal.scalar_str.symm
  | .bytes k bs,j,h => by
    cases h
    exact iff_of_true (scalar_bytes floatText bs) (PyVal.scalar_bytes k bs)
  | .list vs,j,h => by
    rw [toWire] at h
    obtain ⟨js,hjs,rfl⟩ := map_eq_ok.mp h
    rw [Json.doc,Doc.scalar_arr,PyVal.scalar_list,toWireList_scalar vs js hjs]
  | .tuple vs,j,h => by
    rw [toWire] at h
    obtain ⟨js,hjs,rfl⟩ := map_eq_ok.mp h
    rw [Json.doc,Doc.scalar_arr,PyVal.scalar_tuple,toWireList_scalar vs js hjs]
  | .dict items,j,h => by
    rw [toWire] at h
    obtain ⟨ms,hms,rfl⟩ := map_eq_ok.mp h
    rw [Json.doc,Doc.scalar_obj,PyVal.scalar_dict,toWireMap_scalar items ms hms]
  | .other t,j,h => by simp [toWire] at h

theorem toWireList_scalar : ∀ (vs : List PyVal) (js : List Json), toWireList vs = .ok js →
    ((∀ d ∈ docList floatText js, d.Scalar) ↔ ∀ v ∈ vs, v.Scalar)
  | [],js,h => by
    cases h
    simp [docList]
  | v :: vs,js,h => by
    rw [toWireList] at h
    obtain ⟨j,js',hj,hjs,rfl⟩ := bind_map_eq_ok.mp h
    rw [docList,List.forall_mem_cons,List.forall_mem_cons,toWire_scalar v j hj,
      toWireList_scalar vs js' hjs]

theorem toWireMap_scalar : ∀ (items : List (PyVal × PyVal)) (ms : List (PyStr × Json)),
    toWireMap items = .ok ms →
    ((∀ m ∈ docMembers floatText ms, m.1.scalar = true ∧ m.2.Scalar) ↔
      ∀ x ∈ items, (∀ s, x.1 = .str s → s.scalar = true) ∧ x.2.Scalar)
  | [],ms,h => by
    cases h
    simp [docMembers]
  | (k,v) :: items,ms,h => by
    cases k with
    | str s =>
      rw [toWireMap] at h
      obtain ⟨j,ms',hj,hms,rfl⟩ := bind_map_eq_ok.mp h
      rw [docMembers,List.forall_mem_cons,List.forall_mem_cons,toWire_scalar v j hj,
        toWireMap_scalar items ms' hms]
      simp
    | _ => simp [toWireMap] at h
end

/-- The name of a float. -/
def floatName (x : Binary64) : PyStr := .ofCodes (floatText x).text

theorem memberName_scalar {k : PyVal} {s : PyStr}
    (h : memberName (floatName floatText) k = .ok s) :
    s.scalar = true ↔ ∀ t, k = .str t → t.scalar = true := by
  cases k with
  | str t =>
    cases h
    simp
  | float x =>
    rw [memberName] at h
    split at h <;> cases h
    have hs : (floatName floatText x).scalar = true :=
      PyStr.scalar_ofCodes (fun c hc => ((floatText x).body c hc).2.2.2.2)
    simp [hs]
  | none =>
    cases h
    simp [PyStr.scalar_ofString]
  | bool b =>
    cases h
    simp [PyStr.scalar_ofString]
  | int i =>
    cases h
    simp [PyStr.scalar_ofString]
  | _ => simp [memberName] at h

mutual
theorem dumpsValue_scalar : ∀ (v : PyVal) (j : Json), dumpsValue (floatName floatText) v = .ok j →
    ((j.doc floatText).Scalar ↔ v.Scalar)
  | .none,j,h => by
    cases h
    exact iff_of_true Doc.scalar_null PyVal.scalar_none
  | .bool b,j,h => by
    cases h
    exact iff_of_true (Doc.scalar_bool b) (PyVal.scalar_bool b)
  | .int i,j,h => by
    cases h
    exact iff_of_true (Doc.scalar_number _) (PyVal.scalar_int i)
  | .float x,j,h => by
    rw [dumpsValue] at h
    split at h <;> cases h
    exact iff_of_true (Doc.scalar_number _) (PyVal.scalar_float x)
  | .str s,j,h => by
    cases h
    exact Doc.scalar_str.trans PyVal.scalar_str.symm
  | .bytes k bs,j,h => by simp [dumpsValue] at h
  | .list vs,j,h => by
    rw [dumpsValue] at h
    obtain ⟨js,hjs,rfl⟩ := map_eq_ok.mp h
    rw [Json.doc,Doc.scalar_arr,PyVal.scalar_list,dumpsList_scalar vs js hjs]
  | .tuple vs,j,h => by
    rw [dumpsValue] at h
    obtain ⟨js,hjs,rfl⟩ := map_eq_ok.mp h
    rw [Json.doc,Doc.scalar_arr,PyVal.scalar_tuple,dumpsList_scalar vs js hjs]
  | .dict items,j,h => by
    rw [dumpsValue] at h
    obtain ⟨ms,hms,rfl⟩ := map_eq_ok.mp h
    rw [Json.doc,Doc.scalar_obj,PyVal.scalar_dict,dumpsMap_scalar items ms hms]
  | .other t,j,h => by simp [dumpsValue] at h

theorem dumpsList_scalar : ∀ (vs : List PyVal) (js : List Json),
    dumpsList (floatName floatText) vs = .ok js →
    ((∀ d ∈ docList floatText js, d.Scalar) ↔ ∀ v ∈ vs, v.Scalar)
  | [],js,h => by
    cases h
    simp [docList]
  | v :: vs,js,h => by
    rw [dumpsList] at h
    obtain ⟨j,js',hj,hjs,rfl⟩ := bind_map_eq_ok.mp h
    rw [docList,List.forall_mem_cons,List.forall_mem_cons,dumpsValue_scalar v j hj,
      dumpsList_scalar vs js' hjs]

theorem dumpsMap_scalar : ∀ (items : List (PyVal × PyVal)) (ms : List (PyStr × Json)),
    dumpsMap (floatName floatText) items = .ok ms →
    ((∀ m ∈ docMembers floatText ms, m.1.scalar = true ∧ m.2.Scalar) ↔
      ∀ x ∈ items, (∀ s, x.1 = .str s → s.scalar = true) ∧ x.2.Scalar)
  | [],ms,h => by
    cases h
    simp [docMembers]
  | (k,v) :: items,ms,h => by
    rw [dumpsMap] at h
    obtain ⟨s,hs,h⟩ := bind_eq_ok.mp h
    obtain ⟨j,ms',hj,hms,rfl⟩ := bind_map_eq_ok.mp h
    rw [docMembers,List.forall_mem_cons,List.forall_mem_cons,dumpsValue_scalar v j hj,
      dumpsMap_scalar items ms' hms,memberName_scalar floatText hs]
end

end Doc
end MaculaPy.Wire
