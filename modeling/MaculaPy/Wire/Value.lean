import MaculaPy.Foundation.Base64
import Mathlib.Algebra.Ring.Int.Defs

/-! # Payloads and their JSON

`encode_payload` and `decode_payload` over trees of Python values. The JSON text between
the binding and the native layer is the tree it writes down; bytes travel in it as an
object whose only member is named `$bytes`.
-/
namespace MaculaPy.Wire

/-- A code point of a `str`, lone surrogates included. -/
abbrev CodePoint := Fin 0x110000

abbrev PyStr := List CodePoint

namespace PyStr

def ofCodes (ns : List ℕ) : PyStr := ns.map (Fin.ofNat 0x110000)

def codes (s : PyStr) : List ℕ := s.map Fin.val

def ofString (s : String) : PyStr := ofCodes (s.toList.map Char.toNat)

/-- No lone surrogate: the text has a UTF-8 encoding. -/
def scalar (s : PyStr) : Bool := s.all (fun c => c.val < 0xD800 || 0xE000 ≤ c.val)

theorem codes_ofCodes {ns : List ℕ} (h : ∀ n ∈ ns, n < 128) : (ofCodes ns).codes = ns := by
  rw [codes,ofCodes,List.map_map]
  refine (List.map_congr_left ?_).trans (List.map_id ns)
  intro n hn
  have hlt := h n hn
  simp only [Function.comp_apply,Fin.val_ofNat,id]
  omega

theorem scalar_ofString (s : String) : (ofString s).scalar = true := by
  rw [scalar,ofString,ofCodes,List.map_map,List.all_map,List.all_eq_true]
  intro c _
  have hc := c.valid
  simp only [Function.comp_apply,Fin.val_ofNat,Bool.or_eq_true,decide_eq_true_eq]
  change c.val.toNat % 1114112 < 55296 ∨ 57344 ≤ c.val.toNat % 1114112
  rcases hc with h | ⟨h1,h2⟩ <;> omega

theorem ofString_injective {s t : String} (h : ofString s = ofString t) :
    s = t := by
  have hlt : ∀ c : Char, c.toNat < 0x110000 := by
    intro c
    have hc := c.valid
    change c.val.toNat < 1114112
    rcases hc with h | ⟨h1,h2⟩ <;> omega
  have hinj : Function.Injective (Fin.ofNat 0x110000 ∘ Char.toNat) := by
    intro c d hcd
    have hv := congrArg Fin.val hcd
    simp only [Function.comp_apply,Fin.val_ofNat,Nat.mod_eq_of_lt (hlt _)] at hv
    exact Char.toNat_inj.mp hv
  simp only [ofString,PyStr.ofCodes,List.map_map] at h
  exact String.toList_inj.mp (List.map_injective_iff.mpr hinj h)

end PyStr

/-- A `float`, by its bits. -/
structure Binary64 where
  bits : BitVec 64
  deriving DecidableEq, Repr

/-- Neither an infinity nor a NaN. -/
def Binary64.finite (x : Binary64) : Bool := x.bits.extractLsb' 52 11 != 0x7ff#11

inductive BytesLike
  | bytes
  | bytearray
  | memoryview
  deriving DecidableEq, Repr

/-- A Python value; `other` is an instance of a class that is none of the others'. -/
inductive PyVal
  | none
  | bool (b : Bool)
  | int (i : ℤ)
  | float (x : Binary64)
  | str (s : PyStr)
  | bytes (k : BytesLike) (bs : List UInt8)
  | list (vs : List PyVal)
  | tuple (vs : List PyVal)
  | dict (items : List (PyVal × PyVal))
  | other (type : String)

inductive Json
  | null
  | bool (b : Bool)
  | int (i : ℤ)
  | float (x : Binary64)
  | str (s : PyStr)
  | arr (js : List Json)
  | obj (members : List (PyStr × Json))

inductive PyError
  | typeError (message : String)
  | valueError (message : String)
  | binasciiError (reason : Base64.Reason)
  deriving DecidableEq, Repr

/-- `str(e)`. -/
def PyError.text : PyError → PyStr
  | .typeError m => .ofString m
  | .valueError m => .ofString m
  | .binasciiError r => .ofString r.message

theorem PyError.scalar_text (e : PyError) : e.text.scalar = true := by
  cases e <;> exact PyStr.scalar_ofString _

/-- The key `"$bytes"`. -/
def bytesKey : PyStr := .ofCodes [36,98,121,116,101,115]

def b64encode (bs : List UInt8) : PyStr := .ofCodes (Base64.encode bs)

def b64decode (s : PyStr) : Except PyError (List UInt8) :=
  match Base64.decode s.codes with
  | .ok bs => .ok bs
  | .error .notAscii => .error (.valueError Base64.Reason.notAscii.message)
  | .error r => .error (.binasciiError r)

@[simp] theorem b64decode_b64encode (bs : List UInt8) : b64decode (b64encode bs) = .ok bs := by
  rw [b64decode,b64encode,PyStr.codes_ofCodes (Base64.encode_lt bs),Base64.decode_encode]

def PyVal.typeName : PyVal → String
  | .none => "NoneType"
  | .bool _ => "bool"
  | .int _ => "int"
  | .float _ => "float"
  | .str _ => "str"
  | .bytes .bytes _ => "bytes"
  | .bytes .bytearray _ => "bytearray"
  | .bytes .memoryview _ => "memoryview"
  | .list _ => "list"
  | .tuple _ => "tuple"
  | .dict _ => "dict"
  | .other t => t

def int64Min : ℤ := -2 ^ 63
def int64Max : ℤ := 2 ^ 63 - 1

mutual
/-- `_to_wire`. -/
def toWire : PyVal → Except PyError Json
  | .bool _ => .error (.typeError "macula-py: no boolean on the macula wire; encode true/false as 1/0")
  | .int i =>
    if int64Min ≤ i ∧ i ≤ int64Max then .ok (.int i)
    else .error (.valueError s!"macula-py: {i} is outside int64, the integers macula's wire carries")
  | .none => .ok .null
  | .str s => .ok (.str s)
  | .float x => .ok (.float x)
  | .bytes _ bs => .ok (.obj [(bytesKey,.str (b64encode bs))])
  | .list vs => (toWireList vs).map .arr
  | .tuple vs => (toWireList vs).map .arr
  | .dict items => (toWireMap items).map .obj
  | .other t => .error (.typeError s!"macula-py: a {t} has no macula wire form")

def toWireList : List PyVal → Except PyError (List Json)
  | [] => .ok []
  | v :: vs => (toWire v).bind fun j => (toWireList vs).map (j :: ·)

/-- `_to_wire_map`, for the items of a dict in order. -/
def toWireMap : List (PyVal × PyVal) → Except PyError (List (PyStr × Json))
  | [] => .ok []
  | (.str s,v) :: items => (toWire v).bind fun j => (toWireMap items).map ((s,j) :: ·)
  | (k,_) :: _ => .error (.typeError s!"macula-py: map keys must be str, got {k.typeName}")
end

mutual
/-- Every float is finite, as `allow_nan=False` asks. -/
def Json.finite : Json → Bool
  | .float x => x.finite
  | .arr js => Json.finiteList js
  | .obj ms => Json.finiteMap ms
  | _ => true

def Json.finiteList : List Json → Bool
  | [] => true
  | j :: js => j.finite && Json.finiteList js

def Json.finiteMap : List (PyStr × Json) → Bool
  | [] => true
  | (_,j) :: ms => j.finite && Json.finiteMap ms
end

/-- `json.dumps` with `allow_nan=False`. -/
def dumps (j : Json) : Except PyError Json :=
  if j.finite then .ok j
  else .error (.valueError "Out of range float values are not JSON compliant")

def encodePayload (v : PyVal) : Except PyError Json := (toWire v).bind dumps

/-- `d[k] = v`: the first place of a key is kept, with the last value. -/
def setItem (d : List (PyStr × PyVal)) (x : PyStr × PyVal) : List (PyStr × PyVal) :=
  if d.any (fun y => y.1 = x.1) then d.map (fun y => if y.1 = x.1 then x else y) else d ++ [x]

/-- The items of a dict with text keys. -/
def strItems (d : List (PyStr × PyVal)) : List (PyVal × PyVal) := d.map (fun x => (.str x.1,x.2))

def strDict (d : List (PyStr × PyVal)) : PyVal := .dict (strItems d)

/-- `_from_wire`. -/
def fromWire : List (PyStr × PyVal) → Except PyError PyVal
  | [(k,.str s)] =>
    if k = bytesKey then (b64decode s).map (.bytes .bytes) else .ok (strDict [(k,.str s)])
  | d => .ok (strDict d)

mutual
/-- `json.loads` with `_from_wire` as its object hook. -/
def decodePayload : Json → Except PyError PyVal
  | .null => .ok .none
  | .bool b => .ok (.bool b)
  | .int i => .ok (.int i)
  | .float x => .ok (.float x)
  | .str s => .ok (.str s)
  | .arr js => (decodeList js).map .list
  | .obj ms => (decodeMap ms).bind fun d => fromWire (d.foldl setItem [])

def decodeList : List Json → Except PyError (List PyVal)
  | [] => .ok []
  | j :: js => (decodePayload j).bind fun v => (decodeList js).map (v :: ·)

def decodeMap : List (PyStr × Json) → Except PyError (List (PyStr × PyVal))
  | [] => .ok []
  | (k,j) :: ms => (decodePayload j).bind fun v => (decodeMap ms).map ((k,v) :: ·)
end

end MaculaPy.Wire
