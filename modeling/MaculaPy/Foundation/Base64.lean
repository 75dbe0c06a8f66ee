import Mathlib.Data.List.Basic
import Mathlib.Tactic.SplitIfs

/-! # Base64

Encoding in groups of three bytes, and the strict decoder that reads one character at
a time and keeps the bits left over from the last one. Characters are their codes.
-/
namespace MaculaPy.Base64

/-- Why a text is refused. -/
inductive Reason
  | notAscii
  | leadingPadding
  | notInAlphabet
  | discontinuousPadding
  | excessData
  | dataLength
  | incorrectPadding
  deriving DecidableEq, Repr

/-- The text of the error, without the count it may give. -/
def Reason.message : Reason → String
  | .notAscii => "string argument should contain only ASCII characters"
  | .leadingPadding => "Leading padding not allowed"
  | .notInAlphabet => "Only base64 data is allowed"
  | .discontinuousPadding => "Discontinuous padding not allowed"
  | .excessData => "Excess data after padding"
  | .dataLength => "Invalid base64-encoded string: number of data characters cannot be 1 more than a multiple of 4"
  | .incorrectPadding => "Incorrect padding"

def padding : ℕ := 61

/-- The character of a value below 64. -/
def digit (v : ℕ) : ℕ :=
  if v < 26 then v + 65
  else if v < 52 then v + 71
  else if v < 62 then v - 4
  else if v = 62 then 43
  else 47

/-- The value of a character of the alphabet. -/
def value? (c : ℕ) : Option ℕ :=
  if 65 ≤ c ∧ c ≤ 90 then some (c - 65)
  else if 97 ≤ c ∧ c ≤ 122 then some (c - 71)
  else if 48 ≤ c ∧ c ≤ 57 then some (c + 4)
  else if c = 43 then some 62
  else if c = 47 then some 63
  else none

def encode : List UInt8 → List ℕ
  | [] => []
  | [a] => [digit (a.toNat / 4),digit (a.toNat % 4 * 16),padding,padding]
  | [a,b] =>
    [digit (a.toNat / 4),digit (a.toNat % 4 * 16 + b.toNat / 16),digit (b.toNat % 16 * 4),padding]
  | a :: b :: c :: bs =>
    digit (a.toNat / 4) :: digit (a.toNat % 4 * 16 + b.toNat / 16) ::
      digit (b.toNat % 16 * 4 + c.toNat / 64) :: digit (c.toNat % 64) :: encode bs

/-- The decoder with `quad` characters of the current group read, `left` the bits of the
last one not yet written, `pads` padding characters counted, and `started` once a padding
character came. -/
def decodeFrom (quad left pads : ℕ) (started : Bool) : List ℕ → Except Reason (List UInt8)
  | [] =>
    if quad = 0 then .ok []
    else if quad = 1 then .error .dataLength
    else .error .incorrectPadding
  | c :: cs =>
    if c = padding then
      if 2 ≤ quad then
        if 4 ≤ quad + (pads + 1) then
          if cs = [] then .ok [] else .error .excessData
        else decodeFrom quad left (pads + 1) true cs
      else decodeFrom quad left pads true cs
    else
      match value? c with
      | none => .error .notInAlphabet
      | some v =>
        if started then .error .discontinuousPadding
        else
          match quad with
          | 0 => decodeFrom 1 v 0 started cs
          | 1 => (decodeFrom 2 (v % 16) 0 started cs).map (UInt8.ofNat (left * 4 + v / 16) :: ·)
          | 2 => (decodeFrom 3 (v % 4) 0 started cs).map (UInt8.ofNat (left * 16 + v / 4) :: ·)
          | _ => (decodeFrom 0 0 0 started cs).map (UInt8.ofNat (left * 64 + v) :: ·)

def decode (cs : List ℕ) : Except Reason (List UInt8) :=
  if cs.any (fun c => 128 ≤ c) then .error .notAscii
  else if cs.head? = some padding then .error .leadingPadding
  else decodeFrom 0 0 0 false cs

variable {v : ℕ}

theorem value_digit (h : v < 64) : value? (digit v) = some v := by
  unfold digit value?
  split_ifs <;> first | (exfalso; omega) | (congr 1 <;> omega)

theorem digit_ne_padding (h : v < 64) : digit v ≠ padding := by
  unfold digit padding
  split_ifs <;> omega

theorem digit_lt (h : v < 64) : digit v < 128 := by
  unfold digit
  split_ifs <;> omega

/-- A character of the alphabet is read by its value. -/
theorem decodeFrom_digit (quad left pads : ℕ) (h : v < 64) (cs : List ℕ) :
    decodeFrom quad left pads false (digit v :: cs) =
      match quad with
      | 0 => decodeFrom 1 v 0 false cs
      | 1 => (decodeFrom 2 (v % 16) 0 false cs).map (UInt8.ofNat (left * 4 + v / 16) :: ·)
      | 2 => (decodeFrom 3 (v % 4) 0 false cs).map (UInt8.ofNat (left * 16 + v / 4) :: ·)
      | _ => (decodeFrom 0 0 0 false cs).map (UInt8.ofNat (left * 64 + v) :: ·) := by
  rw [decodeFrom,if_neg (digit_ne_padding h)]
  simp only [value_digit h,Bool.false_eq_true,↓reduceIte]

theorem ofNat_eq (a : UInt8) {n : ℕ} (h : n = a.toNat) : UInt8.ofNat n = a := by
  rw [h,UInt8.ofNat_toNat]

theorem decodeFrom_two_paddings (left : ℕ) :
    decodeFrom 2 left 0 false [padding,padding] = .ok [] := rfl

theorem decodeFrom_padding (left : ℕ) : decodeFrom 3 left 0 false [padding] = .ok [] := rfl

/-- Two characters are read as a byte, and leave four bits for the next. -/
theorem decodeFrom_first (a : UInt8) {x : ℕ} (hx : x < 16) (cs : List ℕ) :
    decodeFrom 0 0 0 false (digit (a.toNat / 4) :: digit (a.toNat % 4 * 16 + x) :: cs) =
      (decodeFrom 2 x 0 false cs).map (a :: ·) := by
  have ha := a.toNat_lt
  rw [decodeFrom_digit _ _ _ (by omega)]
  simp only
  rw [decodeFrom_digit _ _ _ (by omega)]
  have hbyte := ofNat_eq a (n := a.toNat / 4 * 4 + (a.toNat % 4 * 16 + x) / 16) (by omega)
  have hleft : (a.toNat % 4 * 16 + x) % 16 = x := by omega
  simp only [hbyte,hleft]

theorem decodeFrom_second (b : UInt8) {y : ℕ} (hy : y < 4) (cs : List ℕ) :
    decodeFrom 2 (b.toNat / 16) 0 false (digit (b.toNat % 16 * 4 + y) :: cs) =
      (decodeFrom 3 y 0 false cs).map (b :: ·) := by
  have hb := b.toNat_lt
  rw [decodeFrom_digit _ _ _ (by omega)]
  have hbyte := ofNat_eq b (n := b.toNat / 16 * 16 + (b.toNat % 16 * 4 + y) / 4) (by omega)
  have hleft : (b.toNat % 16 * 4 + y) % 4 = y := by omega
  simp only [hbyte,hleft]

theorem decodeFrom_third (c : UInt8) (cs : List ℕ) :
    decodeFrom 3 (c.toNat / 64) 0 false (digit (c.toNat % 64) :: cs) =
      (decodeFrom 0 0 0 false cs).map (c :: ·) := by
  have hc := c.toNat_lt
  rw [decodeFrom_digit _ _ _ (by omega)]
  have hbyte := ofNat_eq c (n := c.toNat / 64 * 64 + c.toNat % 64) (by omega)
  simp only [hbyte]

/-- A whole group is read as its three bytes. -/
theorem decodeFrom_group (a b c : UInt8) (cs : List ℕ) : decodeFrom 0 0 0 false
    (digit (a.toNat / 4) :: digit (a.toNat % 4 * 16 + b.toNat / 16) ::
      digit (b.toNat % 16 * 4 + c.toNat / 64) :: digit (c.toNat % 64) :: cs) =
      (decodeFrom 0 0 0 false cs).map (fun bs => a :: b :: c :: bs) := by
  have hb := b.toNat_lt
  have hc := c.toNat_lt
  rw [decodeFrom_first a (by omega),decodeFrom_second b (by omega),decodeFrom_third]
  cases decodeFrom 0 0 0 false cs <;> rfl

theorem decodeFrom_encode (bs : List UInt8) : decodeFrom 0 0 0 false (encode bs) = .ok bs := by
  induction bs using encode.induct with
  | case1 => rfl
  | case2 a =>
    have hread := decodeFrom_first a (x := 0) (by decide) [padding,padding]
    rw [decodeFrom_two_paddings] at hread
    exact hread
  | case3 a b =>
    have hb := b.toNat_lt
    have hread := decodeFrom_second b (y := 0) (by decide) [padding]
    rw [decodeFrom_padding] at hread
    rw [encode,decodeFrom_first a (by omega)]
    exact congrArg (Except.map (a :: ·)) hread
  | case4 a b c bs ih =>
    rw [encode,decodeFrom_group,ih]
    rfl

theorem encode_lt (bs : List UInt8) : ∀ c ∈ encode bs, c < 128 := by
  induction bs using encode.induct with
  | case1 => simp [encode]
  | case2 a =>
    have ha := a.toNat_lt
    have h1 := digit_lt (v := a.toNat / 4) (by omega)
    have h2 := digit_lt (v := a.toNat % 4 * 16) (by omega)
    simp [encode,padding,h1,h2]
  | case3 a b =>
    have ha := a.toNat_lt
    have hb := b.toNat_lt
    have h1 := digit_lt (v := a.toNat / 4) (by omega)
    have h2 := digit_lt (v := a.toNat % 4 * 16 + b.toNat / 16) (by omega)
    have h3 := digit_lt (v := b.toNat % 16 * 4) (by omega)
    simp [encode,padding,h1,h2,h3]
  | case4 a b c bs ih =>
    have ha := a.toNat_lt
    have hb := b.toNat_lt
    have hc := c.toNat_lt
    have h1 := digit_lt (v := a.toNat / 4) (by omega)
    have h2 := digit_lt (v := a.toNat % 4 * 16 + b.toNat / 16) (by omega)
    have h3 := digit_lt (v := b.toNat % 16 * 4 + c.toNat / 64) (by omega)
    have h4 := digit_lt (v := c.toNat % 64) (by omega)
    simpa [encode,h1,h2,h3,h4] using ih

theorem encode_head (bs : List UInt8) : (encode bs).head? ≠ some padding := by
  have hd (a : UInt8) : digit (a.toNat / 4) ≠ padding := by
    have ha := a.toNat_lt
    exact digit_ne_padding (by omega)
  cases bs using encode.fun_cases <;> simp [encode,hd]

/-- The decoder reads back what was encoded. -/
theorem decode_encode (bs : List UInt8) : decode (encode bs) = .ok bs := by
  have ha : (encode bs).any (fun c => 128 ≤ c) = false := by
    rw [List.any_eq_false]
    intro c hc
    have hlt := encode_lt bs c hc
    simpa using hlt
  rw [decode,ha,if_neg Bool.false_ne_true,if_neg (encode_head bs),decodeFrom_encode]

example : decode [65,81,73,68] = .ok [1,2,3] := by decide
example : decode [33] = .error .notInAlphabet := by decide

end MaculaPy.Base64
