import MaculaPy.Foundation.PrefixCode
import MaculaPy.Wire.Value

/-! # Texts as bytes

What `str.encode`, `os.fsencode` and the string writer of `json.dumps` make of a text. A text
with a lone surrogate has no UTF-8 encoding, yet `json.dumps` writes it, as code units that
name another text or none.
-/
namespace MaculaPy.Wire
open PrefixCode

/-- The UTF-8 of one code point. -/
def utf8Char (c : ℕ) : List ℕ :=
  if c < 0x80 then [c]
  else if c < 0x800 then [0xC0 + c / 64,0x80 + c % 64]
  else if c < 0x10000 then [0xE0 + c / 4096,0x80 + c / 64 % 64,0x80 + c % 64]
  else [0xF0 + c / 262144,0x80 + c / 4096 % 64,0x80 + c / 64 % 64,0x80 + c % 64]

def readUtf8Char : List ℕ → Option (ℕ × List ℕ)
  | a :: r =>
    if a < 0x80 then some (a,r)
    else match r with
      | b :: r =>
        if a < 0xE0 then some ((a - 0xC0) * 64 + (b - 0x80),r)
        else match r with
          | c :: r =>
            if a < 0xF0 then some ((a - 0xE0) * 4096 + (b - 0x80) * 64 + (c - 0x80),r)
            else match r with
              | d :: r => some
                ((a - 0xF0) * 262144 + (b - 0x80) * 4096 + (c - 0x80) * 64 + (d - 0x80),r)
              | [] => none
          | [] => none
      | [] => none
  | [] => none

/-- Of code points. -/
def Coded (c : ℕ) : Prop := c < 0x110000

theorem readUtf8Char_utf8Char (c : ℕ) (r : List ℕ) (hc : Coded c) :
    readUtf8Char (utf8Char c ++ r) = some (c,r) := by
  unfold Coded at hc
  unfold utf8Char
  split
  · next h => simp [readUtf8Char,h]
  · split
    · have h1 : ¬ 0xC0 + c / 64 < 0x80 := by omega
      have h2 : 0xC0 + c / 64 < 0xE0 := by omega
      have h3 : (0xC0 + c / 64 - 0xC0) * 64 + (0x80 + c % 64 - 0x80) = c := by omega
      simp only [List.cons_append,List.nil_append,readUtf8Char,h1,h2,h3,if_true,if_false]
    · split
      · have h1 : ¬ 0xE0 + c / 4096 < 0x80 := by omega
        have h2 : ¬ 0xE0 + c / 4096 < 0xE0 := by omega
        have h3 : 0xE0 + c / 4096 < 0xF0 := by omega
        have h4 : (0xE0 + c / 4096 - 0xE0) * 4096 + (0x80 + c / 64 % 64 - 0x80) * 64 +
            (0x80 + c % 64 - 0x80) = c := by omega
        simp only [List.cons_append,List.nil_append,readUtf8Char,h1,h2,h3,h4,if_true,if_false]
      · have h1 : ¬ 0xF0 + c / 262144 < 0x80 := by omega
        have h2 : ¬ 0xF0 + c / 262144 < 0xE0 := by omega
        have h3 : ¬ 0xF0 + c / 262144 < 0xF0 := by omega
        have h4 : (0xF0 + c / 262144 - 0xF0) * 262144 + (0x80 + c / 4096 % 64 - 0x80) * 4096 +
            (0x80 + c / 64 % 64 - 0x80) * 64 + (0x80 + c % 64 - 0x80) = c := by omega
        simp only [List.cons_append,List.nil_append,readUtf8Char,h1,h2,h3,h4,if_false]

theorem utf8Char_isCode : IsCode Coded utf8Char := .of_read readUtf8Char_utf8Char

theorem utf8Char_ne_nil (c : ℕ) : utf8Char c ≠ [] := by
  unfold utf8Char
  split
  · simp
  · split
    · simp
    · split <;> simp

theorem zero_mem_utf8Char {c : ℕ} : 0 ∈ utf8Char c ↔ c = 0 := by
  unfold utf8Char
  split
  · simp [eq_comm]
  · split
    · simp only [List.mem_cons,List.not_mem_nil,or_false]
      omega
    · split <;> simp only [List.mem_cons,List.not_mem_nil,or_false] <;> omega

/-- The code units that `json.dumps` writes of one code point. -/
def units (c : ℕ) : List ℕ :=
  if c < 0x10000 then [c] else [0xD800 + (c - 0x10000) / 1024,0xDC00 + (c - 0x10000) % 1024]

/-- The text that code units name: a high surrogate and a low one are one code point, and a
lone one names none. -/
def ofUnits : List ℕ → Option (List ℕ)
  | [] => some []
  | u :: us =>
    if u < 0xD800 ∨ 0xE000 ≤ u then (ofUnits us).map (u :: ·)
    else match us with
      | v :: us =>
        if u < 0xDC00 ∧ 0xDC00 ≤ v ∧ v < 0xE000 then
          (ofUnits us).map ((0x10000 + (u - 0xD800) * 1024 + (v - 0xDC00)) :: ·)
        else none
      | [] => none

def hexDigit (v : ℕ) : ℕ := if v < 10 then 48 + v else 87 + v

/-- A code unit in a JSON string. -/
def escapeUnit (u : ℕ) : List ℕ :=
  if u = 34 then [92,34]
  else if u = 92 then [92,92]
  else if u = 8 then [92,98]
  else if u = 12 then [92,102]
  else if u = 10 then [92,110]
  else if u = 13 then [92,114]
  else if u = 9 then [92,116]
  else if 32 ≤ u ∧ u ≤ 126 then [u]
  else [92,117,hexDigit (u / 4096),hexDigit (u / 256 % 16),hexDigit (u / 16 % 16),hexDigit (u % 16)]

def hexValue (d : ℕ) : ℕ := if d < 58 then d - 48 else d - 87

/-- The code unit that a letter after a backslash stands for. -/
def escaped : ℕ → ℕ
  | 98 => 8
  | 102 => 12
  | 110 => 10
  | 114 => 13
  | 116 => 9
  | x => x

def readUnit : List ℕ → Option (ℕ × List ℕ)
  | [] => none
  | u :: r =>
    if u = 92 then
      match r with
      | [] => none
      | x :: r =>
        if x = 117 then
          match r with
          | a :: b :: c :: d :: r =>
            some (hexValue a * 4096 + hexValue b * 256 + hexValue c * 16 + hexValue d,r)
          | _ => none
        else some (escaped x,r)
    else some (u,r)

theorem hexValue_hexDigit {v : ℕ} (h : v < 16) : hexValue (hexDigit v) = v := by
  unfold hexDigit hexValue
  split
  · rw [if_pos (by omega)]
    omega
  · rw [if_neg (by omega)]
    omega

/-- Of code units. -/
def IsUnit (u : ℕ) : Prop := u < 0x10000

theorem readUnit_escapeUnit (u : ℕ) (r : List ℕ) (hu : IsUnit u) :
    readUnit (escapeUnit u ++ r) = some (u,r) := by
  unfold IsUnit at hu
  unfold escapeUnit
  iterate 7
    split
    · next h =>
      subst h
      rfl
  split
  · next h1 h2 _ _ _ _ _ _ => simp [readUnit,h2]
  · have hx : hexValue (hexDigit (u / 4096)) * 4096 + hexValue (hexDigit (u / 256 % 16)) * 256 +
        hexValue (hexDigit (u / 16 % 16)) * 16 + hexValue (hexDigit (u % 16)) = u := by
      rw [hexValue_hexDigit (by omega),hexValue_hexDigit (by omega),hexValue_hexDigit (by omega),
        hexValue_hexDigit (by omega)]
      omega
    simp only [List.cons_append,List.nil_append,readUnit,if_true,hx]

theorem escapeUnit_isCode : IsCode IsUnit escapeUnit := .of_read readUnit_escapeUnit

theorem hexDigit_pos (v : ℕ) : hexDigit v ≠ 0 := by
  unfold hexDigit
  split <;> omega

/-- No code unit is written with a zero byte, nor begins as the end of the string does. -/
theorem escapeUnit_ne {u c : ℕ} (hc : c ∈ escapeUnit u) : c ≠ 0 := by
  unfold escapeUnit at hc
  iterate 7
    split at hc
    · simp only [List.mem_cons,List.not_mem_nil,or_false] at hc
      omega
  split at hc
  · simp only [List.mem_cons,List.not_mem_nil,or_false] at hc
    omega
  · simp only [List.mem_cons,List.not_mem_nil,or_false] at hc
    rcases hc with rfl | rfl | rfl | rfl | rfl | rfl
    · decide
    · decide
    all_goals exact hexDigit_pos _

theorem escapeUnit_head (u : ℕ) (r r' : List ℕ) : escapeUnit u ++ r ≠ 34 :: r' := by
  unfold escapeUnit
  iterate 7
    split
    · simp
  split
  · next h _ _ _ _ _ _ _ => simp [h]
  · simp

/-- A code point that is no surrogate. -/
def IsScalar (c : ℕ) : Prop := c < 0xD800 ∨ (0xE000 ≤ c ∧ c < 0x110000)

theorem IsScalar.coded {c : ℕ} (h : IsScalar c) : Coded c := by
  unfold IsScalar at h
  unfold Coded
  omega

theorem units_isUnit {c : ℕ} (h : Coded c) : ∀ u ∈ units c, IsUnit u := by
  intro u hu
  unfold units at hu
  unfold Coded at h
  unfold IsUnit
  split at hu <;> simp only [List.mem_cons,List.not_mem_nil,or_false] at hu <;> omega

theorem ofUnits_cons {u : ℕ} (h : u < 0xD800 ∨ 0xE000 ≤ u) (us : List ℕ) :
    ofUnits (u :: us) = (ofUnits us).map (u :: ·) := by
  cases us <;> simp [ofUnits,h]

theorem ofUnits_units {cs : List ℕ} (h : ∀ c ∈ cs, IsScalar c) :
    ofUnits (cs.flatMap units) = some cs := by
  induction cs with
  | nil => rfl
  | cons c cs ih =>
    have hc := h c List.mem_cons_self
    have ht := ih (fun d hd => h d (List.mem_cons_of_mem _ hd))
    unfold IsScalar at hc
    rw [List.flatMap_cons]
    by_cases hb : c < 0x10000
    · have hs : c < 0xD800 ∨ 0xE000 ≤ c := by omega
      simp [units,hb,ofUnits_cons hs,ht]
    · have h1 : ¬ (0xD800 + (c - 0x10000) / 1024 < 0xD800 ∨
          0xE000 ≤ 0xD800 + (c - 0x10000) / 1024) := by
        omega
      have h2 : 0xD800 + (c - 0x10000) / 1024 < 0xDC00 ∧ 0xDC00 ≤ 0xDC00 + (c - 0x10000) % 1024 ∧
          0xDC00 + (c - 0x10000) % 1024 < 0xE000 := by omega
      have h3 : 0x10000 + (0xD800 + (c - 0x10000) / 1024 - 0xD800) * 1024 +
          (0xDC00 + (c - 0x10000) % 1024 - 0xDC00) = c := by omega
      simp only [units,hb,if_false,List.cons_append,List.nil_append,ofUnits,h1,h2,h3,ht,and_self,
        if_true,Option.map_some]

/-- What code units name is a text without lone surrogates. -/
theorem scalar_of_ofUnits {us cs : List ℕ} (hu : ∀ u ∈ us, IsUnit u) (h : ofUnits us = some cs) :
    ∀ c ∈ cs, IsScalar c := by
  induction us using ofUnits.induct generalizing cs with
  | case1 =>
    cases h
    simp
  | case2 u us hs ih =>
    rw [ofUnits_cons hs] at h
    obtain ⟨ds,hd,rfl⟩ := Option.map_eq_some_iff.mp h
    have hlt := hu u List.mem_cons_self
    unfold IsUnit at hlt
    intro c hc
    rcases List.mem_cons.mp hc with rfl | hc
    · unfold IsScalar
      omega
    · exact ih (fun v hv => hu v (List.mem_cons_of_mem _ hv)) hd c hc
  | case3 u hs v us hp ih =>
    simp only [ofUnits,if_neg hs,if_pos hp] at h
    obtain ⟨ds,hd,hcs⟩ := Option.map_eq_some_iff.mp h
    intro c hc
    rw [← hcs] at hc
    rcases List.mem_cons.mp hc with hc | hc
    · unfold IsScalar
      omega
    · exact ih (fun w hw => hu w (List.mem_cons_of_mem _ (List.mem_cons_of_mem _ hw))) hd c hc
  | case4 u hs v us hp =>
    simp only [ofUnits,if_neg hs,if_neg hp] at h
    cases h
  | case5 u hs =>
    simp only [ofUnits,if_neg hs] at h
    cases h

namespace PyStr

theorem scalar_iff {s : PyStr} : s.scalar = true ↔ ∀ c ∈ s.codes, IsScalar c := by
  simp only [scalar,codes,List.all_eq_true,Bool.or_eq_true,decide_eq_true_eq,List.mem_map,
    forall_exists_index,and_imp,forall_apply_eq_imp_iff₂,IsScalar]
  refine forall₂_congr (fun c _ => ?_)
  have hlt := c.isLt
  omega

theorem coded (s : PyStr) : ∀ c ∈ s.codes, Coded c := by
  intro c hc
  obtain ⟨d,_,rfl⟩ := List.mem_map.mp hc
  exact d.isLt

theorem codes_injective {s t : PyStr} (h : s.codes = t.codes) : s = t :=
  List.map_injective_iff.mpr (fun _ _ => Fin.ext) h

/-- `s.encode()`. -/
def utf8 (s : PyStr) : Option (List ℕ) :=
  if s.scalar then some (s.codes.flatMap utf8Char) else none

/-- `os.fsencode` of one code point, where the file system takes UTF-8: an escaped byte is
itself. -/
def fsChar (c : ℕ) : List ℕ := if 0xDC80 ≤ c ∧ c ≤ 0xDCFF then [c - 0xDC00] else utf8Char c

/-- `os.fsencode`, which fails on the other surrogates. -/
def fsencode (s : PyStr) : Option (List ℕ) :=
  if s.codes.all (fun c => c < 0xD800 || 0xE000 ≤ c || (0xDC80 ≤ c && c ≤ 0xDCFF)) then
    some (s.codes.flatMap fsChar)
  else none

/-- The string of `json.dumps`. -/
def literal (s : PyStr) : List ℕ :=
  34 :: (s.codes.flatMap units).flatMap escapeUnit ++ [34]

/-- The text that the string of `json.dumps` names, as any reader of JSON has it. -/
def named (s : PyStr) : Option (List ℕ) := ofUnits (s.codes.flatMap units)

theorem utf8_injective {s t : PyStr} {bs : List ℕ} (hs : s.utf8 = some bs) (ht : t.utf8 = some bs) :
    s = t := by
  unfold utf8 at hs ht
  split at hs <;> cases hs
  split at ht
  · refine codes_injective (utf8Char_isCode.flatMap_injective (fun c _ => utf8Char_ne_nil c)
      s.coded t.coded ?_)
    exact (Option.some.inj ht).symm
  · cases ht

theorem zero_mem_utf8 {s : PyStr} {bs : List ℕ} (h : s.utf8 = some bs) : 0 ∈ bs ↔ 0 ∈ s.codes := by
  unfold utf8 at h
  split at h <;> cases h
  simp [List.mem_flatMap,zero_mem_utf8Char]

theorem zero_mem_fsencode {s : PyStr} {bs : List ℕ} (h : s.fsencode = some bs) :
    0 ∈ bs ↔ 0 ∈ s.codes := by
  unfold fsencode at h
  split at h <;> cases h
  have hchar : ∀ c, 0 ∈ fsChar c ↔ c = 0 := by
    intro c
    unfold fsChar
    split
    · simp only [List.mem_singleton]
      omega
    · exact zero_mem_utf8Char
  simp [List.mem_flatMap,hchar]

/-- The JSON string names the very text exactly when that has a UTF-8 encoding. -/
theorem named_iff {s : PyStr} : s.named = some s.codes ↔ s.scalar = true := by
  rw [scalar_iff]
  refine ⟨scalar_of_ofUnits ?_,ofUnits_units⟩
  intro u hu
  obtain ⟨c,hc,hm⟩ := List.mem_flatMap.mp hu
  exact units_isUnit (s.coded c hc) u hm

theorem literal_isCode : IsCode (fun s : PyStr => s.scalar = true) literal := by
  intro s t r r' hs ht h
  have hunits : ∀ s : PyStr, ∀ u ∈ s.codes.flatMap units, IsUnit u := by
    intro s u hu
    obtain ⟨c,hc,hm⟩ := List.mem_flatMap.mp hu
    exact units_isUnit (s.coded c hc) u hm
  simp only [literal,List.cons_append,List.append_assoc,List.nil_append,List.cons.injEq,
    true_and] at h
  obtain ⟨he,rfl⟩ := escapeUnit_isCode.flatMap_until (fun u r r' _ => escapeUnit_head u r r')
    (hunits s) (hunits t) h
  have hn : s.named = t.named := congrArg ofUnits he
  rw [named_iff.mpr hs,named_iff.mpr ht] at hn
  exact ⟨codes_injective (Option.some.inj hn),rfl⟩

theorem literal_ne {s : PyStr} {c : ℕ} (hc : c ∈ s.literal) : c ≠ 0 := by
  simp only [literal,List.cons_append,List.mem_cons,List.mem_append,List.not_mem_nil,or_false] at hc
  rcases hc with rfl | hc | rfl
  · decide
  · obtain ⟨u,_,hu⟩ := List.mem_flatMap.mp hc
    exact escapeUnit_ne hu
  · decide

end PyStr

end MaculaPy.Wire
