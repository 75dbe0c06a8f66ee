import MaculaPy.Wire.Loads
import MaculaPy.Wire.Written

/-! # Reading what was written

The text `json.dumps` writes of a tree is a document, and `json.loads` takes it for the tree
itself, but that a high surrogate and the low one after it in a text come back as the one
code point they are a pair for.
-/
namespace MaculaPy.Wire
open PrefixCode Readers

/-! ## Texts -/

/-- A text as it is read back. -/
def joined : List ℕ → List ℕ
  | u :: v :: r => if IsHigh u ∧ IsLow v then join u v :: joined r else u :: joined (v :: r)
  | r => r

/-- No low surrogate follows a high one. -/
def Apart (cs : List ℕ) : Prop := cs.IsChain (fun u v => ¬ (IsHigh u ∧ IsLow v))

theorem length_joined (cs : List ℕ) : (joined cs).length ≤ cs.length := by
  induction cs using joined.induct with
  | case1 u v r h ih =>
    rw [joined,if_pos h]
    simp only [List.length_cons]
    omega
  | case2 u v r h ih =>
    rw [joined,if_neg h]
    simpa using ih
  | case3 r h => rw [joined.eq_2 r h]

/-- Exactly the texts without such a pair come back as they are. -/
theorem joined_eq_self {cs : List ℕ} : joined cs = cs ↔ Apart cs := by
  induction cs using joined.induct with
  | case1 u v r h ih =>
    rw [joined,if_pos h,Apart,List.isChain_cons_cons]
    constructor
    · intro he
      have hl := congrArg List.length he
      have hle := length_joined r
      simp only [List.length_cons] at hl
      omega
    · exact fun hc => absurd h hc.1
  | case2 u v r h ih =>
    rw [joined,if_neg h,Apart,List.isChain_cons_cons,List.cons.injEq,ih]
    exact ⟨fun hc => ⟨h,hc.2⟩,fun hc => ⟨rfl,hc.2⟩⟩
  | case3 r h =>
    rw [joined.eq_2 r h]
    match r with
    | [] => simp [Apart]
    | [c] => simp [Apart]
    | u :: v :: r => exact absurd rfl (h u v r)

theorem joined_coded {cs : List ℕ} (h : ∀ c ∈ cs, Coded c) : ∀ c ∈ joined cs, Coded c := by
  induction cs using joined.induct with
  | case1 u v r hp ih =>
    rw [joined,if_pos hp,List.forall_mem_cons]
    refine ⟨?_,ih (fun c hc => h c (by simp [hc]))⟩
    unfold IsHigh IsLow at hp
    unfold Coded join
    omega
  | case2 u v r hp ih =>
    rw [joined,if_neg hp,List.forall_mem_cons]
    exact ⟨h u List.mem_cons_self,ih (fun c hc => h c (List.mem_cons_of_mem u hc))⟩
  | case3 r hr => rwa [joined.eq_2 r hr]

namespace PyStr

theorem codes_ofCodes_of_coded {ns : List ℕ} (h : ∀ n ∈ ns, Coded n) : (ofCodes ns).codes = ns := by
  rw [codes,ofCodes,List.map_map]
  refine (List.map_congr_left ?_).trans (List.map_id ns)
  intro n hn
  exact Nat.mod_eq_of_lt (h n hn)

theorem ofCodes_codes (s : PyStr) : ofCodes s.codes = s :=
  codes_injective (codes_ofCodes_of_coded s.coded)

/-- A text as it is read back. -/
def joined (s : PyStr) : PyStr := ofCodes (Wire.joined s.codes)

theorem joined_eq_self {s : PyStr} : s.joined = s ↔ Apart s.codes := by
  rw [← Wire.joined_eq_self]
  constructor
  · intro h
    have hc := congrArg codes h
    rwa [joined,codes_ofCodes_of_coded (joined_coded s.coded)] at hc
  · intro h
    rw [joined,h,ofCodes_codes]

theorem apart_of_scalar {s : PyStr} (h : s.scalar = true) : Apart s.codes := by
  refine List.isChain_iff_forall_rel_of_append_cons_cons.mpr ?_
  rintro u v p q he ⟨hu,_⟩
  have hs := scalar_iff.mp h u (by simp [he])
  unfold IsScalar at hs
  unfold IsHigh at hu
  omega

end PyStr

theorem hex?_hexDigit {v : ℕ} (h : v < 16) : hex? (hexDigit v) = some v := by
  unfold hexDigit hex?
  split
  · rw [if_pos (by omega)]
    simp
  · rw [if_neg (by omega),if_pos (by omega)]
    simp

/-- The digits of a code unit, as they are written. -/
def hexWord (u : ℕ) : List ℕ :=
  [hexDigit (u / 4096),hexDigit (u / 256 % 16),hexDigit (u / 16 % 16),hexDigit (u % 16)]

theorem hex4_hexWord {u : ℕ} (h : IsUnit u) : Hex4 (hexWord u) u := by
  unfold IsUnit at h
  refine ⟨rfl,?_⟩
  simp only [hexWord,hex4,hex?_hexDigit (show u / 4096 < 16 by omega),
    hex?_hexDigit (show u / 256 % 16 < 16 by omega),
    hex?_hexDigit (show u / 16 % 16 < 16 by omega),hex?_hexDigit (show u % 16 < 16 by omega),
    Option.bind_some,Option.map_some]
  congr 2
  omega

theorem IsHigh.isUnit {u : ℕ} (h : IsHigh u) : IsUnit u := by
  unfold IsHigh at h
  unfold IsUnit
  omega

theorem IsLow.isUnit {u : ℕ} (h : IsLow u) : IsUnit u := by
  unfold IsLow at h
  unfold IsUnit
  omega

/-- The three ways a code unit is written. -/
theorem escapeUnit_cases (u : ℕ) :
    (escapeUnit u = [u] ∧ 32 ≤ u ∧ u ≠ 34 ∧ u ≠ 92 ∧ u ≤ 126) ∨
    (∃ x, escapeUnit u = [92,x] ∧ short x = some u ∧ u < 127) ∨
    escapeUnit u = 92 :: 117 :: hexWord u := by
  unfold escapeUnit
  iterate 7
    split
    · next h =>
      subst h
      exact Or.inr (Or.inl ⟨_,rfl,rfl,by decide⟩)
  split
  · next h1 h2 _ _ _ _ _ h => exact Or.inl ⟨rfl,h.1,h1,h2,h.2⟩
  · exact Or.inr (Or.inr rfl)

/-- What `json.dumps` writes between the quotes of a string. -/
def written (cs : List ℕ) : List ℕ := (cs.flatMap units).flatMap escapeUnit

theorem written_of_lt {c : ℕ} (hc : c < 0x10000) (cs : List ℕ) :
    written (c :: cs) = escapeUnit c ++ written cs := by
  simp [written,units,hc]

theorem escapeUnit_of_surrogate {u : ℕ} (h : 126 < u) : escapeUnit u = 92 :: 117 :: hexWord u := by
  rcases escapeUnit_cases u with h' | ⟨x,_,_,h'⟩ | h'
  · omega
  · omega
  · exact h'

theorem written_of_le {c : ℕ} (hc : 0x10000 ≤ c) (cs : List ℕ) : written (c :: cs) =
    92 :: 117 :: hexWord (0xD800 + (c - 0x10000) / 1024) ++
      92 :: 117 :: hexWord (0xDC00 + (c - 0x10000) % 1024) ++ written cs := by
  have hu : units c = [0xD800 + (c - 0x10000) / 1024,0xDC00 + (c - 0x10000) % 1024] :=
    if_neg (by omega)
  rw [written,List.flatMap_cons,hu]
  simp only [List.cons_append,List.nil_append,List.flatMap_cons]
  rw [escapeUnit_of_surrogate (by omega),escapeUnit_of_surrogate (by omega)]
  simp [written]

theorem unit_of_begins {u v : ℕ} (hu : IsUnit u) {w r r' : List ℕ} (hw : Hex4 w v)
    (h : 92 :: 117 :: hexWord u ++ r = 92 :: 117 :: w ++ r') : u = v := by
  simp only [List.cons_append,List.cons.injEq,true_and] at h
  have hread := hex4_append (hex4_hexWord hu) r
  rw [h,hex4_append hw] at hread
  exact (Prod.mk.inj (Option.some.inj hread)).1.symm

/-- Only a low surrogate is written as one. -/
theorem not_beginsLow {cs : List ℕ} (hc : ∀ c ∈ cs, Coded c) (h : ∀ v ∈ cs.head?, ¬ IsLow v) :
    ¬ BeginsLow (written cs ++ [34]) := by
  rintro ⟨w,v,t,he,hw,hv⟩
  cases cs with
  | nil => simp [written] at he
  | cons c cs =>
    have hcoded := hc c List.mem_cons_self
    have hlow := h c rfl
    unfold Coded at hcoded
    by_cases hb : c < 0x10000
    · rw [written_of_lt hb,List.append_assoc] at he
      rcases escapeUnit_cases c with ⟨h',_,_,hne,_⟩ | ⟨x,h',hx,_⟩ | h'
      · rw [h'] at he
        simp only [List.cons_append,List.cons.injEq] at he
        exact hne he.1
      · rw [h'] at he
        simp only [List.cons_append,List.cons.injEq,true_and] at he
        rw [he.1] at hx
        cases hx
      · rw [h'] at he
        rw [unit_of_begins hb hw he] at hlow
        exact hlow hv
    · rw [written_of_le (by omega),List.append_assoc,List.append_assoc] at he
      have hunit : IsUnit (0xD800 + (c - 0x10000) / 1024) := by
        unfold IsUnit
        omega
      have hval := unit_of_begins hunit hw he
      unfold IsLow at hv
      omega

/-- What is written of a text is a string that stands for it. -/
theorem written_chars {cs : List ℕ} (hc : ∀ c ∈ cs, Coded c) :
    Chars (written cs ++ [34]) (joined cs) := by
  have hone : ∀ c r s, Coded c → (∀ d ∈ r, Coded d) → (IsHigh c → ∀ v ∈ r.head?, ¬ IsLow v) →
      Chars (written r ++ [34]) s → Chars (written (c :: r) ++ [34]) (c :: s) := by
    intro c r s hcoded hr hn h
    unfold Coded at hcoded
    by_cases hb : c < 0x10000
    · rw [written_of_lt hb,List.append_assoc]
      rcases escapeUnit_cases c with ⟨h',h1,h2,h3,_⟩ | ⟨x,h',hx,_⟩ | h'
      · rw [h']
        exact .raw ⟨h1,h2,h3⟩ h
      · rw [h']
        exact .short hx h
      · rw [h']
        exact .unit (hex4_hexWord hb) (fun hh => not_beginsLow hr (hn hh)) h
    · have hjoin : join (0xD800 + (c - 0x10000) / 1024) (0xDC00 + (c - 0x10000) % 1024) = c := by
        unfold join
        omega
      have hhigh : IsHigh (0xD800 + (c - 0x10000) / 1024) := by
        unfold IsHigh
        omega
      have hlow : IsLow (0xDC00 + (c - 0x10000) % 1024) := by
        unfold IsLow
        omega
      have hpair := Chars.pair (hex4_hexWord hhigh.isUnit) (hex4_hexWord hlow.isUnit) hhigh hlow h
      rw [hjoin] at hpair
      rwa [written_of_le (by omega),List.append_assoc]
  induction cs using joined.induct with
  | case1 u v r h ih =>
    have hr := ih (fun c hc' => hc c (by simp [hc']))
    obtain ⟨hu,hv⟩ := h
    have hu' := hu.isUnit
    have hv' := hv.isUnit
    have htext : written (u :: v :: r) ++ [34] =
        92 :: 117 :: hexWord u ++ 92 :: 117 :: hexWord v ++ (written r ++ [34]) := by
      rw [written_of_lt hu',written_of_lt hv',escapeUnit_of_surrogate,escapeUnit_of_surrogate]
      · simp
      · unfold IsLow at hv
        omega
      · unfold IsHigh at hu
        omega
    rw [joined,if_pos ⟨hu,hv⟩,htext]
    exact .pair (hex4_hexWord hu') (hex4_hexWord hv') hu hv hr
  | case2 u v r h ih =>
    have hr : ∀ c ∈ v :: r, Coded c := fun c hc' => hc c (List.mem_cons_of_mem u hc')
    rw [joined,if_neg h]
    refine hone u (v :: r) _ (hc u List.mem_cons_self) hr ?_ (ih hr)
    intro hh w hw
    cases hw
    exact fun hl => h ⟨hh,hl⟩
  | case3 r h =>
    rw [joined.eq_2 r h]
    match r with
    | [] => exact .close
    | [c] => exact hone c [] [] (hc c List.mem_cons_self) (by simp) (by simp) .close
    | u :: v :: r => exact absurd rfl (h u v r)

theorem literal_value (num : Numbers) (s : PyStr) : Value num s.literal (.str s.joined) :=
  .str (written_chars s.coded)

/-! ## Numbers -/

theorem nat?_natText (num : Numbers) {n : ℕ}
    (h : num.maxDigits = 0 ∨ (natText n).length ≤ num.maxDigits) :
    num.nat? (natText n) = some n := by
  rw [Numbers.nat?,if_pos h,ofDigits_natText]

theorem natText_integer (n : ℕ) :
    natText n ∈ singles (· == 48) + singles (fun c => 49 ≤ c && c ≤ 57) * spans isDigit := by
  by_cases hn : n = 0
  · subst hn
    exact Or.inl ⟨48,rfl,rfl⟩
  · refine Or.inr ?_
    have hlast : ((Nat.digits 10 n).getLast (Nat.digits_ne_nil_iff_ne_zero.mpr hn)) ≠ 0 :=
      Nat.getLast_digit_ne_zero 10 hn
    obtain ⟨d,ds,hds⟩ := List.exists_cons_of_ne_nil (natText_ne_nil n)
    have hd : d = (Nat.digits 10 n).getLast (Nat.digits_ne_nil_iff_ne_zero.mpr hn) + 48 := by
      have hhead : (natText n).head (natText_ne_nil n) = d := by simp [hds]
      rw [← hhead]
      simp [natText,hn,List.head_reverse]
    have hlt := natText_digit (n := n) (c := d) (hds ▸ List.mem_cons_self)
    rw [hds,← List.singleton_append]
    refine Language.append_mem_mul ⟨d,rfl,?_⟩ ?_
    · simp only [Bool.and_eq_true,decide_eq_true_eq]
      omega
    · intro c hc
      have hcd := natText_digit (n := n) (c := c) (hds ▸ List.mem_cons_of_mem d hc)
      simpa [isDigit] using hcd

/-- The interpreter reads an int of so many digits. -/
def Numbers.Fits (num : Numbers) (i : ℤ) : Prop :=
  num.maxDigits = 0 ∨ (natText i.natAbs).length ≤ num.maxDigits

theorem intText_number {num : Numbers} {i : ℤ} (h : num.Fits i) :
    Number num (intText i) (.int i) := by
  have hnil : ([] : List ℕ) ∈ Fraction * Exponent :=
    Language.append_mem_mul (a := []) (b := []) (Or.inr Language.nil_mem_one)
      (Or.inr Language.nil_mem_one)
  refine ⟨intText i,[],?_,hnil,by simp,?_⟩
  · cases i with
    | ofNat n =>
      exact Language.append_mem_mul (a := []) (Or.inr Language.nil_mem_one) (natText_integer n)
    | negSucc n =>
      exact Language.append_mem_mul (a := [45]) (Or.inl ⟨45,rfl,rfl⟩) (natText_integer (n + 1))
  · rw [if_pos rfl]
    cases i with
    | ofNat n =>
      have hne : ∀ ds, natText n ≠ 45 :: ds := by
        intro ds he
        have hd := natText_digit (n := n) (c := 45) (he ▸ List.mem_cons_self)
        omega
      have hread : num.nat? (natText n) = some n := nat?_natText num h
      rw [intText,Numbers.int?.eq_2 num _ (fun ds he => hne ds he),hread]
      rfl
    | negSucc n =>
      have hread : num.nat? (natText (n + 1)) = some (n + 1) := nat?_natText num h
      rw [intText,Numbers.int?,hread]
      rfl

/-- An int of 64 bits has few enough digits. -/
theorem Numbers.fits_int64 (num : Numbers) {i : ℤ} (h : int64Min ≤ i ∧ i ≤ int64Max) :
    num.Fits i := by
  rcases num.large with h0 | h0
  · exact Or.inl h0
  · refine Or.inr (le_trans ?_ h0)
    have hlt : i.natAbs < 10 ^ 19 := by
      unfold int64Min int64Max at h
      omega
    unfold natText
    split
    · simp
    · rw [List.length_map,List.length_reverse]
      have hd := (Nat.digits_length_le_iff (by decide) i.natAbs).mpr hlt
      omega

/-! ## Documents -/

section Documents
variable (num : Numbers) (floatText : Binary64 → Numeral)

mutual
/-- Numbers that come back: finite floats, and ints of few enough digits. -/
def Json.Fits : Json → Prop
  | .int i => num.Fits i
  | .float x => x.finite = true
  | .arr js => FitsList js
  | .obj ms => FitsMembers ms
  | _ => True

def FitsList : List Json → Prop
  | [] => True
  | j :: js => j.Fits ∧ FitsList js

def FitsMembers : List (PyStr × Json) → Prop
  | [] => True
  | (_,j) :: ms => j.Fits ∧ FitsMembers ms
end

mutual
/-- A tree as it is read back. -/
def Json.joined : Json → Json
  | .str s => .str s.joined
  | .arr js => .arr (joinedList js)
  | .obj ms => .obj (joinedMembers ms)
  | j => j

def joinedList : List Json → List Json
  | [] => []
  | j :: js => j.joined :: joinedList js

def joinedMembers : List (PyStr × Json) → List (PyStr × Json)
  | [] => []
  | (k,j) :: ms => (k.joined,j.joined) :: joinedMembers ms
end

/-- `json.dumps`, as a text. -/
def dumpsText (compact : Bool) (j : Json) : PyStr := .ofCodes ((j.doc floatText).text compact)

/-- What is relied on of `float.__repr__`: it is a number of JSON, and `float` of it is the
float again. -/
def ReadsFloats : Prop := ∀ x : Binary64, x.finite = true → Number num (floatText x).text (.float x)

variable {num floatText} {compact : Bool}

theorem comma_spaces : ∃ w, comma compact = 44 :: w ∧ Spaces w := by
  cases compact
  · exact ⟨[32],rfl,by simp [Spaces,isSpace]⟩
  · exact ⟨[],rfl,by simp [Spaces]⟩

theorem colon_spaces : ∃ w, colon compact = 58 :: w ∧ Spaces w := by
  cases compact
  · exact ⟨[32],rfl,by simp [Spaces,isSpace]⟩
  · exact ⟨[],rfl,by simp [Spaces]⟩

theorem member_written {k : PyStr} {t : List ℕ} {j : Json} (h : Value num t j) :
    Member (Value num) (k.literal ++ colon compact ++ t) (k.joined,j) := by
  obtain ⟨w,hw,hs⟩ := @colon_spaces compact
  have htext : k.literal ++ colon compact ++ t =
      34 :: (written k.codes ++ [34]) ++ [] ++ 58 :: w ++ t := by
    rw [hw]
    simp [PyStr.literal,written]
  rw [htext]
  exact .mk (written_chars k.coded) (by simp [Spaces]) hs h

mutual
/-- What is written of a tree is a value, the tree as it is read back. -/
theorem text_value (hf : ReadsFloats num floatText) : ∀ j : Json, j.Fits num →
    Value num ((j.doc floatText).text compact) j.joined
  | .null,_ => .constant (by simp [constants,Json.doc,Doc.text,Json.joined])
  | .bool true,_ => .constant (by simp [constants,Json.doc,Doc.text,Json.joined])
  | .bool false,_ => .constant (by simp [constants,Json.doc,Doc.text,Json.joined])
  | .int i,h => .number (intText_number h)
  | .float x,h => .number (hf x h)
  | .str s,_ => literal_value num s
  | .arr [],_ => .noItems (w := []) (by simp [Spaces])
  | .arr (j :: js),h => by
    have hlist := text_rest hf js h.2 (text_value hf j h.1)
    exact .arr (w := []) (by simp [Spaces]) hlist
  | .obj [],_ => .noMembers (w := []) (by simp [Spaces])
  | .obj ((k,j) :: ms),h => by
    have htext : ((Json.obj ((k,j) :: ms)).doc floatText).text compact =
        123 :: [] ++ (k.literal ++ colon compact ++ (j.doc floatText).text compact ++
          membersText compact (docMembers floatText ms)) := by
      simp [Json.doc,docMembers,Doc.text]
    rw [htext]
    exact .obj (by simp [Spaces])
      (text_members hf ms h.2 (member_written (text_value hf j h.1)))

theorem text_rest (hf : ReadsFloats num floatText) : ∀ js : List Json, FitsList num js →
    ∀ {t : List ℕ} {i : Json}, Value num t i → Listed isSpace 93 44 (Value num)
      (t ++ restText compact (docList floatText js)) (i :: joinedList js)
  | [],_,t,i,hi => by
    have hlast : Listed isSpace 93 44 (Value num) (t ++ [] ++ [93]) [i] := .last hi (by simp)
    simpa [docList,restText,joinedList] using hlast
  | j :: js,h,t,i,hi => by
    obtain ⟨w,hw,hs⟩ := @comma_spaces compact
    have hmore : Listed isSpace 93 44 (Value num) (t ++ [] ++ 44 :: w ++
        ((j.doc floatText).text compact ++ restText compact (docList floatText js)))
        (i :: j.joined :: joinedList js) :=
      .more hi (by simp) hs (text_rest hf js h.2 (text_value hf j h.1))
    simpa [docList,restText,joinedList,hw] using hmore

theorem text_members (hf : ReadsFloats num floatText) : ∀ ms : List (PyStr × Json),
    FitsMembers num ms → ∀ {t : List ℕ} {x : PyStr × Json}, Member (Value num) t x →
    Listed isSpace 125 44 (Member (Value num))
      (t ++ membersText compact (docMembers floatText ms)) (x :: joinedMembers ms)
  | [],_,t,x,hx => by
    have hlast : Listed isSpace 125 44 (Member (Value num)) (t ++ [] ++ [125]) [x] :=
      .last hx (by simp)
    simpa [docMembers,membersText,joinedMembers] using hlast
  | (k,j) :: ms,h,t,x,hx => by
    obtain ⟨w,hw,hs⟩ := @comma_spaces compact
    have hmore : Listed isSpace 125 44 (Member (Value num)) (t ++ [] ++ 44 :: w ++
        (k.literal ++ colon compact ++ (j.doc floatText).text compact ++
          membersText compact (docMembers floatText ms)))
        (x :: (k.joined,j.joined) :: joinedMembers ms) :=
      .more hx (by simp) hs (text_members hf ms h.2 (member_written (text_value hf j h.1)))
    simpa [docMembers,membersText,joinedMembers,hw] using hmore
end

theorem lt_of_short {x c : ℕ} (h : short x = some c) : x < 128 := by
  unfold short at h
  split at h
  all_goals first | decide | cases h

theorem escapeUnit_lt {u : ℕ} (hu : IsUnit u) : ∀ c ∈ escapeUnit u, c < 128 := by
  unfold IsUnit at hu
  have hdigit : ∀ v < 16, hexDigit v < 128 := by decide
  intro c hc
  rcases escapeUnit_cases u with ⟨h,_,_,_,hlt⟩ | ⟨x,h,hx,_⟩ | h
  · rw [h,List.mem_singleton] at hc
    omega
  · rw [h] at hc
    simp only [List.mem_cons,List.not_mem_nil,or_false] at hc
    rcases hc with rfl | rfl
    · decide
    · exact lt_of_short hx
  · rw [h,hexWord] at hc
    simp only [List.mem_cons,List.not_mem_nil,or_false] at hc
    rcases hc with rfl | rfl | rfl | rfl | rfl | rfl
    · decide
    · decide
    all_goals exact hdigit _ (by omega)

theorem literal_lt (s : PyStr) : ∀ c ∈ s.literal, c < 128 := by
  intro c hc
  simp only [PyStr.literal,List.cons_append,List.mem_cons,List.mem_append,List.not_mem_nil,
    or_false] at hc
  rcases hc with rfl | hc | rfl
  · decide
  · obtain ⟨u,hu,hc⟩ := List.mem_flatMap.mp hc
    obtain ⟨d,hd,hu⟩ := List.mem_flatMap.mp hu
    exact escapeUnit_lt (units_isUnit (s.coded d hd) u hu) c hc
  · decide

theorem comma_lt : ∀ c ∈ comma compact, c < 128 := by cases compact <;> simp [comma]

theorem colon_lt : ∀ c ∈ colon compact, c < 128 := by cases compact <;> simp [colon]

mutual
/-- `json.dumps` writes ASCII. -/
theorem Doc.text_lt : ∀ (d : Doc), ∀ c ∈ d.text compact, c < 128
  | .null => by simp [Doc.text]
  | .bool true => by simp [Doc.text]
  | .bool false => by simp [Doc.text]
  | .number n => fun c hc => (n.body c hc).2.2.2.2
  | .str s => literal_lt s
  | .arr [] => by simp [Doc.text]
  | .obj [] => by simp [Doc.text]
  | .arr (d :: ds) => by
    intro c hc
    simp only [Doc.text,List.cons_append,List.mem_cons,List.mem_append] at hc
    rcases hc with rfl | hc | hc
    · decide
    · exact Doc.text_lt d c hc
    · exact restText_lt ds c hc
  | .obj ((k,d) :: ms) => by
    intro c hc
    simp only [Doc.text,List.cons_append,List.mem_cons,List.mem_append] at hc
    rcases hc with rfl | ((hc | hc) | hc) | hc
    · decide
    · exact literal_lt k c hc
    · exact colon_lt c hc
    · exact Doc.text_lt d c hc
    · exact membersText_lt ms c hc

theorem restText_lt : ∀ (ds : List Doc), ∀ c ∈ restText compact ds, c < 128
  | [] => by simp [restText]
  | d :: ds => by
    intro c hc
    simp only [restText,List.mem_append] at hc
    rcases hc with (hc | hc) | hc
    · exact comma_lt c hc
    · exact Doc.text_lt d c hc
    · exact restText_lt ds c hc

theorem membersText_lt : ∀ (ms : List (PyStr × Doc)), ∀ c ∈ membersText compact ms, c < 128
  | [] => by simp [membersText]
  | (k,d) :: ms => by
    intro c hc
    simp only [membersText,List.mem_append] at hc
    rcases hc with (((hc | hc) | hc) | hc) | hc
    · exact comma_lt c hc
    · exact literal_lt k c hc
    · exact colon_lt c hc
    · exact Doc.text_lt d c hc
    · exact membersText_lt ms c hc
end

/-- What `json.dumps` writes is read by `json.loads`, with its surrogate pairs joined. -/
theorem loadsText_dumpsText (hf : ReadsFloats num floatText) {j : Json} (hj : j.Fits num) :
    loadsText num (dumpsText floatText compact j) = some j.joined := by
  refine loadsText_complete ⟨[],(j.doc floatText).text compact,[],?_,by simp [Spaces],
    by simp [Spaces],text_value hf j hj⟩
  rw [dumpsText,PyStr.codes_ofCodes (Doc.text_lt _)]
  simp

variable (floatText)

mutual
theorem Json.joined_eq_self : ∀ j : Json,
    j.joined = j ↔ ∀ s ∈ (j.doc floatText).texts, Apart s.codes
  | .null => by simp [Json.joined,Json.doc,Doc.texts]
  | .bool b => by simp [Json.joined,Json.doc,Doc.texts]
  | .int i => by simp [Json.joined,Json.doc,Doc.texts]
  | .float x => by simp [Json.joined,Json.doc,Doc.texts]
  | .str s => by simp [Json.joined,Json.doc,Doc.texts,PyStr.joined_eq_self]
  | .arr js => by simp [Json.joined,Json.doc,Doc.texts,joinedList_eq_self js]
  | .obj ms => by simp [Json.joined,Json.doc,Doc.texts,joinedMembers_eq_self ms]

theorem joinedList_eq_self : ∀ js : List Json,
    joinedList js = js ↔ ∀ s ∈ textsList (docList floatText js), Apart s.codes
  | [] => by simp [joinedList,docList,textsList]
  | j :: js => by
    rw [joinedList,docList,textsList,List.forall_mem_append,List.cons.injEq,
      Json.joined_eq_self j,joinedList_eq_self js]

theorem joinedMembers_eq_self : ∀ ms : List (PyStr × Json),
    joinedMembers ms = ms ↔ ∀ s ∈ textsMembers (docMembers floatText ms), Apart s.codes
  | [] => by simp [joinedMembers,docMembers,textsMembers]
  | (k,j) :: ms => by
    rw [joinedMembers,docMembers,textsMembers,List.cons_append,List.forall_mem_cons,
      List.forall_mem_append,List.cons.injEq,Prod.mk.injEq,PyStr.joined_eq_self,
      Json.joined_eq_self j,joinedMembers_eq_self ms,and_assoc]
end

variable {floatText}

theorem loadsText_of_apart (hf : ReadsFloats num floatText) {j : Json} (hj : j.Fits num)
    (h : ∀ s ∈ (j.doc floatText).texts, Apart s.codes) :
    loadsText num (dumpsText floatText compact j) = some j := by
  rw [loadsText_dumpsText hf hj,(Json.joined_eq_self floatText j).mpr h]

/-- What is read back is the tree that was written exactly when no text in it has a high
surrogate and a low one after it. -/
theorem read_back_iff (hf : ReadsFloats num floatText) {j : Json} (hj : j.Fits num) :
    loadsText num (dumpsText floatText compact j) = some j ↔
      ∀ s ∈ (j.doc floatText).texts, Apart s.codes := by
  rw [loadsText_dumpsText hf hj,Option.some.injEq,Json.joined_eq_self floatText]

/-! A `float.__repr__` and a `float` that are inverse: the bits in decimals, with an exponent. -/

theorem bitsText_integer (n : ℕ) : natText n ∈ Integer :=
  Language.append_mem_mul (a := []) (Or.inr Language.nil_mem_one) (natText_integer n)

theorem bitsText_head (n : ℕ) : ∃ c cs, natText n ++ [101,48] = c :: cs ∧
    (c = 45 ∨ (48 ≤ c ∧ c ≤ 57) ∨ c = 73 ∨ c = 78) := by
  obtain ⟨c,cs,h⟩ := List.exists_cons_of_ne_nil (natText_ne_nil n)
  exact ⟨c,_,by rw [h,List.cons_append],Or.inr (Or.inl (natText_digit (h ▸ List.mem_cons_self)))⟩

theorem bitsText_body (n : ℕ) : ∀ c ∈ natText n ++ [101,48], InNumber c := by
  intro c hc
  rcases List.mem_append.mp hc with hc | hc
  · have hd := natText_digit hc
    unfold InNumber
    omega
  · simp only [List.mem_cons,List.not_mem_nil,or_false] at hc
    unfold InNumber
    omega

def bitsText (x : Binary64) : Numeral :=
  ⟨natText x.bits.toNat ++ [101,48],bitsText_head x.bits.toNat,bitsText_body x.bits.toNat⟩

def bitsNumbers : Numbers where
  float t := ⟨BitVec.ofNat 64 (Nat.ofDigits 10 ((t.take (t.length - 2)).map (· - 48)).reverse)⟩
  maxDigits := 4300
  large := by decide

theorem bits_readsFloats : ReadsFloats bitsNumbers bitsText := by
  intro x _
  have hexp : [101,48] ∈ Fraction * Exponent := by
    refine Language.append_mem_mul (a := []) (Or.inr Language.nil_mem_one) (Or.inl ?_)
    refine Language.append_mem_mul (a := [101]) ⟨101,rfl,rfl⟩ ?_
    refine Language.append_mem_mul (a := []) (Or.inr Language.nil_mem_one) ?_
    exact Language.append_mem_mul (a := [48]) (b := []) ⟨48,rfl,rfl⟩ (fun c hc => nomatch hc)
  refine ⟨natText x.bits.toNat,[101,48],bitsText_integer _,hexp,rfl,?_⟩
  have htake : (natText x.bits.toNat ++ [101,48]).take
      ((natText x.bits.toNat ++ [101,48]).length - 2) = natText x.bits.toNat := by simp
  rw [if_neg (by simp)]
  simp only [bitsNumbers,bitsText,htake,ofDigits_natText,BitVec.ofNat_toNat,BitVec.setWidth_eq]

/-- An object of a list with an integer and a text outside the Basic Multilingual Plane. -/
def sampleTree : Json := .obj [(.ofCodes [107],.arr [.int (-1),.str (.ofCodes [0x1F600]),.null])]

theorem read_back_iff_sampleTree :
    loadsText bitsNumbers (dumpsText bitsText true sampleTree) = some sampleTree := by
  have hfits : sampleTree.Fits bitsNumbers :=
    ⟨⟨bitsNumbers.fits_int64 (by decide),trivial,trivial,trivial⟩,trivial⟩
  refine (read_back_iff bits_readsFloats hfits).mpr ?_
  intro s hs
  have hall : (sampleTree.doc bitsText).texts = [.ofCodes [107],.ofCodes [0x1F600]] := rfl
  rw [hall] at hs
  refine PyStr.apart_of_scalar ?_
  simp only [List.mem_cons,List.not_mem_nil,or_false] at hs
  rcases hs with rfl | rfl <;> decide

end Documents

end MaculaPy.Wire
