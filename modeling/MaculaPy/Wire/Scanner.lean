import MaculaPy.Foundation.Readers
import MaculaPy.Wire.JsonText

/-! # The strings and numbers of `json.loads`

The scanner of JSON that `decode_payload` and `native_error` use, symbol by symbol, and the
words it takes. A lone surrogate may be escaped in a string; an int has a limit of digits.
-/
namespace MaculaPy.Wire
open PrefixCode Readers
open scoped Computability

/-! ## Strings -/

/-- The value of a hexadecimal digit. -/
def hex? (c : ℕ) : Option ℕ :=
  if 48 ≤ c ∧ c ≤ 57 then some (c - 48)
  else if 97 ≤ c ∧ c ≤ 102 then some (c - 87)
  else if 65 ≤ c ∧ c ≤ 70 then some (c - 55)
  else none

/-- Four hexadecimal digits. -/
def hex4 : Reader ℕ ℕ
  | a :: b :: c :: d :: r =>
    (hex? a).bind fun a => (hex? b).bind fun b => (hex? c).bind fun c => (hex? d).map fun d =>
      (a * 4096 + b * 256 + c * 16 + d,r)
  | _ => none

/-- What one letter after a backslash stands for. -/
def short : ℕ → Option ℕ
  | 34 => some 34
  | 92 => some 92
  | 47 => some 47
  | 98 => some 8
  | 102 => some 12
  | 110 => some 10
  | 114 => some 13
  | 116 => some 9
  | _ => none

def IsHigh (u : ℕ) : Prop := 0xD800 ≤ u ∧ u < 0xDC00

def IsLow (u : ℕ) : Prop := 0xDC00 ≤ u ∧ u < 0xE000

instance (u : ℕ) : Decidable (IsHigh u) := inferInstanceAs (Decidable (_ ∧ _))

instance (u : ℕ) : Decidable (IsLow u) := inferInstanceAs (Decidable (_ ∧ _))

/-- The code point of a surrogate pair. -/
def join (u v : ℕ) : ℕ := 0x10000 + (u - 0xD800) * 1024 + (v - 0xDC00)

/-- What follows `\u`: a high surrogate takes the low one escaped after it. -/
def scanUnicode : Reader ℕ ℕ := fun s =>
  (hex4 s).bind fun x =>
    if IsHigh x.1 then
      match x.2 with
      | 92 :: 117 :: r => (hex4 r).map fun y => if IsLow y.1 then (join x.1 y.1,y.2) else x
      | _ => some x
    else some x

/-- What follows a backslash. -/
def scanEscape : Reader ℕ ℕ
  | [] => none
  | x :: r => if x = 117 then scanUnicode r else (short x).map fun c => (c,r)

/-- A character of a string. -/
def scanChar : Reader ℕ ℕ
  | [] => none
  | c :: r => if c < 32 then none else if c = 92 then scanEscape r else some (c,r)

/-- `scanstring`, after the opening quote; the number bounds its length. -/
def scanString : ℕ → Reader ℕ (List ℕ)
  | 0,_ => none
  | _ + 1,[] => none
  | n + 1,c :: r =>
    if c = 34 then some ([],r)
    else (scanChar (c :: r)).bind fun x => (scanString n x.2).map fun y => (x.1 :: y.1,y.2)

/-- The four digits of a code unit. -/
def Hex4 (w : List ℕ) (u : ℕ) : Prop := w.length = 4 ∧ hex4 w = some (u,[])

/-- A text that goes on with an escaped low surrogate. -/
def BeginsLow (t : List ℕ) : Prop := ∃ w v t', t = 92 :: 117 :: w ++ t' ∧ Hex4 w v ∧ IsLow v

/-- What a string may be after its opening quote, and the text it stands for. -/
inductive Chars : Grammar ℕ (List ℕ)
  | close : Chars [34] []
  | raw {c : ℕ} {t s : List ℕ} (hc : 32 ≤ c ∧ c ≠ 34 ∧ c ≠ 92) (h : Chars t s) :
      Chars (c :: t) (c :: s)
  | short {x c : ℕ} {t s : List ℕ} (hx : short x = some c) (h : Chars t s) :
      Chars (92 :: x :: t) (c :: s)
  | pair {w w' t s : List ℕ} {u v : ℕ} (hw : Hex4 w u) (hw' : Hex4 w' v) (hu : IsHigh u)
      (hv : IsLow v) (h : Chars t s) : Chars (92 :: 117 :: w ++ 92 :: 117 :: w' ++ t) (join u v :: s)
  | unit {w t s : List ℕ} {u : ℕ} (hw : Hex4 w u) (hn : IsHigh u → ¬ BeginsLow t)
      (h : Chars t s) : Chars (92 :: 117 :: w ++ t) (u :: s)

theorem hex4_append {w : List ℕ} {u : ℕ} (h : Hex4 w u) (r : List ℕ) :
    hex4 (w ++ r) = some (u,r) := by
  obtain ⟨hl,hw⟩ := h
  obtain ⟨a,b,c,d,rfl⟩ := List.length_eq_four.mp hl
  simp only [hex4,Option.bind_eq_some_iff,Option.map_eq_some_iff,Prod.mk.injEq] at hw
  obtain ⟨a',ha,b',hb,c',hc,d',hd,rfl,_⟩ := hw
  simp [hex4,ha,hb,hc,hd]

theorem hex4_sound : Sound hex4 Hex4 := by
  intro s u r h
  match s with
  | a :: b :: c :: d :: s =>
    simp only [hex4,Option.bind_eq_some_iff,Option.map_eq_some_iff,Prod.mk.injEq] at h
    obtain ⟨a',ha,b',hb,c',hc,d',hd,rfl,rfl⟩ := h
    exact ⟨[a,b,c,d],rfl,rfl,by simp [hex4,ha,hb,hc,hd]⟩

theorem hex?_lt {c v : ℕ} (h : hex? c = some v) : v < 16 := by
  unfold hex? at h
  split at h
  · cases h
    omega
  · split at h
    · cases h
      omega
    · split at h
      · cases h
        omega
      · cases h

theorem Hex4.isUnit {w : List ℕ} {u : ℕ} (h : Hex4 w u) : IsUnit u := by
  obtain ⟨hl,hw⟩ := h
  obtain ⟨a,b,c,d,rfl⟩ := List.length_eq_four.mp hl
  simp only [hex4,Option.bind_eq_some_iff,Option.map_eq_some_iff,Prod.mk.injEq] at hw
  obtain ⟨a',ha,b',hb,c',hc,d',hd,rfl,_⟩ := hw
  have ha' := hex?_lt ha
  have hb' := hex?_lt hb
  have hc' := hex?_lt hc
  have hd' := hex?_lt hd
  unfold IsUnit
  omega

theorem short_lt {x c : ℕ} (h : short x = some c) : c < 128 := by
  unfold short at h
  split at h
  all_goals first | (cases h; decide) | cases h

/-- Where a string goes on with `\u`, four digits follow. -/
theorem Chars.hex4_of_unicode {t s r r' : List ℕ} (h : Chars t s) (he : t ++ r = 92 :: 117 :: r') :
    ∃ w v t', t = 92 :: 117 :: w ++ t' ∧ Hex4 w v := by
  cases h with
  | close => simp at he
  | raw hc _ =>
    obtain ⟨rfl,_⟩ := List.cons.inj he
    exact absurd rfl hc.2.2
  | short hx _ =>
    simp only [List.cons_append,List.cons.injEq,true_and] at he
    rw [he.1] at hx
    cases hx
  | @pair w w' t s u v hw hw' hu hv h =>
    exact ⟨w,u,92 :: 117 :: w' ++ t,by simp,hw⟩
  | @unit w t s u hw hn h => exact ⟨w,u,t,rfl,hw⟩

/-- A surrogate is left alone where no low one is escaped after it. -/
theorem scanUnicode_unit {w t s : List ℕ} {u : ℕ} (hw : Hex4 w u) (hn : IsHigh u → ¬ BeginsLow t)
    (h : Chars t s) (r : List ℕ) : scanUnicode (w ++ (t ++ r)) = some (u,t ++ r) := by
  rw [scanUnicode,hex4_append hw,Option.bind_some]
  split
  · next hu =>
    split
    · next r' he =>
      obtain ⟨w',v,t',rfl,hv⟩ := h.hex4_of_unicode he
      have hr : r' = w' ++ (t' ++ r) := by
        simp only [List.cons_append,List.append_assoc,List.cons.injEq,true_and] at he
        exact he.symm
      have hlow : ¬ IsLow v := fun hl => hn hu ⟨w',v,t',rfl,hv,hl⟩
      rw [hr,hex4_append hv,Option.map_some,if_neg hlow]
    · rfl
  · rfl

theorem scanUnicode_pair {w w' : List ℕ} {u v : ℕ} (hw : Hex4 w u) (hw' : Hex4 w' v)
    (hu : IsHigh u) (hv : IsLow v) (r : List ℕ) :
    scanUnicode (w ++ (92 :: 117 :: (w' ++ r))) = some (join u v,r) := by
  rw [scanUnicode,hex4_append hw,Option.bind_some,if_pos hu]
  simp only
  rw [hex4_append hw',Option.map_some,if_pos hv]

theorem scanString_cons {n c : ℕ} {r : List ℕ} (hc : c ≠ 34) : scanString (n + 1) (c :: r) =
    (scanChar (c :: r)).bind fun x => (scanString n x.2).map fun y => (x.1 :: y.1,y.2) := by
  rw [scanString,if_neg hc]

theorem scanString_complete {t s : List ℕ} (h : Chars t s) :
    ∀ n r, t.length ≤ n → scanString n (t ++ r) = some (s,r) := by
  induction h with
  | close =>
    intro n r hn
    obtain ⟨k,rfl⟩ : ∃ k, n = k + 1 := ⟨n - 1,by simp at hn; omega⟩
    rfl
  | @raw c t s hc _ ih =>
    intro n r hn
    obtain ⟨k,rfl⟩ : ∃ k, n = k + 1 := ⟨n - 1,by simp at hn; omega⟩
    have hchar : scanChar (c :: (t ++ r)) = some (c,t ++ r) := by
      rw [scanChar,if_neg (by omega),if_neg hc.2.2]
    rw [List.cons_append,scanString_cons hc.2.1,hchar,Option.bind_some,
      ih k r (by simp at hn; omega),Option.map_some]
  | @short x c t s hx _ ih =>
    intro n r hn
    obtain ⟨k,rfl⟩ : ∃ k, n = k + 1 := ⟨n - 1,by simp at hn; omega⟩
    have hne : x ≠ 117 := by
      rintro rfl
      cases hx
    have hchar : scanChar (92 :: x :: (t ++ r)) = some (c,t ++ r) := by
      simp [scanChar,scanEscape,hne,hx]
    rw [List.cons_append,List.cons_append,scanString_cons (by decide),hchar,Option.bind_some,
      ih k r (by simp at hn; omega),Option.map_some]
  | @pair w w' t s u v hw hw' hu hv _ ih =>
    intro n r hn
    obtain ⟨k,rfl⟩ : ∃ k, n = k + 1 := ⟨n - 1,by simp at hn; omega⟩
    have htext : 92 :: 117 :: w ++ 92 :: 117 :: w' ++ t ++ r =
        92 :: 117 :: (w ++ (92 :: 117 :: (w' ++ (t ++ r)))) := by simp
    have hchar : scanChar (92 :: 117 :: (w ++ (92 :: 117 :: (w' ++ (t ++ r))))) =
        some (join u v,t ++ r) := by
      rw [← scanUnicode_pair hw hw' hu hv (t ++ r)]
      rfl
    rw [htext,scanString_cons (by decide),hchar,Option.bind_some,
      ih k r (by simp at hn; omega),Option.map_some]
  | @unit w t s u hw hn ht ih =>
    intro n r hlen
    obtain ⟨k,rfl⟩ : ∃ k, n = k + 1 := ⟨n - 1,by simp at hlen; omega⟩
    have htext : 92 :: 117 :: w ++ t ++ r = 92 :: 117 :: (w ++ (t ++ r)) := by simp
    have hchar : scanChar (92 :: 117 :: (w ++ (t ++ r))) = some (u,t ++ r) := by
      rw [← scanUnicode_unit hw hn ht r]
      rfl
    rw [htext,scanString_cons (by decide),hchar,Option.bind_some,
      ih k r (by simp at hlen; omega),Option.map_some]

/-- What the reader takes after `\u`. -/
theorem scanUnicode_eq_some {s r : List ℕ} {c : ℕ} (h : scanUnicode s = some (c,r)) :
    (∃ w w' u v, s = w ++ 92 :: 117 :: w' ++ r ∧ Hex4 w u ∧ Hex4 w' v ∧ IsHigh u ∧ IsLow v ∧
      c = join u v) ∨
    ∃ w, s = w ++ r ∧ Hex4 w c ∧ (IsHigh c → ∀ w' v r', r = 92 :: 117 :: w' ++ r' → Hex4 w' v →
      ¬ IsLow v) := by
  obtain ⟨⟨u,s'⟩,hu,hs⟩ := Option.bind_eq_some_iff.mp h
  obtain ⟨w,rfl,hw⟩ := hex4_sound _ _ _ hu
  split at hs
  · next hhigh =>
    split at hs
    · next r' hr' =>
      obtain ⟨⟨v,r''⟩,hv,he⟩ := Option.map_eq_some_iff.mp hs
      obtain ⟨w',rfl,hw'⟩ := hex4_sound _ _ _ hv
      simp only at hr'
      subst hr'
      split at he
      · next hlow =>
        obtain ⟨hc,rfl⟩ := Prod.mk.inj he
        exact Or.inl ⟨w,w',u,v,by simp,hw,hw',hhigh,hlow,hc.symm⟩
      · next hlow =>
        obtain ⟨rfl,rfl⟩ := Prod.mk.inj he
        refine Or.inr ⟨w,rfl,hw,?_⟩
        intro _ x y r' hr hx
        simp only [List.cons_append,List.cons.injEq,true_and] at hr
        have hy := hex4_append hx r'
        rw [← hr,hex4_append hw'] at hy
        cases hy
        exact hlow
    · next hno =>
      obtain ⟨rfl,rfl⟩ := Prod.mk.inj (Option.some.inj hs)
      refine Or.inr ⟨w,rfl,hw,?_⟩
      intro _ x y r' hr _ _
      exact hno _ hr
  · next hhigh =>
    obtain ⟨rfl,rfl⟩ := Prod.mk.inj (Option.some.inj hs)
    exact Or.inr ⟨w,rfl,hw,fun hh => absurd hh hhigh⟩

theorem scanString_sound (n : ℕ) : Sound (scanString n) Chars := by
  induction n with
  | zero =>
    intro s cs r h
    cases h
  | succ n ih =>
    intro s cs r h
    cases s with
    | nil => cases h
    | cons c s =>
      by_cases hc : c = 34
      · subst hc
        cases h
        exact ⟨[34],rfl,.close⟩
      · rw [scanString_cons hc] at h
        obtain ⟨⟨d,s'⟩,hd,h⟩ := Option.bind_eq_some_iff.mp h
        obtain ⟨⟨cs',r'⟩,hcs,he⟩ := Option.map_eq_some_iff.mp h
        cases he
        obtain ⟨t,rfl,ht⟩ := ih _ _ _ hcs
        rw [scanChar] at hd
        split at hd
        · cases hd
        · next hlt =>
          split at hd
          · next hback =>
            subst hback
            cases s with
            | nil => cases hd
            | cons x s =>
              rw [scanEscape] at hd
              split at hd
              · next hx =>
                subst hx
                rcases scanUnicode_eq_some hd with
                  ⟨w,w',u,v,hs,hw,hw',hu,hv,hj⟩ | ⟨w,hs,hw,hn⟩
                · subst hs
                  rw [hj]
                  exact ⟨92 :: 117 :: w ++ 92 :: 117 :: w' ++ t,by simp,.pair hw hw' hu hv ht⟩
                · subst hs
                  refine ⟨92 :: 117 :: w ++ t,by simp,.unit hw ?_ ht⟩
                  rintro hu ⟨w',v,t',rfl,hw',hl⟩
                  exact hn hu w' v _ (List.append_assoc _ _ _) hw' hl
              · obtain ⟨e,he,hp⟩ := Option.map_eq_some_iff.mp hd
                cases hp
                exact ⟨92 :: x :: t,rfl,.short he ht⟩
          · next hback =>
            cases hd
            exact ⟨c :: t,rfl,.raw ⟨by omega,hc,hback⟩ ht⟩

/-! ## Numbers -/

/-- What the interpreter makes of the text of a number: `float` of it, and `int` of at most
`maxDigits` digits, where zero is no limit. -/
structure Numbers where
  float : List ℕ → Binary64
  maxDigits : ℕ
  large : maxDigits = 0 ∨ 640 ≤ maxDigits

def Numbers.nat? (num : Numbers) (ds : List ℕ) : Option ℕ :=
  if num.maxDigits = 0 ∨ ds.length ≤ num.maxDigits then
    some (Nat.ofDigits 10 (ds.map (· - 48)).reverse)
  else none

/-- `int` of digits with or without a sign. -/
def Numbers.int? (num : Numbers) : List ℕ → Option ℤ
  | 45 :: ds => (num.nat? ds).map fun n : ℕ => -(n : ℤ)
  | ds => (num.nat? ds).map fun n : ℕ => (n : ℤ)

def isDigit (c : ℕ) : Bool := 48 ≤ c && c ≤ 57

def isSign (c : ℕ) : Bool := c == 43 || c == 45

def digits : Reader ℕ (List ℕ) := (single isDigit).cat (span isDigit)

def integer : Reader ℕ (List ℕ) :=
  (single (· == 45)).optional.cat
    ((single (· == 48)).either ((single (fun c => 49 ≤ c && c ≤ 57)).cat (span isDigit)))

def fraction : Reader ℕ (List ℕ) := ((single (· == 46)).cat digits).optional

def exponent : Reader ℕ (List ℕ) :=
  ((single (fun c => c == 101 || c == 69)).cat ((single isSign).optional.cat digits)).optional

/-- `_match_number`: with a fraction or an exponent it is a float. -/
def number (num : Numbers) : Reader ℕ Json := fun s =>
  (integer s).bind fun x => (fraction.cat exponent x.2).bind fun y =>
    if y.1 = [] then (num.int? x.1).map fun i => (.int i,y.2)
    else some (.float (num.float (x.1 ++ y.1)),y.2)

def Digits : Language ℕ := singles isDigit * spans isDigit

def Integer : Language ℕ :=
  (singles (· == 45) + 1) *
    (singles (· == 48) + singles (fun c => 49 ≤ c && c ≤ 57) * spans isDigit)

def Fraction : Language ℕ := singles (· == 46) * Digits + 1

def Exponent : Language ℕ :=
  singles (fun c => c == 101 || c == 69) * ((singles isSign + 1) * Digits) + 1

/-- A number's text and what it is. -/
def Number (num : Numbers) : Grammar ℕ Json := fun t j =>
  ∃ u v, u ∈ Integer ∧ v ∈ Fraction * Exponent ∧ t = u ++ v ∧
    if v = [] then (num.int? u).map Json.int = some j else j = .float (num.float t)

/-- What no number goes on with. -/
def Over (r : List ℕ) : Prop :=
  Stops (fun c => isDigit c = true ∨ c = 46 ∨ c = 101 ∨ c = 69) r

theorem Over.digit {r : List ℕ} (h : Over r) : Stops (fun c => isDigit c = true) r := by
  cases r with
  | nil => trivial
  | cons c r => exact fun hc => h (Or.inl hc)

theorem digits_takes : Takes digits Digits (Stops (fun c => isDigit c = true)) :=
  (single_takes isDigit).cat (span_takes isDigit) (fun _ _ _ _ => trivial)

/-- One symbol and more of which nothing is read where the text does not begin so. -/
theorem cat_single_eq_none {P : ℕ → Bool} {q : Reader ℕ (List ℕ)} {r : List ℕ}
    (h : Stops (fun c => P c = true) r) : (single P).cat q r = none := by
  cases r with
  | nil => rfl
  | cons c r =>
    have hc : ¬ P c = true := h
    simp [Reader.cat,single,hc]

theorem exponent_takes : Takes exponent Exponent Over := by
  have hsign : Takes (single isSign).optional (singles isSign + 1)
      (Stops (fun c => isSign c = true)) := by
    refine ((single_takes isSign).mono (fun _ _ => trivial)).optional ?_
    intro r hr
    cases r with
    | nil => rfl
    | cons c r => exact if_neg hr
  have hsigned : Takes ((single isSign).optional.cat digits) ((singles isSign + 1) * Digits)
      (Stops (fun c => isDigit c = true)) := by
    refine hsign.cat digits_takes ?_
    intro w r hw _
    obtain ⟨_,⟨c,rfl,hc⟩,v,_,rfl⟩ := Language.mem_mul.mp hw
    simp only [isDigit,Bool.and_eq_true,decide_eq_true_eq] at hc
    simp only [List.cons_append,Stops,isSign,Bool.or_eq_true,beq_iff_eq]
    omega
  refine (((single_takes _).cat hsigned (fun _ _ _ _ => trivial)).mono (fun _ => Over.digit)).optional ?_
  intro r hr
  refine cat_single_eq_none ?_
  cases r with
  | nil => trivial
  | cons c r =>
    intro hc
    simp only [Bool.or_eq_true,beq_iff_eq] at hc
    exact hr (Or.inr (Or.inr hc))

theorem fraction_takes :
    Takes fraction Fraction (Stops (fun c => isDigit c = true ∨ c = 46)) := by
  have hp := (single_takes (· == 46)).cat digits_takes (fun _ _ _ _ => trivial)
  refine (hp.mono ?_).optional ?_
  · intro r hr
    cases r with
    | nil => trivial
    | cons c r => exact fun hc => hr (Or.inl hc)
  · intro r hr
    refine cat_single_eq_none ?_
    cases r with
    | nil => trivial
    | cons c r => exact fun hc => hr (Or.inr (beq_iff_eq.mp hc))

theorem decimals_takes : Takes (fraction.cat exponent) (Fraction * Exponent) Over := by
  refine fraction_takes.cat exponent_takes ?_
  intro w r hw hr
  rcases hw with hw | hw
  · obtain ⟨_,⟨c,rfl,hc⟩,v,_,rfl⟩ := Language.mem_mul.mp hw
    simp only [Bool.or_eq_true,beq_iff_eq] at hc
    simp only [List.cons_append,Stops,isDigit,Bool.and_eq_true,decide_eq_true_eq]
    omega
  · cases (Language.mem_one w).mp hw
    cases r with
    | nil => trivial
    | cons c r => exact fun hc => hr (hc.imp_right Or.inl)

theorem integer_takes : Takes integer Integer (Stops (fun c => isDigit c = true)) := by
  have hsign : Takes (single (· == 45)).optional (singles (· == 45) + 1)
      (Stops (fun c => c = 45)) := by
    refine ((single_takes (· == 45)).mono (fun _ _ => trivial)).optional ?_
    intro r hr
    cases r with
    | nil => rfl
    | cons c r => exact if_neg (fun hc => hr (beq_iff_eq.mp hc))
  have hmany := (single_takes (fun c => 49 ≤ c && c ≤ 57)).cat (span_takes isDigit)
    (fun _ _ _ _ => trivial)
  have hwhole := ((single_takes (· == 48)).mono (fun _ _ => trivial)).either hmany (by
    intro w r hw _
    obtain ⟨_,⟨c,rfl,hc⟩,v,_,rfl⟩ := Language.mem_mul.mp hw
    refine if_neg ?_
    simp only [Bool.and_eq_true,decide_eq_true_eq] at hc
    simp only [beq_iff_eq]
    omega)
  refine hsign.cat hwhole ?_
  intro w r hw _
  rcases hw with ⟨c,rfl,hc⟩ | hw
  · simp only [beq_iff_eq] at hc
    simp [Stops,hc]
  · obtain ⟨_,⟨c,rfl,hc⟩,v,_,rfl⟩ := Language.mem_mul.mp hw
    simp only [Bool.and_eq_true,decide_eq_true_eq] at hc
    simp only [List.cons_append,Stops]
    omega

theorem number_sound (num : Numbers) : Sound (number num) (Number num) := by
  intro s j r h
  obtain ⟨⟨u,s'⟩,hu,h'⟩ := Option.bind_eq_some_iff.mp h
  obtain ⟨⟨v,r'⟩,hv,he⟩ := Option.bind_eq_some_iff.mp h'
  obtain ⟨rfl,hU⟩ := integer_takes.sound _ _ _ hu
  obtain ⟨hs,hV⟩ := decimals_takes.sound _ _ _ hv
  simp only at hs he
  subst hs
  split at he
  · next hnil =>
    obtain ⟨i,hi,hp⟩ := Option.map_eq_some_iff.mp he
    cases hp
    refine ⟨u ++ v,by simp,u,v,hU,hV,rfl,?_⟩
    rw [if_pos hnil,hi,Option.map_some]
  · next hnil =>
    cases he
    exact ⟨u ++ v,by simp,u,v,hU,hV,rfl,by rw [if_neg hnil]⟩

theorem number_complete (num : Numbers) : Complete (number num) (Number num) Over := by
  rintro t j r ⟨u,v,hU,hV,rfl,hj⟩ hr
  have hstop : Stops (fun c => isDigit c = true) (v ++ r) := by
    obtain ⟨f,hf,e,he,rfl⟩ := Language.mem_mul.mp hV
    rcases hf with hf | hf
    · obtain ⟨_,⟨c,rfl,hc⟩,w,_,rfl⟩ := Language.mem_mul.mp hf
      simp only [beq_iff_eq] at hc
      simp [Stops,isDigit,hc]
    · cases (Language.mem_one f).mp hf
      rcases he with he | he
      · obtain ⟨_,⟨c,rfl,hc⟩,w,_,rfl⟩ := Language.mem_mul.mp he
        simp only [Bool.or_eq_true,beq_iff_eq] at hc
        simp only [List.cons_append,List.nil_append,Stops,isDigit,Bool.and_eq_true,
          decide_eq_true_eq]
        omega
      · cases (Language.mem_one e).mp he
        exact hr.digit
  rw [number,List.append_assoc,integer_takes.complete u _ hU hstop,Option.bind_some,
    decimals_takes.complete v r hV hr,Option.bind_some]
  split at hj
  · next hnil =>
    obtain ⟨i,hi,hp⟩ := Option.map_eq_some_iff.mp hj
    rw [if_pos hnil,hi,Option.map_some,hp]
  · next hnil =>
    rw [if_neg hnil,hj]

/-- A number begins with a digit, or with a minus and a digit. -/
theorem Integer.head {u : List ℕ} (h : u ∈ Integer) : ∃ c cs, isDigit c = true ∧
    (u = c :: cs ∨ u = 45 :: c :: cs) := by
  obtain ⟨s,hs,w,hw,rfl⟩ := Language.mem_mul.mp h
  have hhead : ∃ c cs, isDigit c = true ∧ w = c :: cs := by
    rcases hw with ⟨c,rfl,hc⟩ | hw
    · simp only [beq_iff_eq] at hc
      exact ⟨c,[],by simp [isDigit,hc],rfl⟩
    · obtain ⟨_,⟨c,rfl,hc⟩,v,_,rfl⟩ := Language.mem_mul.mp hw
      simp only [Bool.and_eq_true,decide_eq_true_eq] at hc
      refine ⟨c,v,?_,rfl⟩
      simp only [isDigit,Bool.and_eq_true,decide_eq_true_eq]
      omega
  obtain ⟨c,cs,hc,rfl⟩ := hhead
  rcases hs with ⟨d,rfl,hd⟩ | hs
  · exact ⟨c,cs,hc,Or.inr (by simpa using hd)⟩
  · cases (Language.mem_one s).mp hs
    exact ⟨c,cs,hc,Or.inl rfl⟩

end MaculaPy.Wire
