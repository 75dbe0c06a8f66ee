import MaculaPy.Wire.Text
import Mathlib.Data.Nat.Digits.Lemmas

/-! # JSON as text

What `json.dumps` writes, byte for byte: every byte is a character of ASCII and none is zero,
and documents whose texts have no lone surrogate are told apart by what is written.
-/
namespace MaculaPy.Wire
open PrefixCode

/-- What may be part of a number: a character of ASCII that ends no value. -/
def InNumber (c : ℕ) : Prop := c ≠ 0 ∧ c ≠ 44 ∧ c ≠ 93 ∧ c ≠ 125 ∧ c < 128

/-- A number as it is written: it begins with a digit, a sign or the capital of `NaN` or
`Infinity`. -/
structure Numeral where
  text : List ℕ
  head : ∃ c cs, text = c :: cs ∧ (c = 45 ∨ (48 ≤ c ∧ c ≤ 57) ∨ c = 73 ∨ c = 78)
  body : ∀ c ∈ text, InNumber c

theorem Numeral.ext {n m : Numeral} (h : n.text = m.text) : n = m := by
  cases n
  cases m
  cases h
  rfl

def natText (n : ℕ) : List ℕ :=
  if n = 0 then [48] else (Nat.digits 10 n).reverse.map (· + 48)

/-- `int.__repr__`. -/
def intText : ℤ → List ℕ
  | .ofNat n => natText n
  | .negSucc n => 45 :: natText (n + 1)

theorem natText_digit {n c : ℕ} (hc : c ∈ natText n) : 48 ≤ c ∧ c ≤ 57 := by
  unfold natText at hc
  split at hc
  · simp only [List.mem_singleton] at hc
    omega
  · obtain ⟨d,hd,rfl⟩ := List.mem_map.mp hc
    have hlt := Nat.digits_lt_base (by decide) (List.mem_reverse.mp hd)
    omega

theorem natText_ne_nil (n : ℕ) : natText n ≠ [] := by
  unfold natText
  split
  · simp
  · next h => simpa using Nat.digits_ne_nil_iff_ne_zero.mpr h

/-- The number is read back from its digits. -/
theorem ofDigits_natText (n : ℕ) : Nat.ofDigits 10 ((natText n).map (· - 48)).reverse = n := by
  unfold natText
  split
  · next h =>
    subst h
    rfl
  · have hmap : (((Nat.digits 10 n).reverse.map (· + 48)).map (· - 48)).reverse =
        Nat.digits 10 n := by
      rw [List.map_map,List.map_reverse,List.reverse_reverse]
      refine (List.map_congr_left (fun d _ => ?_)).trans (List.map_id _)
      simp
    rw [hmap,Nat.ofDigits_digits]

theorem natText_injective {n m : ℕ} (h : natText n = natText m) : n = m := by
  rw [← ofDigits_natText n,h,ofDigits_natText]

theorem intText_injective {i j : ℤ} (h : intText i = intText j) : i = j := by
  have hsign : ∀ n m, natText n ≠ 45 :: natText m := by
    intro n m he
    have hd := natText_digit (n := n) (c := 45) (he ▸ List.mem_cons_self)
    omega
  cases i with
  | ofNat n =>
    cases j with
    | ofNat m => rw [natText_injective h]
    | negSucc m => exact absurd h (hsign n _)
  | negSucc n =>
    cases j with
    | ofNat m => exact absurd h.symm (hsign m _)
    | negSucc m =>
      have hn := natText_injective (List.tail_eq_of_cons_eq h)
      obtain rfl : n = m := by omega
      rfl

/-- An `int` in JSON. -/
def Numeral.ofInt (i : ℤ) : Numeral where
  text := intText i
  head := by
    have hdigit : ∀ n, ∃ c cs, natText n = c :: cs ∧ 48 ≤ c ∧ c ≤ 57 := by
      intro n
      obtain ⟨c,cs,h⟩ := List.exists_cons_of_ne_nil (natText_ne_nil n)
      exact ⟨c,cs,h,natText_digit (h ▸ List.mem_cons_self)⟩
    cases i with
    | ofNat n =>
      obtain ⟨c,cs,h,hc⟩ := hdigit n
      exact ⟨c,cs,h,Or.inr (Or.inl hc)⟩
    | negSucc n => exact ⟨45,_,rfl,Or.inl rfl⟩
  body := by
    have hdigit : ∀ n c, c ∈ natText n → InNumber c := by
      intro n c hc
      have := natText_digit hc
      unfold InNumber
      omega
    intro c hc
    cases i with
    | ofNat n => exact hdigit n c hc
    | negSucc n =>
      rcases List.mem_cons.mp hc with rfl | hc
      · simp [InNumber]
      · exact hdigit _ c hc

/-- A document that `json.dumps` writes; a number is what it is written as. -/
inductive Doc
  | null
  | bool (b : Bool)
  | number (n : Numeral)
  | str (s : PyStr)
  | arr (ds : List Doc)
  | obj (ms : List (PyStr × Doc))

section Text
variable (compact : Bool)

/-- `separators`, without spaces or with them. -/
def comma : List ℕ := if compact then [44] else [44,32]

def colon : List ℕ := if compact then [58] else [58,32]

mutual
/-- `json.dumps`. -/
def Doc.text : Doc → List ℕ
  | .null => [110,117,108,108]
  | .bool true => [116,114,117,101]
  | .bool false => [102,97,108,115,101]
  | .number n => n.text
  | .str s => s.literal
  | .arr [] => [91,93]
  | .arr (d :: ds) => 91 :: d.text ++ restText ds
  | .obj [] => [123,125]
  | .obj ((k,d) :: ms) => 123 :: k.literal ++ colon compact ++ d.text ++ membersText ms

def restText : List Doc → List ℕ
  | [] => [93]
  | d :: ds => comma compact ++ d.text ++ restText ds

def membersText : List (PyStr × Doc) → List ℕ
  | [] => [125]
  | (k,d) :: ms => comma compact ++ k.literal ++ colon compact ++ d.text ++ membersText ms
end

end Text

mutual
/-- The texts in a document, the names of members among them. -/
def Doc.texts : Doc → List PyStr
  | .str s => [s]
  | .arr ds => textsList ds
  | .obj ms => textsMembers ms
  | _ => []

def textsList : List Doc → List PyStr
  | [] => []
  | d :: ds => d.texts ++ textsList ds

def textsMembers : List (PyStr × Doc) → List PyStr
  | [] => []
  | (k,d) :: ms => k :: d.texts ++ textsMembers ms
end

/-- No text in it has a lone surrogate. -/
def Doc.Scalar (d : Doc) : Prop := ∀ s ∈ d.texts, s.scalar = true

@[simp] theorem Doc.scalar_null : Doc.null.Scalar := by simp [Doc.Scalar,Doc.texts]

@[simp] theorem Doc.scalar_bool (b : Bool) : (Doc.bool b).Scalar := by simp [Doc.Scalar,Doc.texts]

@[simp] theorem Doc.scalar_number (n : Numeral) : (Doc.number n).Scalar := by
  simp [Doc.Scalar,Doc.texts]

@[simp] theorem Doc.scalar_str {s : PyStr} : (Doc.str s).Scalar ↔ s.scalar = true := by
  simp [Doc.Scalar,Doc.texts]

theorem scalar_textsList {ds : List Doc} :
    (∀ s ∈ textsList ds, s.scalar = true) ↔ ∀ d ∈ ds, d.Scalar := by
  induction ds with
  | nil => simp [textsList]
  | cons d ds ih =>
    rw [textsList,List.forall_mem_append,ih,List.forall_mem_cons]
    rfl

theorem scalar_textsMembers {ms : List (PyStr × Doc)} :
    (∀ s ∈ textsMembers ms, s.scalar = true) ↔ ∀ m ∈ ms, m.1.scalar = true ∧ m.2.Scalar := by
  induction ms with
  | nil => simp [textsMembers]
  | cons m ms ih =>
    rw [textsMembers,List.cons_append,List.forall_mem_cons,List.forall_mem_append,ih,
      List.forall_mem_cons]
    exact and_assoc.symm

@[simp] theorem Doc.scalar_arr {ds : List Doc} : (Doc.arr ds).Scalar ↔ ∀ d ∈ ds, d.Scalar :=
  scalar_textsList

@[simp] theorem Doc.scalar_obj {ms : List (PyStr × Doc)} :
    (Doc.obj ms).Scalar ↔ ∀ m ∈ ms, m.1.scalar = true ∧ m.2.Scalar :=
  scalar_textsMembers

section Read
variable {compact : Bool}

/-- The constructor of a document, told by the first byte of its text. -/
def lead (c : ℕ) : ℕ :=
  if c = 110 then 0
  else if c = 116 ∨ c = 102 then 1
  else if c = 34 then 3
  else if c = 91 then 4
  else if c = 123 then 5
  else 2

def Doc.kind : Doc → ℕ
  | .null => 0
  | .bool _ => 1
  | .number _ => 2
  | .str _ => 3
  | .arr _ => 4
  | .obj _ => 5

theorem Doc.text_head (d : Doc) :
    ∃ c cs, d.text compact = c :: cs ∧ lead c = d.kind ∧ c ≠ 93 := by
  match d with
  | .null => exact ⟨_,_,rfl,rfl,by decide⟩
  | .bool true => exact ⟨_,_,rfl,rfl,by decide⟩
  | .bool false => exact ⟨_,_,rfl,rfl,by decide⟩
  | .number n =>
    obtain ⟨c,cs,h,hc⟩ := n.head
    refine ⟨c,cs,h,?_,by omega⟩
    simp only [lead,Doc.kind]
    repeat rw [if_neg (by omega)]
  | .str s => exact ⟨_,_,rfl,rfl,by decide⟩
  | .arr [] => exact ⟨_,_,rfl,rfl,by decide⟩
  | .arr (d :: ds) => exact ⟨_,_,rfl,rfl,by decide⟩
  | .obj [] => exact ⟨_,_,rfl,rfl,by decide⟩
  | .obj ((k,d) :: ms) => exact ⟨_,_,rfl,rfl,by decide⟩

theorem Doc.kind_eq {d d' : Doc} {r r' : List ℕ}
    (h : d.text compact ++ r = d'.text compact ++ r') : d.kind = d'.kind := by
  obtain ⟨c,cs,hc,hk,_⟩ := @Doc.text_head compact d
  obtain ⟨c',cs',hc',hk',_⟩ := @Doc.text_head compact d'
  rw [hc,hc'] at h
  rw [← hk,← hk',(List.cons.inj h).1]

theorem Doc.text_ne (d : Doc) (r r' : List ℕ) : d.text compact ++ r ≠ 93 :: r' := by
  intro h
  obtain ⟨c,cs,hc,_,hn⟩ := @Doc.text_head compact d
  rw [hc] at h
  exact hn (List.cons.inj h).1

theorem comma_eq : comma compact = 44 :: (if compact then [] else [32]) := by
  cases compact <;> rfl

theorem restText_stops (ds : List Doc) (r : List ℕ) :
    Stops InNumber (restText compact ds ++ r) := by
  cases ds with
  | nil => simp [restText,Stops,InNumber]
  | cons d ds => simp [restText,comma_eq,Stops,InNumber]

theorem membersText_stops (ms : List (PyStr × Doc)) (r : List ℕ) :
    Stops InNumber (membersText compact ms ++ r) := by
  cases ms with
  | nil => simp [membersText,Stops,InNumber]
  | cons m ms => simp [membersText,comma_eq,Stops,InNumber]

mutual
/-- A document is told from its text and what follows. -/
theorem Doc.text_inj : ∀ (d d' : Doc) {r r' : List ℕ}, d.Scalar → d'.Scalar → Stops InNumber r →
    Stops InNumber r' → d.text compact ++ r = d'.text compact ++ r' → d = d' ∧ r = r'
  | .null,d',r,r',_,_,_,_,h => by
    have hk := Doc.kind_eq h
    cases d' with
    | null => exact ⟨rfl,List.append_cancel_left h⟩
    | _ => simp [Doc.kind] at hk
  | .bool b,d',r,r',_,_,_,_,h => by
    have hk := Doc.kind_eq h
    cases d' with
    | bool b' => cases b <;> cases b' <;> simp_all [Doc.text]
    | _ => simp [Doc.kind] at hk
  | .number n,d',r,r',_,_,hr,hr',h => by
    have hk := Doc.kind_eq h
    cases d' with
    | number n' =>
      obtain ⟨hn,rfl⟩ := append_inj_of_stops n.body n'.body hr hr' h
      exact ⟨by rw [Numeral.ext hn],rfl⟩
    | _ => simp [Doc.kind] at hk
  | .str s,d',r,r',hd,hd',_,_,h => by
    have hk := Doc.kind_eq h
    cases d' with
    | str s' =>
      obtain ⟨rfl,rfl⟩ := PyStr.literal_isCode s s' r r' (hd s List.mem_cons_self)
        (hd' s' List.mem_cons_self) h
      exact ⟨rfl,rfl⟩
    | _ => simp [Doc.kind] at hk
  | .arr [],d',r,r',_,_,_,_,h => by
    have hk := Doc.kind_eq h
    cases d' with
    | arr ds' =>
      cases ds' with
      | nil => exact ⟨rfl,List.append_cancel_left h⟩
      | cons e es =>
        simp only [Doc.text,List.cons_append,List.append_assoc,List.nil_append,List.cons.injEq,
          true_and] at h
        exact absurd h.symm (e.text_ne _ _)
    | _ => simp [Doc.kind] at hk
  | .arr (d :: ds),d',r,r',hd,hd',_,_,h => by
    have hk := Doc.kind_eq h
    cases d' with
    | arr ds' =>
      cases ds' with
      | nil =>
        simp only [Doc.text,List.cons_append,List.append_assoc,List.nil_append,List.cons.injEq,
          true_and] at h
        exact absurd h (d.text_ne _ _)
      | cons e es =>
        obtain ⟨h1,h2⟩ := List.forall_mem_cons.mp (Doc.scalar_arr.mp hd)
        obtain ⟨h1',h2'⟩ := List.forall_mem_cons.mp (Doc.scalar_arr.mp hd')
        simp only [Doc.text,List.cons_append,List.append_assoc,List.cons.injEq,true_and] at h
        obtain ⟨rfl,ht⟩ := Doc.text_inj d e h1 h1' (restText_stops ds r) (restText_stops es r') h
        obtain ⟨rfl,rfl⟩ := restText_inj ds es h2 h2' ht
        exact ⟨rfl,rfl⟩
    | _ => simp [Doc.kind] at hk
  | .obj [],d',r,r',_,_,_,_,h => by
    have hk := Doc.kind_eq h
    cases d' with
    | obj ms' =>
      cases ms' with
      | nil => exact ⟨rfl,List.append_cancel_left h⟩
      | cons m ms' => simp [Doc.text,PyStr.literal] at h
    | _ => simp [Doc.kind] at hk
  | .obj ((k,d) :: ms),d',r,r',hd,hd',_,_,h => by
    have hk := Doc.kind_eq h
    cases d' with
    | obj ms' =>
      match ms' with
      | [] => simp [Doc.text,PyStr.literal] at h
      | (l,e) :: es =>
        obtain ⟨⟨h1,h2⟩,h3⟩ := List.forall_mem_cons.mp (Doc.scalar_obj.mp hd)
        obtain ⟨⟨h1',h2'⟩,h3'⟩ := List.forall_mem_cons.mp (Doc.scalar_obj.mp hd')
        simp only [Doc.text,List.cons_append,List.append_assoc,List.cons.injEq,true_and] at h
        obtain ⟨rfl,ht⟩ := PyStr.literal_isCode k l _ _ h1 h1' h
        obtain ⟨rfl,hm⟩ := Doc.text_inj d e h2 h2' (membersText_stops ms r)
          (membersText_stops es r') (List.append_cancel_left ht)
        obtain ⟨rfl,rfl⟩ := membersText_inj ms es h3 h3' hm
        exact ⟨rfl,rfl⟩
    | _ => simp [Doc.kind] at hk

theorem restText_inj : ∀ (ds es : List Doc) {r r' : List ℕ}, (∀ d ∈ ds, d.Scalar) →
    (∀ d ∈ es, d.Scalar) → restText compact ds ++ r = restText compact es ++ r' →
    ds = es ∧ r = r'
  | [],[],_,_,_,_,h => ⟨rfl,List.append_cancel_left h⟩
  | [],_ :: _,_,_,_,_,h => by simp [restText,comma_eq] at h
  | _ :: _,[],_,_,_,_,h => by simp [restText,comma_eq] at h
  | d :: ds,e :: es,r,r',hd,he,h => by
    obtain ⟨h1,h2⟩ := List.forall_mem_cons.mp hd
    obtain ⟨h1',h2'⟩ := List.forall_mem_cons.mp he
    simp only [restText,List.append_assoc] at h
    obtain ⟨rfl,ht⟩ := Doc.text_inj d e h1 h1' (restText_stops ds r) (restText_stops es r')
      (List.append_cancel_left h)
    obtain ⟨rfl,rfl⟩ := restText_inj ds es h2 h2' ht
    exact ⟨rfl,rfl⟩

theorem membersText_inj : ∀ (ms es : List (PyStr × Doc)) {r r' : List ℕ},
    (∀ m ∈ ms, m.1.scalar = true ∧ m.2.Scalar) → (∀ m ∈ es, m.1.scalar = true ∧ m.2.Scalar) →
    membersText compact ms ++ r = membersText compact es ++ r' → ms = es ∧ r = r'
  | [],[],_,_,_,_,h => ⟨rfl,List.append_cancel_left h⟩
  | [],_ :: _,_,_,_,_,h => by simp [membersText,comma_eq] at h
  | _ :: _,[],_,_,_,_,h => by simp [membersText,comma_eq] at h
  | (k,d) :: ms,(l,e) :: es,r,r',hd,he,h => by
    obtain ⟨⟨h1,h2⟩,h3⟩ := List.forall_mem_cons.mp hd
    obtain ⟨⟨h1',h2'⟩,h3'⟩ := List.forall_mem_cons.mp he
    simp only [membersText,List.append_assoc] at h
    obtain ⟨rfl,ht⟩ := PyStr.literal_isCode k l _ _ h1 h1' (List.append_cancel_left h)
    obtain ⟨rfl,hm⟩ := Doc.text_inj d e h2 h2' (membersText_stops ms r) (membersText_stops es r')
      (List.append_cancel_left ht)
    obtain ⟨rfl,rfl⟩ := membersText_inj ms es h3 h3' hm
    exact ⟨rfl,rfl⟩
end

/-- Documents without lone surrogates are written differently. -/
theorem Doc.text_injective {d d' : Doc} (hd : d.Scalar) (hd' : d'.Scalar)
    (h : d.text compact = d'.text compact) : d = d' :=
  (@Doc.text_inj compact d d' [] [] hd hd' trivial trivial (by rw [h])).1

theorem comma_ne {c : ℕ} (hc : c ∈ comma compact) : c ≠ 0 := by
  cases compact <;> simp [comma] at hc <;> omega

theorem colon_ne {c : ℕ} (hc : c ∈ colon compact) : c ≠ 0 := by
  cases compact <;> simp [colon] at hc <;> omega

mutual
/-- `json.dumps` writes no zero byte. -/
theorem Doc.text_ne_zero : ∀ (d : Doc), ∀ c ∈ d.text compact, c ≠ 0
  | .null => by simp [Doc.text]
  | .bool true => by simp [Doc.text]
  | .bool false => by simp [Doc.text]
  | .number n => fun c hc => (n.body c hc).1
  | .str _ => fun _ hc => PyStr.literal_ne hc
  | .arr [] => by simp [Doc.text]
  | .obj [] => by simp [Doc.text]
  | .arr (d :: ds) => by
    intro c hc
    simp only [Doc.text,List.cons_append,List.mem_cons,List.mem_append] at hc
    rcases hc with rfl | hc | hc
    · decide
    · exact Doc.text_ne_zero d c hc
    · exact restText_ne_zero ds c hc
  | .obj ((k,d) :: ms) => by
    intro c hc
    simp only [Doc.text,List.cons_append,List.mem_cons,List.mem_append] at hc
    rcases hc with rfl | ((hc | hc) | hc) | hc
    · decide
    · exact PyStr.literal_ne hc
    · exact colon_ne hc
    · exact Doc.text_ne_zero d c hc
    · exact membersText_ne_zero ms c hc

theorem restText_ne_zero : ∀ (ds : List Doc), ∀ c ∈ restText compact ds, c ≠ 0
  | [] => by simp [restText]
  | d :: ds => by
    intro c hc
    simp only [restText,List.mem_append] at hc
    rcases hc with (hc | hc) | hc
    · exact comma_ne hc
    · exact Doc.text_ne_zero d c hc
    · exact restText_ne_zero ds c hc

theorem membersText_ne_zero : ∀ (ms : List (PyStr × Doc)), ∀ c ∈ membersText compact ms, c ≠ 0
  | [] => by simp [membersText]
  | (k,d) :: ms => by
    intro c hc
    simp only [membersText,List.mem_append] at hc
    rcases hc with (((hc | hc) | hc) | hc) | hc
    · exact comma_ne hc
    · exact PyStr.literal_ne hc
    · exact colon_ne hc
    · exact Doc.text_ne_zero d c hc
    · exact membersText_ne_zero ms c hc
end

end Read

section Json
variable (floatText : Binary64 → Numeral)

mutual
/-- A tree of JSON as it is written, where `floatText` is `float.__repr__`. -/
def Json.doc : Json → Doc
  | .null => .null
  | .bool b => .bool b
  | .int i => .number (.ofInt i)
  | .float x => .number (floatText x)
  | .str s => .str s
  | .arr js => .arr (docList js)
  | .obj ms => .obj (docMembers ms)

def docList : List Json → List Doc
  | [] => []
  | j :: js => j.doc :: docList js

def docMembers : List (PyStr × Json) → List (PyStr × Doc)
  | [] => []
  | (k,j) :: ms => (k,j.doc) :: docMembers ms
end

end Json

end MaculaPy.Wire
