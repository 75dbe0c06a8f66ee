import MaculaPy.Wire.Scanner

/-! # `json.loads` on texts

The reader of whole documents, the language of the documents, and that the reader takes
exactly these, each for the tree it denotes. How deep a document is nested is bounded by its
length alone.
-/
namespace MaculaPy.Wire
open PrefixCode Readers

/-- `WHITESPACE`. -/
def isSpace (c : ℕ) : Bool := c == 32 || c == 9 || c == 10 || c == 13

def Spaces (w : List ℕ) : Prop := ∀ c ∈ w, isSpace c = true

def Binary64.nan : Binary64 := ⟨0x7ff8000000000000#64⟩

def Binary64.infinity : Binary64 := ⟨0x7ff0000000000000#64⟩

def Binary64.minusInfinity : Binary64 := ⟨0xfff0000000000000#64⟩

/-- The values that are written as words. -/
def constants : List (List ℕ × Json) :=
  [([110,117,108,108],.null),([116,114,117,101],.bool true),([102,97,108,115,101],.bool false),
    ([78,97,78],.float .nan),([73,110,102,105,110,105,116,121],.float .infinity),
    ([45,73,110,102,105,110,105,116,121],.float .minusInfinity)]

/-- `JSONArray`, after its bracket and spaces. -/
def scanArray (p : Reader ℕ Json) : Reader ℕ Json
  | 93 :: r => some (.arr [],r)
  | s => (listed isSpace 93 44 p s.length s).map fun x => (.arr x.1,x.2)

/-- A member of an object. -/
def scanMember (p : Reader ℕ Json) : Reader ℕ (PyStr × Json)
  | 34 :: s => (scanString s.length s).bind fun k =>
    match k.2.dropWhile isSpace with
    | 58 :: r => (p (r.dropWhile isSpace)).map fun x => ((.ofCodes k.1,x.1),x.2)
    | _ => none
  | _ => none

/-- `JSONObject`, after its brace and spaces. -/
def scanObject (p : Reader ℕ Json) : Reader ℕ Json
  | 125 :: r => some (.obj [],r)
  | s => (listed isSpace 125 44 (scanMember p) s.length s).map fun x => (.obj x.1,x.2)

section Numbers
variable (num : Numbers)

/-- `scan_once`, where values are nested less deep than the number. -/
def scanOnce : ℕ → Reader ℕ Json
  | 0,_ => none
  | n + 1,s =>
    match s with
    | 34 :: r => (scanString r.length r).map fun x => (.str (.ofCodes x.1),x.2)
    | 91 :: r => scanArray (scanOnce n) (r.dropWhile isSpace)
    | 123 :: r => scanObject (scanOnce n) (r.dropWhile isSpace)
    | s => ((fromTable constants).either (number num)) s

/-- `json.loads`. -/
def loadsText (s : PyStr) : Option Json :=
  match scanOnce num s.length (s.codes.dropWhile isSpace) with
  | some (j,r) => if r.dropWhile isSpace = [] then some j else none
  | none => none

end Numbers

/-- A member's words, given those of its value. -/
inductive Member (V : Grammar ℕ Json) : Grammar ℕ (PyStr × Json)
  | mk {k s v w t : List ℕ} {j : Json} (hk : Chars k s) (hv : Spaces v) (hw : Spaces w)
      (h : V t j) : Member V (34 :: k ++ v ++ 58 :: w ++ t) (.ofCodes s,j)

/-- The words of a value. -/
inductive Value (num : Numbers) : Grammar ℕ Json
  | constant {t : List ℕ} {j : Json} (h : (t,j) ∈ constants) : Value num t j
  | number {t : List ℕ} {j : Json} (h : Number num t j) : Value num t j
  | str {t s : List ℕ} (h : Chars t s) : Value num (34 :: t) (.str (.ofCodes s))
  | noItems {w : List ℕ} (hw : Spaces w) : Value num (91 :: w ++ [93]) (.arr [])
  | arr {w t : List ℕ} {js : List Json} (hw : Spaces w)
      (h : Listed isSpace 93 44 (Value num) t js) : Value num (91 :: w ++ t) (.arr js)
  | noMembers {w : List ℕ} (hw : Spaces w) : Value num (123 :: w ++ [125]) (.obj [])
  | obj {w t : List ℕ} {ms : List (PyStr × Json)} (hw : Spaces w)
      (h : Listed isSpace 125 44 (Member (Value num)) t ms) : Value num (123 :: w ++ t) (.obj ms)

/-- The text is a document that denotes the tree. -/
def Denotes (num : Numbers) (s : List ℕ) (j : Json) : Prop :=
  ∃ v t w, s = v ++ t ++ w ∧ Spaces v ∧ Spaces w ∧ Value num t j

variable {num : Numbers}

/-- What a value is followed by. -/
def Ends (r : List ℕ) : Prop := Stops (fun c => ¬ (isSpace c = true ∨ c = 44 ∨ c = 93 ∨ c = 125)) r

theorem Ends.of_spaces {v r : List ℕ} {c : ℕ} (hv : Spaces v) (hc : c = 44 ∨ c = 93 ∨ c = 125) :
    Ends (v ++ c :: r) := by
  cases v with
  | nil => exact not_not.mpr (Or.inr hc)
  | cons d v => exact not_not.mpr (Or.inl (hv d List.mem_cons_self))

theorem Ends.over {r : List ℕ} (h : Ends r) : Over r := by
  cases r with
  | nil => trivial
  | cons c r =>
    have hc := not_not.mp h
    simp only [isSpace,Bool.or_eq_true,beq_iff_eq] at hc
    simp only [Over,Stops,isDigit,Bool.and_eq_true,decide_eq_true_eq]
    omega

theorem constants_apart : constants.Pairwise (fun x y => ¬ x.1 <+: y.1 ∧ ¬ y.1 <+: x.1) := by
  have h : (constants.map Prod.fst).Pairwise (fun u v => ¬ u <+: v ∧ ¬ v <+: u) := by decide
  exact List.pairwise_map.mp h

theorem not_constant_of_integer {u : List ℕ} (hu : u ∈ Integer) (r : List ℕ) :
    fromTable constants (u ++ r) = none := by
  obtain ⟨c,cs,hc,rfl | rfl⟩ := Integer.head hu
  all_goals
    simp only [isDigit,Bool.and_eq_true,decide_eq_true_eq] at hc
    have hne : ∀ d : ℕ, d < 48 ∨ 57 < d → ¬ d = c := by omega
    simp [constants,fromTable,hne]

/-- Neither a space nor a bracket begins a value. -/
theorem Value.head {t : List ℕ} {j : Json} (h : Value num t j) :
    ∃ c cs, t = c :: cs ∧ isSpace c = false ∧ c ≠ 93 := by
  cases h with
  | constant h =>
    have hall : ∀ x ∈ constants.map Prod.fst,
        ∃ c cs, x = c :: cs ∧ isSpace c = false ∧ c ≠ 93 := by
      simp [constants,isSpace]
    exact hall t (List.mem_map.mpr ⟨_,h,rfl⟩)
  | number h =>
    obtain ⟨u,v,hu,_,rfl,_⟩ := h
    obtain ⟨c,cs,hc,rfl | rfl⟩ := Integer.head hu
    · refine ⟨c,_,rfl,?_⟩
      simp only [isDigit,Bool.and_eq_true,decide_eq_true_eq] at hc
      simp only [isSpace,Bool.or_eq_false_iff,beq_eq_false_iff_ne]
      omega
    · exact ⟨45,_,rfl,by decide,by decide⟩
  | str h => exact ⟨34,_,rfl,by decide,by decide⟩
  | noItems hw => exact ⟨91,_,rfl,by decide,by decide⟩
  | arr hw h => exact ⟨91,_,rfl,by decide,by decide⟩
  | noMembers hw => exact ⟨123,_,rfl,by decide,by decide⟩
  | obj hw h => exact ⟨123,_,rfl,by decide,by decide⟩

theorem Value.stops {t : List ℕ} {j : Json} (h : Value num t j) (r : List ℕ) :
    Stops (fun c => isSpace c = true) (t ++ r) := by
  obtain ⟨c,cs,rfl,hc,_⟩ := h.head
  simp [Stops,hc]

theorem scanMember_sound {p : Reader ℕ Json} {V : Grammar ℕ Json} (hp : Sound p V) :
    Sound (scanMember p) (Member V) := by
  intro s m r h
  unfold scanMember at h
  split at h
  · next s =>
    obtain ⟨⟨k,s'⟩,hk,h'⟩ := Option.bind_eq_some_iff.mp h
    obtain ⟨t,rfl,hT⟩ := scanString_sound _ _ _ _ hk
    split at h'
    · next r' hr =>
      obtain ⟨⟨j,r''⟩,hj,he⟩ := Option.map_eq_some_iff.mp h'
      cases he
      obtain ⟨u,hu,hV⟩ := hp _ _ _ hj
      have hs : s'.takeWhile isSpace ++ 58 :: (r'.takeWhile isSpace ++ (u ++ r'')) = s' := by
        rw [← hu,List.takeWhile_append_dropWhile,← hr,List.takeWhile_append_dropWhile]
      refine ⟨34 :: t ++ s'.takeWhile isSpace ++ 58 :: r'.takeWhile isSpace ++ u,?_,
        .mk hT (fun c hc => List.mem_takeWhile_imp hc) (fun c hc => List.mem_takeWhile_imp hc) hV⟩
      have htext : 34 :: (t ++ s') =
          34 :: (t ++ (s'.takeWhile isSpace ++ 58 :: (r'.takeWhile isSpace ++ (u ++ r'')))) := by
        rw [hs]
      rw [htext]
      simp
    · cases h'
  · cases h

theorem scanOnce_sound (n : ℕ) : Sound (scanOnce num n) (Value num) := by
  induction n with
  | zero =>
    intro s j r h
    cases h
  | succ n ih =>
    intro s j r h
    unfold scanOnce at h
    split at h
    · obtain ⟨⟨k,s'⟩,hk,he⟩ := Option.map_eq_some_iff.mp h
      cases he
      obtain ⟨t,rfl,hT⟩ := scanString_sound _ _ _ _ hk
      exact ⟨34 :: t,rfl,.str hT⟩
    · next s =>
      have hw : Spaces (s.takeWhile isSpace) := fun c hc => List.mem_takeWhile_imp hc
      have hs : s.takeWhile isSpace ++ s.dropWhile isSpace = s := List.takeWhile_append_dropWhile
      unfold scanArray at h
      split at h
      · next hr =>
        cases h
        rw [hr] at hs
        exact ⟨91 :: s.takeWhile isSpace ++ [93],by simp [hs],.noItems hw⟩
      · obtain ⟨⟨js,s'⟩,hjs,he⟩ := Option.map_eq_some_iff.mp h
        cases he
        obtain ⟨t,ht,hL⟩ := listed_sound ih _ _ _ _ hjs
        rw [ht] at hs
        exact ⟨91 :: s.takeWhile isSpace ++ t,by simp [hs],.arr hw hL⟩
    · next s =>
      have hw : Spaces (s.takeWhile isSpace) := fun c hc => List.mem_takeWhile_imp hc
      have hs : s.takeWhile isSpace ++ s.dropWhile isSpace = s := List.takeWhile_append_dropWhile
      unfold scanObject at h
      split at h
      · next hr =>
        cases h
        rw [hr] at hs
        exact ⟨123 :: s.takeWhile isSpace ++ [125],by simp [hs],.noMembers hw⟩
      · obtain ⟨⟨ms,s'⟩,hms,he⟩ := Option.map_eq_some_iff.mp h
        cases he
        obtain ⟨t,ht,hL⟩ := listed_sound (scanMember_sound ih) _ _ _ _ hms
        rw [ht] at hs
        exact ⟨123 :: s.takeWhile isSpace ++ t,by simp [hs],.obj hw hL⟩
    · rcases Option.or_eq_some_iff.mp h with h | ⟨_,h⟩
      · obtain ⟨t,rfl,ht⟩ := fromTable_sound _ _ _ _ h
        exact ⟨t,rfl,.constant ht⟩
      · obtain ⟨t,rfl,ht⟩ := number_sound num _ _ _ h
        exact ⟨t,rfl,.number ht⟩

theorem scanMember_complete {p : Reader ℕ Json} {V : Grammar ℕ Json} {m : ℕ}
    (hV : ∀ t j, V t j → ∀ r, Stops (fun c => isSpace c = true) (t ++ r))
    (hp : ∀ t j r, V t j → t.length < m → Ends r → p (t ++ r) = some (j,r)) {t : List ℕ}
    {x : PyStr × Json} {r : List ℕ} (h : Member V t x) (hm : t.length < m) (hr : Ends r) :
    scanMember p (t ++ r) = some (x,r) := by
  cases h with
  | @mk k s v w t j hk hv hw h =>
    have htext : 34 :: k ++ v ++ 58 :: w ++ t ++ r = 34 :: (k ++ (v ++ 58 :: (w ++ (t ++ r)))) := by
      simp
    have hv' : (v ++ 58 :: (w ++ (t ++ r))).dropWhile isSpace = 58 :: (w ++ (t ++ r)) :=
      dropWhile_append_of_stops hv (by simp [Stops,isSpace])
    have hw' : (w ++ (t ++ r)).dropWhile isSpace = t ++ r :=
      dropWhile_append_of_stops hw (hV t j h r)
    have hlen : t.length < m := by
      simp at hm
      omega
    rw [htext,scanMember,scanString_complete hk _ _ (by simp),Option.bind_some]
    simp only [hv',hw',hp t j r h hlen hr,Option.map_some]

theorem scanArray_eq {p : Reader ℕ Json} {c : ℕ} (hc : c ≠ 93) (s : List ℕ) :
    scanArray p (c :: s) =
      (listed isSpace 93 44 p (c :: s).length (c :: s)).map fun x => (.arr x.1,x.2) := by
  rw [scanArray]
  exact fun r h => hc (List.cons.inj h).1

theorem scanObject_eq {p : Reader ℕ Json} {c : ℕ} (hc : c ≠ 125) (s : List ℕ) :
    scanObject p (c :: s) =
      (listed isSpace 125 44 (scanMember p) (c :: s).length (c :: s)).map fun x => (.obj x.1,x.2) := by
  rw [scanObject]
  exact fun r h => hc (List.cons.inj h).1

theorem scanOnce_eq {n c : ℕ} (hc : c ≠ 34 ∧ c ≠ 91 ∧ c ≠ 123) (s : List ℕ) :
    scanOnce num (n + 1) (c :: s) = ((fromTable constants).either (number num)) (c :: s) := by
  rw [scanOnce]
  · exact fun r h => hc.1 (List.cons.inj h).1
  · exact fun r h => hc.2.1 (List.cons.inj h).1
  · exact fun r h => hc.2.2 (List.cons.inj h).1

/-- A member begins with a quote. -/
theorem Member.head {V : Grammar ℕ Json} {t : List ℕ} {x : PyStr × Json} (h : Member V t x) :
    ∃ cs, t = 34 :: cs := by
  cases h with
  | mk hk hv hw h => exact ⟨_,rfl⟩

theorem scanOnce_complete : ∀ (n : ℕ) {t : List ℕ} {j : Json} {r : List ℕ}, Value num t j →
    t.length ≤ n → Ends r → scanOnce num n (t ++ r) = some (j,r) := by
  intro n
  induction n with
  | zero =>
    intro t j r h hn
    obtain ⟨c,cs,rfl,_⟩ := h.head
    simp at hn
  | succ n ih =>
    have hinner : ∀ t j r, Value num t j → t.length < n + 1 → Ends r →
        scanOnce num n (t ++ r) = some (j,r) := by
      intro t j r h hlt hr
      exact ih h (by omega) hr
    intro t j r h hn hr
    cases h with
    | constant h =>
      have hhead : ∀ x ∈ constants.map Prod.fst,
          ∃ c cs, x = c :: cs ∧ c ≠ 34 ∧ c ≠ 91 ∧ c ≠ 123 := by
        simp [constants]
      obtain ⟨c,cs,rfl,hc⟩ := hhead t (List.mem_map.mpr ⟨_,h,rfl⟩)
      have hfound : fromTable constants (c :: cs ++ r) = some (j,r) :=
        fromTable_complete constants_apart _ _ _ h trivial
      rw [List.cons_append,scanOnce_eq hc,Reader.either,← List.cons_append,hfound,Option.some_or]
    | number h =>
      have hread := number_complete num t j r h hr.over
      obtain ⟨u,v,hu,_,rfl,_⟩ := h
      have hnone : fromTable constants (u ++ v ++ r) = none := by
        rw [List.append_assoc]
        exact not_constant_of_integer hu _
      obtain ⟨c,cs,hc,he⟩ : ∃ c cs, (c ≠ 34 ∧ c ≠ 91 ∧ c ≠ 123) ∧ u = c :: cs := by
        obtain ⟨c,cs,hc,rfl | rfl⟩ := Integer.head hu
        · simp only [isDigit,Bool.and_eq_true,decide_eq_true_eq] at hc
          exact ⟨c,cs,by omega,rfl⟩
        · exact ⟨45,c :: cs,by decide,rfl⟩
      subst he
      rw [List.cons_append,List.cons_append] at hnone hread ⊢
      rw [scanOnce_eq hc,Reader.either,hnone,hread,Option.none_or]
    | @str t s h =>
      rw [List.cons_append,scanOnce,scanString_complete h _ _ (by simp),Option.map_some]
    | @noItems w hw =>
      have hskip : (w ++ 93 :: r).dropWhile isSpace = 93 :: r :=
        dropWhile_append_of_stops hw (by simp [Stops,isSpace])
      have htext : 91 :: w ++ [93] ++ r = 91 :: (w ++ 93 :: r) := by simp
      rw [htext,scanOnce,hskip,scanArray]
    | @arr w t js hw h =>
      obtain ⟨x,y,i,rfl,hx⟩ := h.first
      obtain ⟨c,cs,rfl,hs,hc⟩ := hx.head
      have hskip : (w ++ (c :: cs ++ y ++ r)).dropWhile isSpace = c :: cs ++ y ++ r :=
        dropWhile_append_of_stops hw (by simp [Stops,hs])
      have hlist := listed_complete (F := Ends) hinner (by decide) (by decide) (by decide)
        (fun v r hv => ⟨.of_spaces hv (by decide),.of_spaces hv (by decide)⟩)
        (fun t j r h => h.stops r) h (c :: cs ++ y ++ r).length r
        (by simp at hn ⊢; omega) (by simp)
      have htext : 91 :: w ++ (c :: cs ++ y) ++ r = 91 :: (w ++ (c :: cs ++ y ++ r)) := by simp
      rw [htext,scanOnce,hskip]
      rw [List.cons_append,List.cons_append] at hlist ⊢
      rw [scanArray_eq hc,hlist,Option.map_some]
    | @noMembers w hw =>
      have hskip : (w ++ 125 :: r).dropWhile isSpace = 125 :: r :=
        dropWhile_append_of_stops hw (by simp [Stops,isSpace])
      have htext : 123 :: w ++ [125] ++ r = 123 :: (w ++ 125 :: r) := by simp
      rw [htext,scanOnce,hskip,scanObject]
    | @obj w t ms hw h =>
      obtain ⟨x,y,i,rfl,hx⟩ := h.first
      obtain ⟨cs,rfl⟩ := hx.head
      have hskip : (w ++ (34 :: cs ++ y ++ r)).dropWhile isSpace = 34 :: cs ++ y ++ r :=
        dropWhile_append_of_stops hw (by simp [Stops,isSpace])
      have hmember : ∀ t x r, Member (Value num) t x → t.length < n + 1 → Ends r →
          scanMember (scanOnce num n) (t ++ r) = some (x,r) := fun t x r h hm hr =>
        scanMember_complete (fun _ _ h r => h.stops r) hinner h hm hr
      have hlist := listed_complete (F := Ends) hmember (by decide) (by decide) (by decide)
        (fun v r hv => ⟨.of_spaces hv (by decide),.of_spaces hv (by decide)⟩)
        (by
          intro t x r h
          obtain ⟨cs,rfl⟩ := h.head
          simp [Stops,isSpace]) h (34 :: cs ++ y ++ r).length r
        (by simp at hn ⊢; omega) (by simp)
      have htext : 123 :: w ++ (34 :: cs ++ y) ++ r = 123 :: (w ++ (34 :: cs ++ y ++ r)) := by simp
      rw [htext,scanOnce,hskip]
      rw [List.cons_append,List.cons_append] at hlist ⊢
      rw [scanObject_eq (by decide),hlist,Option.map_some]

/-- What `json.loads` takes is a document. -/
theorem loadsText_sound {s : PyStr} {j : Json} (h : loadsText num s = some j) :
    Denotes num s.codes j := by
  unfold loadsText at h
  split at h
  · next i r hread =>
    split at h
    · next hend =>
      cases h
      obtain ⟨t,ht,hT⟩ := scanOnce_sound _ _ _ _ hread
      have hw : Spaces r := by
        have hr : r.takeWhile isSpace ++ r.dropWhile isSpace = r :=
          List.takeWhile_append_dropWhile
        rw [hend,List.append_nil] at hr
        rw [← hr]
        exact fun c hc => List.mem_takeWhile_imp hc
      refine ⟨s.codes.takeWhile isSpace,t,r,?_,fun c hc => List.mem_takeWhile_imp hc,hw,hT⟩
      rw [List.append_assoc,← ht,List.takeWhile_append_dropWhile]
    · cases h
  · cases h

/-- A document is taken for what it denotes. -/
theorem loadsText_complete {s : PyStr} {j : Json} (h : Denotes num s.codes j) :
    loadsText num s = some j := by
  obtain ⟨v,t,w,hs,hv,hw,hT⟩ := h
  have hlen : t.length ≤ s.length := by
    have hl := congrArg List.length hs
    simp only [PyStr.codes,List.length_map,List.length_append] at hl
    omega
  have hskip : s.codes.dropWhile isSpace = t ++ w := by
    rw [hs,List.append_assoc]
    exact dropWhile_append_of_stops hv (hT.stops w)
  have hends : Ends w := by
    cases w with
    | nil => trivial
    | cons c w => exact not_not.mpr (Or.inl (hw c List.mem_cons_self))
  have hnil : w.dropWhile isSpace = [] := List.dropWhile_eq_nil_iff.mpr hw
  unfold loadsText
  rw [hskip,scanOnce_complete _ hT hlen hends]
  exact if_pos hnil

end MaculaPy.Wire
