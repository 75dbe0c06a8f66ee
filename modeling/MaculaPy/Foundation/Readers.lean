import MaculaPy.Foundation.PrefixCode
import Mathlib.Computability.Language
import Mathlib.Data.List.TakeWhile

/-! # Readers

A reader takes a value off the front of a text and leaves the rest. It is compared with a
grammar, the words and what each of them means: it is sound when it takes only such words,
and complete when it takes each of them wherever what follows it is as `F` asks. A reader of
a formal language means by a word the word itself.
-/
namespace MaculaPy.Readers
open PrefixCode
variable {σ α β : Type*}

abbrev Reader (σ α : Type*) := List σ → Option (α × List σ)

/-- Words, and what each means. -/
abbrev Grammar (σ α : Type*) := List σ → α → Prop

def Sound (p : Reader σ α) (G : Grammar σ α) : Prop :=
  ∀ s a r, p s = some (a,r) → ∃ t, s = t ++ r ∧ G t a

def Complete (p : Reader σ α) (G : Grammar σ α) (F : List σ → Prop) : Prop :=
  ∀ t a r, G t a → F r → p (t ++ r) = some (a,r)

/-- No word means two things. -/
theorem Complete.unique {p : Reader σ α} {G : Grammar σ α} {F : List σ → Prop}
    (hc : Complete p G F) (hF : F []) {t : List σ} {a b : α} (ha : G t a) (hb : G t b) : a = b := by
  have h := (hc t a [] ha hF).symm.trans (hc t b [] hb hF)
  exact (Prod.mk.inj (Option.some.inj h)).1

/-! ## Formal languages -/

/-- The reader takes exactly the words of `L`. -/
structure Takes (p : Reader σ (List σ)) (L : Language σ) (F : List σ → Prop) : Prop where
  sound : ∀ s w r, p s = some (w,r) → s = w ++ r ∧ w ∈ L
  complete : ∀ w r, w ∈ L → F r → p (w ++ r) = some (w,r)

theorem Takes.mono {p : Reader σ (List σ)} {L : Language σ} {F F' : List σ → Prop}
    (hp : Takes p L F) (hF : ∀ r, F' r → F r) : Takes p L F' :=
  ⟨hp.sound,fun w r hw hr => hp.complete w r hw (hF r hr)⟩

/-- One symbol. -/
def single (P : σ → Bool) : Reader σ (List σ)
  | [] => none
  | c :: r => if P c then some ([c],r) else none

def singles (P : σ → Bool) : Language σ := {w | ∃ c, w = [c] ∧ P c = true}

theorem single_takes (P : σ → Bool) : Takes (single P) (singles P) (fun _ => True) := by
  constructor
  · intro s w r h
    cases s with
    | nil => cases h
    | cons c s =>
      rw [single] at h
      split at h
      · next hc =>
        cases h
        exact ⟨rfl,c,rfl,hc⟩
      · cases h
  · rintro w r ⟨c,rfl,hc⟩ _
    simp [single,hc]

/-- As many symbols as there are. -/
def span (P : σ → Bool) : Reader σ (List σ) := fun s => some (s.takeWhile P,s.dropWhile P)

def spans (P : σ → Bool) : Language σ := {w | ∀ c ∈ w, P c = true}

theorem dropWhile_append_of_stops {P : σ → Bool} {w r : List σ} (hw : ∀ c ∈ w, P c = true)
    (hr : Stops (fun c => P c = true) r) : (w ++ r).dropWhile P = r := by
  rw [List.dropWhile_append_of_pos hw]
  cases r with
  | nil => rfl
  | cons c r => exact List.dropWhile_cons_of_neg hr

theorem takeWhile_append_of_stops {P : σ → Bool} {w r : List σ} (hw : ∀ c ∈ w, P c = true)
    (hr : Stops (fun c => P c = true) r) : (w ++ r).takeWhile P = w := by
  rw [List.takeWhile_append_of_pos hw]
  cases r with
  | nil => exact List.append_nil w
  | cons c r => rw [List.takeWhile_cons_of_neg hr,List.append_nil]

theorem span_takes (P : σ → Bool) : Takes (span P) (spans P) (Stops (fun c => P c = true)) := by
  constructor
  · rintro s w r ⟨⟩
    exact ⟨List.takeWhile_append_dropWhile.symm,fun c hc => List.mem_takeWhile_imp hc⟩
  · intro w r hw hr
    rw [span,takeWhile_append_of_stops hw hr,dropWhile_append_of_stops hw hr]

/-- One after the other. -/
def Reader.cat (p q : Reader σ (List σ)) : Reader σ (List σ) := fun s =>
  (p s).bind fun x => (q x.2).map fun y => (x.1 ++ y.1,y.2)

theorem Takes.cat {p q : Reader σ (List σ)} {L M : Language σ} {F F' : List σ → Prop}
    (hp : Takes p L F) (hq : Takes q M F') (hF : ∀ w r, w ∈ M → F' r → F (w ++ r)) :
    Takes (p.cat q) (L * M) F' := by
  constructor
  · intro s w r h
    obtain ⟨⟨u,s'⟩,hu,h⟩ := Option.bind_eq_some_iff.mp h
    obtain ⟨⟨v,r'⟩,hv,he⟩ := Option.map_eq_some_iff.mp h
    cases he
    obtain ⟨rfl,hL⟩ := hp.sound _ _ _ hu
    obtain ⟨hs,hM⟩ := hq.sound _ _ _ hv
    simp only at hs
    subst hs
    exact ⟨(List.append_assoc u v _).symm,Language.append_mem_mul hL hM⟩
  · intro w r hw hr
    obtain ⟨u,hu,v,hv,rfl⟩ := Language.mem_mul.mp hw
    rw [List.append_assoc,Reader.cat,hp.complete u _ hu (hF v r hv hr),Option.bind_some,
      hq.complete v r hv hr,Option.map_some]

/-- The second where the first takes nothing. -/
def Reader.either (p q : Reader σ α) : Reader σ α := fun s => (p s).or (q s)

theorem Takes.either {p q : Reader σ (List σ)} {L M : Language σ} {F : List σ → Prop}
    (hp : Takes p L F) (hq : Takes q M F) (hd : ∀ w r, w ∈ M → F r → p (w ++ r) = none) :
    Takes (p.either q) (L + M) F := by
  constructor
  · intro s w r h
    rcases Option.or_eq_some_iff.mp h with h | ⟨_,h⟩
    · exact ⟨(hp.sound _ _ _ h).1,Or.inl (hp.sound _ _ _ h).2⟩
    · exact ⟨(hq.sound _ _ _ h).1,Or.inr (hq.sound _ _ _ h).2⟩
  · rintro w r (hw | hw) hr
    · rw [Reader.either,hp.complete w r hw hr,Option.some_or]
    · rw [Reader.either,hd w r hw hr,Option.none_or,hq.complete w r hw hr]

/-- A word of the language, or nothing where there is none. -/
def Reader.optional (p : Reader σ (List σ)) : Reader σ (List σ) := p.either (fun s => some ([],s))

theorem Takes.optional {p : Reader σ (List σ)} {L : Language σ} {F : List σ → Prop}
    (hp : Takes p L F) (hd : ∀ r, F r → p r = none) : Takes p.optional (L + 1) F := by
  refine hp.either ⟨?_,?_⟩ ?_
  · rintro s w r ⟨⟩
    exact ⟨rfl,Language.nil_mem_one⟩
  · intro w r hw _
    cases (Language.mem_one w).mp hw
    rfl
  · intro w r hw hr
    cases (Language.mem_one w).mp hw
    exact hd r hr

/-- The word of a table that the text begins with. -/
def fromTable [DecidableEq σ] : List (List σ × α) → Reader σ α
  | [],_ => none
  | (w,a) :: ws,s => if w <+: s then some (a,s.drop w.length) else fromTable ws s

theorem fromTable_sound [DecidableEq σ] (ws : List (List σ × α)) :
    Sound (fromTable ws) (fun t a => (t,a) ∈ ws) := by
  intro s a r h
  induction ws with
  | nil => cases h
  | cons x ws ih =>
    unfold fromTable at h
    split at h
    · next hw =>
      obtain ⟨r',rfl⟩ := hw
      cases h
      exact ⟨x.1,by simp,List.mem_cons_self⟩
    · obtain ⟨t,hs,ht⟩ := ih h
      exact ⟨t,hs,List.mem_cons_of_mem x ht⟩

/-- A word is found where no other word of the table begins the text. -/
theorem fromTable_complete [DecidableEq σ] {ws : List (List σ × α)}
    (hw : ws.Pairwise (fun x y => ¬ x.1 <+: y.1 ∧ ¬ y.1 <+: x.1)) :
    Complete (fromTable ws) (fun t a => (t,a) ∈ ws) (fun _ => True) := by
  intro t a r h _
  induction ws with
  | nil => cases h
  | cons x ws ih =>
    obtain ⟨hx,hw⟩ := List.pairwise_cons.mp hw
    rcases List.mem_cons.mp h with rfl | h
    · simp [fromTable]
    · have hn : ¬ x.1 <+: t ++ r := by
        intro hp
        rcases List.prefix_or_prefix_of_prefix hp (List.prefix_append t r) with hl | hl
        · exact (hx _ h).1 hl
        · exact (hx _ h).2 hl
      rw [fromTable,if_neg hn,ih hw h]

/-! ## Lists of items -/

section Listed
variable (skip : σ → Bool) (stop comma : σ)

/-- Items up to the mark that ends them, a comma between two. The number bounds how many. -/
def listed [DecidableEq σ] (p : Reader σ α) : ℕ → Reader σ (List α)
  | 0,_ => none
  | n + 1,s => (p s).bind fun x =>
    match x.2.dropWhile skip with
    | [] => none
    | c :: r =>
      if c = stop then some ([x.1],r)
      else if c = comma then (listed p n (r.dropWhile skip)).map fun y => (x.1 :: y.1,y.2)
      else none

/-- The words of such lists, the mark with them. -/
inductive Listed (G : Grammar σ α) : List σ → List α → Prop
  | last {t v : List σ} {a : α} (h : G t a) (hv : ∀ c ∈ v, skip c = true) :
      Listed G (t ++ v ++ [stop]) [a]
  | more {t v w u : List σ} {a : α} {as : List α} (h : G t a) (hv : ∀ c ∈ v, skip c = true)
      (hw : ∀ c ∈ w, skip c = true) (hs : Listed G u as) :
      Listed G (t ++ v ++ comma :: w ++ u) (a :: as)

variable {skip stop comma}

theorem listed_sound [DecidableEq σ] {p : Reader σ α} {G : Grammar σ α} (hp : Sound p G) (n : ℕ) :
    Sound (listed skip stop comma p n) (Listed skip stop comma G) := by
  induction n with
  | zero =>
    intro s as r h
    cases h
  | succ n ih =>
    intro s as r he
    obtain ⟨⟨a,s'⟩,ha,h⟩ := Option.bind_eq_some_iff.mp he
    obtain ⟨t,hs,hG⟩ := hp _ _ _ ha
    have hv : ∀ c ∈ s'.takeWhile skip, skip c = true := fun c hc => List.mem_takeWhile_imp hc
    have hsplit : s'.takeWhile skip ++ s'.dropWhile skip = s' := List.takeWhile_append_dropWhile
    split at h
    · cases h
    · next c r' hr =>
      rw [hr] at hsplit
      split at h
      · next hc =>
        cases h
        subst hc
        refine ⟨t ++ s'.takeWhile skip ++ [c],?_,.last hG hv⟩
        have htext : t ++ s' = t ++ (s'.takeWhile skip ++ c :: r) := by rw [hsplit]
        rw [hs,htext]
        simp
      · split at h
        · next hc =>
          obtain ⟨⟨bs,r''⟩,hbs,he⟩ := Option.map_eq_some_iff.mp h
          cases he
          obtain ⟨u,hu,hL⟩ := ih _ _ _ hbs
          subst hc
          refine ⟨t ++ s'.takeWhile skip ++ c :: r'.takeWhile skip ++ u,?_,
            .more hG hv (fun d hd => List.mem_takeWhile_imp hd) hL⟩
          have hsplit' : r'.takeWhile skip ++ (u ++ r'') = r' := by
            rw [← hu]
            exact List.takeWhile_append_dropWhile
          have htext : t ++ s' = t ++ (s'.takeWhile skip ++ c :: (r'.takeWhile skip ++ (u ++ r''))) := by
            rw [hsplit',hsplit]
          rw [hs,htext]
          simp
        · cases h

/-- A list begins with an item. -/
theorem Listed.first {G : Grammar σ α} {t : List σ} {as : List α}
    (h : Listed skip stop comma G t as) : ∃ u v a, t = u ++ v ∧ G u a := by
  cases h with
  | @last t v a h hv => exact ⟨t,v ++ [stop],a,by simp,h⟩
  | @more t v w u a as h hv hw hs => exact ⟨t,v ++ comma :: w ++ u,a,by simp,h⟩

/-- Every item has its word inside the text. -/
theorem Listed.parts {G : Grammar σ α} {t : List σ} {as : List α}
    (h : Listed skip stop comma G t as) :
    ∀ a ∈ as, ∃ u, G u a ∧ u.length < t.length ∧ ∀ c ∈ u, c ∈ t := by
  induction h with
  | @last t v a h hv =>
    intro b hb
    obtain rfl := List.mem_singleton.mp hb
    exact ⟨t,h,by simp,fun c hc => by simp [hc]⟩
  | @more t v w u a as h hv hw hs ih =>
    intro b hb
    rcases List.mem_cons.mp hb with rfl | hb
    · exact ⟨t,h,by simp only [List.length_append,List.length_cons]; omega,fun c hc => by simp [hc]⟩
    · obtain ⟨x,hx,hlt,hmem⟩ := ih b hb
      exact ⟨x,hx,by simp only [List.length_append,List.length_cons]; omega,
        fun c hc => by simp [hmem c hc]⟩

/-- Lists are read whose items are, where neither the mark nor the comma is skipped and no
item begins with what is. -/
theorem listed_complete [DecidableEq σ] {p : Reader σ α} {G : Grammar σ α} {F : List σ → Prop}
    {m : ℕ} (hp : ∀ t a r, G t a → t.length < m → F r → p (t ++ r) = some (a,r))
    (hstop : skip stop = false) (hcomma : skip comma = false) (hne : comma ≠ stop)
    (hF : ∀ v r, (∀ c ∈ v, skip c = true) → F (v ++ stop :: r) ∧ F (v ++ comma :: r))
    (hG : ∀ t a r, G t a → Stops (fun c => skip c = true) (t ++ r))
    {t : List σ} {as : List α} (h : Listed skip stop comma G t as) :
    ∀ n r, t.length ≤ m → t.length ≤ n → listed skip stop comma p n (t ++ r) = some (as,r) := by
  induction h with
  | @last t v a h hv =>
    intro n r hm hn
    obtain ⟨k,rfl⟩ : ∃ k, n = k + 1 := ⟨n - 1,by simp at hn; omega⟩
    have hread : p (t ++ (v ++ stop :: r)) = some (a,v ++ stop :: r) :=
      hp t a _ h (by simp at hm; omega) (hF v r hv).1
    have hskip : (v ++ stop :: r).dropWhile skip = stop :: r :=
      dropWhile_append_of_stops hv (by simp [Stops,hstop])
    have htext : t ++ v ++ [stop] ++ r = t ++ (v ++ stop :: r) := by simp
    rw [htext,listed,hread,Option.bind_some,hskip]
    exact if_pos rfl
  | @more t v w u a as h hv hw hs ih =>
    intro n r hm hn
    obtain ⟨k,rfl⟩ : ∃ k, n = k + 1 := ⟨n - 1,by simp at hn; omega⟩
    have hlen : (t ++ v ++ comma :: w ++ u).length = t.length + v.length + w.length + u.length + 1 :=
      by simp; omega
    rw [hlen] at hm hn
    have hread : p (t ++ (v ++ comma :: (w ++ u ++ r))) = some (a,v ++ comma :: (w ++ u ++ r)) :=
      hp t a _ h (by omega) (hF v _ hv).2
    have hskip : (v ++ comma :: (w ++ u ++ r)).dropWhile skip = comma :: (w ++ u ++ r) :=
      dropWhile_append_of_stops hv (by simp [Stops,hcomma])
    have hbegin : Stops (fun c => skip c = true) (u ++ r) := by
      obtain ⟨x,y,b,rfl,hx⟩ := hs.first
      rw [List.append_assoc]
      exact hG x b _ hx
    have hnext : (w ++ u ++ r).dropWhile skip = u ++ r := by
      rw [List.append_assoc]
      exact dropWhile_append_of_stops hw hbegin
    have htext : t ++ v ++ comma :: w ++ u ++ r = t ++ (v ++ comma :: (w ++ u ++ r)) := by simp
    rw [htext,listed,hread,Option.bind_some,hskip]
    simp only [if_neg hne,if_true]
    rw [hnext,ih k r (by omega) (by omega),Option.map_some]

end Listed

end MaculaPy.Readers
