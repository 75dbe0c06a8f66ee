import MaculaPy.Abi.Types

/-! # What an operation is given

The arguments of the public operations, as Python has them, and what each becomes: an id may be
hex or bytes, and options that are not given are left out of the JSON that carries them. Each
argument says when all of it reaches the native function.
-/
namespace MaculaPy.Abi
open Wire PrefixCode

abbrev Handle := Fin (2 ^ 64)

/-- A `bytes` object, which is no longer than memory. -/
structure Buffer where
  bytes : List UInt8
  sized : bytes.length < 2 ^ 63

def Buffer.len (b : Buffer) : Fin (2 ^ 64) := ⟨b.bytes.length,b.sized.trans (by decide)⟩

/-- An id as hex or as bytes: `Id` and `Mcid`. -/
inductive Id
  | text (s : PyStr)
  | bytes (bs : List UInt8)

def isHex (c : ℕ) : Bool := (48 ≤ c && c ≤ 57) || (65 ≤ c && c ≤ 70) || (97 ≤ c && c ≤ 102)

def nibble (c : ℕ) : ℕ := if c < 58 then c - 48 else if c < 71 then c - 55 else c - 87

/-- `bytes.fromhex`. -/
def fromHex : List ℕ → List UInt8
  | a :: b :: cs => .ofNat (nibble a * 16 + nibble b) :: fromHex cs
  | _ => []

/-- `id32`. -/
def id32 (value : Id) (what : String) : Except PyError (List UInt8) :=
  match value with
  | .text s =>
    if s.length = 64 ∧ s.codes.all isHex then .ok (fromHex s.codes)
    else .error (.valueError s!"macula-py: {what} must be 64 hex characters")
  | .bytes bs =>
    if bs.length = 32 then .ok bs
    else .error (.valueError s!"macula-py: {what} must be 32 bytes, got {bs.length}")

/-- `mcid50`. -/
def mcid50 (value : Id) : Except PyError (List UInt8) :=
  match value with
  | .text s =>
    if s.length = 100 ∧ s.codes.all isHex then .ok (fromHex s.codes)
    else .error (.valueError "macula-py: a content id is 100 hex characters (50 bytes)")
  | .bytes bs =>
    if bs.length = 50 then .ok bs
    else .error (.valueError s!"macula-py: a content id is 50 bytes, got {bs.length}")

def hexByte (b : UInt8) : List ℕ := [hexDigit (b.toNat / 16),hexDigit (b.toNat % 16)]

/-- `bytes.hex`. -/
def hexText (bs : List UInt8) : PyStr := .ofCodes (bs.flatMap hexByte)

theorem hexByte_lt {bs : List UInt8} : ∀ c ∈ bs.flatMap hexByte, c < 128 := by
  intro c hc
  obtain ⟨b,_,hb⟩ := List.mem_flatMap.mp hc
  have hlt := b.toNat_lt
  simp only [hexByte,hexDigit,List.mem_cons,List.not_mem_nil,or_false] at hb
  rcases hb with rfl | rfl <;> split <;> omega

@[simp] theorem scalar_hexText (bs : List UInt8) : (hexText bs).scalar = true :=
  PyStr.scalar_ofCodes hexByte_lt

theorem hexByte_isCode : IsCode (fun _ => True) hexByte := by
  intro a b r r' _ _ h
  simp only [hexByte,List.cons_append,List.nil_append,List.cons.injEq] at h
  obtain ⟨h1,h2,rfl⟩ := h
  have ha := a.toNat_lt
  have hb := b.toNat_lt
  have e1 := congrArg hexValue h1
  have e2 := congrArg hexValue h2
  rw [hexValue_hexDigit (by omega),hexValue_hexDigit (by omega)] at e1 e2
  exact ⟨UInt8.toNat_inj.mp (by omega),rfl⟩

theorem hexText_injective {bs bs' : List UInt8} (h : hexText bs = hexText bs') : bs = bs' := by
  have hc := congrArg PyStr.codes h
  rw [hexText,hexText,PyStr.codes_ofCodes hexByte_lt,PyStr.codes_ofCodes hexByte_lt] at hc
  exact hexByte_isCode.flatMap_injective (fun _ _ => by simp [hexByte]) (fun _ _ => trivial)
    (fun _ _ => trivial) hc

section Each
variable {α β : Type*} {f : α → Except PyError β}

/-- A conversion of every item, up to the first that fails. -/
def each (f : α → Except PyError β) : List α → Except PyError (List β)
  | [] => .ok []
  | x :: xs => (f x).bind fun y => (each f xs).map (y :: ·)

theorem each_eq_ok {xs : List α} {ys : List β} (h : each f xs = .ok ys) :
    List.Forall₂ (fun x y => f x = .ok y) xs ys := by
  induction xs generalizing ys with
  | nil =>
    cases h
    exact .nil
  | cons x xs ih =>
    obtain ⟨y,ys',hy,hys,rfl⟩ := (bind_map_eq_ok (f := id)).mp h
    exact .cons hy (ih hys)

/-- What holds of every item holds of what it becomes. -/
theorem forall_each {P : α → Prop} {Q : β → Prop} (hPQ : ∀ x y, f x = .ok y → (Q y ↔ P x))
    {xs : List α} {ys : List β} (h : each f xs = .ok ys) :
    (∀ y ∈ ys, Q y) ↔ ∀ x ∈ xs, P x := by
  have hf := each_eq_ok h
  clear h
  induction hf with
  | nil => simp
  | cons hxy _ ih =>
    rw [List.forall_mem_cons,List.forall_mem_cons]
    exact and_congr (hPQ _ _ hxy) ih

theorem mem_each {xs : List α} {ys : List β} (h : each f xs = .ok ys) :
    (∀ x ∈ xs, ∃ y ∈ ys, f x = .ok y) ∧ ∀ y ∈ ys, ∃ x ∈ xs, f x = .ok y := by
  have hf := each_eq_ok h
  clear h
  induction hf with
  | nil => simp
  | @cons x y xs ys hxy _ ih =>
    constructor
    · intro z hz
      rcases List.mem_cons.mp hz with rfl | hz
      · exact ⟨y,List.mem_cons_self,hxy⟩
      · obtain ⟨w,hw,hzw⟩ := ih.1 z hz
        exact ⟨w,List.mem_cons_of_mem _ hw,hzw⟩
    · intro w hw
      rcases List.mem_cons.mp hw with rfl | hw
      · exact ⟨x,List.mem_cons_self,hxy⟩
      · obtain ⟨z,hz,hzw⟩ := ih.2 w hw
        exact ⟨z,List.mem_cons_of_mem _ hz,hzw⟩

/-- Items that become the same, one by one. -/
theorem each_inj {xs xs' : List α} {ys : List β} (h : each f xs = .ok ys)
    (h' : each f xs' = .ok ys) :
    List.Forall₂ (fun x x' => ∃ y, f x = .ok y ∧ f x' = .ok y) xs xs' := by
  have hf := each_eq_ok h
  have hf' := each_eq_ok h'
  clear h h'
  induction hf generalizing xs' with
  | nil =>
    cases hf'
    exact .nil
  | cons hx _ ih =>
    cases hf' with
    | cons hx' hf' => exact .cons ⟨_,hx,hx'⟩ (ih hf')

end Each

section Dict
variable {κ ν : Type*} [DecidableEq κ]

/-- `d[k] = v`. -/
def setEntry (d : List (κ × ν)) (e : κ × ν) : List (κ × ν) :=
  if d.any (fun x => x.1 = e.1) then d.map (fun x => if x.1 = e.1 then e else x) else d ++ [e]

/-- A dict comprehension. -/
def dictOf (es : List (κ × ν)) : List (κ × ν) := es.foldl setEntry []

theorem mem_setEntry {d : List (κ × ν)} {e x : κ × ν} :
    x ∈ setEntry d e ↔ x = e ∨ (x ∈ d ∧ x.1 ≠ e.1) := by
  unfold setEntry
  split
  · next h =>
    simp only [List.any_eq_true,decide_eq_true_eq] at h
    obtain ⟨y,hy,he⟩ := h
    simp only [List.mem_map]
    constructor
    · rintro ⟨z,hz,hx⟩
      split at hx
      · exact Or.inl hx.symm
      · next hne => exact Or.inr (hx ▸ ⟨hz,hne⟩)
    · rintro (rfl | ⟨hx,hne⟩)
      · exact ⟨y,hy,if_pos he⟩
      · exact ⟨x,hx,if_neg hne⟩
  · next h =>
    simp only [List.any_eq_true,decide_eq_true_eq,not_exists,not_and] at h
    simp only [List.mem_append,List.mem_singleton]
    constructor
    · rintro (hx | hx)
      · exact Or.inr ⟨hx,h x hx⟩
      · exact Or.inl hx
    · rintro (hx | hx)
      · exact Or.inr hx
      · exact Or.inl hx.1

/-- No two entries with one key. -/
def Agree (es : List (κ × ν)) : Prop := ∀ e ∈ es, ∀ e' ∈ es, e.1 = e'.1 → e = e'

theorem agree_setEntry {d : List (κ × ν)} {e : κ × ν} (h : Agree d) : Agree (setEntry d e) := by
  intro x hx y hy hxy
  rcases mem_setEntry.mp hx with rfl | ⟨hx,hne⟩
  · rcases mem_setEntry.mp hy with rfl | ⟨_,hne⟩
    · rfl
    · exact absurd hxy.symm hne
  · rcases mem_setEntry.mp hy with rfl | ⟨hy,_⟩
    · exact absurd hxy hne
    · exact h x hx y hy hxy

theorem agree_foldl {es d : List (κ × ν)} (h : Agree d) : Agree (es.foldl setEntry d) := by
  induction es generalizing d with
  | nil => exact h
  | cons e es ih => exact ih (agree_setEntry h)

theorem mem_of_mem_foldl {es d : List (κ × ν)} {x : κ × ν} (h : x ∈ es.foldl setEntry d) :
    x ∈ d ++ es := by
  induction es generalizing d with
  | nil => simpa using h
  | cons e es ih =>
    rcases List.mem_append.mp (ih h) with hx | hx
    · rcases mem_setEntry.mp hx with rfl | ⟨hx,_⟩
      · simp
      · exact List.mem_append_left _ hx
    · exact List.mem_append_right _ (List.mem_cons_of_mem _ hx)

theorem key_mem_foldl {es d : List (κ × ν)} {x : κ × ν} (h : x ∈ d ++ es) :
    ∃ y ∈ es.foldl setEntry d, y.1 = x.1 := by
  induction es generalizing d x with
  | nil => exact ⟨x,by simpa using h,rfl⟩
  | cons e es ih =>
    rcases List.mem_append.mp h with hx | hx
    · by_cases he : x.1 = e.1
      · rw [he]
        exact ih (List.mem_append_left _ (mem_setEntry.mpr (Or.inl rfl)))
      · exact ih (List.mem_append_left _ (mem_setEntry.mpr (Or.inr ⟨hx,he⟩)))
    · rcases List.mem_cons.mp hx with rfl | hx
      · exact ih (List.mem_append_left _ (mem_setEntry.mpr (Or.inl rfl)))
      · exact ih (List.mem_append_right _ hx)

/-- A dict keeps every entry exactly when no two of them have one key. -/
theorem dictOf_keeps_iff {es : List (κ × ν)} : (∀ e ∈ es, e ∈ dictOf es) ↔ Agree es := by
  have hagree : Agree (dictOf es) := agree_foldl (by simp [Agree])
  constructor
  · exact fun h e he e' he' => hagree e (h e he) e' (h e' he')
  · intro h e he
    obtain ⟨x,hx,hk⟩ := key_mem_foldl (d := []) (by simpa using he)
    have hm : x ∈ es := by simpa using mem_of_mem_foldl hx
    rwa [← h x hm e he hk]

end Dict

/-- A sequence of texts, which a text is too. -/
inductive Texts
  | one (s : PyStr)
  | many (ss : List PyStr)

/-- A realm's key as carried, by hex or bytes. -/
inductive RealmKey
  | text (s : PyStr)
  | bytes (bs : List UInt8)

def RealmKey.hex : RealmKey → PyStr
  | .text s => s
  | .bytes bs => hexText bs

inductive Policy
  | ucanRequired (issuer : Id)
  | realmMemberRequired (keyId : Id) (can : PyStr)

def textDoc (s : String) : Doc := .str (.ofString s)

def intDoc (i : ℤ) : Doc := .number (.ofInt i)

/-- `__post_init__`, then `json`. -/
def Policy.doc : Policy → Except PyError Doc
  | .ucanRequired issuer => (id32 issuer "the issuer's node_id").map fun bs =>
    .obj [(.ofString "kind",textDoc "ucan_required"),(.ofString "issuer",.str (hexText bs))]
  | .realmMemberRequired keyId can => (id32 keyId "the realm key's key id").bind fun bs =>
    if can = [] then .error (.valueError "macula-py: a realm member policy names a can")
    else .ok (.obj [(.ofString "kind",textDoc "realm_member_required"),
      (.ofString "key_id",.str (hexText bs)),(.ofString "can",.str can)])

/-- The value of an option that is given. -/
inductive OptionValue
  | int (i : ℤ)
  | text (s : PyStr)
  | texts (ss : Texts) (refusal : String)
  | id (value : Id) (what : String)
  | policy (p : Policy)
  | trust (keys : List (Id × RealmKey))
  | facts (ms : List (PyStr × Doc))

def trustEntry (x : Id × RealmKey) : Except PyError (PyStr × PyStr) :=
  (id32 x.1 "a realm id").map fun bs => (hexText bs,x.2.hex)

def OptionValue.doc : OptionValue → Except PyError Doc
  | .int i => .ok (intDoc i)
  | .text s => .ok (.str s)
  | .texts (.one _) refusal => .error (.typeError refusal)
  | .texts (.many ss) _ => .ok (.arr (ss.map .str))
  | .id value what => (id32 value what).map fun bs => .str (hexText bs)
  | .policy p => p.doc
  | .trust keys => (each trustEntry keys).map fun es =>
    .obj ((dictOf es).map fun e => (e.1,.str e.2))
  | .facts ms => .ok (.obj ms)

/-- A dict made of what is given has it all. -/
def OptionValue.Kept : OptionValue → Prop
  | .trust keys => ∀ es, each trustEntry keys = .ok es → ∀ e ∈ es, e ∈ dictOf es
  | _ => True

/-- Two spellings of one realm id have one key. -/
def OneKey (keys : List (Id × RealmKey)) : Prop :=
  ∀ x ∈ keys, ∀ y ∈ keys, id32 x.1 "a realm id" = id32 y.1 "a realm id" → x.2.hex = y.2.hex

/-- Two spellings of one id. -/
def SameId (x y : Id) : Prop := ∃ bs w w', id32 x w = .ok bs ∧ id32 y w' = .ok bs

def Policy.Same : Policy → Policy → Prop
  | .ucanRequired x,.ucanRequired y => SameId x y
  | .realmMemberRequired x can,.realmMemberRequired y can' => SameId x y ∧ can = can'
  | _,_ => False

def SameEntry (x y : Id × RealmKey) : Prop := SameId x.1 y.1 ∧ x.2.hex = y.2.hex

/-- The same value of an option. -/
def OptionValue.Same : OptionValue → OptionValue → Prop
  | .int i,.int j => i = j
  | .text s,.text t => s = t
  | .texts ss _,.texts ts _ => ss = ts
  | .id x _,.id y _ => SameId x y
  | .policy p,.policy q => p.Same q
  | .trust ks,.trust ls => (∀ x ∈ ks, ∃ y ∈ ls, SameEntry x y) ∧ ∀ y ∈ ls, ∃ x ∈ ks, SameEntry x y
  | .facts ms,.facts ns => ms = ns
  | v,w => v.doc = w.doc

def OptionValue.Fits : OptionValue → Prop
  | .text s => s.scalar = true
  | .texts (.many ss) _ => ∀ s ∈ ss, s.scalar = true
  | .policy (.realmMemberRequired _ can) => can.scalar = true
  | .trust keys => OneKey keys ∧ ∀ x ∈ keys, x.2.hex.scalar = true
  | .facts ms => (Doc.obj ms).Scalar
  | _ => True

theorem trustEntry_eq_ok {x : Id × RealmKey} {e : PyStr × PyStr} :
    trustEntry x = .ok e ↔
      ∃ bs, id32 x.1 "a realm id" = .ok bs ∧ (hexText bs,x.2.hex) = e :=
  map_eq_ok

theorem agree_iff {keys : List (Id × RealmKey)} {es : List (PyStr × PyStr)}
    (h : each trustEntry keys = .ok es) : Agree es ↔ OneKey keys := by
  unfold Agree OneKey
  refine forall_each (fun x e hx => forall_each (fun y e' hy => ?_) h) h
  obtain ⟨bs,hbs,rfl⟩ := trustEntry_eq_ok.mp hx
  obtain ⟨bs',hbs',rfl⟩ := trustEntry_eq_ok.mp hy
  rw [hbs,hbs',Except.ok.injEq,Prod.mk.injEq]
  constructor
  · exact fun hxy he => (hxy (congrArg hexText he)).2
  · exact fun hxy he => ⟨he,hxy (hexText_injective he)⟩

@[simp] theorem scalar_textDoc (s : String) : (textDoc s).Scalar :=
  Doc.scalar_str.mpr (PyStr.scalar_ofString s)

/-- A value of an option is in the document whole exactly when it fits. -/
theorem OptionValue.fits_iff {o : OptionValue} {d : Doc} (h : o.doc = .ok d) :
    (d.Scalar ∧ o.Kept) ↔ o.Fits := by
  cases o with
  | int i =>
    cases h
    simp [intDoc,Kept,Fits]
  | text s =>
    cases h
    simp [Kept,Fits]
  | texts ss refusal =>
    cases ss with
    | one s => cases h
    | many ss =>
      cases h
      simp [Kept,Fits]
  | id value what =>
    obtain ⟨bs,_,rfl⟩ := map_eq_ok.mp h
    simp [Kept,Fits]
  | policy p =>
    cases p with
    | ucanRequired issuer =>
      obtain ⟨bs,_,rfl⟩ := map_eq_ok.mp h
      simp [Kept,Fits,PyStr.scalar_ofString]
    | realmMemberRequired keyId can =>
      obtain ⟨bs,_,hc⟩ := bind_eq_ok.mp h
      split at hc <;> cases hc
      simp [Kept,Fits,PyStr.scalar_ofString]
  | trust keys =>
    obtain ⟨es,hes,rfl⟩ := map_eq_ok.mp h
    have hkept : (OptionValue.trust keys).Kept ↔ Agree es := by
      rw [← dictOf_keeps_iff]
      exact ⟨fun hk => hk es hes,fun hk es' hes' => by rwa [← Except.ok.inj (hes.symm.trans hes')]⟩
    have hscalar : (∀ e ∈ es, e.2.scalar = true) ↔ ∀ x ∈ keys, x.2.hex.scalar = true := by
      refine forall_each (fun x e hx => ?_) hes
      obtain ⟨bs,_,rfl⟩ := trustEntry_eq_ok.mp hx
      exact Iff.rfl
    have hid : ∀ e ∈ es, e.1.scalar = true := by
      refine (forall_each (P := fun _ => True) (fun x e hx => ?_) hes).mpr (fun _ _ => trivial)
      obtain ⟨bs,_,rfl⟩ := trustEntry_eq_ok.mp hx
      simp
    rw [hkept,Fits,← agree_iff hes,← hscalar,and_comm]
    refine and_congr_right (fun ha => ?_)
    have hmem : ∀ e, e ∈ dictOf es ↔ e ∈ es := by
      intro e
      exact ⟨fun he => by simpa using mem_of_mem_foldl he,dictOf_keeps_iff.mpr ha e⟩
    simp only [Doc.scalar_obj,List.forall_mem_map,Doc.scalar_str,hmem]
    exact forall₂_congr (fun e he => and_iff_right (hid e he))
  | facts ms =>
    cases h
    simp only [Kept,Fits,and_true]

theorem intDoc_injective {i j : ℤ} (h : intDoc i = intDoc j) : i = j :=
  intText_injective (congrArg Numeral.text (Doc.number.inj h))

theorem textDoc_injective {s t : String} (h : textDoc s = textDoc t) : s = t :=
  PyStr.ofString_injective (Doc.str.inj h)

theorem Policy.same_of_doc {p q : Policy} {d : Doc} (hp : p.doc = .ok d) (hq : q.doc = .ok d) :
    p.Same q := by
  have hkind : textDoc "ucan_required" ≠ textDoc "realm_member_required" :=
    fun h => absurd (textDoc_injective h) (by decide)
  cases p with
  | ucanRequired x =>
    obtain ⟨bs,hx,rfl⟩ := map_eq_ok.mp hp
    cases q with
    | ucanRequired y =>
      obtain ⟨bs',hy,hd⟩ := map_eq_ok.mp hq
      simp only [Doc.obj.injEq,List.cons.injEq,Prod.mk.injEq,Doc.str.injEq,true_and,and_true] at hd
      exact ⟨bs,_,_,hx,hexText_injective hd ▸ hy⟩
    | realmMemberRequired y can =>
      obtain ⟨bs',_,hd⟩ := bind_eq_ok.mp hq
      split at hd
      · cases hd
      · simp only [Except.ok.injEq,Doc.obj.injEq,List.cons.injEq,Prod.mk.injEq] at hd
        exact absurd hd.1.2.symm hkind
  | realmMemberRequired x can =>
    obtain ⟨bs,hx,hd⟩ := bind_eq_ok.mp hp
    split at hd <;> cases hd
    cases q with
    | ucanRequired y =>
      obtain ⟨bs',_,hd⟩ := map_eq_ok.mp hq
      simp only [Doc.obj.injEq,List.cons.injEq,Prod.mk.injEq] at hd
      exact absurd hd.1.2 hkind
    | realmMemberRequired y can' =>
      obtain ⟨bs',hy,hd⟩ := bind_eq_ok.mp hq
      split at hd
      · cases hd
      · simp only [Except.ok.injEq,Doc.obj.injEq,List.cons.injEq,Prod.mk.injEq,Doc.str.injEq,
          true_and,and_true] at hd
        exact ⟨⟨bs,_,_,hx,hexText_injective hd.1 ▸ hy⟩,hd.2.symm⟩

theorem mem_of_same_trust {keys keys' : List (Id × RealmKey)} {es es' : List (PyStr × PyStr)}
    (h : each trustEntry keys = .ok es) (h' : each trustEntry keys' = .ok es')
    (hk : OneKey keys) (hd : dictOf es = dictOf es') :
    ∀ x ∈ keys, ∃ y ∈ keys', SameEntry x y := by
  intro x hx
  obtain ⟨e,he,hxe⟩ := (mem_each h).1 x hx
  have hmem : e ∈ dictOf es' := hd ▸ dictOf_keeps_iff.mpr ((agree_iff h).mpr hk) e he
  obtain ⟨y,hy,hye⟩ := (mem_each h').2 e (by simpa using mem_of_mem_foldl hmem)
  obtain ⟨bs,hbs,rfl⟩ := trustEntry_eq_ok.mp hxe
  obtain ⟨bs',hbs',he'⟩ := trustEntry_eq_ok.mp hye
  obtain ⟨h1,h2⟩ := Prod.mk.inj he'
  exact ⟨y,hy,⟨bs,_,_,hbs,hexText_injective h1 ▸ hbs'⟩,h2.symm⟩

/-- Values that fit are told apart by what is written. -/
theorem OptionValue.same_of_doc {v w : OptionValue} {d : Doc} (hv : v.doc = .ok d)
    (hw : w.doc = .ok d) (hf : v.Fits) (hf' : w.Fits) : v.Same w := by
  cases v with
  | int i =>
    cases w with
    | int j => exact intDoc_injective (Except.ok.inj (hv.trans hw.symm))
    | _ => exact hv.trans hw.symm
  | text s =>
    cases w with
    | text t => exact Doc.str.inj (Except.ok.inj (hv.trans hw.symm))
    | _ => exact hv.trans hw.symm
  | texts ss refusal =>
    cases w with
    | texts ts refusal' =>
      cases ss with
      | one s => cases hv
      | many ss =>
        cases ts with
        | one t => cases hw
        | many ts =>
          have hd := Doc.arr.inj (Except.ok.inj (hv.trans hw.symm))
          exact congrArg Texts.many (List.map_injective_iff.mpr (fun _ _ => Doc.str.inj) hd)
    | _ => exact hv.trans hw.symm
  | id x what =>
    cases w with
    | id y what' =>
      obtain ⟨bs,hx,rfl⟩ := map_eq_ok.mp hv
      obtain ⟨bs',hy,hd⟩ := map_eq_ok.mp hw
      exact ⟨bs,_,_,hx,hexText_injective (Doc.str.inj hd) ▸ hy⟩
    | _ => exact hv.trans hw.symm
  | policy p =>
    cases w with
    | policy q => exact Policy.same_of_doc hv hw
    | _ => exact hv.trans hw.symm
  | trust keys =>
    cases w with
    | trust keys' =>
      obtain ⟨es,hes,rfl⟩ := map_eq_ok.mp hv
      obtain ⟨es',hes',hd⟩ := map_eq_ok.mp hw
      have hdict : dictOf es' = dictOf es := by
        refine List.map_injective_iff.mpr (fun e e' he => ?_) (Doc.obj.inj hd)
        obtain ⟨h1,h2⟩ := Prod.mk.inj he
        exact Prod.ext h1 (Doc.str.inj h2)
      refine ⟨mem_of_same_trust hes hes' hf.1 hdict.symm,fun y hy => ?_⟩
      obtain ⟨x,hx,⟨bs,_,_,h1,h2⟩,hk⟩ := mem_of_same_trust hes' hes hf'.1 hdict y hy
      exact ⟨x,hx,⟨bs,_,_,h2,h1⟩,hk.symm⟩
    | _ => exact hv.trans hw.symm
  | facts ms =>
    cases w with
    | facts ns => exact Doc.obj.inj (Except.ok.inj (hv.trans hw.symm))
    | _ => exact hv.trans hw.symm

end MaculaPy.Abi
