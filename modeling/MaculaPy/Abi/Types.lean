import MaculaPy.Wire.Written
import Mathlib.Data.List.Forall2
import Mathlib.Data.List.TakeWhile

/-! # The C ABI

The functions of the header with the types of their parameters, and an argument's way through
ctypes: what Python passes, and what the native function then reads. A `const char*` is read
up to its first NUL, and an `int` is taken modulo the width of its parameter.
-/
namespace MaculaPy.Abi
open Wire

/-- The parameter types of the header; `out` is a pointer that is written through. -/
inductive CType
  | handle
  | size
  | int32
  | int64
  | chars
  | bytes
  | out
  deriving DecidableEq, Repr

inductive CValue
  | int (i : ℤ)
  | bytes (bs : List ℕ)
  | null
  | out
  deriving DecidableEq, Repr

/-- What the native function reads of a value passed for a parameter. -/
def CType.receive : CType → CValue → CValue
  | .handle,.int i => .int (i % 2 ^ 64)
  | .size,.int i => .int (i % 2 ^ 64)
  | .int32,.int i => .int (i.bmod (2 ^ 32))
  | .int64,.int i => .int (i.bmod (2 ^ 64))
  | .chars,.bytes bs => .bytes (bs.takeWhile (· ≠ 0))
  | _,v => v

/-- An argument of `invoke`, before a text is encoded or a document is written. An option that
is not given is in no document. -/
inductive Arg
  | word (n : Fin (2 ^ 64))
  | int (i : ℤ)
  | data (bs : List UInt8)
  | text (s : PyStr)
  | path (s : PyStr)
  | json (compact : Bool) (d : Doc)
  | options (nullable : Bool) (os : List (String × Option Doc))
  | out

def present (os : List (String × Option Doc)) : List (PyStr × Doc) :=
  os.filterMap (fun o => o.2.map (fun d => (.ofString o.1,d)))

/-- A text has its UTF-8 bytes passed, a path the bytes of `os.fsencode`. -/
def Arg.pass : Arg → Except PyError CValue
  | .word n => .ok (.int n.val)
  | .int i => .ok (.int i)
  | .data bs => .ok (.bytes (bs.map UInt8.toNat))
  | .text s => s.utf8.elim (.error surrogatesNotAllowed) (fun bs => .ok (.bytes bs))
  | .path s => s.fsencode.elim (.error surrogatesNotAllowed) (fun bs => .ok (.bytes bs))
  | .json c d => .ok (.bytes (d.text c))
  | .options nullable os =>
    if nullable && (present os).isEmpty then .ok .null
    else .ok (.bytes ((Doc.obj (present os)).text false))
  | .out => .ok .out

/-- The texts that are written in JSON. -/
def Arg.written : Arg → List PyStr
  | .json _ d => d.texts
  | .options _ os => (Doc.obj (present os)).texts
  | _ => []

/-- The native function has the very value that is passed, and a text in JSON is named. -/
def Arg.Reaches (a : Arg) (v : CValue) : Prop :=
  a.pass = .ok v ∧ ∀ s ∈ a.written, s.named = some s.codes

/-- The same argument: a path is the file it names, and a body the bytes that are sent. -/
def Arg.Same : Arg → Arg → Prop
  | .path s,.path t => s.fsencode = t.fsencode
  | .text s,.json c d => s.utf8 = some (d.text c)
  | .json c d,.text s => s.utf8 = some (d.text c)
  | a,b => a = b

def Int32 (i : ℤ) : Prop := -2 ^ 31 ≤ i ∧ i < 2 ^ 31

def Int64 (i : ℤ) : Prop := -2 ^ 63 ≤ i ∧ i < 2 ^ 63

def NoNul (s : PyStr) : Prop := 0 ∉ s.codes

def Arg.Fits : CType → Arg → Prop
  | .int32,.int i => Int32 i
  | .int64,.int i => Int64 i
  | _,.text s => NoNul s
  | _,.path s => NoNul s
  | _,.json _ d => d.Scalar
  | _,.options _ os => (Doc.obj (present os)).Scalar
  | _,_ => True

/-- What an argument is for. -/
inductive Role
  | handle
  | size
  | int32
  | int64
  | data
  | text
  | path
  | list
  | payload
  | body
  | options (nullable : Bool) (names : List String)
  | out

def Role.ctype : Role → CType
  | .handle => .handle
  | .size => .size
  | .int32 => .int32
  | .int64 => .int64
  | .data => .bytes
  | .out => .out
  | _ => .chars

/-- The arguments of a role; a body is JSON written here or a text. -/
def Role.Plays : Role → Arg → Prop
  | .handle,.word _ => True
  | .size,.word _ => True
  | .int32,.int _ => True
  | .int64,.int _ => True
  | .data,.data _ => True
  | .text,.text _ => True
  | .path,.path _ => True
  | .list,.json c _ => c = false
  | .payload,.json c _ => c = true
  | .body,.json c _ => c = true
  | .body,.text _ => True
  | .options nullable names,.options nullable' os => nullable' = nullable ∧ os.map Prod.fst = names
  | .out,.out => True
  | _,_ => False

/-- Names of options that are told apart. -/
def Role.Distinct : Role → Prop
  | .options _ names => (names.map PyStr.ofString).Nodup
  | _ => True

theorem bmod_eq_iff32 {i : ℤ} : i.bmod (2 ^ 32) = i ↔ Int32 i := by
  simp only [Int.bmod,Int32]
  split <;> omega

theorem bmod_eq_iff64 {i : ℤ} : i.bmod (2 ^ 64) = i ↔ Int64 i := by
  simp only [Int.bmod,Int64]
  split <;> omega

theorem takeWhile_eq_iff {bs : List ℕ} : bs.takeWhile (· ≠ 0) = bs ↔ 0 ∉ bs := by
  rw [List.takeWhile_eq_self_iff]
  constructor
  · intro h hz
    simpa using h 0 hz
  · intro h c hc
    simp only [ne_eq,decide_not,Bool.not_eq_true',decide_eq_false_iff_not]
    rintro rfl
    exact h hc

/-- JSON is read whole. -/
theorem takeWhile_text (c : Bool) (d : Doc) : (d.text c).takeWhile (· ≠ 0) = d.text c :=
  takeWhile_eq_iff.mpr (fun h => d.text_ne_zero _ h rfl)

theorem named_texts {d : Doc} : (∀ s ∈ d.texts, s.named = some s.codes) ↔ d.Scalar :=
  forall₂_congr (fun _ _ => PyStr.named_iff)

theorem pass_text {s : PyStr} {v : CValue} :
    (Arg.text s).pass = .ok v ↔ ∃ bs, s.utf8 = some bs ∧ v = .bytes bs := by
  rw [Arg.pass]
  cases s.utf8 <;> simp [eq_comm]

theorem pass_path {s : PyStr} {v : CValue} :
    (Arg.path s).pass = .ok v ↔ ∃ bs, s.fsencode = some bs ∧ v = .bytes bs := by
  rw [Arg.pass]
  cases s.fsencode <;> simp [eq_comm]

/-- What is passed as text of some kind. -/
def Arg.isChars : Arg → Bool
  | .text _ => true
  | .path _ => true
  | .json _ _ => true
  | .options _ _ => true
  | _ => false

theorem Role.ctype_eq_chars {r : Role} {a : Arg} (hr : r.Plays a) (ha : a.isChars = true) :
    r.ctype = .chars := by
  cases r <;> cases a <;> simp_all [Plays,Arg.isChars,ctype]

/-- An argument reaches the native function exactly when it fits. -/
theorem Role.reaches_iff {r : Role} {a : Arg} {v : CValue} (hr : r.Plays a)
    (hv : a.pass = .ok v) : a.Reaches (r.ctype.receive v) ↔ a.Fits r.ctype := by
  rw [Arg.Reaches,hv,Except.ok.injEq,eq_comm]
  cases a with
  | word n =>
    cases hv
    cases r <;> simp only [Plays] at hr <;>
      simp only [ctype,CType.receive,Arg.written,Arg.Fits,CValue.int.injEq,List.not_mem_nil,
        false_imp_iff,implies_true,and_true,iff_true] <;> omega
  | int i =>
    cases hv
    cases r <;> simp only [Plays] at hr
    · simpa [ctype,CType.receive,Arg.written,Arg.Fits] using bmod_eq_iff32
    · simpa [ctype,CType.receive,Arg.written,Arg.Fits] using bmod_eq_iff64
  | data bs =>
    cases hv
    cases r <;> simp only [Plays] at hr
    simp [ctype,CType.receive,Arg.written,Arg.Fits]
  | text s =>
    obtain ⟨bs,hs,rfl⟩ := pass_text.mp hv
    have ht : r.ctype = .chars := Role.ctype_eq_chars hr rfl
    simp only [ht,CType.receive,Arg.written,Arg.Fits,NoNul,CValue.bytes.injEq,List.not_mem_nil,
      false_imp_iff,implies_true,and_true,takeWhile_eq_iff,PyStr.zero_mem_utf8 hs]
  | path s =>
    obtain ⟨bs,hs,rfl⟩ := pass_path.mp hv
    have ht : r.ctype = .chars := Role.ctype_eq_chars hr rfl
    simp only [ht,CType.receive,Arg.written,Arg.Fits,NoNul,CValue.bytes.injEq,List.not_mem_nil,
      false_imp_iff,implies_true,and_true,takeWhile_eq_iff,PyStr.zero_mem_fsencode hs]
  | json c d =>
    cases hv
    have ht : r.ctype = .chars := Role.ctype_eq_chars hr rfl
    simp only [ht,CType.receive,Arg.written,Arg.Fits,takeWhile_text,true_and,named_texts]
  | options nullable os =>
    have ht : r.ctype = .chars := Role.ctype_eq_chars hr rfl
    rw [Arg.pass] at hv
    split at hv <;> cases hv
    · simp only [ht,CType.receive,Arg.written,Arg.Fits,true_and,named_texts]
    · simp only [ht,CType.receive,Arg.written,Arg.Fits,takeWhile_text,true_and,named_texts]
  | out =>
    cases hv
    cases r <;> simp only [Plays] at hr
    simp [ctype,CType.receive,Arg.written,Arg.Fits]

theorem mem_present {os : List (String × Option Doc)} {m : PyStr × Doc} (h : m ∈ present os) :
    m.1 ∈ (os.map Prod.fst).map PyStr.ofString := by
  obtain ⟨o,ho,he⟩ := List.mem_filterMap.mp h
  obtain ⟨d,_,rfl⟩ := Option.map_eq_some_iff.mp he
  exact List.mem_map_of_mem (List.mem_map_of_mem ho)

/-- Options of the same names are told apart by the document that is written. -/
theorem present_injective {os os' : List (String × Option Doc)}
    (hn : os.map Prod.fst = os'.map Prod.fst) (hd : ((os.map Prod.fst).map PyStr.ofString).Nodup)
    (h : present os = present os') : os = os' := by
  induction os generalizing os' with
  | nil =>
    cases os' with
    | nil => rfl
    | cons o' os' => simp at hn
  | cons o os ih =>
    cases os' with
    | nil => simp at hn
    | cons o' os' =>
      obtain ⟨n,x⟩ := o
      obtain ⟨n',x'⟩ := o'
      simp only [List.map_cons,List.cons.injEq] at hn
      obtain ⟨rfl,hn⟩ := hn
      simp only [List.map_cons,List.nodup_cons] at hd
      obtain ⟨hnot,hd⟩ := hd
      cases x with
      | none =>
        cases x' with
        | none => rw [ih hn hd h]
        | some d' =>
          have hm : (PyStr.ofString n,d') ∈ present os := h ▸ List.mem_cons_self
          exact absurd (mem_present hm) hnot
      | some d =>
        cases x' with
        | none =>
          have hm : (PyStr.ofString n,d) ∈ present os' := h ▸ List.mem_cons_self
          exact absurd (hn ▸ mem_present hm) hnot
        | some d' =>
          obtain ⟨hdd,ht⟩ := List.cons.inj h
          rw [ih hn hd ht,(Prod.mk.inj hdd).2]

theorem map_toNat_injective {bs bs' : List UInt8} (h : bs.map UInt8.toNat = bs'.map UInt8.toNat) :
    bs = bs' :=
  List.map_injective_iff.mpr (fun _ _ => UInt8.toNat_inj.mp) h

/-- Documents of one set of options, where none may be written as no document at all. -/
theorem same_options {nullable : Bool} {os os' : List (String × Option Doc)} {v : CValue}
    (hf : (Doc.obj (present os)).Scalar) (hf' : (Doc.obj (present os')).Scalar)
    (h : (Arg.options nullable os).pass = .ok v) (h' : (Arg.options nullable os').pass = .ok v) :
    present os = present os' := by
  rw [Arg.pass] at h h'
  split at h
  · next he =>
    cases h
    split at h'
    · next he' =>
      simp only [Bool.and_eq_true,List.isEmpty_iff] at he he'
      rw [he.2,he'.2]
    · cases h'
  · cases h
    split at h'
    · cases h'
    · simp only [Except.ok.injEq,CValue.bytes.injEq] at h'
      exact (Doc.obj.inj (Doc.text_injective hf' hf h')).symm

/-- Arguments of a role that fit are told apart by what is passed. -/
theorem Role.same {r : Role} (hd : r.Distinct) {a b : Arg} {v : CValue} (ha : r.Plays a)
    (hb : r.Plays b) (hfa : a.Fits r.ctype) (hfb : b.Fits r.ctype) (hpa : a.pass = .ok v)
    (hpb : b.pass = .ok v) : a.Same b := by
  cases a with
  | word n =>
    cases b with
    | word m =>
      cases hpa
      simp only [Arg.pass,Except.ok.injEq,CValue.int.injEq,Nat.cast_inj] at hpb
      exact congrArg Arg.word (Fin.ext hpb.symm)
    | _ => cases r <;> simp only [Plays] at ha hb
  | int i =>
    cases b with
    | int j =>
      cases hpa
      cases hpb
      rfl
    | _ => cases r <;> simp only [Plays] at ha hb
  | data bs =>
    cases b with
    | data bs' =>
      cases hpa
      simp only [Arg.pass,Except.ok.injEq,CValue.bytes.injEq] at hpb
      exact congrArg Arg.data (map_toNat_injective hpb.symm)
    | _ => cases r <;> simp only [Plays] at ha hb
  | text s =>
    obtain ⟨bs,hs,rfl⟩ := pass_text.mp hpa
    cases b with
    | text t =>
      obtain ⟨bs',ht,hv⟩ := pass_text.mp hpb
      cases hv
      exact congrArg Arg.text (PyStr.utf8_injective hs ht)
    | json c d =>
      simp only [Arg.pass,Except.ok.injEq,CValue.bytes.injEq] at hpb
      exact hs.trans (congrArg some hpb.symm)
    | _ => cases r <;> simp only [Plays] at ha hb
  | path s =>
    obtain ⟨bs,hs,rfl⟩ := pass_path.mp hpa
    cases b with
    | path t =>
      obtain ⟨bs',ht,hv⟩ := pass_path.mp hpb
      cases hv
      exact hs.trans ht.symm
    | _ => cases r <;> simp only [Plays] at ha hb
  | json c d =>
    cases hpa
    cases b with
    | text t =>
      obtain ⟨bs',ht,hv⟩ := pass_text.mp hpb
      cases hv
      exact ht
    | json c' e =>
      have hc : c = c' := by cases r <;> simp_all [Plays]
      have ht : r.ctype = .chars := Role.ctype_eq_chars ha rfl
      subst hc
      rw [ht] at hfa hfb
      simp only [Arg.pass,Except.ok.injEq,CValue.bytes.injEq] at hpb
      exact congrArg (Arg.json c) (Doc.text_injective hfa hfb hpb.symm)
    | _ => cases r <;> simp only [Plays] at ha hb
  | options nullable os =>
    cases b with
    | options nullable' os' =>
      cases r <;> simp only [Plays] at ha hb
      obtain ⟨rfl,hn⟩ := ha
      obtain ⟨rfl,rfl⟩ := hb
      refine congrArg (Arg.options _) (present_injective hn ?_ (same_options hfa hfb hpa hpb))
      rw [hn]
      exact hd
    | _ => cases r <;> simp only [Plays] at ha hb
  | out =>
    cases b with
    | out => rfl
    | _ => cases r <;> simp only [Plays] at ha hb

def passAll : List Arg → Except PyError (List CValue)
  | [] => .ok []
  | a :: as => a.pass.bind fun v => (passAll as).map (v :: ·)

/-- What the native function reads, parameter by parameter. -/
def receiveAll (ts : List CType) (vs : List CValue) : List CValue :=
  List.zipWith CType.receive ts vs

theorem passAll_cons {a : Arg} {as : List Arg} {vs : List CValue} :
    passAll (a :: as) = .ok vs ↔ ∃ v vs', a.pass = .ok v ∧ passAll as = .ok vs' ∧ v :: vs' = vs :=
  bind_map_eq_ok (f := id)

/-- The arguments of a call reach the native function exactly when each fits. -/
theorem reachesAll_iff {rs : List Role} {as : List Arg} {vs : List CValue}
    (hr : List.Forall₂ Role.Plays rs as) (hv : passAll as = .ok vs) :
    List.Forall₂ Arg.Reaches as (receiveAll (rs.map Role.ctype) vs) ↔
      List.Forall₂ Arg.Fits (rs.map Role.ctype) as := by
  induction hr generalizing vs with
  | nil =>
    cases hv
    simp [receiveAll]
  | cons h _ ih =>
    obtain ⟨v,vs',hp,hps,rfl⟩ := passAll_cons.mp hv
    simp only [List.map_cons,receiveAll,List.zipWith_cons_cons,List.forall₂_cons]
    exact and_congr (Role.reaches_iff h hp) (ih hps)

/-- What is passed is what is read, where every argument reaches the native function. -/
theorem eq_of_reachesAll {as : List Arg} {vs ws : List CValue} (hv : passAll as = .ok vs)
    (h : List.Forall₂ Arg.Reaches as ws) : ws = vs := by
  induction h generalizing vs with
  | nil =>
    cases hv
    rfl
  | cons h _ ih =>
    obtain ⟨v,vs',hp,hps,rfl⟩ := passAll_cons.mp hv
    rw [ih hps,Except.ok.inj (h.1.symm.trans hp)]

theorem sameAll {rs : List Role} (hd : ∀ r ∈ rs, r.Distinct) {as bs : List Arg} {vs : List CValue}
    (ha : List.Forall₂ Role.Plays rs as) (hb : List.Forall₂ Role.Plays rs bs)
    (hfa : List.Forall₂ Arg.Fits (rs.map Role.ctype) as)
    (hfb : List.Forall₂ Arg.Fits (rs.map Role.ctype) bs) (hpa : passAll as = .ok vs)
    (hpb : passAll bs = .ok vs) : List.Forall₂ Arg.Same as bs := by
  induction ha generalizing bs vs with
  | nil =>
    cases hb
    exact .nil
  | cons h _ ih =>
    cases hb with
    | cons h' hb =>
      cases hfa with
      | cons hf hfa =>
        cases hfb with
        | cons hf' hfb =>
          obtain ⟨hdr,hd⟩ := List.forall_mem_cons.mp hd
          obtain ⟨v,vs',hp,hps,rfl⟩ := passAll_cons.mp hpa
          obtain ⟨w,ws',hp',hps',he⟩ := passAll_cons.mp hpb
          cases he
          exact .cons (Role.same hdr h h' hf hf' hp hp') (ih hd hb hfa hfb hps hps')

end MaculaPy.Abi
