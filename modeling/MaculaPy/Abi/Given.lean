import MaculaPy.Abi.Arguments

/-! # Arguments on their way

Each argument of an operation with what it becomes, and when the native function has all of it:
a text passed on its own has no NUL, one written in JSON no lone surrogate, and an integer fits
its parameter.
-/
namespace MaculaPy.Abi
open Wire

structure Seed where
  host : PyStr
  port : ℤ
  nodeId : Id

def Seed.doc (s : Seed) : Except PyError Doc :=
  (id32 s.nodeId "a seed's node_id").map fun bs =>
    .obj [(.ofString "host",.str s.host),(.ofString "port",intDoc s.port),
      (.ofString "node_id",.str (hexText bs))]

def Seed.Same (s t : Seed) : Prop :=
  s.host = t.host ∧ s.port = t.port ∧ SameId s.nodeId t.nodeId

/-- A mapping, by what is looked up in it: the values of its two keys, and its other keys. -/
structure Capability where
  resource : Option PyStr
  can : Option PyStr
  others : List PyStr

def Capability.doc : Capability → Except PyError Doc
  | ⟨some resource,some can,[]⟩ =>
    .ok (.obj [(.ofString "with",.str resource),(.ofString "can",.str can)])
  | _ => .error
    (.valueError "macula-py: a capability is \x7b\"with\": <MRI>, \"can\": <action>\x7d")

def Capability.Fits (c : Capability) : Prop :=
  (∀ s ∈ c.resource, s.scalar = true) ∧ ∀ s ∈ c.can, s.scalar = true

/-- An argument of an operation. -/
inductive Given
  | handle (h : Handle)
  | size (b : Buffer)
  | int (i : ℤ)
  | data (b : Buffer)
  | id (value : Id) (what : String)
  | mcid (value : Id)
  | nonce (what : String) (bs : List UInt8)
  | text (s : PyStr)
  | path (s : PyStr)
  | payload (v : PyVal)
  | request (r : DeviceRequest) (rule : Rule)
  | seeds (ss : List Seed)
  | capabilities (cs : List Capability)
  | options (nullable : Bool) (os : List (String × Option OptionValue))
  | out

def optionDoc (o : String × Option OptionValue) : Except PyError (String × Option Doc) :=
  match o.2 with
  | none => .ok (o.1,none)
  | some v => v.doc.map fun d => (o.1,some d)

/-- The same option, which is given in both or in neither. -/
def SameOption (o p : String × Option OptionValue) : Prop :=
  o.1 = p.1 ∧ Option.Rel OptionValue.Same o.2 p.2

section Text
variable (floatText : Binary64 → Numeral)

def bodyArg : Body → Arg
  | .json j => .json true (j.doc floatText)
  | .text s => .text s

/-- What is passed for an argument, where `floatText` is `float.__repr__`. -/
def Given.arg : Given → Except PyError Arg
  | .handle h => .ok (.word h)
  | .size b => .ok (.word b.len)
  | .int i => .ok (.int i)
  | .data b => .ok (.data b.bytes)
  | .id value what => (id32 value what).map .data
  | .mcid value => (mcid50 value).map .data
  | .nonce what bs =>
    if bs.length = 16 then .ok (.data bs)
    else .error (.valueError s!"macula-py: {what} nonce is 16 bytes")
  | .text s => .ok (.text s)
  | .path s => .ok (.path s)
  | .payload v => (encodePayload v).map fun j => .json true (j.doc floatText)
  | .request r rule => (requestJson (floatName floatText) r rule).map (bodyArg floatText)
  | .seeds ss => (each Seed.doc ss).map fun ds => .json false (.arr ds)
  | .capabilities cs => (each Capability.doc cs).map fun ds => .json false (.arr ds)
  | .options nullable os => (each optionDoc os).map (.options nullable)
  | .out => .ok .out

/-- Nothing that is given is dropped on the way to what is passed. -/
def Given.Kept : Given → Prop
  | .options _ os => ∀ o ∈ os, ∀ v ∈ o.2, v.Kept
  | _ => True

/-- The native function has all of an argument. -/
def Given.Reaches (g : Given) (v : CValue) : Prop :=
  (∃ a, g.arg floatText = .ok a ∧ a.Reaches v) ∧ g.Kept

/-- The same argument: a text or an integer is that very one, and anything else is passed as the
same. -/
def Given.Same : Given → Given → Prop
  | .text s,.text t => s = t
  | .int i,.int j => i = j
  | .seeds ss,.seeds ts => List.Forall₂ Seed.Same ss ts
  | .capabilities cs,.capabilities ds => cs = ds
  | .options _ os,.options _ ps => List.Forall₂ SameOption os ps
  | g,g' => ∃ a a', g.arg floatText = .ok a ∧ g'.arg floatText = .ok a' ∧ a.Same a'

end Text

def Given.Fits : CType → Given → Prop
  | .int32,.int i => Int32 i
  | .int64,.int i => Int64 i
  | _,.text s => NoNul s
  | _,.path s => NoNul s
  | _,.payload v => v.Scalar
  | _,.request (.text s) _ => NoNul s
  | _,.request (.mapping v) _ => v.Scalar
  | _,.seeds ss => ∀ s ∈ ss, s.host.scalar = true
  | _,.capabilities cs => ∀ c ∈ cs, c.Fits
  | _,.options _ os => ∀ o ∈ os, ∀ v ∈ o.2, v.Fits
  | _,_ => True

/-- The arguments that are given for a role. -/
def Role.Takes : Role → Given → Prop
  | .handle,.handle _ => True
  | .size,.size _ => True
  | .int32,.int _ => True
  | .int64,.int _ => True
  | .data,.data _ => True
  | .data,.id _ _ => True
  | .data,.mcid _ => True
  | .data,.nonce _ _ => True
  | .text,.text _ => True
  | .path,.path _ => True
  | .list,.seeds _ => True
  | .list,.capabilities _ => True
  | .payload,.payload _ => True
  | .body,.request _ _ => True
  | .options nullable names,.options nullable' os => nullable' = nullable ∧ os.map Prod.fst = names
  | .out,.out => True
  | _,_ => False

section Results
variable {floatText : Binary64 → Numeral}

theorem optionDoc_eq_ok {o : String × Option OptionValue} {p : String × Option Doc} :
    optionDoc o = .ok p ↔ (o.2 = none ∧ p = (o.1,none)) ∨
      ∃ v d, o.2 = some v ∧ v.doc = .ok d ∧ p = (o.1,some d) := by
  obtain ⟨n,x⟩ := o
  cases x with
  | none => simp [optionDoc,eq_comm]
  | some v =>
    rw [optionDoc,map_eq_ok]
    simp [eq_comm]

theorem optionNames {os : List (String × Option OptionValue)} {ps : List (String × Option Doc)}
    (h : each optionDoc os = .ok ps) : ps.map Prod.fst = os.map Prod.fst := by
  have hf := each_eq_ok h
  clear h
  induction hf with
  | nil => rfl
  | cons hx _ ih =>
    rw [List.map_cons,List.map_cons,ih]
    rcases optionDoc_eq_ok.mp hx with ⟨_,rfl⟩ | ⟨v,d,_,_,rfl⟩
    · rfl
    · rfl

/-- Options are in their document whole exactly when each value fits. -/
theorem options_fit_iff {os : List (String × Option OptionValue)} {ps : List (String × Option Doc)}
    (h : each optionDoc os = .ok ps) :
    ((Doc.obj (present ps)).Scalar ∧ ∀ o ∈ os, ∀ v ∈ o.2, v.Kept) ↔
      ∀ o ∈ os, ∀ v ∈ o.2, v.Fits := by
  have hf := each_eq_ok h
  clear h
  rw [Doc.scalar_obj]
  induction hf with
  | nil => simp [present]
  | @cons o p os ps hx _ ih =>
    rcases optionDoc_eq_ok.mp hx with ⟨ho,rfl⟩ | ⟨v,d,ho,hd,rfl⟩
    · simpa [present,ho] using ih
    · have hv := OptionValue.fits_iff hd
      have hp : present ((o.1,some d) :: ps) = (.ofString o.1,d) :: present ps := rfl
      rw [hp,List.forall_mem_cons,List.forall_mem_cons,List.forall_mem_cons]
      simp only [PyStr.scalar_ofString,true_and,ho,Option.mem_def,Option.some.injEq,forall_eq']
      exact and_and_and_comm.trans (and_congr hv ih)

/-- What an argument becomes has the role it is given for. -/
theorem Role.plays_of_takes {r : Role} {g : Given} {a : Arg} (h : r.Takes g)
    (ha : g.arg floatText = .ok a) : r.Plays a := by
  cases g with
  | request q rule =>
    obtain ⟨b,_,rfl⟩ := map_eq_ok.mp ha
    cases b <;> cases r <;> simp_all [Takes,Plays,bodyArg]
  | options nullable os =>
    obtain ⟨ps,hps,rfl⟩ := map_eq_ok.mp ha
    cases r <;> simp_all [Takes,Plays,optionNames hps]
  | nonce what bs =>
    rw [Given.arg] at ha
    split at ha <;> cases ha
    cases r <;> simp_all [Takes,Plays]
  | id value what =>
    obtain ⟨bs,_,rfl⟩ := map_eq_ok.mp ha
    cases r <;> simp_all [Takes,Plays]
  | mcid value =>
    obtain ⟨bs,_,rfl⟩ := map_eq_ok.mp ha
    cases r <;> simp_all [Takes,Plays]
  | payload v =>
    obtain ⟨j,_,rfl⟩ := map_eq_ok.mp ha
    cases r <;> simp_all [Takes,Plays]
  | seeds ss =>
    obtain ⟨ds,_,rfl⟩ := map_eq_ok.mp ha
    cases r <;> simp_all [Takes,Plays]
  | capabilities cs =>
    obtain ⟨ds,_,rfl⟩ := map_eq_ok.mp ha
    cases r <;> simp_all [Takes,Plays]
  | _ =>
    cases ha
    cases r <;> simp_all [Takes,Plays]

theorem seed_scalar {s : Seed} {d : Doc} (h : s.doc = .ok d) :
    d.Scalar ↔ s.host.scalar = true := by
  obtain ⟨bs,_,rfl⟩ := map_eq_ok.mp h
  simp [PyStr.scalar_ofString,intDoc]

theorem capability_scalar {c : Capability} {d : Doc} (h : c.doc = .ok d) :
    d.Scalar ↔ c.Fits := by
  unfold Capability.doc at h
  split at h <;> cases h
  simp [PyStr.scalar_ofString,Capability.Fits]

theorem payload_scalar {v : PyVal} {j : Json} (h : encodePayload v = .ok j) :
    (j.doc floatText).Scalar ↔ v.Scalar := by
  obtain ⟨j',hj,hd⟩ := bind_eq_ok.mp h
  unfold dumps at hd
  split at hd <;> cases hd
  exact toWire_scalar floatText v j hj

theorem body_fits {t : CType} {q : DeviceRequest} {rule : Rule} {b : Body}
    (h : requestJson (floatName floatText) q rule = .ok b) :
    (bodyArg floatText b).Fits t ↔ (Given.request q rule).Fits t := by
  cases q with
  | text s =>
    cases rule with
    | http =>
      rw [requestJson] at h
      split at h <;> cases h
      cases t <;> exact Iff.rfl
    | mesh => cases h
  | mapping v =>
    cases rule with
    | http =>
      obtain ⟨j,hj,rfl⟩ := map_eq_ok.mp h
      cases t <;> exact dumpsValue_scalar floatText v j hj
    | mesh =>
      obtain ⟨j,hj,rfl⟩ := map_eq_ok.mp h
      cases t <;> exact payload_scalar hj

/-- What is passed for an argument fits, and nothing of it is dropped, exactly when the argument
fits. -/
theorem Given.fits_iff {t : CType} {g : Given} {a : Arg} (ha : g.arg floatText = .ok a) :
    (a.Fits t ∧ g.Kept) ↔ g.Fits t := by
  cases g with
  | payload v =>
    obtain ⟨j,hj,rfl⟩ := map_eq_ok.mp ha
    cases t <;> exact (and_iff_left trivial).trans (payload_scalar hj)
  | request q rule =>
    obtain ⟨b,hb,rfl⟩ := map_eq_ok.mp ha
    exact (and_iff_left trivial).trans (body_fits hb)
  | seeds ss =>
    obtain ⟨ds,hds,rfl⟩ := map_eq_ok.mp ha
    have hiff := Doc.scalar_arr.trans (forall_each (fun _ _ => seed_scalar) hds)
    cases t <;> exact (and_iff_left trivial).trans hiff
  | capabilities cs =>
    obtain ⟨ds,hds,rfl⟩ := map_eq_ok.mp ha
    have hiff := Doc.scalar_arr.trans (forall_each (fun _ _ => capability_scalar) hds)
    cases t <;> exact (and_iff_left trivial).trans hiff
  | options nullable os =>
    obtain ⟨ps,hps,rfl⟩ := map_eq_ok.mp ha
    cases t <;> exact options_fit_iff hps
  | id value what =>
    obtain ⟨bs,_,rfl⟩ := map_eq_ok.mp ha
    cases t <;> exact and_iff_left trivial
  | mcid value =>
    obtain ⟨bs,_,rfl⟩ := map_eq_ok.mp ha
    cases t <;> exact and_iff_left trivial
  | nonce what bs =>
    rw [Given.arg] at ha
    split at ha <;> cases ha
    cases t <;> exact and_iff_left trivial
  | _ =>
    cases ha
    cases t <;> exact and_iff_left trivial

/-- An argument that can be passed reaches the native function exactly when it fits. -/
theorem Role.reaches_given_iff {r : Role} {g : Given} {a : Arg} {v : CValue} (h : r.Takes g)
    (ha : g.arg floatText = .ok a) (hv : a.pass = .ok v) :
    g.Reaches floatText (r.ctype.receive v) ↔ g.Fits r.ctype := by
  rw [← Given.fits_iff ha,← Role.reaches_iff (Role.plays_of_takes h ha) hv]
  refine and_congr_left (fun _ => ⟨?_,fun hr => ⟨a,ha,hr⟩⟩)
  rintro ⟨a',ha',hr⟩
  rwa [Except.ok.inj (ha.symm.trans ha')]

/-- The arguments of a call, each in the role it is given for. -/
theorem plays_all {rs : List Role} {gs : List Given} {as : List Arg}
    (ht : List.Forall₂ Role.Takes rs gs)
    (ha : List.Forall₂ (fun g a => g.arg floatText = .ok a) gs as) :
    List.Forall₂ Role.Plays rs as := by
  induction ht generalizing as with
  | nil =>
    cases ha
    exact .nil
  | cons h _ ih =>
    cases ha with
    | cons ha has => exact .cons (Role.plays_of_takes h ha) (ih has)

theorem fits_all {ts : List CType} {gs : List Given} {as : List Arg}
    (ha : List.Forall₂ (fun g a => g.arg floatText = .ok a) gs as)
    (hf : List.Forall₂ Given.Fits ts gs) : List.Forall₂ Arg.Fits ts as := by
  induction ha generalizing ts with
  | nil =>
    cases hf
    exact .nil
  | cons ha _ ih =>
    cases hf with
    | cons hf hfs => exact .cons ((Given.fits_iff ha).mpr hf).1 (ih hfs)

/-- Of a call that is made, the native function has all of each argument exactly when each
fits. -/
theorem reaches_all_iff {rs : List Role} {gs : List Given} {as : List Arg} {vs : List CValue}
    (ht : List.Forall₂ Role.Takes rs gs)
    (ha : List.Forall₂ (fun g a => g.arg floatText = .ok a) gs as) (hv : passAll as = .ok vs) :
    List.Forall₂ (Given.Reaches floatText) gs (receiveAll (rs.map Role.ctype) vs) ↔
      List.Forall₂ Given.Fits (rs.map Role.ctype) gs := by
  induction ht generalizing as vs with
  | nil =>
    cases ha
    cases hv
    simp [receiveAll]
  | cons h _ ih =>
    cases ha with
    | cons ha has =>
      obtain ⟨v,vs',hp,hps,rfl⟩ := passAll_cons.mp hv
      simp only [List.map_cons,receiveAll,List.zipWith_cons_cons,List.forall₂_cons]
      exact and_congr (Role.reaches_given_iff h ha hp) (ih has hps)

theorem seed_same {s t : Seed} {d : Doc} (hs : s.doc = .ok d) (ht : t.doc = .ok d) : s.Same t := by
  obtain ⟨bs,hbs,rfl⟩ := map_eq_ok.mp hs
  obtain ⟨bs',hbs',hd⟩ := map_eq_ok.mp ht
  simp only [Doc.obj.injEq,List.cons.injEq,Prod.mk.injEq,Doc.str.injEq,true_and,and_true] at hd
  obtain ⟨hhost,hport,hid⟩ := hd
  exact ⟨hhost.symm,(intDoc_injective hport).symm,bs,_,_,hbs,hexText_injective hid ▸ hbs'⟩

theorem capability_same {c c' : Capability} {d : Doc} (h : c.doc = .ok d) (h' : c'.doc = .ok d) :
    c = c' := by
  unfold Capability.doc at h h'
  split at h <;> cases h
  split at h'
  · simp only [Except.ok.injEq,Doc.obj.injEq,List.cons.injEq,Prod.mk.injEq,Doc.str.injEq,true_and,
      and_true] at h'
    rw [h'.1,h'.2]
  · cases h'

theorem option_same {o o' : String × Option OptionValue} {p : String × Option Doc}
    (h : optionDoc o = .ok p) (h' : optionDoc o' = .ok p) (hf : ∀ v ∈ o.2, v.Fits)
    (hf' : ∀ v ∈ o'.2, v.Fits) : SameOption o o' := by
  rcases optionDoc_eq_ok.mp h with ⟨ho,rfl⟩ | ⟨v,d,ho,hd,rfl⟩
  · rcases optionDoc_eq_ok.mp h' with ⟨ho',hp⟩ | ⟨v',d',_,_,hp⟩
    · exact ⟨(Prod.mk.inj hp).1,by rw [ho,ho']; exact .none⟩
    · cases (Prod.mk.inj hp).2
  · rcases optionDoc_eq_ok.mp h' with ⟨_,hp⟩ | ⟨v',d',ho',hd',hp⟩
    · cases (Prod.mk.inj hp).2
    · obtain ⟨hn,hdd⟩ := Prod.mk.inj hp
      obtain rfl := Option.some.inj hdd
      refine ⟨hn,?_⟩
      rw [ho,ho']
      exact .some (OptionValue.same_of_doc hd hd' (hf v ho) (hf' v' ho'))

theorem options_same {os os' : List (String × Option OptionValue)}
    (h : List.Forall₂ (fun o o' => ∃ p, optionDoc o = .ok p ∧ optionDoc o' = .ok p) os os')
    (hf : ∀ o ∈ os, ∀ v ∈ o.2, v.Fits) (hf' : ∀ o ∈ os', ∀ v ∈ o.2, v.Fits) :
    List.Forall₂ SameOption os os' := by
  induction h with
  | nil => exact .nil
  | cons ho _ ih =>
    obtain ⟨p,hp,hp'⟩ := ho
    obtain ⟨hfo,hf⟩ := List.forall_mem_cons.mp hf
    obtain ⟨hfo',hf'⟩ := List.forall_mem_cons.mp hf'
    exact .cons (option_same hp hp' hfo hfo') (ih hf hf')

/-- What is passed as the same was given as the same, where it fits. -/
theorem Given.same_of_arg {t : CType} {g g' : Given} {a a' : Arg} (ha : g.arg floatText = .ok a)
    (ha' : g'.arg floatText = .ok a') (hs : a.Same a') (hf : g.Fits t) (hf' : g'.Fits t) :
    g.Same floatText g' := by
  cases g with
  | text s =>
    cases g' with
    | text s' =>
      cases ha
      cases ha'
      exact Arg.text.inj hs
    | _ => exact ⟨a,a',ha,ha',hs⟩
  | int i =>
    cases g' with
    | int j =>
      cases ha
      cases ha'
      exact Arg.int.inj hs
    | _ => exact ⟨a,a',ha,ha',hs⟩
  | seeds ss =>
    cases g' with
    | seeds ss' =>
      obtain ⟨ds,hds,rfl⟩ := map_eq_ok.mp ha
      obtain ⟨ds',hds',rfl⟩ := map_eq_ok.mp ha'
      obtain rfl := Doc.arr.inj (Arg.json.inj hs).2
      exact (each_inj hds hds').imp (fun _ _ ⟨_,hd,hd'⟩ => seed_same hd hd')
    | _ => exact ⟨a,a',ha,ha',hs⟩
  | capabilities cs =>
    cases g' with
    | capabilities cs' =>
      obtain ⟨ds,hds,rfl⟩ := map_eq_ok.mp ha
      obtain ⟨ds',hds',rfl⟩ := map_eq_ok.mp ha'
      obtain rfl := Doc.arr.inj (Arg.json.inj hs).2
      have heq : List.Forall₂ (· = ·) cs cs' :=
        (each_inj hds hds').imp (fun _ _ ⟨_,hd,hd'⟩ => capability_same hd hd')
      rwa [List.forall₂_eq_eq_eq] at heq
    | _ => exact ⟨a,a',ha,ha',hs⟩
  | options nullable os =>
    cases g' with
    | options nullable' os' =>
      obtain ⟨ps,hps,rfl⟩ := map_eq_ok.mp ha
      obtain ⟨ps',hps',rfl⟩ := map_eq_ok.mp ha'
      obtain rfl := (Arg.options.inj hs).2
      cases t <;> exact options_same (each_inj hps hps') hf hf'
    | _ => exact ⟨a,a',ha,ha',hs⟩
  | _ => exact ⟨a,a',ha,ha',hs⟩

theorem same_all {ts : List CType} {gs gs' : List Given} {as as' : List Arg}
    (ha : List.Forall₂ (fun g a => g.arg floatText = .ok a) gs as)
    (ha' : List.Forall₂ (fun g a => g.arg floatText = .ok a) gs' as')
    (h : List.Forall₂ Arg.Same as as') (hf : List.Forall₂ Given.Fits ts gs)
    (hf' : List.Forall₂ Given.Fits ts gs') : List.Forall₂ (Given.Same floatText) gs gs' := by
  induction ha generalizing gs' as' ts with
  | nil =>
    cases h
    cases ha'
    exact .nil
  | cons ha _ ih =>
    cases h with
    | cons h hs =>
      cases ha' with
      | cons ha' has' =>
        cases hf with
        | cons hf hfs =>
          cases hf' with
          | cons hf' hfs' =>
            exact .cons (Given.same_of_arg ha ha' h hf hf') (ih has' hs hfs hfs')

end Results
end MaculaPy.Abi
