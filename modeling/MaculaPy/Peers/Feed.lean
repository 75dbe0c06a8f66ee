import MaculaPy.Objects.Given
import MaculaPy.Peers.Call

/-! # Events of a topic

What is published, and what an iteration over a subscription is given of it. The native layers and
the mesh between the two hand on what a text denotes; the subscription may miss an event, and any
task may take some of its events.
-/
namespace MaculaPy.Peers
open Wire Abi Objects Blocking Runs

/-- How an event was sealed: not at all, under a key, or under one that did not open it. -/
inductive Seal
  | clear
  | opened (keyId : PyStr)
  | unopened (keyId reason : PyStr)
  deriving DecidableEq

/-- What an event says beside its payload. -/
structure Notice where
  publisher : PyStr
  realm : PyStr
  topic : PyStr
  seq : ℤ
  publishedAt : ℤ
  deliveredVia : PyStr
  sealing : Seal
  deriving DecidableEq

namespace Notice
variable (x : Notice)

def payload (j : Json) : Json :=
  match x.sealing with
  | .unopened _ _ => .null
  | _ => j

def sealMembers : List (PyStr × Json) :=
  match x.sealing with
  | .clear => []
  | .opened keyId => [(sealedKey,.int 1),(.ofString "seal_key_id",.str keyId)]
  | .unopened keyId reason => [(sealedKey,.int 1),(.ofString "seal_key_id",.str keyId),
      (.ofString "unopened",.str reason)]

/-- The members of an event, as `macula_subscription_next` gives them. -/
def members (j : Json) : List (PyStr × Json) :=
  [(.ofString "publisher",.str x.publisher),(realmKey,.str x.realm),
    (.ofString "topic",.str x.topic),(.ofString "seq",.int x.seq),
    (.ofString "published_at",.int x.publishedAt),(payloadKey,x.payload j),
    (.ofString "delivered_via",.str x.deliveredVia)] ++ x.sealMembers

/-- The event that a payload is to be received as. -/
def event (v : PyVal) : Event :=
  let e (v : PyVal) (isSealed : Bool) (keyId unopened : PyVal) : Event :=
    ⟨.str x.publisher,.str x.realm,.str x.topic,.int x.seq,.int x.publishedAt,v,
      .str x.deliveredVia,isSealed,keyId,unopened⟩
  match x.sealing with
  | .clear => e v false .none .none
  | .opened keyId => e v true (.str keyId) .none
  | .unopened keyId reason => e .none true (.str keyId) (.str reason)

def texts : List PyStr :=
  [x.publisher,x.realm,x.topic,x.deliveredVia] ++
    match x.sealing with
    | .clear => []
    | .opened keyId => [keyId]
    | .unopened keyId reason => [keyId,reason]

theorem names_nodup (j : Json) : ((x.members j).map Prod.fst).Nodup := by
  have hall : [PyStr.ofString "publisher",realmKey,.ofString "topic",.ofString "seq",
      .ofString "published_at",payloadKey,.ofString "delivered_via",sealedKey,
      .ofString "seal_key_id",.ofString "unopened"].Nodup := by decide
  refine hall.sublist ?_
  cases hs : x.sealing with
  | clear => simp [members,sealMembers,hs]
  | opened keyId => simp [members,sealMembers,hs]
  | unopened keyId reason => simp [members,sealMembers,hs]

end Notice

/-- Its texts are texts of UTF-8, and its numbers are read as they are written. -/
def Notice.Fair (num : Numbers) (x : Notice) : Prop :=
  (∀ t ∈ x.texts, t.scalar = true) ∧ (Json.int x.seq).Fits num ∧ (Json.int x.publishedAt).Fits num

/-- What lies between a publisher and a subscription: for the text of a payload, the text that
`macula_subscription_next` gives. -/
structure EventMesh (num : Numbers) where
  event : Notice → PyStr → PyStr
  carries : ∀ x s j, x.Fair num → s.scalar = true → j.Payload → loadsText num s = some j →
    loadsText num (event x s) = some (.obj (x.members j))

/-- What `Subscription.next` raises past its wait: the text is no JSON, its bytes are no base64, or
the item is no event. -/
inductive EventError
  | unread
  | refused (e : PyError)
  | item (e : ReadError)

/-- `Subscription.next` past its wait. -/
def eventText (num : Numbers) (s : PyStr) : Except EventError (Option Event) :=
  match decodeText num s with
  | none => .error .unread
  | some (.error e) => .error (.refused e)
  | some (.ok .none) => .ok none
  | some (.ok v) => (eventFrom v).map some |>.mapError .item

section Receive
variable {num : Numbers} {floatText : Binary64 → Numeral}

theorem eventText_members {s : PyStr} {ms : List (PyStr × Json)} {d : List (PyStr × PyVal)}
    {e : Event} (hl : loadsText num s = some (.obj ms)) (hd : decodeMap ms = .ok d)
    (hn : (ms.map Prod.fst).Nodup) (hk : ms.map Prod.fst ≠ [bytesKey])
    (he : eventFrom (strDict d) = .ok e) : eventText num s = .ok (some e) := by
  have hread := decodeText_members hl hd hn hk
  simp only [strDict] at he hread
  simp only [eventText,hread,he]
  rfl

/-- An event is received as it was published. -/
theorem eventText_event (hf : ReadsFloats num floatText) (m : EventMesh num) {x : Notice}
    (hx : x.Fair num) {v : PyVal} {s : PyStr} (hv : v.Payload) (ht : v.NoTag)
    (hs : encodeText floatText v = .ok s) :
    eventText num (m.event x s) = .ok (some (x.event v.normal)) := by
  obtain ⟨j,hj,hpay,hd⟩ := encodePayload_payload hv ht
  rw [encodeText,hj] at hs
  cases hs
  have hl := m.carries x _ j hx (scalar_dumpsText j) hpay (loadsText_payload hf hv hj)
  obtain ⟨publisher,realm,topic,seq,publishedAt,deliveredVia,sealing⟩ := x
  let d (v : PyVal) (ms : List (PyStr × PyVal)) : List (PyStr × PyVal) :=
    [(.ofString "publisher",.str publisher),(realmKey,.str realm),(.ofString "topic",.str topic),
      (.ofString "seq",.int seq),(.ofString "published_at",.int publishedAt),(payloadKey,v),
      (.ofString "delivered_via",.str deliveredVia)] ++ ms
  have hmap : ∀ (y : Json) (u : PyVal) ms us, decodePayload y = .ok u → decodeMap ms = .ok us →
      decodeMap ([(.ofString "publisher",.str publisher),(realmKey,.str realm),
        (.ofString "topic",.str topic),(.ofString "seq",.int seq),
        (.ofString "published_at",.int publishedAt),(payloadKey,y),
        (.ofString "delivered_via",.str deliveredVia)] ++ ms) = .ok (d u us) := by
    intro y u ms us hy hms
    simp [decodeMap,decodePayload,hy,hms,Except.bind,Except.map,d]
  cases sealing with
  | clear =>
    exact eventText_members hl (hmap _ v.normal [] [] hd rfl) (Notice.names_nodup _ j)
      (by simp [Notice.members]) rfl
  | opened keyId =>
    exact eventText_members hl (hmap _ v.normal _ [(sealedKey,.int 1),
      (.ofString "seal_key_id",.str keyId)] hd rfl) (Notice.names_nodup _ j)
      (by simp [Notice.members]) rfl
  | unopened keyId reason =>
    exact eventText_members hl (hmap _ .none _ [(sealedKey,.int 1),
      (.ofString "seal_key_id",.str keyId),(.ofString "unopened",.str reason)] rfl rfl)
      (Notice.names_nodup _ j) (by simp [Notice.members]) rfl

end Receive

/-- An iteration over a subscription, which is given the texts that `next` reads, with what was
published and the numbers of what the waits on the subscription were handed. -/
structure Feed (E : Type*) where
  iteration : Iteration PyStr E
  published : List (Notice × PyVal)
  handed : List ℕ

inductive FeedAction (E : Type*)
  | publish (x : Notice) (v : PyVal)
  | hands (i n : ℕ)
  | iteration (a : IterationAction PyStr E)

namespace Feed
variable {E : Type*}

def init (h : Handle) : Feed E := ⟨.init h,[],[]⟩

/-- A wait comes back with an event. -/
def isEvent : IterationAction PyStr E → Bool
  | .object (.thread (_,.blocking _) (.callReturns (.ok (.event _)))) => true
  | _ => false

section Step
variable {num : Numbers} (floatText : Binary64 → Numeral) (mesh : EventMesh num)

def text (w : Feed E) (n : ℕ) : Option PyStr :=
  w.published[n]?.bind fun y => (encodeText floatText y.2).toOption.map (mesh.event y.1)

def step (w : Feed E) : FeedAction E → Option (Feed E)
  | .publish x v =>
    match encodeText floatText v with
    | .ok _ => some {w with published := w.published ++ [(x,v)]}
    | .error _ => some w
  | .hands i n => (w.text floatText mesh n).bind fun s =>
    (w.iteration.step floatText
        (.object (.thread (i,.blocking false) (.callReturns (.ok (.event s)))))).map fun u =>
      {w with iteration := u, handed := w.handed ++ [n]}
  | .iteration a =>
    if isEvent a then none
    else (w.iteration.step floatText a).map fun u => {w with iteration := u}

/-- Payloads are such as come back, and the native layer hands an event over once. -/
def contract (num : Numbers) (w : Feed E) : FeedAction E → Prop
  | .publish x v => x.Fair num ∧ v.Payload ∧ v.NoTag
  | .hands _ n => n ∉ w.handed
  | .iteration _ => True

/-- No other task takes events, and no wait is cancelled. -/
def alone : FeedAction E → Prop
  | .iteration a => Iteration.alone a = true
  | _ => True

/-- No task stops the subscription. -/
def unreleased : FeedAction E → Prop
  | .iteration a => a.isRelease = false
  | _ => True

/-- These texts are of events that were handed over, in that order. -/
def Brought (w : Feed E) (xs : List PyStr) : Prop :=
  ∃ ns, ns.Sublist w.handed ∧ List.Forall₂ (fun n s => w.text floatText mesh n = some s) ns xs

/-- These texts are of the events that were handed over, in that order. -/
def All (w : Feed E) (xs : List PyStr) : Prop :=
  List.Forall₂ (fun n s => w.text floatText mesh n = some s) w.handed xs

structure FeedValid (h : Handle) (w : Feed E) : Prop where
  given : w.iteration.Given h floatText (w.Brought floatText mesh)
  once : w.handed.Nodup
  fair : ∀ y ∈ w.published, y.1.Fair num ∧ y.2.Payload ∧ y.2.NoTag

end Step

variable {num : Numbers} {floatText : Binary64 → Numeral} {mesh : EventMesh num} {h : Handle}
  {w w' : Feed E}

theorem init_feedValid (h : Handle) : FeedValid floatText mesh h (init h : Feed E) where
  given := ⟨.refl _,⟨[],List.Sublist.refl _,.nil⟩,(fun hp => by cases hp)⟩
  once := List.nodup_nil
  fair y hy := by cases hy

theorem text_append {n : ℕ} {s : PyStr} (hs : w.text floatText mesh n = some s)
    {ys : List (Notice × PyVal)} (hp : w'.published = w.published ++ ys) :
    w'.text floatText mesh n = some s := by
  obtain ⟨y,hy,ht⟩ := Option.bind_eq_some_iff.mp hs
  obtain ⟨hlt,-⟩ := List.getElem?_eq_some_iff.mp hy
  refine Option.bind_eq_some_iff.mpr ⟨y,?_,ht⟩
  rw [hp,List.getElem?_append_left hlt,hy]

theorem Brought.mono {ys : List (Notice × PyVal)} {ks : List ℕ}
    (hp : w'.published = w.published ++ ys) (hh : w'.handed = w.handed ++ ks) (xs : List PyStr)
    (hb : w.Brought floatText mesh xs) : w'.Brought floatText mesh xs := by
  obtain ⟨ns,hsub,hall⟩ := hb
  exact ⟨ns,hh ▸ hsub.trans (List.sublist_append_left _ _),hall.imp fun _ _ hs => text_append hs hp⟩

theorem Brought.concat {xs : List PyStr} {n : ℕ} {s : PyStr} (hb : w.Brought floatText mesh xs)
    (hs : w.text floatText mesh n = some s) (hp : w'.published = w.published)
    (hh : w'.handed = w.handed ++ [n]) : w'.Brought floatText mesh (xs ++ [s]) := by
  obtain ⟨ns,hsub,hall⟩ := hb
  have hkeep : ∀ k u, w.text floatText mesh k = some u → w'.text floatText mesh k = some u := by
    intro k u hu
    rwa [text,hp]
  refine ⟨ns ++ [n],hh ▸ hsub.append_right [n],?_⟩
  exact List.rel_append (hall.imp hkeep) (.cons (hkeep n s hs) .nil)

theorem step_feedValid {a : FeedAction E} (hw : FeedValid floatText mesh h w)
    (hok : w.contract num a) (he : w.step floatText mesh a = some w') :
    FeedValid floatText mesh h w' := by
  cases a with
  | publish x v =>
    simp only [step] at he
    split at he
    · cases he
      refine ⟨hw.given.mono (Brought.mono rfl (List.append_nil _).symm),hw.once,fun y hy => ?_⟩
      rcases List.mem_append.mp hy with hy | hy
      · exact hw.fair y hy
      · rw [List.mem_singleton.mp hy]
        exact hok
    · cases he
      exact hw
  | hands i n =>
    obtain ⟨s,hs,he⟩ := Option.bind_eq_some_iff.mp he
    obtain ⟨u,hu,rfl⟩ := Option.map_eq_some_iff.mp he
    refine ⟨hw.given.step (Brought.mono (List.append_nil _).symm rfl) ?_ hu,?_,hw.fair⟩
    · intro j x hx
      cases hx
      exact hw.given.given.concat hs rfl rfl
    · exact hw.once.append (List.nodup_singleton n) (List.disjoint_singleton.mpr hok)
  | iteration a =>
    simp only [step] at he
    split at he
    · cases he
    · next ha =>
      obtain ⟨u,hu,rfl⟩ := Option.map_eq_some_iff.mp he
      refine ⟨hw.given.step (fun _ hb => hb) ?_ hu,hw.once,hw.fair⟩
      rintro j x rfl
      exact absurd rfl ha

theorem All.mono {ys : List (Notice × PyVal)} (hp : w'.published = w.published ++ ys)
    (hh : w'.handed = w.handed) (xs : List PyStr) (ha : w.All floatText mesh xs) :
    w'.All floatText mesh xs := by
  rw [All,hh]
  exact ha.imp fun _ _ hs => text_append hs hp

theorem step_whole {a : FeedAction E} (hw : w.iteration.Whole h floatText (w.All floatText mesh))
    (ha : alone a) (he : w.step floatText mesh a = some w') :
    w'.iteration.Whole h floatText (w'.All floatText mesh) := by
  cases a with
  | publish x v =>
    simp only [step] at he
    split at he
    · cases he
      exact hw.mono (All.mono rfl rfl)
    · cases he
      exact hw
  | hands i n =>
    obtain ⟨s,hs,he⟩ := Option.bind_eq_some_iff.mp he
    obtain ⟨u,hu,rfl⟩ := Option.map_eq_some_iff.mp he
    exact hw.step_event (fun hall => List.rel_append hall (.cons hs .nil)) hu
  | iteration a =>
    simp only [step] at he
    split at he
    · cases he
    · next hev =>
      obtain ⟨u,hu,rfl⟩ := Option.map_eq_some_iff.mp he
      refine hw.step ha ?_ hu
      rintro i x rfl
      exact absurd rfl hev

theorem reachable_feedValid (hw : Reachable (step floatText mesh) (contract num) (init h) w) :
    FeedValid floatText mesh h w :=
  hw.induct (init_feedValid h) fun _ _ _ _ hs hok he => step_feedValid hs hok he

theorem reachable_whole
    (hw : Reachable (step floatText mesh) (fun w a => w.contract num a ∧ alone a) (init h) w) :
    w.iteration.Whole h floatText (w.All floatText mesh) :=
  hw.induct (P := fun w => w.iteration.Whole h floatText (w.All floatText mesh))
    (Iteration.init_whole h List.Forall₂.nil) fun _ _ _ _ hs hok he => step_whole hs hok.2 he

theorem reachable_iteration
    (hw : Reachable (step floatText mesh)
      (fun w a => w.contract num a ∧ alone a ∧ unreleased a) (init h) w) :
    Reachable (Iteration.step floatText) (fun _ a => a.isRelease = false) (.init h)
      w.iteration := by
  refine hw.induct (P := fun w => Reachable (Iteration.step floatText)
    (fun _ a => a.isRelease = false) (.init h) w.iteration) (.refl _) ?_
  rintro w a w' - hr ⟨-,-,ha⟩ he
  cases a with
  | publish x v =>
    simp only [step] at he
    split at he <;> cases he <;> exact hr
  | hands i n =>
    obtain ⟨s,-,he⟩ := Option.bind_eq_some_iff.mp he
    obtain ⟨u,hu,rfl⟩ := Option.map_eq_some_iff.mp he
    exact hr.tail rfl hu
  | iteration a =>
    simp only [step] at he
    split at he
    · cases he
    · obtain ⟨u,hu,rfl⟩ := Option.map_eq_some_iff.mp he
      exact hr.tail ha hu

/-- This text is read as the event of that number. -/
def Reads (num : Numbers) (w : Feed E) (n : ℕ) (s : PyStr) : Prop :=
  ∃ x v, w.published[n]? = some (x,v) ∧ eventText num s = .ok (some (x.event v.normal))

theorem FeedValid.reads (hv : FeedValid floatText mesh h w) (hf : ReadsFloats num floatText) {n : ℕ}
    {s : PyStr} (hs : w.text floatText mesh n = some s) : w.Reads num n s := by
  obtain ⟨⟨x,v⟩,hy,ht⟩ := Option.bind_eq_some_iff.mp hs
  obtain ⟨hx,hpay,htag⟩ := hv.fair _ (List.mem_of_getElem? hy)
  obtain ⟨u,hu⟩ := encodeText_payload floatText hpay htag
  simp only [hu,Except.toOption,Option.map_some,Option.some.injEq] at ht
  subst ht
  exact ⟨x,v,hy,eventText_event hf mesh hx hpay htag hu⟩

def aNotice : Notice := ⟨.ofCodes [97],.ofCodes [98],.ofCodes [99],1,2,.ofCodes [100],.clear⟩

theorem aNotice_fair : aNotice.Fair bitsNumbers := by
  refine ⟨by decide,?_,?_⟩
  · exact bitsNumbers.fits_int64 (by decide)
  · exact bitsNumbers.fits_int64 (by decide)

theorem writable_fits {i : ℤ} (hi : (Json.int i).Fits bitsNumbers) : Writable (.int i) where
  fits := hi
  apart t ht := by cases ht

/-- A mesh that writes every event anew, with spaces. -/
def retelling : EventMesh bitsNumbers where
  event x s := (loadsText bitsNumbers s).elim [] fun j =>
    dumpsText bitsText false (.obj (x.members j))
  carries x s j hx hs hj hl := by
    have hkeys : ∀ t ∈ [realmKey,payloadKey,sealedKey], t.scalar = true := by decide
    have hone : Writable (.int 1) := writable_int (by decide)
    have hpay : Writable (x.payload j) := by
      unfold Notice.payload
      split
      · exact ⟨trivial,fun t ht => by cases ht⟩
      · exact writable_payload hs hj hl
    simp only [List.forall_mem_cons,List.not_mem_nil,false_implies,implies_true,and_true] at hkeys
    obtain ⟨ht,hseq,hat⟩ := hx
    rw [hl,Option.elim_some]
    refine (writable_members ?_).read_back
    cases hx : x.sealing <;>
      simp only [Notice.texts,hx,List.cons_append,List.nil_append,List.forall_mem_cons,
        List.not_mem_nil,false_implies,implies_true,and_true] at ht <;>
      simp [Notice.members,Notice.sealMembers,hx,hkeys,ht,hpay,hone,writable_str,
        PyStr.scalar_ofString,writable_fits hseq,writable_fits hat]

/-- The contract of a run that publishes ints with this notice. -/
def admits (w : Feed Unit) : FeedAction Unit → Bool
  | .publish x (.int i) => x = aNotice && (int64Min ≤ i && i ≤ int64Max)
  | .publish _ _ => false
  | .hands _ n => n ∉ w.handed
  | .iteration a => Iteration.alone a && !a.isRelease

theorem contract_of_admits {w : Feed Unit} {a : FeedAction Unit} (ha : w.admits a = true) :
    w.contract bitsNumbers a ∧ alone a ∧ unreleased a := by
  unfold admits at ha
  split at ha
  · simp only [Bool.and_eq_true,decide_eq_true_eq] at ha
    obtain ⟨rfl,hi⟩ := ha
    exact ⟨⟨aNotice_fair,hi,trivial⟩,trivial,trivial⟩
  · cases ha
  · have hn := of_decide_eq_true ha
    exact ⟨hn,trivial,trivial⟩
  · simp only [Bool.and_eq_true,Bool.not_eq_true'] at ha
    exact ⟨trivial,ha⟩

def untilCall (i : ℕ) : List (FeedAction Unit) :=
  [.newToken i,.work,.work,.work].map fun a => .iteration (.object (.thread (i,.blocking false) a))

def afterCall (i : ℕ) : List (FeedAction Unit) :=
  ([.work,.work,.work].map fun a => .iteration (.object (.thread (i,.blocking false) a))) ++
    List.replicate 5 (.iteration (.object .run))

def oneEvent : List (FeedAction Unit) :=
  [.publish aNotice (.int 7),.iteration .asks] ++ untilCall 0 ++ .hands 0 0 :: afterCall 0

/-- The later of two events is handed over first, and the other is on its way. -/
def laterFirst : List (FeedAction Unit) :=
  [.publish aNotice (.int 7),.publish aNotice (.int 8),.iteration .asks] ++ untilCall 0 ++
    .hands 0 1 :: afterCall 0 ++ .iteration .asks :: untilCall 1 ++ [.hands 1 0]

end Feed
end MaculaPy.Peers
