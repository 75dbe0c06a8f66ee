import MaculaPy.Objects.Object

/-! # Who answers for the handle

The object does until a release takes the handle, that release until it has called the native
side, and nobody after. Every step of an object leaves this as it is or takes it one stage on.
-/
namespace MaculaPy.Objects
open Wire Abi Blocking

/-- The stages of a handle; one that is being released is owed by the operation of that number. -/
inductive Life
  | live
  | closing (i : ℕ)
  | released
  deriving DecidableEq, Repr

inductive Life.Next : Life → Life → Prop
  | stay (p : Life) : Next p p
  | take (i : ℕ) : Next .live (.closing i)
  | pass (i : ℕ) : Next (.closing i) .released

def Life.handle (h : Handle) : Life → Option Handle
  | .live => some h
  | _ => none

def Life.handles (h : Handle) : Life → List Handle
  | .released => [h]
  | _ => []

theorem Life.Next.not_live {p q : Life} (hn : Life.Next p q) (hp : p ≠ .live) : q ≠ .live := by
  cases hn with
  | stay => exact hp
  | take i => exact absurd rfl hp
  | pass i => simp

theorem Life.handle_eq_none {h : Handle} {p : Life} : p.handle h = none ↔ p ≠ .live := by
  cases p <;> simp [Life.handle]

namespace Object
variable {V E : Type*} {k : Kind} {h : Handle} {p q : Life} {s t : Object V E}

/-- The state shows the stage the handle is in. -/
structure Account (k : Kind) (h : Handle) (p : Life) (s : Object V E) : Prop where
  handle : s.handle = p.handle h
  due : ∀ i e, s.due i = some e → e.1 = k.release → p = .closing i
  owed : ∀ i, p = .closing i → s.due i = some (k.release,h)
  released : s.released k = p.handles h

/-- The operation will make the call that is owed under its number. -/
inductive Owes (s : Object V E) (i : ℕ) : Prop
  | here (ho : isHere (s.outset i) = true)
  | thread {c : Call V E} (ho : s.outset i = some (.calls .native []))
    (hc : s.loop.calls (i,.native) = some c) (hw : c.worker = .spawned)

structure ObjectValid (k : Kind) (h : Handle) (p : Life) (s : Object V E) : Prop
    extends Account k h p s where
  finalizer : k = .nodeKey → s.finalizer = s.handle
  unused : ∀ i, s.next ≤ i → s.outset i = none ∧ s.due i = none
  entered : ∀ x ∈ s.log, x.1 < s.next
  freeing : ∀ i, s.outset i = some .free →
    k = .stream ∧ ∃ c, s.loop.calls (i,.native) = some c ∧
      (c.worker = .spawned ∨ s.handle = none)
  owes : ∀ i, p = .closing i → s.Owes i

theorem init_objectValid (k : Kind) (h : Handle) :
    ObjectValid k h .live (init k h : Object V E) where
  handle := rfl
  due _ _ hd := by simp [init] at hd
  owed _ hp := by cases hp
  released := rfl
  finalizer hk := by simp [init,hk]
  unused _ _ := ⟨rfl,rfl⟩
  entered _ hx := by simp [init] at hx
  freeing _ ho := by simp [init] at ho
  owes _ hp := by cases hp

theorem ObjectValid.owner_eq (hv : ObjectValid k h p s) : s.owner k = s.handle := by
  cases k with
  | nodeKey => exact hv.finalizer rfl
  | _ => rfl

/-- An object that has a handle has its own, and nothing of it is owed. -/
theorem Account.live_of_handle (ha : Account k h p s) {g : Handle} (hg : s.handle = some g) :
    p = .live ∧ g = h := by
  have hp := ha.handle.symm.trans hg
  cases p <;> simp_all [Life.handle]

theorem Account.of_eq (ha : Account k h p s) (hh : t.handle = s.handle) (hd : t.due = s.due)
    (hg : t.log = s.log) : Account k h p t where
  handle := hh.trans ha.handle
  due i e hi he := ha.due i e (hd ▸ hi) he
  owed i hp := hd ▸ ha.owed i hp
  released := by
    have hr : t.released k = s.released k := by rw [Object.released,Object.released,hg]
    exact hr.trans ha.released

/-- A call that is no release is owed. -/
theorem Account.owe (ha : Account k h p s) {i : ℕ} {e : Native × Handle} (he : e.1 ≠ k.release)
    (hi : s.due i = none) : Account k h p (s.owe i e) where
  handle := ha.handle
  due j e' hj he' := by
    by_cases hji : j = i
    · subst hji
      simp only [Object.owe,Function.update_self,Option.some.injEq] at hj
      exact absurd (hj ▸ he') he
    · simp only [Object.owe,Function.update_of_ne hji] at hj
      exact ha.due j e' hj he'
  owed j hp := by
    have hji : j ≠ i := by
      rintro rfl
      simp [ha.owed j hp] at hi
    simp only [Object.owe,Function.update_of_ne hji]
    exact ha.owed j hp
  released := ha.released

/-- A release takes the handle, and owes it. -/
theorem Account.take (ha : Account k h p s) (hh : s.handle = some h) (i : ℕ) :
    Account k h (.closing i) ((s.owe i (k.release,h)).clear) where
  handle := rfl
  due j e hj he := by
    by_cases hji : j = i
    · rw [hji]
    · simp only [clear,Object.owe,Function.update_of_ne hji] at hj
      have hp := ha.due j e hj he
      rw [(ha.live_of_handle hh).1] at hp
      cases hp
  owed j hp := by
    cases hp
    simp [clear,Object.owe]
  released := by
    have hr := ha.released
    rwa [(ha.live_of_handle hh).1] at hr

theorem released_pass (s : Object V E) (i : ℕ) (e : Native × Handle) :
    (s.pass i e).released k = if e.1 = k.release then e.2 :: s.released k else s.released k := by
  by_cases he : e.1 = k.release <;> simp [released,pass,he]

/-- What was owed is called. -/
theorem Account.pass (ha : Account k h p s) {i : ℕ} {e : Native × Handle}
    (hd : s.due i = some e) : ∃ q, Life.Next p q ∧ Account k h q (s.pass i e) ∧
      ∀ j, q = .closing j → p = .closing j ∧ j ≠ i := by
  have hother : ∀ j e', (s.pass i e).due j = some e' → j ≠ i ∧ s.due j = some e' := by
    intro j e' hj
    by_cases hji : j = i
    · simp [Object.pass,hji] at hj
    · simp only [Object.pass,Function.update_of_ne hji] at hj
      exact ⟨hji,hj⟩
  by_cases he : e.1 = k.release
  · have hp := ha.due i e hd he
    subst hp
    have hi : e = (k.release,h) := Option.some.inj (hd.symm.trans (ha.owed i rfl))
    refine ⟨.released,.pass i,⟨ha.handle,?_,?_,?_⟩,fun j hj => nomatch hj⟩
    · intro j e' hj he'
      obtain ⟨hji,hj⟩ := hother j e' hj
      exact absurd (Life.closing.inj (ha.due j e' hj he')).symm hji
    · intro j hj
      cases hj
    · rw [released_pass,if_pos he,ha.released,hi]
      rfl
  · have hne : ∀ j, p = .closing j → j ≠ i := by
      rintro j hp rfl
      exact he (by rw [Option.some.inj (hd.symm.trans (ha.owed j hp))])
    refine ⟨p,.stay p,⟨ha.handle,?_,?_,?_⟩,fun j hj => ⟨hj,hne j hj⟩⟩
    · intro j e' hj he'
      exact ha.due j e' (hother j e' hj).2 he'
    · intro j hp
      simp only [Object.pass,Function.update_of_ne (hne j hp)]
      exact ha.owed j hp
    · rw [released_pass,if_neg he,ha.released]

/-- The start of a call touches no other. -/
theorem start_calls {x : ℕ × Route} {l l' : Loop (ℕ × Route) Empty V E}
    (hl : Loop.step Prod.snd l (.start x) = some l') :
    l'.calls x = some Blocking.start ∧ ∀ y, y ≠ x → l'.calls y = l.calls y := by
  cases Loop.step_move hl with
  | start _ _ => exact ⟨by simp,fun y hy => by simp [hy]⟩

/-- What is called under a number that was not used before. -/
theorem ObjectValid.enlist (hv : ObjectValid k h p s) {o : Outset} (hacc : Account k h q t)
    (hq : q = p ∨ (q = .closing s.next ∧ t.Owes s.next))
    (hout : t.outset = Function.update s.outset s.next (some o)) (hn : t.next = s.next + 1)
    (hg : t.log = s.log) (hd : ∀ i, i ≠ s.next → t.due i = s.due i)
    (hl : ∀ i r, i ≠ s.next → t.loop.calls (i,r) = s.loop.calls (i,r))
    (hh : s.handle = none → t.handle = none) (hf : k = .nodeKey → t.finalizer = t.handle)
    (hfree : o = .free → k = .stream ∧ t.loop.calls (s.next,.native) = some Blocking.start) :
    ObjectValid k h q t := by
  have hold : ∀ i, i ≠ s.next → t.outset i = s.outset i := by
    intro i hi
    rw [hout,Function.update_of_ne hi]
  refine ⟨hacc,hf,?_,?_,?_,?_⟩
  · intro i hi
    have hne : i ≠ s.next := by omega
    rw [hold i hne,hd i hne]
    exact hv.unused i (by omega)
  · intro x hx
    have hlt := hv.entered x (hg ▸ hx)
    omega
  · intro i hi
    by_cases hne : i = s.next
    · subst hne
      rw [hout,Function.update_self] at hi
      obtain ⟨hk,hc⟩ := hfree (Option.some.inj hi)
      exact ⟨hk,_,hc,Or.inl rfl⟩
    · rw [hold i hne] at hi
      obtain ⟨hk,c,hc,hw⟩ := hv.freeing i hi
      exact ⟨hk,c,(hl i _ hne).trans hc,hw.imp_right hh⟩
  · intro i hi
    rcases hq with rfl | ⟨rfl,ho⟩
    · have hne : i ≠ s.next := by
        rintro rfl
        have := hv.owed _ hi
        simp [(hv.unused _ le_rfl).2] at this
      cases hv.owes i hi with
      | here ho => exact .here (by rwa [hold i hne])
      | thread ho hc hw => exact .thread (by rwa [hold i hne]) ((hl i _ hne).trans hc) hw
    · cases hi
      exact ho

/-- A step of the loop, with what a thread that makes its call does besides. -/
theorem ObjectValid.loop_step (hv : ObjectValid k h p s) {a : LoopAction (ℕ × Route) Empty V E}
    {l : Loop (ℕ × Route) Empty V E} (he : Loop.step Prod.snd s.loop a = some l)
    (ha : ∀ x, a ≠ .start x) (hacc : Account k h q t) (hq : ∀ i, q = .closing i → t.Owes i)
    (hloop : t.loop = l) (hout : t.outset = s.outset) (hn : t.next = s.next)
    (hg : ∀ x ∈ t.log, x.1 < s.next) (hd : ∀ i, s.next ≤ i → t.due i = none)
    (hh : s.handle = none → t.handle = none) (hf : k = .nodeKey → t.finalizer = t.handle)
    (hfree : ∀ i b c, a = .thread (i,.native) b → s.outset i = some .free →
      l.calls (i,.native) = some c → c.worker = .spawned ∨ t.handle = none) :
    ObjectValid k h q t := by
  refine ⟨hacc,hf,?_,?_,?_,hq⟩
  · intro i hi
    rw [hout]
    exact ⟨(hv.unused i (hn ▸ hi)).1,hd i (hn ▸ hi)⟩
  · rw [hn]
    exact hg
  · intro i hi
    rw [hout] at hi
    obtain ⟨hk,c,hc,hw⟩ := hv.freeing i hi
    obtain ⟨d,hd,hwd⟩ := Loop.step_worker_of he hc ha
    refine ⟨hk,d,hloop ▸ hd,?_⟩
    rcases hwd with hwd | ⟨b,hb⟩
    · exact hw.imp hwd.trans hh
    · exact hfree i b d hb hi hd

/-- Only the thread that owes a release can take it from where it is. -/
theorem Owes.loop_step {i : ℕ} (ho : s.Owes i) {a : LoopAction (ℕ × Route) Empty V E}
    {l : Loop (ℕ × Route) Empty V E} (he : Loop.step Prod.snd s.loop a = some l)
    (ha : ∀ x, a ≠ .start x) : Owes {s with loop := l} i ∨
      (a = .thread (i,.native) .work ∧ s.outset i = some (.calls .native [])) := by
  cases ho with
  | here ho => exact Or.inl (.here ho)
  | @thread c ho hc hw =>
    obtain ⟨d,hd,hwd⟩ := Loop.step_worker_of he hc ha
    rcases hwd with hwd | ⟨b,rfl⟩
    · exact Or.inl (.thread (s := {s with loop := l}) ho hd (hwd.trans hw))
    · by_cases hb : b = .work
      · exact Or.inr ⟨by rw [hb],ho⟩
      · refine Or.inl (.thread (s := {s with loop := l}) ho hd ?_)
        cases Loop.step_move he with
        | thread _ hc' ht =>
          obtain rfl := Option.some.inj (hc.symm.trans hc')
          rw [Loop.after_calls_self] at hd
          cases hd
          exact threadStep_spawned hw hb ht

variable {floatText : Binary64 → Numeral}

/-- A body that gets to its call had the handle, and passes it to another function than the
release. -/
theorem body_live {m : Method k} {o : Option Handle} {v : Invocation}
    (hb : m.body floatText o = .ok v) : o = some v.handle ∧ v.native ≠ k.release := by
  cases o with
  | none =>
    rcases m.body_guarded floatText with hg | ⟨e,hg⟩
    · simp [hg] at hb
    · simp [hg none] at hb
  | some g =>
    obtain ⟨rfl,hn⟩ := m.body_passes floatText g v hb
    exact ⟨rfl,hn⟩

/-- The thread of `i` has nothing to take, and owes no release. -/
def Begun (q : Life) (s : Object V E) (i : ℕ) : Prop :=
  (q = .closing i → isHere (s.outset i) = true) ∧ (s.outset i = some .free → s.handle = none)

/-- The loop moves on, and the object does not. -/
theorem ObjectValid.of_loop (hv : ObjectValid k h p s) {a : LoopAction (ℕ × Route) Empty V E}
    {l : Loop (ℕ × Route) Empty V E} (he : Loop.step Prod.snd s.loop a = some l)
    (ha : ∀ x, a ≠ .start x)
    (hw : ∀ i, a = .thread (i,.native) .work → ∀ c, s.loop.calls (i,.native) = some c →
      c.worker = .spawned → Begun p s i) : ObjectValid k h p {s with loop := l} := by
  refine hv.loop_step he ha (hv.toAccount.of_eq rfl rfl rfl) (fun i hi => ?_) rfl rfl rfl
    hv.entered (fun i hi => (hv.unused i hi).2) id hv.finalizer (fun i b d hb hi hd => ?_)
  · rcases (hv.owes i hi).loop_step he ha with ho | ⟨hb,ho⟩
    · exact ho
    · cases hv.owes i hi with
      | here ho' => exact .here ho'
      | thread _ hc hs => exact .here ((hw i hb _ hc hs).1 hi)
  · obtain ⟨_,c,hc,hwc⟩ := hv.freeing i hi
    rcases hwc with hs | hh
    · subst hb
      by_cases hb : b = .work
      · exact Or.inr ((hw i (by rw [hb]) c hc hs).2 hi)
      · apply Or.inl
        cases Loop.step_move he with
        | thread _ hc' ht =>
          obtain rfl := Option.some.inj (hc.symm.trans hc')
          rw [Loop.after_calls_self] at hd
          cases hd
          exact threadStep_spawned hs hb ht
    · exact Or.inr hh

theorem ObjectValid.lt_of_outset (hv : ObjectValid k h p s) {i : ℕ} {o : Outset}
    (ho : s.outset i = some o) : i < s.next := by
  by_contra hge
  simp [(hv.unused i (by omega)).1] at ho

/-- What is no longer owed is passed on, or was no release. -/
theorem ObjectValid.pass (hv : ObjectValid k h p s) {i : ℕ} {e : Native × Handle}
    (hd : s.due i = some e) : ∃ q, Life.Next p q ∧ ObjectValid k h q (s.pass i e) := by
  obtain ⟨q,hn,ha,hq⟩ := hv.toAccount.pass hd
  have hlt : i < s.next := by
    by_contra hge
    simp [(hv.unused i (by omega)).2] at hd
  refine ⟨q,hn,ha,hv.finalizer,fun j hj => ?_,?_,hv.freeing,fun j hj => ?_⟩
  · have hji : j ≠ i := by
      have : s.next ≤ j := hj
      omega
    simp only [Object.pass,Function.update_of_ne hji]
    exact hv.unused j hj
  · exact List.forall_mem_cons.mpr ⟨hlt,hv.entered⟩
  · cases hv.owes j (hq j hj).1 with
    | here ho => exact .here ho
    | thread ho hc hw => exact .thread ho hc hw

theorem ObjectValid.drop (hv : ObjectValid k h p s) {i : ℕ} {r : Route} {texts : List PyStr}
    (ho : s.outset i = some (.calls r texts)) (ht : encodes texts = false) :
    ObjectValid k h p {s with due := Function.update s.due i none} := by
  -- a release has no text to encode, so it is none that is dropped
  have hne : ∀ j, p = .closing j → j ≠ i := by
    rintro j hj rfl
    cases hv.owes j hj with
    | here hx => simp [ho,isHere] at hx
    | thread hx _ _ =>
      obtain ⟨_,rfl⟩ := Outset.calls.inj (Option.some.inj (ho.symm.trans hx))
      cases ht
  refine ⟨⟨hv.handle,fun j e hj he => ?_,fun j hj => ?_,hv.released⟩,hv.finalizer,fun j hj => ?_,
    hv.entered,hv.freeing,fun j hj => ?_⟩
  · by_cases hji : j = i
    · simp [hji] at hj
    · simp only [Function.update_of_ne hji] at hj
      exact hv.due j e hj he
  · simp only [Function.update_of_ne (hne j hj)]
    exact hv.owed j hj
  · have hji : j ≠ i := by
      have hlt := hv.lt_of_outset ho
      have : s.next ≤ j := hj
      omega
    simp only [Function.update_of_ne hji]
    exact hv.unused j hj
  · cases hv.owes j hj with
    | here ho => exact .here ho
    | thread ho hc hw => exact .thread ho hc hw

/-- A run of `free` takes the handle on its thread. -/
theorem ObjectValid.takes (hv : ObjectValid k h p s) {i : ℕ} {g : Handle}
    (ho : s.outset i = some .free) (hg : s.handle = some g) : ∃ q, Life.Next p q ∧
      ObjectValid k h q (s.clear.owe i (Kind.release .stream,g)) := by
  obtain ⟨rfl,rfl⟩ := hv.toAccount.live_of_handle hg
  obtain ⟨rfl,_⟩ := hv.freeing i ho
  refine ⟨.closing i,.take i,(hv.toAccount.take hg i).of_eq rfl rfl rfl,by simp,
    fun j hj => ?_,hv.entered,fun j hj => ?_,fun j hj => ?_⟩
  · have hji : j ≠ i := by
      have hlt := hv.lt_of_outset ho
      have : s.next ≤ j := hj
      omega
    simp only [clear,owe,Function.update_of_ne hji]
    exact hv.unused j hj
  · obtain ⟨_,c,hc,_⟩ := hv.freeing j hj
    exact ⟨rfl,c,hc,Or.inr rfl⟩
  · cases hj
    have hx : (s.clear.owe i (Kind.release .stream,g)).outset i = some .free := ho
    exact .here (by rw [hx]; rfl)

theorem ObjectValid.enters (hv : ObjectValid k h p s) {i : ℕ} (he : Enters s i t) :
    ∃ q, Life.Next p q ∧ ObjectValid k h q t ∧ t.Begun q i := by
  cases he with
  | @passes r texts e ho hd _ =>
    obtain ⟨q,hn,hq⟩ := hv.pass hd
    refine ⟨q,hn,hq,fun hi => ?_,fun hf => ?_⟩
    · have := hq.owed i hi
      simp [Object.pass] at this
    · have : s.outset i = some .free := hf
      simp [ho] at this
  | @drops r texts ho ht =>
    have hq := hv.drop ho ht
    refine ⟨p,.stay p,hq,fun hi => ?_,fun hf => ?_⟩
    · have := hq.owed i hi
      simp at this
    · have : s.outset i = some .free := hf
      simp [ho] at this
  | @takes g ho hg =>
    obtain ⟨q,hn,hq⟩ := hv.takes ho hg
    refine ⟨q,hn,hq,fun _ => ?_,fun _ => rfl⟩
    have hx : (s.clear.owe i (Kind.release .stream,g)).outset i = some .free := ho
    rw [hx]
    rfl
  | idle hc hf =>
    refine ⟨p,.stay p,hv,fun hi => ?_,hf⟩
    cases hv.owes i hi with
    | here ho => exact ho
    | thread ho _ _ =>
      have := hv.owed i hi
      simp [hc _ _ ho] at this

theorem enter_loop (s : Object V E) (i : ℕ) : (s.enter i).loop = s.loop := by
  unfold enter take
  repeat' split
  all_goals rfl

theorem enlist_outset (s : Object V E) (o : Outset) : (s.enlist o).outset s.next = some o := by
  simp [enlist]

/-- Every step takes the handle at most one stage on. -/
theorem step_objectValid {a : ObjectAction k V E} (hv : ObjectValid k h p s)
    (he : s.step k floatText a = some t) : ∃ q, Life.Next p q ∧ ObjectValid k h q t := by
  have hnew : s.due s.next = none := (hv.unused s.next le_rfl).2
  have hne : ∀ {i}, i ≠ s.next → ∀ e, (s.owe s.next e).due i = s.due i := by
    intro i hi e
    simp [owe,hi]
  cases step_move he with
  | refused hb =>
    exact ⟨p,.stay p,hv.enlist (hv.toAccount.of_eq rfl rfl rfl) (Or.inl rfl) rfl rfl rfl
      (fun _ _ => rfl) (fun _ _ _ => rfl) id hv.finalizer (fun ho => nomatch ho)⟩
  | here hb =>
    have hn := (body_live hb).2
    exact ⟨p,.stay p,hv.enlist ((hv.toAccount.owe hn hnew).of_eq rfl rfl rfl) (Or.inl rfl) rfl rfl
      rfl (fun i hi => hne hi _) (fun _ _ _ => rfl) id hv.finalizer (fun ho => nomatch ho)⟩
  | calls hb hl =>
    have hn := (body_live hb).2
    exact ⟨p,.stay p,hv.enlist ((hv.toAccount.owe hn hnew).of_eq rfl rfl rfl) (Or.inl rfl) rfl rfl
      rfl (fun i hi => hne hi _) (fun i r hi => (start_calls hl).2 _ (by simp [hi])) id
      hv.finalizer (fun ho => nomatch ho)⟩
  | returned ha hh =>
    have hs : s.handle = none := hv.owner_eq.symm.trans hh
    exact ⟨p,.stay p,hv.enlist (hv.toAccount.of_eq hs.symm rfl rfl) (Or.inl rfl) rfl rfl rfl
      (fun _ _ => rfl) (fun _ _ _ => rfl) (fun _ => rfl) (fun hk => (hv.finalizer hk).trans hs)
      (fun ho => nomatch ho)⟩
  | takes ha hh hf =>
    have hs := hv.owner_eq.symm.trans hh
    obtain ⟨rfl,rfl⟩ := hv.toAccount.live_of_handle hs
    exact ⟨.closing s.next,.take s.next,hv.enlist
      ((hv.toAccount.take hs s.next).of_eq rfl rfl rfl)
      (Or.inr ⟨rfl,.here (congrArg isHere (enlist_outset (s.owe s.next _) .here))⟩) rfl rfl rfl
      (fun i hi => hne hi _)
      (fun _ _ _ => rfl) (fun _ => rfl) hf (fun ho => nomatch ho)⟩
  | swaps ha hk hh hl =>
    obtain ⟨rfl,rfl⟩ := hv.toAccount.live_of_handle hh
    exact ⟨.closing s.next,.take s.next,hv.enlist
      ((hv.toAccount.take hh s.next).of_eq rfl rfl rfl)
      (Or.inr ⟨rfl,.thread (enlist_outset (s.owe s.next _) _) (start_calls hl).1 rfl⟩) rfl rfl rfl
      (fun i hi => hne hi _) (fun i r hi => (start_calls hl).2 _ (by simp [hi])) (fun _ => rfl)
      (fun hk' => absurd hk' hk) (fun ho => nomatch ho)⟩
  | exits hk hl =>
    exact ⟨p,.stay p,hv.enlist (hv.toAccount.of_eq rfl rfl rfl) (Or.inl rfl) rfl rfl rfl
      (fun _ _ => rfl) (fun i r hi => (start_calls hl).2 _ (by simp [hi])) id hv.finalizer
      (fun _ => ⟨hk,(start_calls hl).1⟩)⟩
  | enters ho hd => exact hv.pass hd
  | @begins x c l hc hw hl =>
    obtain ⟨q,hn,hq,hbegun⟩ := hv.enters (enter_enters s x.1)
    refine ⟨q,hn,hq.of_loop (enter_loop s x.1 ▸ hl) (by simp) (fun i hi _ _ _ => ?_)⟩
    cases hi
    exact hbegun
  | @thread x a c l hc ha hw hl =>
    refine ⟨p,.stay p,hv.of_loop hl (by simp) (fun i hi d hd hs => ?_)⟩
    cases hi
    obtain rfl := Option.some.inj (hc.symm.trans hd)
    simp [hs,atCall] at hw
  | cancelTask hl => exact ⟨p,.stay p,hv.of_loop hl (by simp) (by simp)⟩
  | run hl => exact ⟨p,.stay p,hv.of_loop hl (by simp) (by simp)⟩
  | endStep hl => exact ⟨p,.stay p,hv.of_loop hl (by simp) (by simp)⟩

theorem reachable_objectValid {ok : Object V E → ObjectAction k V E → Prop}
    (hs : Runs.Reachable (step k floatText) ok (init k h) s) : ∃ p, ObjectValid k h p s :=
  hs.induct (P := fun s => ∃ p, ObjectValid k h p s) ⟨.live,init_objectValid k h⟩
    (fun _ _ _ _ ⟨_,hv⟩ _ he => (step_objectValid hv he).imp (fun _ hq => hq.2))

end Object
end MaculaPy.Objects
