import MaculaPy.Objects.Custody

/-! # Closed means closed

Once the handle of an object is cleared, each of its operations raises without a native call, and
a release returns without one. The release function of the handle is called at most once, and once
exactly when a release was called and nothing is left to run.
-/
namespace MaculaPy.Objects
open Wire Abi Blocking History

namespace Object
variable {V E : Type*} {k : Kind} {h : Handle} {p : Life} {floatText : Binary64 → Numeral}
  {s t u w : Object V E}

/-- The step of the loop in a step of the object, which starts a call under a new number or lets a
thread do what is admitted. -/
def Allowed (s t : Object V E) (a : ObjectAction k V E) : LoopAction (ℕ × Route) Empty V E → Prop
  | .start x => x.1 = s.next ∧ t.next = s.next + 1
  | .thread x b => a = .thread x b ∧ s.admits x.1 b = true
  | _ => True

theorem enter_next (s : Object V E) (i : ℕ) : (s.enter i).next = s.next := by
  unfold enter take
  repeat' split
  all_goals rfl

theorem step_loop {a : ObjectAction k V E} (he : s.step k floatText a = some t) :
    s.next ≤ t.next ∧ (t.loop = s.loop ∨
      ∃ b, Loop.step Prod.snd s.loop b = some t.loop ∧ Allowed s t a b) := by
  cases step_move he with
  | refused _ => exact ⟨Nat.le_succ _,Or.inl rfl⟩
  | here _ => exact ⟨Nat.le_succ _,Or.inl rfl⟩
  | calls _ hl => exact ⟨Nat.le_succ _,Or.inr ⟨_,hl,rfl,rfl⟩⟩
  | returned _ _ => exact ⟨Nat.le_succ _,Or.inl rfl⟩
  | takes _ _ _ => exact ⟨Nat.le_succ _,Or.inl rfl⟩
  | swaps _ _ _ hl => exact ⟨Nat.le_succ _,Or.inr ⟨_,hl,rfl,rfl⟩⟩
  | exits _ hl => exact ⟨Nat.le_succ _,Or.inr ⟨_,hl,rfl,rfl⟩⟩
  | enters _ _ => exact ⟨le_rfl,Or.inl rfl⟩
  | begins _ _ hl => exact ⟨(enter_next s _).ge,Or.inr ⟨_,hl,rfl,rfl⟩⟩
  | thread _ ha _ hl => exact ⟨le_rfl,Or.inr ⟨_,hl,rfl,ha⟩⟩
  | cancelTask hl => exact ⟨le_rfl,Or.inr ⟨_,hl,trivial⟩⟩
  | run hl => exact ⟨le_rfl,Or.inr ⟨_,hl,trivial⟩⟩
  | endStep hl => exact ⟨le_rfl,Or.inr ⟨_,hl,trivial⟩⟩

/-- What the native call of a thread returned was admitted. -/
theorem step_returned {a : ObjectAction k V E}
    (hs : Runs.Reachable (Loop.step Prod.snd) Runs.free Loop.init s.loop)
    (he : s.step k floatText a = some t) {x : ℕ × Route} {o : Except (Raised E) V}
    (hm : .returned o ∈ view x t.loop.trace) : .returned o ∈ view x s.loop.trace ∨
      (a = .thread x (.callReturns o) ∧ s.admits x.1 (.callReturns o) = true) := by
  rcases (step_loop he).2 with hx | ⟨b,hb,ha⟩
  · exact Or.inl (hx ▸ hm)
  · refine (Loop.step_returned hs hb hm).imp_right (fun hx => ?_)
    subst hx
    exact ha

theorem enter_outset (s : Object V E) (i : ℕ) : (s.enter i).outset = s.outset := by
  unfold enter take
  repeat' split
  all_goals rfl

theorem enlist_outset_of_ne (s : Object V E) (o : Outset) {i : ℕ} (hi : i ≠ s.next) :
    (s.enlist o).outset i = s.outset i := by simp [enlist,hi]

/-- An operation stays as it left its caller. -/
theorem step_outset {a : ObjectAction k V E} (he : s.step k floatText a = some t) {i : ℕ}
    (hi : i ≠ s.next) : t.outset i = s.outset i := by
  cases step_move he with
  | refused _ => exact enlist_outset_of_ne s _ hi
  | here _ => exact enlist_outset_of_ne (s.owe s.next _) _ hi
  | calls _ _ => exact enlist_outset_of_ne (s.owe s.next _) _ hi
  | returned _ _ => exact enlist_outset_of_ne s _ hi
  | takes _ _ _ => exact enlist_outset_of_ne (s.owe s.next _) _ hi
  | swaps _ _ _ _ => exact enlist_outset_of_ne (s.owe s.next _) _ hi
  | exits _ _ => exact enlist_outset_of_ne s _ hi
  | begins _ _ _ => exact congrFun (enter_outset s _) i
  | _ => rfl

/-- A cleared handle stays cleared. -/
theorem step_handle {a : ObjectAction k V E} (hv : ObjectValid k h p s)
    (he : s.step k floatText a = some t) (hh : s.handle = none) : t.handle = none := by
  obtain ⟨q,hn,hq⟩ := step_objectValid hv he
  have hp : p ≠ .live := Life.handle_eq_none.mp (hv.handle.symm.trans hh)
  exact hq.handle.trans (Life.handle_eq_none.mpr (hn.not_live hp))

/-- The operation of that number has invoked no native function. -/
def Unentered (s : Object V E) (i : ℕ) : Prop := ∀ x ∈ s.log, x.1 ≠ i

/-- An operation that owes no call, on an object without a handle. -/
structure Silent (s : Object V E) (i : ℕ) : Prop where
  handle : s.handle = none
  outset : i < s.next
  due : s.due i = none
  log : s.Unentered i

theorem Silent.of_eq {i : ℕ} (hs : s.Silent i) (hh : t.handle = none) (hn : s.next ≤ t.next)
    (hd : t.due i = s.due i) (hg : t.log = s.log) : t.Silent i :=
  ⟨hh,hs.outset.trans_le hn,hd.trans hs.due,by rw [Unentered,hg]; exact hs.log⟩

theorem Silent.owe {i : ℕ} (hs : s.Silent i) (e : Native × Handle) :
    (s.owe s.next e).due i = s.due i := by
  simp [Object.owe,hs.outset.ne]

theorem Silent.pass {i j : ℕ} {e : Native × Handle} (hs : s.Silent i) (hd : s.due j = some e) :
    (s.pass j e).Silent i := by
  have hne : i ≠ j := by
    rintro rfl
    simp [hs.due] at hd
  refine ⟨hs.handle,hs.outset,?_,List.forall_mem_cons.mpr ⟨hne.symm,hs.log⟩⟩
  simp only [Object.pass,Function.update_of_ne hne]
  exact hs.due

theorem Silent.enters {i j : ℕ} (hs : s.Silent i) (he : Enters s j t) : t.Silent i := by
  cases he with
  | passes _ hd _ => exact hs.pass hd
  | drops _ _ =>
    refine ⟨hs.handle,hs.outset,?_,hs.log⟩
    by_cases hij : i = j
    · simp [hij]
    · simpa only [Function.update_of_ne hij] using hs.due
  | takes _ hg => simp [hs.handle] at hg
  | idle _ _ => exact hs

/-- No step makes a call for an operation that owes none. -/
theorem step_silent {a : ObjectAction k V E} {i : ℕ} (hv : ObjectValid k h p s)
    (hs : s.Silent i) (he : s.step k floatText a = some t) : t.Silent i := by
  have hh := step_handle hv he hs.handle
  cases step_move he with
  | refused _ => exact hs.of_eq hh (Nat.le_succ _) rfl rfl
  | here _ => exact hs.of_eq hh (Nat.le_succ _) (hs.owe _) rfl
  | calls _ _ => exact hs.of_eq hh (Nat.le_succ _) (hs.owe _) rfl
  | returned _ _ => exact hs.of_eq hh (Nat.le_succ _) rfl rfl
  | takes _ _ _ => exact hs.of_eq hh (Nat.le_succ _) (hs.owe _) rfl
  | swaps _ _ _ _ => exact hs.of_eq hh (Nat.le_succ _) (hs.owe _) rfl
  | exits _ _ => exact hs.of_eq hh (Nat.le_succ _) rfl rfl
  | enters _ hd => exact hs.pass hd
  | @begins x _ _ _ _ _ =>
    have hx := hs.enters (enter_enters s x.1)
    exact hx.of_eq hh le_rfl rfl rfl
  | thread _ _ _ _ => exact hs.of_eq hh le_rfl rfl rfl
  | cancelTask _ => exact hs.of_eq hh le_rfl rfl rfl
  | run _ => exact hs.of_eq hh le_rfl rfl rfl
  | endStep _ => exact hs.of_eq hh le_rfl rfl rfl

/-- A run from a valid state stays in valid states, with what its steps preserve. -/
theorem reachable_induct {P : Object V E → Prop} (hv : ∃ p, ObjectValid k h p u) (hu : P u)
    (hstep : ∀ s a t, (∃ p, ObjectValid k h p s) → P s → s.step k floatText a = some t → P t)
    (hw : Runs.Reachable (step k floatText) Runs.free u w) :
    (∃ p, ObjectValid k h p w) ∧ P w := by
  refine hw.induct (P := fun w => (∃ p, ObjectValid k h p w) ∧ P w) ⟨hv,hu⟩ ?_
  rintro s a t _ ⟨⟨p,hp⟩,hs⟩ _ he
  exact ⟨(step_objectValid hp he).imp (fun _ hq => hq.2),hstep s a t ⟨p,hp⟩ hs he⟩

theorem reachable_silent {i : ℕ} (hv : ∃ p, ObjectValid k h p u) (hu : u.Silent i)
    (hw : Runs.Reachable (step k floatText) Runs.free u w) : w.Silent i :=
  (reachable_induct hv hu (fun _ _ _ ⟨_,hp⟩ hs he => step_silent hp hs he) hw).2

/-- The tasks of `free` on threads of their own get no exception from it. -/
structure FreeValid (s : Object V E) : Prop where
  loop : Runs.Reachable (Loop.step Prod.snd) Runs.free Loop.init s.loop
  fresh : ∀ i r, s.next ≤ i → s.loop.calls (i,r) = none
  ends : ∀ i o, s.outset i = some .free → .returned o ∈ view (i,.native) s.loop.trace →
    o.toBool = true

theorem step_freeValid {a : ObjectAction k V E} (hv : s.FreeValid)
    (he : s.step k floatText a = some t) : t.FreeValid := by
  obtain ⟨hn,hl⟩ := step_loop he
  refine ⟨?_,?_,?_⟩
  · rcases hl with hx | ⟨b,hb,_⟩
    · exact hx ▸ hv.loop
    · exact hv.loop.tail trivial hb
  · intro i r hi
    have hc := hv.fresh i r (hn.trans hi)
    rcases hl with hx | ⟨b,hb,hab⟩
    · rw [hx,hc]
    · apply Loop.step_unstarted hb hc
      rintro rfl
      obtain ⟨hx,hnext⟩ : i = s.next ∧ t.next = s.next + 1 := hab
      omega
  · intro i o ho hm
    rcases step_returned hv.loop he hm with hm' | ⟨rfl,hadm⟩
    · have hne : i ≠ s.next := by
        rintro rfl
        have hc := hv.fresh s.next .native le_rfl
        simp [((Loop.reachable_valid hv.loop).unstarted _ hc).2.1] at hm'
      exact hv.ends i o ((step_outset he hne).symm.trans ho) hm'
    · have hs : s.outset i = some .free := by
        cases step_move he with
        | thread _ _ _ _ => exact ho
        | returned ha _ => cases ha
        | takes ha _ _ => cases ha
        | swaps ha _ _ _ => cases ha
      simp only [admits,hs,Bool.and_eq_true] at hadm
      exact hadm.2

theorem reachable_freeValid {ok : Object V E → ObjectAction k V E → Prop}
    (hs : Runs.Reachable (step k floatText) ok (init k h) s) : s.FreeValid :=
  hs.induct ⟨.refl _,fun _ _ _ => rfl,fun _ _ ho => by simp [init] at ho⟩
    (fun _ _ _ _ hv _ he => step_freeValid hv he)

/-- What a release that finds no handle leaves for its caller. -/
def Returns (s : Object V E) (i : ℕ) : Prop :=
  s.outset i = some .returned ∨ (s.outset i = some .free ∧
    ∀ c e, s.loop.calls (i,.native) = some c → c.task ≠ .raised e)

theorem FreeValid.not_raised (hv : s.FreeValid) {i : ℕ} (ho : s.outset i = some .free)
    {c : Call V E} (hc : s.loop.calls (i,.native) = some c) (e : Raised E) :
    c.task ≠ .raised e := by
  intro hk
  have hr := raised_of_native (Loop.reachable_call hv.loop hc) hk
  have hm : .error e ∈ returns (s.loop.callState (i,.native) c).trace := by
    rw [hr]
    exact List.mem_singleton_self _
  cases hv.ends i (.error e) ho (mem_returns.mp hm)

theorem enlist_silent (hv : ObjectValid k h p s) (hh : s.handle = none) (o : Outset) :
    (s.enlist o).Silent s.next :=
  ⟨hh,Nat.lt_succ_self _,(hv.unused _ le_rfl).2,fun x hx => (hv.entered x hx).ne⟩

variable (floatText) in
/-- The refusal of an operation that finds no handle: the `ClosedError`, or the error that its
arguments raise with a handle too. -/
def Refuses (m : Method k) (e : Refusal) : Prop :=
  e = .closed k.closedText ∨ ∃ x, e = .own x ∧ ∀ o, m.body floatText o = .error (.own x)

/-- An operation that finds no handle raises. -/
theorem issue_without (hv : ObjectValid k h p s) (hh : s.handle = none) {m : Method k}
    (he : s.step k floatText (.issue m) = some u) :
    (∃ e, Refuses floatText m e ∧ u.outset s.next = some (.refused e)) ∧ u.Silent s.next := by
  cases step_move he with
  | @refused m e hb =>
    refine ⟨⟨e,?_,enlist_outset s _⟩,enlist_silent hv hh _⟩
    rw [hh] at hb
    rcases m.body_guarded floatText with hg | ⟨x,hx⟩
    · exact Or.inl (by rw [hg] at hb; exact (Except.error.inj hb).symm)
    · exact Or.inr ⟨x,by rw [hx] at hb; exact (Except.error.inj hb).symm,hx⟩
  | here hb => exact absurd (hh.symm.trans (body_live hb).1) (by simp)
  | calls hb _ => exact absurd (hh.symm.trans (body_live hb).1) (by simp)
  | returned ha _ => cases ha
  | takes ha _ _ => cases ha
  | swaps ha _ _ _ => cases ha

theorem issue_enabled (hh : s.handle = none) (hc : s.collected = false) (m : Method k) :
    ∃ u, s.step k floatText (.issue m) = some u := by
  obtain ⟨e,he⟩ : ∃ e, m.body floatText none = .error e := by
    rcases m.body_guarded floatText with hg | ⟨x,hx⟩
    · exact ⟨_,hg⟩
    · exact ⟨_,hx none⟩
  exact ⟨s.enlist (.refused e),by simp [step,hc,issue,hh,he]⟩

/-- A release that finds no handle takes none. -/
theorem release_without (hv : ObjectValid k h p s) (hh : s.handle = none)
    {a : ObjectAction k V E} (ha : a.isRelease = true) (he : s.step k floatText a = some u) :
    (u.outset s.next = some .returned ∨ u.outset s.next = some .free) ∧ u.Silent s.next := by
  have ho : s.owner k = none := hv.owner_eq.trans hh
  cases step_move he with
  | returned _ _ =>
    exact ⟨Or.inl (enlist_outset s _),(enlist_silent hv hh .returned).of_eq rfl le_rfl rfl rfl⟩
  | takes _ hx _ => simp [ho] at hx
  | swaps _ _ hx _ => simp [hh] at hx
  | exits _ _ =>
    exact ⟨Or.inr (enlist_outset s _),(enlist_silent hv hh .free).of_eq hh le_rfl rfl rfl⟩
  | _ => cases ha

/-- A release was called: it has the handle, or is a `free` whose thread will find it. -/
def Closing (s : Object V E) : Prop := s.handle = none ∨ ∃ i, s.outset i = some .free

theorem release_closing {a : ObjectAction k V E}
    (ha : a.isRelease = true) (he : s.step k floatText a = some u) : u.Closing := by
  cases step_move he with
  | returned _ _ => exact Or.inl rfl
  | takes _ _ _ => exact Or.inl rfl
  | swaps _ _ _ _ => exact Or.inl rfl
  | exits _ _ => exact Or.inr ⟨s.next,enlist_outset s _⟩
  | _ => cases ha

theorem step_closing (hv : ObjectValid k h p s) {a : ObjectAction k V E}
    (he : s.step k floatText a = some t) (hs : s.Closing) : t.Closing := by
  rcases hs with hh | ⟨i,hi⟩
  · exact Or.inl (step_handle hv he hh)
  · exact Or.inr ⟨i,(step_outset he (hv.lt_of_outset hi).ne).trans hi⟩

theorem reachable_closing (hv : ∃ p, ObjectValid k h p u) (hu : u.Closing)
    (hw : Runs.Reachable (step k floatText) Runs.free u w) : w.Closing :=
  (reachable_induct hv hu (fun _ _ _ ⟨_,hp⟩ hs he => step_closing hp he hs) hw).2

variable (floatText) in
/-- A thread of `run_native` that was started can begin. -/
theorem thread_begins {i : ℕ} {c : Call V E} (hc : s.loop.calls (i,.native) = some c)
    (hw : c.worker = .spawned) :
    ∃ l, s.step k floatText (.thread (i,.native) .work) = some {s.enter i with loop := l} := by
  have hb : s.begins (i,.native) .work = true := (begins_iff hc).mpr ⟨rfl,by rw [hw]; rfl⟩
  have hstep : ∃ l, Loop.step Prod.snd s.loop (.thread (i,.native) .work) = some l := by
    simp [Loop.step,ThreadAction.fresh,hc,threadStep,Blocking.work,hw]
  obtain ⟨l,hl⟩ := hstep
  refine ⟨l,?_⟩
  have hadm : s.admits i (.work : ThreadAction V E) = true := rfl
  simp only [step,hadm,hl,hb,if_true,Option.map_some]

theorem ObjectValid.of_closing {i : ℕ} (hv : ObjectValid k h (.closing i) s)
    {a : ObjectAction k V E} (he : s.step k floatText a = some t) (hd : t.due i = none) :
    ObjectValid k h .released t := by
  obtain ⟨q,hn,hq⟩ := step_objectValid hv he
  cases hn with
  | stay => simp [hq.owed i rfl] at hd
  | pass => exact hq

/-- The step that makes the call owed under that number. -/
inductive Making (i : ℕ) : ObjectAction k V E → Prop
  | enters : Making i (.enters i)
  | thread : Making i (.thread (i,.native) .work)

theorem Making.isOwn {i : ℕ} {a : ObjectAction k V E} (ha : Making i a) : a.isOwn = true := by
  cases ha <;> rfl

variable (floatText) in
/-- Whoever owes the release can make it. -/
theorem ObjectValid.passes_on {i : ℕ} (hv : ObjectValid k h (.closing i) s) :
    ∃ (a : ObjectAction k V E) (t : Object V E), Making i a ∧
      s.step k floatText a = some t ∧ ObjectValid k h .released t := by
  have hd := hv.owed i rfl
  cases hv.owes i rfl with
  | here ho =>
    have he : s.step k floatText (.enters i) = some (s.pass i (k.release,h)) := by
      simp [step,ho,hd]
    exact ⟨.enters i,_,.enters,he,hv.of_closing he (by simp [Object.pass])⟩
  | thread ho hc hw =>
    obtain ⟨l,he⟩ := thread_begins (k := k) floatText hc hw
    refine ⟨.thread (i,.native) .work,_,.thread,he,hv.of_closing he ?_⟩
    simp [enter,ho,hd,encodes,Object.pass]

variable (floatText) in
/-- A `free` that was called can take the handle. -/
theorem ObjectValid.takes_on {i : ℕ} (hv : ObjectValid k h .live s)
    (hi : s.outset i = some .free) : ∃ (a : ObjectAction k V E) (t : Object V E) (j : ℕ),
      a.isOwn = true ∧ s.step k floatText a = some t ∧ ObjectValid k h (.closing j) t := by
  have hh : s.handle = some h := hv.handle
  obtain ⟨_,c,hc,hw⟩ := hv.freeing i hi
  obtain ⟨l,he⟩ := thread_begins (k := k) floatText hc (hw.resolve_right (by simp [hh]))
  obtain ⟨q,hn,hq⟩ := step_objectValid hv he
  cases hn with
  | stay =>
    have hcleared : ({s.enter i with loop := l} : Object V E).handle = none := by
      simp [enter,hi,take,hh,clear,owe]
    exact absurd (hcleared.symm.trans hq.handle) (by simp [Life.handle])
  | take j => exact ⟨.thread (i,.native) .work,_,j,rfl,he,hq⟩

variable (k floatText) in
/-- No thread has a step left to take, and the loop none either. -/
def Rests (s : Object V E) : Prop :=
  ∀ a : ObjectAction k V E, a.isOwn = true → s.step k floatText a = none

theorem Rests.released (hr : Rests k floatText s) (hv : ObjectValid k h p s) (hs : s.Closing) :
    p = .released := by
  cases p with
  | released => rfl
  | closing i =>
    obtain ⟨a,t,ha,he,_⟩ := hv.passes_on floatText
    simp [hr a ha.isOwn] at he
  | live =>
    rcases hs with hh | ⟨i,hi⟩
    · simp [hv.handle,Life.handle] at hh
    · obtain ⟨a,t,_,ha,he,_⟩ := hv.takes_on floatText hi
      simp [hr a ha] at he

variable (floatText) in
/-- What was started is enough for the release to be made. -/
theorem ObjectValid.releases (hv : ObjectValid k h p s) (hs : s.Closing) :
    ∃ v, Runs.Reachable (step k floatText) (fun _ a => a.isOwn = true) s v ∧
      ObjectValid k h .released v := by
  have hclosing : ∀ {i s}, ObjectValid k h (.closing i) s → ∃ v,
      Runs.Reachable (step k floatText) (fun _ a => a.isOwn = true) s v ∧
        ObjectValid k h .released (V := V) (E := E) v := by
    intro i s hv
    obtain ⟨a,t,ha,he,ht⟩ := hv.passes_on floatText
    exact ⟨t,⟨[a],.single ha.isOwn he⟩,ht⟩
  cases p with
  | released => exact ⟨s,.refl s,hv⟩
  | closing i => exact hclosing hv
  | live =>
    rcases hs with hh | ⟨i,hi⟩
    · simp [hv.handle,Life.handle] at hh
    · obtain ⟨a,t,j,ha,he,ht⟩ := hv.takes_on floatText hi
      obtain ⟨v,⟨as,hr⟩,hx⟩ := hclosing ht
      exact ⟨v,⟨a :: as,.step ha he hr⟩,hx⟩

theorem release_handle {a : ObjectAction k V E} (ha : a.isRelease = true)
    (hx : k = .stream → a ≠ .exit) (he : s.step k floatText a = some u) : u.handle = none := by
  cases step_move he with
  | returned _ _ => rfl
  | takes _ _ _ => rfl
  | swaps _ _ _ _ => rfl
  | exits hk _ => exact absurd rfl (hx hk)
  | _ => cases ha

theorem Account.released_le (ha : Account k h p s) : s.released k = [] ∨ s.released k = [h] := by
  rw [ha.released]
  cases p with
  | released => exact Or.inr rfl
  | _ => exact Or.inl rfl

/-- What a release leads to, from any state after it. -/
theorem released_of_closing (hv : ∃ p, ObjectValid k h p u) (hu : u.Closing)
    (hw : Runs.Reachable (step k floatText) Runs.free u w) :
    (Rests k floatText w → w.handle = none ∧ w.released k = [h]) ∧
      ∃ v, Runs.Reachable (step k floatText) (fun _ b => b.isOwn = true) w v ∧
        v.handle = none ∧ v.released k = [h] := by
  have hclosing := reachable_closing hv hu hw
  obtain ⟨p,hp⟩ := (reachable_induct (P := fun _ => True) hv trivial
    (fun _ _ _ _ _ _ => trivial) hw).1
  constructor
  · intro hr
    obtain rfl := hr.released hp hclosing
    exact ⟨hp.handle,hp.released⟩
  · obtain ⟨v,hr,hx⟩ := hp.releases floatText hclosing
    exact ⟨v,hr,hx.handle,hx.released⟩

/-- What was called without a handle invokes nothing, in any state after it. -/
theorem unentered_of_silent {i : ℕ} (hv : ∃ p, ObjectValid k h p u) (hu : u.Silent i)
    (hw : Runs.Reachable (step k floatText) Runs.free u w) :
    w.handle = none ∧ w.Unentered i := by
  have hx := reachable_silent hv hu hw
  exact ⟨hx.handle,hx.log⟩

/-- A release that finds no handle returns, in any state after it. -/
theorem reachable_returns {i : ℕ} (hv : u.FreeValid) (hi : i < u.next)
    (ho : u.outset i = some .returned ∨ u.outset i = some .free)
    (hw : Runs.Reachable (step k floatText) Runs.free u w) : w.Returns i := by
  have hx : w.FreeValid ∧ i < w.next ∧ w.outset i = u.outset i := by
    refine hw.induct (P := fun w => w.FreeValid ∧ i < w.next ∧ w.outset i = u.outset i)
      ⟨hv,hi,rfl⟩ ?_
    rintro s a t _ ⟨hs,hn,hsame⟩ _ he
    exact ⟨step_freeValid hs he,hn.trans_le (step_loop he).1,(step_outset he hn.ne).trans hsame⟩
  obtain ⟨hf,_,hsame⟩ := hx
  rcases ho with ho | ho
  · exact Or.inl (hsame.trans ho)
  · exact Or.inr ⟨hsame.trans ho,fun c e hc => hf.not_raised (hsame.trans ho) hc e⟩

/-- Once the handle is cleared, and it stays so, an operation raises its `ClosedError` or what is
wrong with its arguments, a release returns, and neither invokes a native function. The release
function is invoked at most once and with the object's own handle, and once exactly when a release
was called and nothing is left to run, which what was started is enough to get to. -/
theorem closed_means_closed (k : Kind) (h : Handle) (floatText : Binary64 → Numeral)
    {s : Object V E} (hs : Runs.Reachable (step k floatText) Runs.free (init k h) s) :
    (s.released k = [] ∨ s.released k = [h]) ∧
    (∀ a u, a.isRelease = true → s.step k floatText a = some u →
      ((k = .stream → a ≠ .exit) → u.handle = none) ∧
      ∀ w, Runs.Reachable (step k floatText) Runs.free u w →
        (Rests k floatText w → w.handle = none ∧ w.released k = [h]) ∧
        ∃ v, Runs.Reachable (step k floatText) (fun _ b => b.isOwn = true) w v ∧
          v.handle = none ∧ v.released k = [h]) ∧
    (s.handle = none →
      (∀ m, s.collected = false → ∃ u e, s.step k floatText (.issue m) = some u ∧
        Refuses floatText m e ∧ u.outset s.next = some (.refused e) ∧
        ∀ w, Runs.Reachable (step k floatText) Runs.free u w →
          w.handle = none ∧ w.Unentered s.next) ∧
      ∀ a u, a.isRelease = true → s.step k floatText a = some u →
        ∀ w, Runs.Reachable (step k floatText) Runs.free u w →
          w.handle = none ∧ w.Unentered s.next ∧ w.Returns s.next) := by
  obtain ⟨p,hv⟩ := reachable_objectValid hs
  have hnext : ∀ {a u}, s.step k floatText a = some u → ∃ p, ObjectValid k h p u :=
    fun he => (step_objectValid hv he).imp (fun _ hq => hq.2)
  refine ⟨hv.toAccount.released_le,?_,fun hh => ⟨?_,?_⟩⟩
  · intro a u ha he
    refine ⟨fun hx => release_handle ha hx he,fun w hw => ?_⟩
    exact released_of_closing (hnext he) (release_closing ha he) hw
  · intro m hc
    obtain ⟨u,he⟩ : ∃ u, s.step k floatText (.issue m) = some u := issue_enabled hh hc m
    obtain ⟨⟨e,hr,ho⟩,hsilent⟩ := issue_without hv hh he
    exact ⟨u,e,he,hr,ho,fun w hw => unentered_of_silent (hnext he) hsilent hw⟩
  · intro a u ha he w hw
    obtain ⟨ho,hsilent⟩ := release_without hv hh ha he
    obtain ⟨hn,hx⟩ := unentered_of_silent (hnext he) hsilent hw
    have hf := step_freeValid (reachable_freeValid hs) he
    exact ⟨hn,hx,reachable_returns hf hsilent.outset ho hw⟩

/-- Whether anything is left to run can be read off the threads and the queue. -/
theorem rests_of (hd : ∀ i, s.due i = none) (hb : s.loop.busy = none) (hq : s.loop.ready = [])
    (hc : ∀ x c, s.loop.calls x = some c → (∃ o, c.worker = .posted o) ∧ c.discards = []) :
    Rests k floatText s := by
  intro a ha
  cases a with
  | enters i => simp [step,hd]
  | thread x a =>
    cases hi : s.loop.calls x with
    | none => simp [step,Loop.step,hi]
    | some c =>
      obtain ⟨⟨o,hw⟩,hk⟩ := hc x c hi
      have hn : threadStep x.2 c a = none := threadStep_of_posted (by rw [hw]; rfl) hk a
      simp [step,Loop.step,hi,hn]
  | run => simp [step,Loop.step,hb,hq]
  | endStep => simp [step,Loop.step,hb]
  | _ => cases ha

/-- A stream is left by `async with`, which frees it on a thread. -/
def left : List (ObjectAction .stream Unit Unit) :=
  [.exit,.thread (0,.native) .work,.enters 0,.thread (0,.native) (.callReturns (.ok ())),
    .thread (0,.native) .work,.run,.run,.run,.run,.run]

/-- What the run of one call leaves to do. -/
def remains (s : Object V E) : ℕ × ℕ × Option (ℕ × Route) × Option (Native × Handle) ×
    List (Option (Bool × ℕ)) :=
  (s.next,s.loop.ready.length,s.loop.busy,s.due 0,
    [Route.native,.blocking true,.blocking false].map fun r =>
      (s.loop.calls (0,r)).map fun c => (c.worker.posted?.isSome,c.discards.length))

theorem rests_of_remains (hs : Runs.Reachable (step k floatText) Runs.free (init k h) s)
    {rs : List (Option (Bool × ℕ))} (hl : remains s = (1,0,none,none,rs))
    (hrs : ∀ x ∈ rs, x = none ∨ x = some (true,0)) : Rests k floatText s := by
  simp only [remains,Prod.mk.injEq] at hl
  obtain ⟨hn,hq,hb,hd,hc⟩ := hl
  obtain ⟨p,hv⟩ := reachable_objectValid hs
  have hfree := reachable_freeValid hs
  refine rests_of (fun i => ?_) hb (List.length_eq_zero_iff.mp hq) (fun x c hx => ?_)
  · rcases Nat.eq_zero_or_pos i with rfl | hi
    · exact hd
    · exact (hv.unused i (by omega)).2
  · obtain ⟨i,r⟩ := x
    obtain rfl : i = 0 := by
      by_contra hi
      simp [hfree.fresh i r (by omega)] at hx
    have hr : r ∈ [Route.native,.blocking true,.blocking false] := by
      cases r with
      | native => simp
      | blocking d => cases d <;> simp
    have hone := hrs _ (hc ▸ List.mem_map_of_mem hr)
    simp only [hx,Option.map_some,reduceCtorEq,false_or,Option.some.injEq,Prod.mk.injEq] at hone
    obtain ⟨hposted,hk⟩ := hone
    refine ⟨?_,List.length_eq_zero_iff.mp hk⟩
    cases hw : c.worker <;> simp [hw,Worker.posted?] at hposted
    exact ⟨_,rfl⟩

theorem closed_means_closed_left : ∃ u w : Object Unit Unit,
    (init .stream 7).step .stream noFloats .exit = some u ∧
      Runs.Reachable (step .stream noFloats) Runs.free u w ∧ w.handle = none ∧
      w.released .stream = [7] ∧ ∃ v e, w.step .stream noFloats (.issue .report) = some v ∧
        Refuses noFloats .report e ∧ v.outset w.next = some (.refused e) ∧
        v.Unentered w.next := by
  obtain ⟨u,hu,hrun⟩ : ∃ u, (init .stream 7).step .stream noFloats .exit = some u ∧
      (Runs.exec (step .stream noFloats) u left.tail).map (fun w => (remains w,w.collected)) =
        some ((1,0,none,none,[some (true,0),none,none]),false) := ⟨_,rfl,rfl⟩
  obtain ⟨w,hw,hl⟩ := Option.map_eq_some_iff.mp hrun
  obtain ⟨hl,hcol⟩ := Prod.mk.inj hl
  have hreach := Runs.Reachable.of_exec left.tail hw
  have hinit : Runs.Reachable (step .stream noFloats) Runs.free (init .stream 7) w := by
    obtain ⟨as,has⟩ := hreach
    exact ⟨.exit :: as,.step trivial hu has⟩
  have hr : Rests .stream noFloats w := rests_of_remains hinit hl (by simp)
  obtain ⟨hh,hfreed⟩ := ((closed_means_closed .stream 7 noFloats (.refl _)).2.1 .exit u rfl hu).2 w
    hreach |>.1 hr
  obtain ⟨v,e,hv,he,ho,hx⟩ := ((closed_means_closed .stream 7 noFloats hinit).2.2 hh).1 .report hcol
  exact ⟨u,w,hu,hreach,hh,hfreed,v,e,hv,he,ho,(hx v (.refl v)).2⟩

end Object
end MaculaPy.Objects
