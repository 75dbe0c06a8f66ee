import MaculaPy.Serving.Served

/-! # One wait at a time

The serving task starts a wait when the one before it is over, and creates a handler for
each item it decodes from one; its end has a cause in a wait, or in `stop()`.
-/
namespace MaculaPy.Serving
open Blocking Asyncio History
variable {J R D E : Type*}

/-- `release(out.value)` is called for a text that is not `None`. -/
def Taken.handle? : Taken J → Option ℕ
  | .item h _ => some h
  | .nothing _ => none

/-- What a handler was created for. -/
def Handler.taken (h : Handler R) : ℕ × R := (h.handle,h.item)

namespace Served
variable (decode : J → Except D (Option R)) (s : Served J R D E)

/-- The wait `i` returned an item with this handle and text. -/
def Took (i handle : ℕ) (text : J) : Prop :=
  ∃ c, s.loop.calls i = some c ∧ c.task = .returned (.item handle text)

/-- What made the serving task end. -/
def Because : ServeEnd D E → Prop
  | .closed => ∃ i c, s.loop.calls i = some c ∧ c.task = .returned (.nothing true)
  | .assertion => s.handle = none
  | .cancelled => s.handle = none
  | .failed (.decode e) => ∃ i h text, s.Took i h text ∧ decode text = .error e
  | .failed (.wait e) => ∃ i c, s.loop.calls i = some c ∧ c.task = .raised e

/-- An item that the wait `i` returned has its handler. -/
def Dispatched (i : ℕ) : Prop :=
  ∀ h text item, s.Took i h text → decode text = .ok (some item) →
    (s.handlers i).map Handler.taken = some (h,item)

/-- What holds of the waits and the handlers whether a wait is under way or not. -/
structure Common : Prop where
  loop : Runs.Reachable (Loop.step route) Runs.free Loop.init s.loop
  handled : ∀ i h, s.handlers i = some h → ∃ text, s.Took i h.handle text ∧
    decode text = .ok (some h.item)
  uncancelled : s.handle ≠ none → ∀ i c, s.loop.calls i = some c → ¬ c.interrupted
  called : s.stop ≠ .notCalled → s.handle = none

/-- The serving task is between two waits, the next one `n`. -/
structure Idle (n : ℕ) : Prop extends Common decode s where
  ended : ∀ i c, s.loop.calls i = some c → c.task.ended = true
  fresh : ∀ i, n ≤ i → s.loop.calls i = none

structure ServeValid : Prop extends Common decode s where
  unstarted : ∀ b, s.serve = .unstarted b → ∀ i, s.loop.calls i = none
  early : s.serve = .unstarted true → s.handle = none
  current : ∀ i, s.serve = .waiting i → ∃ c, s.loop.calls i = some c ∧ c.task.ended = false
  fresh : ∀ i, s.serve = .waiting i → ∀ j, i < j → s.loop.calls j = none
  past : ∀ i c, s.loop.calls i = some c → s.serve ≠ .waiting i → c.task.ended = true
  dispatched : ∀ i, s.Dispatched decode i
  why : ∀ how, s.serve = .ended how → s.Because decode how

variable {decode} {s} {t : Served J R D E}

theorem Took.of_calls {i h : ℕ} {text : J} (hc : t.loop.calls = s.loop.calls)
    (ht : t.Took i h text) : s.Took i h text := by
  obtain ⟨c,hx,hk⟩ := ht
  exact ⟨c,hc ▸ hx,hk⟩

section Keep
variable (hk : ∀ i c, s.loop.calls i = some c → c.task.ended = true →
  ∃ c', t.loop.calls i = some c' ∧ c'.task = c.task)
include hk

theorem Took.keep {i h : ℕ} {text : J} (ht : s.Took i h text) : t.Took i h text := by
  obtain ⟨c,hc,he⟩ := ht
  obtain ⟨c',hc',he'⟩ := hk i c hc (by simp [he,Task.ended])
  exact ⟨c',hc',he'.trans he⟩

/-- A cause lies in waits that are over, or in `stop()`, and these stay. -/
theorem Because.keep (hh : s.handle = none → t.handle = none) {how : ServeEnd D E}
    (hb : s.Because decode how) : t.Because decode how := by
  cases how with
  | closed =>
    obtain ⟨i,c,hc,he⟩ := hb
    obtain ⟨c',hc',he'⟩ := hk i c hc (by simp [he,Task.ended])
    exact ⟨i,c',hc',he'.trans he⟩
  | assertion => exact hh hb
  | cancelled => exact hh hb
  | failed e =>
    cases e with
    | decode e =>
      obtain ⟨i,h,text,ht,hd⟩ := hb
      exact ⟨i,h,text,ht.keep hk,hd⟩
    | wait e =>
      obtain ⟨i,c,hc,he⟩ := hb
      obtain ⟨c',hc',he'⟩ := hk i c hc (by simp [he,Task.ended])
      exact ⟨i,c',hc',he'.trans he⟩

end Keep

theorem Because.of_calls {how : ServeEnd D E} (hc : t.loop.calls = s.loop.calls)
    (hh : s.handle = none → t.handle = none) (hb : s.Because decode how) :
    t.Because decode how :=
  hb.keep (fun _ c hx _ => ⟨c,hc ▸ hx,rfl⟩) hh

theorem Common.frame (hv : Common decode s)
    (hl : Runs.Reachable (Loop.step route) Runs.free Loop.init t.loop)
    (hc : t.loop.calls = s.loop.calls) (hh : s.handle = none → t.handle = none)
    (hs : t.stop ≠ .notCalled → t.handle = none)
    (hi : ∀ i, (t.handlers i).map Handler.taken = (s.handlers i).map Handler.taken) :
    Common decode t where
  loop := hl
  handled i h hx := by
    have hm := hi i
    rw [hx,Option.map_some] at hm
    obtain ⟨h',hx',he⟩ := Option.map_eq_some_iff.mp hm.symm
    obtain ⟨text,ht,hd⟩ := hv.handled i h' hx'
    obtain ⟨hhandle,hitem⟩ := Prod.mk.inj he
    rw [hhandle] at ht
    rw [hitem] at hd
    exact ⟨text,ht.of_calls hc.symm,hd⟩
  uncancelled hn i c hx := hv.uncancelled (fun h => hn (hh h)) i c (hc ▸ hx)
  called := hs

/-- The facts read the loop's calls, the handle, what the handlers were created for and
where the serving task is. -/
theorem ServeValid.frame (hv : ServeValid decode s)
    (hl : Runs.Reachable (Loop.step route) Runs.free Loop.init t.loop)
    (hc : t.loop.calls = s.loop.calls) (hs : t.serve = s.serve)
    (hh : s.handle = none → t.handle = none) (ht : t.stop ≠ .notCalled → t.handle = none)
    (hi : ∀ i, (t.handlers i).map Handler.taken = (s.handlers i).map Handler.taken) :
    ServeValid decode t := by
  refine {hv.toCommon.frame hl hc hh ht hi with
    unstarted := ?_
    early := fun h => hh (hv.early (hs ▸ h))
    current := ?_
    fresh := ?_
    past := ?_
    dispatched := fun i h text item htook hd =>
      (hi i).trans (hv.dispatched i h text item (htook.of_calls hc) hd)
    why := fun how h => (hv.why how (hs ▸ h)).of_calls hc hh}
  all_goals
    rw [hc,hs]
  · exact hv.unstarted
  · exact hv.current
  · exact hv.fresh
  · exact hv.past

/-- What the facts read of a state, its stop apart. -/
def core (s : Served J R D E) :
    Loop ℕ TaskCallback (Taken J) E × Option ℕ × Serve D E × (ℕ → Option (Handler R)) :=
  (s.loop,s.handle,s.serve,s.handlers)

theorem ServeValid.of_core (hv : ServeValid decode s) (hc : t.core = s.core)
    (ht : t.stop ≠ .notCalled → s.handle = none) : ServeValid decode t := by
  simp only [core,Prod.mk.injEq] at hc
  obtain ⟨hl,hh,hs,hi⟩ := hc
  exact hv.frame (hl ▸ hv.loop) (by rw [hl]) hs (fun h => hh.trans h) (fun h => hh.trans (ht h))
    (fun i => by rw [hi])

section LoopSteps
variable {a : LoopAction ℕ TaskCallback (Taken J) E} {l : Loop ℕ TaskCallback (Taken J) E}

/-- A call that runs after a step other than its start ran before it. -/
theorem Common.started (hv : Common decode s) (he : Loop.step route s.loop a = some l)
    (ha : ∀ i, a ≠ .start i) {i : ℕ} {c' : Call (Taken J) E} (hc' : l.calls i = some c') :
    ∃ c, s.loop.calls i = some c ∧ (c.task.ended = true → c'.task = c.task) ∧
      (a ≠ .cancelTask i → c'.interrupted → c.interrupted) := by
  cases hc : s.loop.calls i with
  | none =>
    rw [Loop.step_unstarted he hc (ha i)] at hc'
    cases hc'
  | some c =>
    obtain ⟨d,hd,h⟩ := Loop.step_call hv.loop he hc
    obtain rfl : d = c' := Option.some.inj (hd.symm.trans hc')
    exact ⟨c,rfl,h⟩

theorem Common.ended_stays (hv : Common decode s) (he : Loop.step route s.loop a = some l) (i : ℕ)
    (c : Call (Taken J) E) (hc : s.loop.calls i = some c) (hend : c.task.ended = true) :
    ∃ c', l.calls i = some c' ∧ c'.task = c.task := by
  obtain ⟨c',hc',hk,_⟩ := Loop.step_call hv.loop he hc
  exact ⟨c',hc',hk hend⟩

theorem Common.loop_step (hv : Common decode s) (he : Loop.step route s.loop a = some l)
    (ha : ∀ i, a ≠ .start i) (hn : s.handle ≠ none → ∀ i, a ≠ .cancelTask i) :
    Common decode {s with loop := l} where
  loop := hv.loop.tail trivial he
  handled i h hh := by
    obtain ⟨text,ht,hd⟩ := hv.handled i h hh
    exact ⟨text,ht.keep (hv.ended_stays he),hd⟩
  uncancelled hx i c' hc' := by
    obtain ⟨c,hc,_,hi⟩ := hv.started he ha hc'
    exact fun h => hv.uncancelled hx i c hc (hi (hn hx i) h)
  called := hv.called

/-- An item is dispatched after a step if it was before, its wait being over. -/
theorem Common.dispatched_stays (hv : Common decode s) (he : Loop.step route s.loop a = some l)
    (ha : ∀ i, a ≠ .start i) {i : ℕ}
    (hend : ∀ c, s.loop.calls i = some c → c.task.ended = true) (hd : s.Dispatched decode i) :
    {s with loop := l}.Dispatched decode i := by
  rintro h text item ⟨c',hc',hk'⟩ hx
  obtain ⟨c,hc,hk,_⟩ := hv.started he ha hc'
  exact hd h text item ⟨c,hc,(hk (hend c hc)).symm.trans hk'⟩ hx

/-- A step in which the current wait goes on. -/
theorem ServeValid.loop_step (hv : ServeValid decode s) (he : Loop.step route s.loop a = some l)
    (ha : ∀ i, a ≠ .start i) (hn : s.handle ≠ none → ∀ i, a ≠ .cancelTask i)
    (hk : ∀ i c, s.serve = .waiting i → l.calls i = some c → c.task.ended = false) :
    ServeValid decode {s with loop := l} := by
  refine {hv.toCommon.loop_step he ha hn with
    unstarted := fun b hs i => Loop.step_unstarted he (hv.unstarted b hs i) (ha i)
    early := hv.early
    current := ?_
    fresh := fun i hs j hj => Loop.step_unstarted he (hv.fresh i hs j hj) (ha j)
    past := ?_
    dispatched := ?_
    why := fun how hs =>
      Because.keep (t := {s with loop := l}) (hv.ended_stays he) id (hv.why how hs)}
  · intro i hs
    obtain ⟨c,hc,_⟩ := hv.current i hs
    obtain ⟨c',hc',_⟩ := Loop.step_call hv.loop he hc
    exact ⟨c',hc',hk i c' hs hc'⟩
  · intro i c' hc' hs
    obtain ⟨c,hc,hx,_⟩ := hv.started he ha hc'
    have hend := hv.past i c hc hs
    rw [hx hend]
    exact hend
  · intro i
    by_cases hs : s.serve = .waiting i
    · rintro h text item ⟨c',hc',hk'⟩ _
      have hend := hk i c' hs hc'
      simp [hk',Task.ended] at hend
    · exact hv.dispatched_stays he ha (fun c hc => hv.past i c hc hs) (hv.dispatched i)

/-- A step that ends the current wait leaves the serving task between two waits. -/
theorem ServeValid.idle (hv : ServeValid decode s) (he : Loop.step route s.loop a = some l)
    (ha : ∀ i, a ≠ .start i) (hn : s.handle ≠ none → ∀ i, a ≠ .cancelTask i) {i : ℕ}
    (hs : s.serve = .waiting i) {c : Call (Taken J) E} (hc : l.calls i = some c)
    (hend : c.task.ended = true) : Idle decode {s with loop := l} (i + 1) ∧
      ∀ j, j ≠ i → {s with loop := l}.Dispatched decode j := by
  have hne : ∀ j, j ≠ i → s.serve ≠ .waiting j := by
    intro j hj h
    rw [hs] at h
    cases h
    exact hj rfl
  constructor
  · refine {hv.toCommon.loop_step he ha hn with
      ended := ?_
      fresh := fun j hj => Loop.step_unstarted he (hv.fresh i hs j hj) (ha j)}
    intro j c' hc'
    by_cases hj : j = i
    · subst hj
      obtain rfl : c = c' := Option.some.inj (hc.symm.trans hc')
      exact hend
    · obtain ⟨d,hd,hx,_⟩ := hv.started he ha hc'
      have hend' := hv.past j d hd (hne j hj)
      rw [hx hend']
      exact hend'
  · intro j hj
    exact hv.dispatched_stays he ha (fun d hd => hv.past j d hd (hne j hj)) (hv.dispatched j)

end LoopSteps
@[simp] theorem post_handlers (s : Served J R D E) (x : TaskCallback) :
    (s.post x).handlers = s.handlers := rfl

theorem post_loop (s : Served J R D E) (x : TaskCallback) :
    Loop.step route s.loop (.soon x) = some (s.post x).loop := rfl

theorem ServeValid.post (hv : ServeValid decode s) (x : TaskCallback) :
    ServeValid decode (s.post x) :=
  hv.frame (hv.loop.tail trivial (post_loop s x)) rfl rfl id hv.called (fun _ => rfl)

section Idle
variable {n : ℕ}

/-- Between two waits the loop thread is in no call's `_end_the_call`. -/
theorem Idle.not_busy (hv : Idle decode s n) : s.loop.busy = none := by
  have hl := Loop.reachable_valid hv.loop
  cases hb : s.loop.busy with
  | none => rfl
  | some i =>
    cases hc : s.loop.calls i with
    | none => exact absurd hb (hl.unstarted i hc).2.2
    | some c =>
      have hend := hv.ended i c hc
      have hin := (hl.ending i c hc).mpr hb
      cases hk : c.task <;> simp_all [Task.ended,Task.isEnding]

theorem Idle.await (hv : Idle decode s n) (hd : ∀ i, s.Dispatched decode i) :
    ServeValid decode (s.await n) := by
  have hn := hv.fresh n (Nat.le_refl n)
  have hne : ∀ i c, s.loop.calls i = some c → i ≠ n := by
    rintro i c hc rfl
    rw [hn] at hc
    cases hc
  have hold : ∀ {i c}, (s.await n).loop.calls i = some c → i ≠ n → s.loop.calls i = some c := by
    intro i c hc hi
    simpa [Served.await,hi] using hc
  constructor
  · constructor
    · exact hv.loop.tail trivial (a := .start n) (by simp [Loop.step,hv.not_busy,hn,Served.await])
    · intro i h hh
      obtain ⟨text,⟨c,hc,hk⟩,hx⟩ := hv.handled i h hh
      exact ⟨text,⟨c,by simpa [Served.await,hne i c hc] using hc,hk⟩,hx⟩
    · intro hh i c hc
      by_cases hi : i = n
      · subst hi
        obtain rfl : Blocking.start = c := by simpa [Served.await] using hc
        simp [Call.interrupted,Blocking.start]
      · exact hv.uncancelled hh i c (hold hc hi)
    · exact hv.called
  · intro b hb
    cases hb
  · intro hb
    cases hb
  · intro i hi
    cases hi
    exact ⟨Blocking.start,by simp [Served.await],rfl⟩
  · intro i hi j hj
    cases hi
    simpa [Served.await,Nat.ne_of_gt hj] using hv.fresh j (Nat.le_of_lt hj)
  · intro i c hc hi
    have hin : i ≠ n := by
      rintro rfl
      exact hi rfl
    exact hv.ended i c (hold hc hin)
  · rintro i h text item ⟨c,hc,hk⟩ hx
    by_cases hi : i = n
    · subst hi
      obtain rfl : Blocking.start = c := by simpa [Served.await] using hc
      cases hk
    · exact hd i h text item ⟨c,hold hc hi,hk⟩ hx
  · intro how hw
    cases hw

theorem Idle.endServe (hv : Idle decode s n) (hd : ∀ i, s.Dispatched decode i)
    {how : ServeEnd D E} (hb : s.Because decode how) : ServeValid decode (s.endServe how) := by
  have ht : ServeValid decode {s with serve := .ended how} := by
    refine {hv.toCommon.frame hv.loop rfl id hv.called (fun _ => rfl) with
      unstarted := by simp
      early := by simp
      current := by simp
      fresh := by simp
      past := fun i c hc _ => hv.ended i c hc
      dispatched := hd
      why := ?_}
    intro how' hw
    cases hw
    exact Because.of_calls (s := s) rfl id hb
  unfold Served.endServe
  split
  · exact ht.post _
  · exact ht

theorem Idle.fail (hv : Idle decode s n) (hd : ∀ i, s.Dispatched decode i) {e : Failure D E}
    (hb : s.Because decode (.failed e)) : ServeValid decode (s.fail e) := by
  have ht : Idle decode {s with failure := if s.handle.isNone then s.failure else some e} n :=
    {hv with toCommon := hv.toCommon.frame hv.loop rfl id hv.called (fun _ => rfl)}
  exact ht.endServe hd (Because.of_calls (s := s) rfl id hb)

/-- The new handler is the one of the item just returned. -/
theorem Idle.dispatch (hv : Idle decode s n) {i h : ℕ} {text : J} {item : R}
    (hd : ∀ j, j ≠ i → s.Dispatched decode j) (ht : s.Took i h text)
    (hx : decode text = .ok (some item)) :
    Idle decode (s.dispatch i h item) n ∧ ∀ j, (s.dispatch i h item).Dispatched decode j := by
  constructor
  · refine {hv with toCommon := ⟨hv.loop.tail trivial (post_loop s _),?_,hv.uncancelled,hv.called⟩}
    intro j h' hh
    by_cases hj : j = i
    · subst hj
      obtain rfl : {handle := h, item := item} = h' := by simpa [Served.dispatch] using hh
      exact ⟨text,ht,hx⟩
    · exact hv.handled j h' (by simpa [Served.dispatch,hj] using hh)
  · rintro j h' text' item' ht' hx'
    by_cases hj : j = i
    · subst hj
      obtain ⟨c,hc,hk⟩ := ht
      obtain ⟨c',hc',hk'⟩ := ht'
      obtain rfl : c = c' := Option.some.inj (hc.symm.trans hc')
      obtain ⟨rfl,rfl⟩ : h = h' ∧ text = text' := by simpa [hk] using hk'
      obtain rfl : item = item' := by simpa [hx] using hx'
      simp [Served.dispatch,Handler.taken]
    · have hold := hd j hj h' text' item' ht' hx'
      simpa [Served.dispatch,hj] using hold

/-- A wait that returned no item to handle has nothing to dispatch. -/
theorem Dispatched.of_other {i : ℕ} (hd : ∀ j, j ≠ i → s.Dispatched decode j)
    {c : Call (Taken J) E} (hc : s.loop.calls i = some c)
    (hno : ∀ h text item, c.task = .returned (.item h text) → decode text ≠ .ok (some item)) (j : ℕ) :
    s.Dispatched decode j := by
  by_cases hj : j = i
  · subst hj
    rintro h text item ⟨c',hc',hk'⟩ hx
    obtain rfl : c = c' := Option.some.inj (hc.symm.trans hc')
    exact absurd hx (hno h text item hk')
  · exact hd j hj

theorem Idle.onTaken {i : ℕ} (hv : Idle decode s (i + 1)) (hd : ∀ j, j ≠ i → s.Dispatched decode j)
    {c : Call (Taken J) E} (hc : s.loop.calls i = some c) {v : Taken J} (hk : c.task = .returned v) :
    ServeValid decode (s.onTaken decode i v) := by
  cases v with
  | nothing closed =>
    have hall := Dispatched.of_other hd hc (by simp [hk])
    cases closed with
    | true => exact hv.endServe hall ⟨i,c,hc,hk⟩
    | false => exact hv.await hall
  | item h text =>
    simp only [Served.onTaken]
    split
    · next e hx =>
      refine hv.fail (Dispatched.of_other hd hc ?_) ⟨i,h,text,⟨c,hc,hk⟩,hx⟩
      intro h' text' item hk'
      obtain ⟨_,rfl⟩ : h = h' ∧ text = text' := by simpa [hk] using hk'
      simp [hx]
    · next hx =>
      refine hv.await (Dispatched.of_other hd hc ?_)
      intro h' text' item hk'
      obtain ⟨_,rfl⟩ : h = h' ∧ text = text' := by simpa [hk] using hk'
      simp [hx]
    · next item hx =>
      obtain ⟨hi,hd'⟩ := hv.dispatch hd ⟨c,hc,hk⟩ hx
      exact hi.await hd'

end Idle

/-- `_serve` goes on by how its wait ended. -/
theorem resume_eq {i : ℕ} (hs : s.serve = .waiting i) {c : Call (Taken J) E}
    (hc : s.loop.calls i = some c) : s.resume decode = match c.task with
      | .returned v => s.onTaken decode i v
      | .raised e => s.fail (.wait e)
      | .cancelled => s.endServe .cancelled
      | _ => s := by
  simp only [Served.resume,hs,hc,Option.map_some]
  cases c.task <;> rfl

theorem resume_of_not_waiting (hs : ∀ i, s.serve ≠ .waiting i) : s.resume decode = s := by
  unfold Served.resume
  split
  · next i hi => exact absurd hi (hs i)
  · rfl

/-- `_serve` goes on after a step of its wait. -/
theorem ServeValid.resume {a : LoopAction ℕ TaskCallback (Taken J) E}
    {l : Loop ℕ TaskCallback (Taken J) E} (hv : ServeValid decode s)
    (he : Loop.step route s.loop a = some l) (ha : ∀ i, a ≠ .start i)
    (hn : ∀ i, a ≠ .cancelTask i) : ServeValid decode ({s with loop := l}.resume decode) := by
  by_cases hw : ∃ i, s.serve = .waiting i
  · obtain ⟨i,hs⟩ := hw
    obtain ⟨c,hc,_⟩ := hv.current i hs
    obtain ⟨c',hc',_⟩ := Loop.step_call hv.loop he hc
    rw [resume_eq (s := {s with loop := l}) hs hc']
    cases hend : c'.task.ended with
    | false =>
      have ht : ServeValid decode {s with loop := l} := by
        apply hv.loop_step he ha (fun _ => hn)
        intro j d hj hd
        obtain rfl : i = j := by simpa [hs] using hj
        obtain rfl : c' = d := Option.some.inj (hc'.symm.trans hd)
        exact hend
      cases hk : c'.task with
      | awaiting => exact ht
      | ending l => exact ht
      | _ => simp [hk,Task.ended] at hend
    | true =>
      obtain ⟨hi,hd⟩ := hv.idle he ha (fun _ => hn) hs hc' hend
      cases hk : c'.task with
      | awaiting => simp [hk,Task.ended] at hend
      | ending l => simp [hk,Task.ended] at hend
      | returned v => exact hi.onTaken hd hc' hk
      | raised e => exact hi.fail (Dispatched.of_other hd hc' (by simp [hk])) ⟨i,c',hc',hk⟩
      | cancelled =>
        apply hi.endServe (Dispatched.of_other hd hc' (by simp [hk]))
        by_contra hh
        exact hi.uncancelled hh i c' hc' (by simp [Call.interrupted,hk])
  · have hno : ∀ i, s.serve ≠ .waiting i := fun i hs => hw ⟨i,hs⟩
    rw [resume_of_not_waiting (s := {s with loop := l}) hno]
    exact hv.loop_step he ha (fun _ => hn) (fun i c hs => absurd hs (hno i))

/-- A step of a thread, and a cancellation once `stop()` was called, leave the serving task
in its wait. -/
theorem ServeValid.still {a : LoopAction ℕ TaskCallback (Taken J) E}
    {l : Loop ℕ TaskCallback (Taken J) E} (hv : ServeValid decode s)
    (he : Loop.step route s.loop a = some l)
    (ha : (∃ i b, a = .thread i b) ∨ (s.handle = none ∧ ∃ i, a = .cancelTask i)) :
    ServeValid decode {s with loop := l} := by
  have hor : (∃ i b, a = .thread i b) ∨ ∃ i, a = .cancelTask i := ha.imp id And.right
  refine hv.loop_step he ?_ ?_ ?_
  · rintro i rfl
    simp at hor
  · rintro hh i rfl
    simp [hh] at ha
  · intro i c' hs hc'
    obtain ⟨c,hc,hk⟩ := Loop.step_task he hor hc'
    obtain ⟨d,hd,hend⟩ := hv.current i hs
    obtain rfl : c = d := Option.some.inj (hc.symm.trans hd)
    rw [hk]
    exact hend

theorem ServeValid.cancelServe (hv : ServeValid decode s) (hh : s.handle = none) :
    ServeValid decode s.cancelServe := by
  unfold Served.cancelServe
  split
  · next b hs =>
    refine {hv.toCommon.frame hv.loop rfl id hv.called (fun _ => rfl) with
      unstarted := fun b' _ => hv.unstarted b hs
      early := fun _ => hh
      current := by simp
      fresh := by simp
      past := fun i c hc _ => hv.past i c hc (by simp [hs])
      dispatched := hv.dispatched
      why := by simp}
  · split
    · next hl => exact hv.still hl (Or.inr ⟨hh,_,rfl⟩)
    · exact hv
  · exact hv

theorem ServeValid.joinLoop (hv : ServeValid decode s) (hh : s.handle = none) :
    ServeValid decode s.joinLoop := by
  have ht : ServeValid decode {s with stop := .joiningLoop} :=
    hv.of_core rfl (fun _ => hh)
  have hc := ht.cancelServe hh
  unfold Served.joinLoop
  dsimp only
  split
  · exact hc.post _
  · exact hc

/-- A handler that changes only in its flags. -/
theorem update_taken {i : ℕ} {h h' : Handler R} (hh : s.handlers i = some h)
    (ht : h'.taken = h.taken) (j : ℕ) :
    (Function.update s.handlers i (some h') j).map Handler.taken =
      (s.handlers j).map Handler.taken := by
  by_cases hj : j = i
  · subst hj
    simp [hh,ht]
  · simp [hj]

theorem ServeValid.endHandler (hv : ServeValid decode s) {i : ℕ} {h : Handler R}
    (hh : s.handlers i = some h) : ServeValid decode (s.endHandler i h) := by
  have ht : ServeValid decode
      {s with handlers := Function.update s.handlers i (some {h with ended := true})} :=
    hv.frame hv.loop rfl rfl id hv.called (update_taken hh rfl)
  exact ht.post _

theorem ServeValid.cancelHandlers (hv : ServeValid decode s) :
    ServeValid decode s.cancelHandlers := by
  unfold Served.cancelHandlers
  split
  · next hs =>
    have hh : s.handle = none := hv.called (by simp [hs])
    split
    · exact hv.of_core rfl (fun _ => hh)
    · refine hv.frame hv.loop rfl rfl id (fun _ => hh) ?_
      intro j
      dsimp only
      split
      · rw [Option.map_map]
        rfl
      · rfl
  · exact hv

theorem ServeValid.idle_of_unstarted (hv : ServeValid decode s) {b : Bool}
    (hs : s.serve = .unstarted b) : Idle decode s 0 ∧ ∀ i, s.Dispatched decode i := by
  have hn := hv.unstarted b hs
  constructor
  · exact {hv with ended := by simp [hn], fresh := fun i _ => hn i}
  · rintro i h text item ⟨c,hc,_⟩ _
    simp [hn] at hc

theorem ServeValid.runTask (hv : ServeValid decode s) (x : TaskCallback) :
    ServeValid decode (s.runTask x) := by
  cases x with
  | serveStarts =>
    simp only [Served.runTask]
    split
    · next hs => exact (hv.idle_of_unstarted hs).1.endServe (hv.idle_of_unstarted hs).2 (hv.early hs)
    · next hs =>
      obtain ⟨hi,hd⟩ := hv.idle_of_unstarted hs
      split
      · next hh => exact hi.endServe hd (Option.isNone_iff_eq_none.mp hh)
      · exact hi.await hd
    · exact hv
  | handlerStarts i =>
    simp only [Served.runTask]
    split
    · next h hh =>
      split
      · exact hv
      · split
        · exact hv.endHandler hh
        · exact hv.frame hv.loop rfl rfl id hv.called (update_taken hh rfl)
    · exact hv
  | discardTask i => exact hv.of_core rfl hv.called
  | loopDone => exact hv.post _
  | wakeStop => exact hv.cancelHandlers
  | other => exact hv

/-- Every step keeps the facts. -/
theorem step_serveValid {a : ServedAction J E} (hv : ServeValid decode s)
    (he : step decode s a = some t) : ServeValid decode t := by
  cases step_move decode he with
  | thread hl => exact hv.still hl (Or.inl ⟨_,_,rfl⟩)
  | callback hl _ => exact hv.resume hl (by simp) (by simp)
  | @task x ks hb hr =>
    have hpop : Loop.step route s.loop .run = some {s.loop with ready := ks} := by
      simp [Loop.step,hb,hr]
    exact (hv.frame (t := {s with loop := {s.loop with ready := ks}}) (hv.loop.tail trivial hpop) rfl
      rfl id hv.called (fun _ => rfl)).runTask x
  | endStep hl => exact hv.resume hl (by simp) (by simp)
  | soon => exact hv.post _
  | handlerEnds _ hh _ _ => exact hv.endHandler hh
  | further _ _ => exact hv.of_core rfl hv.called
  | stop _ _ => exact hv.frame hv.loop rfl rfl (fun _ => rfl) (fun _ => rfl) (fun _ => rfl)
  | interrupted _ hs _ => exact hv.of_core rfl (fun _ => hv.called (by simp [hs]))
  | notWithdrawn _ hs => exact hv.of_core rfl (fun _ => hv.called (by simp [hs]))
  | withdrawn _ hs => exact hv.joinLoop (hv.called (by simp [hs]))
  | joined _ hs _ => exact hv.of_core rfl (fun _ => hv.called (by simp [hs]))
  | cancelLoop _ hs =>
    have hh : s.handle = none := hv.called (by simp [hs])
    exact ServeValid.cancelServe (s := {s with stopCancelled := true})
      (hv.of_core rfl hv.called) hh
  | cancelStop _ _ => exact hv.of_core rfl hv.called

theorem init_serveValid (handle : ℕ) : ServeValid decode (init handle : Served J R D E) where
  loop := Runs.Reachable.tail (.refl _) trivial (a := .soon .serveStarts) rfl
  handled i h hh := by cases hh
  uncancelled _ i c hc := by cases hc
  called h := absurd rfl h
  unstarted _ _ _ := rfl
  early h := by cases h
  current i h := by cases h
  fresh _ _ _ _ := rfl
  past i c hc := by cases hc
  dispatched i h text item ht := by
    obtain ⟨c,hc,_⟩ := ht
    cases hc
  why how h := by cases h

theorem reachable_serveValid {ok : Served J R D E → ServedAction J E → Prop} {handle : ℕ}
    (hs : Runs.Reachable (step decode) ok (init handle) s) : ServeValid decode s :=
  hs.induct (init_serveValid handle) (fun _ _ _ _ hv _ he => step_serveValid hv he)

/-- What the calls of `stop()` are at. -/
def control (s : Served J R D E) : Stop D E × Bool × Bool := (s.stop,s.stopCancelled,s.further)

theorem endServe_leaves (how : ServeEnd D E) : (s.endServe how).loop.trace = s.loop.trace ∧
    (s.endServe how).control = s.control := by
  unfold Served.endServe
  split <;> exact ⟨rfl,rfl⟩

theorem fail_leaves (e : Failure D E) :
    (s.fail e).loop.trace = s.loop.trace ∧ (s.fail e).control = s.control :=
  endServe_leaves (s := {s with failure := if s.handle.isNone then s.failure else some e}) _

theorem onTaken_leaves (i : ℕ) (v : Taken J) :
    (s.onTaken decode i v).loop.trace = s.loop.trace ∧
      (s.onTaken decode i v).control = s.control := by
  cases v with
  | nothing closed =>
    cases closed with
    | true => exact endServe_leaves _
    | false => exact ⟨rfl,rfl⟩
  | item h text =>
    simp only [Served.onTaken]
    split
    · exact fail_leaves _
    · exact ⟨rfl,rfl⟩
    · exact ⟨rfl,rfl⟩

/-- `_serve` adds nothing to what happened to the waits, and leaves `stop()` where it is. -/
theorem resume_leaves : (s.resume decode).loop.trace = s.loop.trace ∧
    (s.resume decode).control = s.control := by
  unfold Served.resume
  split
  · split
    · exact onTaken_leaves _ _
    · exact fail_leaves _
    · exact endServe_leaves _
    · exact ⟨rfl,rfl⟩
  · exact ⟨rfl,rfl⟩

theorem runTask_leaves (x : TaskCallback) : (s.runTask x).loop.trace = s.loop.trace ∧
    (x ≠ .wakeStop → (s.runTask x).control = s.control) := by
  cases x with
  | serveStarts =>
    simp only [Served.runTask]
    split
    · exact (endServe_leaves _).imp_right (fun h _ => h)
    · split
      · exact (endServe_leaves _).imp_right (fun h _ => h)
      · exact ⟨rfl,fun _ => rfl⟩
    · exact ⟨rfl,fun _ => rfl⟩
  | handlerStarts i =>
    simp only [Served.runTask]
    split
    · split
      · exact ⟨rfl,fun _ => rfl⟩
      · split <;> exact ⟨rfl,fun _ => rfl⟩
    · exact ⟨rfl,fun _ => rfl⟩
  | wakeStop =>
    refine ⟨?_,fun h => absurd rfl h⟩
    simp only [Served.runTask,Served.cancelHandlers]
    split
    · split <;> rfl
    · rfl
  | _ => exact ⟨rfl,fun _ => rfl⟩

/-- What the native side returns to `stop()`'s cancellation is nothing new. -/
theorem cancelServe_returned (hv : ServeValid decode s) {i : ℕ} {o : Except (Raised E) (Taken J)}
    (hm : .returned o ∈ view i s.cancelServe.loop.trace) : .returned o ∈ view i s.loop.trace := by
  unfold Served.cancelServe at hm
  split at hm
  · exact hm
  · split at hm
    · next hl =>
      apply (Loop.step_returned hv.loop hl hm).resolve_right
      rintro h
      cases h
    · exact hm
  · exact hm

theorem joinLoop_returned (hv : ServeValid decode s) (hh : s.handle = none) {i : ℕ}
    {o : Except (Raised E) (Taken J)} (hm : .returned o ∈ view i s.joinLoop.loop.trace) :
    .returned o ∈ view i s.loop.trace := by
  have ht : ServeValid decode {s with stop := .joiningLoop} :=
    hv.of_core rfl (fun _ => hh)
  unfold Served.joinLoop at hm
  dsimp only at hm
  split at hm
  · exact cancelServe_returned ht hm
  · exact cancelServe_returned ht hm

/-- Only the return of a wait's native call adds to what the waits were handed. -/
theorem step_returned {a : ServedAction J E} (hv : ServeValid decode s)
    (he : step decode s a = some t) {i : ℕ} {o : Except (Raised E) (Taken J)}
    (hm : .returned o ∈ view i t.loop.trace) :
    .returned o ∈ view i s.loop.trace ∨ a = .thread i (.callReturns o) := by
  cases step_move decode he with
  | thread hl =>
    apply (Loop.step_returned hv.loop hl hm).imp_right
    intro h
    cases h
    rfl
  | callback hl _ =>
    rw [resume_leaves.1] at hm
    apply (Loop.step_returned hv.loop hl hm).imp_right
    intro h
    cases h
  | task _ _ =>
    rw [(runTask_leaves _).1] at hm
    exact Or.inl hm
  | endStep hl =>
    rw [resume_leaves.1] at hm
    apply (Loop.step_returned hv.loop hl hm).imp_right
    intro h
    cases h
  | withdrawn _ hs => exact Or.inl (joinLoop_returned hv (hv.called (by simp [hs])) hm)
  | cancelLoop _ hs =>
    have ht : ServeValid decode {s with stopCancelled := true} :=
      hv.of_core rfl hv.called
    exact Or.inl (cancelServe_returned ht hm)
  | _ => exact Or.inl hm

variable (decode) in
/-- Each item the native side hands to a wait decodes, and not to `None`. -/
def Decodes (_ : Served J R D E) (a : ServedAction J E) : Prop :=
  ∀ i h text, a = .thread i (.callReturns (.ok (.item h text))) →
    ∃ item, decode text = .ok (some item)

theorem reachable_decodes {handle : ℕ}
    (hs : Runs.Reachable (step decode) (Decodes decode) (init handle) s) {i h : ℕ} {text : J}
    (hm : .returned (.ok (.item h text)) ∈ view i s.loop.trace) :
    ∃ item, decode text = .ok (some item) := by
  refine hs.induct (P := fun s => ∀ i h text,
    Event.returned (.ok (.item h text)) ∈ view i s.loop.trace →
    ∃ item, decode text = .ok (some item)) ?_ ?_ i h text hm
  · intro i h text hm
    cases hm
  · intro s a t hs ih ha he i h text hm
    rcases step_returned (reachable_serveValid hs) he hm with hold | rfl
    · exact ih i h text hold
    · exact ha i h text rfl

/-- The handles the item of a wait was dispatched with. -/
def dispatches (s : Served J R D E) (i : ℕ) : List ℕ := ((s.handlers i).map Handler.handle).toList

/-- The handles `release` was called with for a wait. -/
def releases (s : Served J R D E) (i : ℕ) : List ℕ :=
  (discarded (view i s.loop.trace)).filterMap Taken.handle?

/-- With nothing of the wait left to run, the handle of the item it was handed was given to
one handler or to `release`. -/
theorem ServeValid.accounted (hv : ServeValid decode s) {i : ℕ} {c : Call (Taken J) E}
    (hc : s.loop.calls i = some c) (hq : Quiescent (route i) (s.loop.callState i c)) {h : ℕ}
    {text : J} {item : R} (hm : .returned (.ok (.item h text)) ∈ view i s.loop.trace)
    (hx : decode text = .ok (some item)) : s.dispatches i ++ s.releases i = [h] := by
  have hr := Loop.reachable_call hv.loop hc
  rcases hq.result hr hm with ⟨hk,_,hd⟩ | ⟨hk,_,hd⟩
  · have hdisp := hv.dispatched i h text item ⟨c,hc,hk⟩ hx
    obtain ⟨h',hh,ht⟩ := Option.map_eq_some_iff.mp hdisp
    have hhandle : h'.handle = h := congrArg Prod.fst ht
    have hrel : discarded (view i s.loop.trace) = [] := hd
    simp [dispatches,releases,hh,hhandle,hrel]
  · have hrel : discarded (view i s.loop.trace) = [.item h text] := by
      simpa [route,Loop.callState] using hd
    have hno : s.handlers i = none := by
      cases hh : s.handlers i with
      | none => rfl
      | some h' =>
        obtain ⟨text',⟨c',hc',hk'⟩,_⟩ := hv.handled i h' hh
        obtain rfl : c = c' := Option.some.inj (hc.symm.trans hc')
        exact absurd (hk'.symm.trans hk) (by simp)
    simp [dispatches,releases,hno,hrel,Taken.handle?]

end Served
end MaculaPy.Serving
