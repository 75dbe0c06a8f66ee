import MaculaPy.Serving.Dispatch

/-! # Stopping a served procedure

The gather of the serving task calls back after that task is done, so behind the first
step of every handler it created: a handler is begun when `stop()` cancels it, and none is
created later.
-/
namespace MaculaPy.Serving
open Blocking Asyncio History
variable {J R D E : Type*}

/-- A callback on the way of the gather of the serving task. -/
def TaskCallback.joins : TaskCallback → Bool
  | .loopDone => true
  | .wakeStop => true
  | _ => false

namespace Served

/-- The callbacks of tasks on the queue. -/
def queue (s : Served J R D E) : List TaskCallback := Loop.foreign s.loop.ready

/-- The serving task is done. -/
def ServeOver (s : Served J R D E) : Prop := ∃ how, s.serve = .ended how

/-- The serving task and every handler's task are done. -/
def AllDone (s : Served J R D E) : Prop :=
  s.ServeOver ∧ ∀ i h, s.handlers i = some h → h.ended = true

/-- The facts of a stop, where `q` is what is queued. -/
structure StopFacts (q : List TaskCallback) (s : Served J R D E) : Prop where
  waiting : ∀ i h, s.handlers i = some h → h.begun = false → h.ended = false → .handlerStarts i ∈ q
  order : q.Pairwise (fun x y => x.joins = true → ∀ i, y ≠ .handlerStarts i)
  joined : ∀ x ∈ q, x.joins = true → s.ServeOver
  discards : ∀ i, .discardTask i ∈ q → ∃ h, s.handlers i = some h ∧ h.ended = true
  listed : ∀ i h, s.handlers i = some h → h.ended = false → i ∈ s.tasks
  withdrawn : ∀ i h, s.handlers i = some h → h.withdrawn = true → h.begun = true
  joining : ∀ is, s.stop = .joiningHandlers is → s.ServeOver ∧
    ∀ i h, s.handlers i = some h → h.ended = false → i ∈ is
  finished : s.stop = .ended .returned ∨ (∃ e, s.stop = .ended (.failed e)) → s.AllDone

/-- The facts of a stop, in a state of the loop. -/
def StopValid (s : Served J R D E) : Prop := StopFacts s.queue s

variable {decode : J → Except D (Option R)} {q : List TaskCallback} {s t : Served J R D E}

theorem not_over {x : Serve D E} (hs : s.serve = x) (hx : ∀ how, x ≠ .ended how) : ¬ s.ServeOver := by
  rintro ⟨how,ho⟩
  exact hx how (hs.symm.trans ho)

theorem StopFacts.frame (hv : StopFacts q s) (hs : s.ServeOver → t.ServeOver)
    (hh : t.handlers = s.handlers) (ht : t.tasks = s.tasks) (hp : t.stop = s.stop) :
    StopFacts q t where
  waiting := hh ▸ hv.waiting
  order := hv.order
  joined x hx hj := hs (hv.joined x hx hj)
  discards := hh ▸ hv.discards
  listed := by
    rw [hh,ht]
    exact hv.listed
  withdrawn := hh ▸ hv.withdrawn
  joining is hi := by
    obtain ⟨ho,hl⟩ := hv.joining is (hp ▸ hi)
    exact ⟨hs ho,hh ▸ hl⟩
  finished hf := by
    obtain ⟨ho,hl⟩ := hv.finished (hp ▸ hf)
    exact ⟨hs ho,hh ▸ hl⟩

/-- A callback leaves the queue, a first step when its handler is begun or done. -/
theorem StopFacts.pop {x : TaskCallback} (hv : StopFacts (x :: q) s)
    (hx : ∀ i h, x = .handlerStarts i → s.handlers i = some h → h.begun = false → h.ended = true) :
    StopFacts q s where
  waiting i h hh hb he := by
    rcases List.mem_cons.mp (hv.waiting i h hh hb he) with hm | hm
    · rw [hx i h hm.symm hh hb] at he
      cases he
    · exact hm
  order := (List.pairwise_cons.mp hv.order).2
  joined y hy hj := hv.joined y (List.mem_cons_of_mem x hy) hj
  discards i hi := hv.discards i (List.mem_cons_of_mem x hi)
  listed := hv.listed
  withdrawn := hv.withdrawn
  joining := hv.joining
  finished := hv.finished

/-- A callback that is no first step is queued behind the others. -/
theorem StopFacts.push {x : TaskCallback} (hv : StopFacts q s) (hx : ∀ i, x ≠ .handlerStarts i)
    (hj : x.joins = true → s.ServeOver)
    (hd : ∀ i, x = .discardTask i → ∃ h, s.handlers i = some h ∧ h.ended = true) :
    StopFacts (q ++ [x]) s := by
  refine {hv with waiting := ?_, order := ?_, joined := ?_, discards := ?_}
  · intro i h hh hb he
    exact List.mem_append_left _ (hv.waiting i h hh hb he)
  · rw [List.pairwise_append]
    refine ⟨hv.order,List.pairwise_singleton _ _,?_⟩
    intro y _ z hz _ i
    rw [List.mem_singleton.mp hz]
    exact hx i
  · intro y hy hyj
    rcases List.mem_append.mp hy with hm | hm
    · exact hv.joined y hm hyj
    · rw [List.mem_singleton.mp hm] at hyj
      exact hj hyj
  · intro i hi
    rcases List.mem_append.mp hi with hm | hm
    · exact hv.discards i hm
    · exact hd i (List.mem_singleton.mp hm).symm

@[simp] theorem post_queue (x : TaskCallback) : (s.post x).queue = s.queue ++ [x] := by
  simp [queue,Served.post]

theorem StopValid.post {x : TaskCallback} (hv : StopValid s) (hx : ∀ i, x ≠ .handlerStarts i)
    (hj : x.joins = true → s.ServeOver)
    (hd : ∀ i, x = .discardTask i → ∃ h, s.handlers i = some h ∧ h.ended = true) :
    StopValid (s.post x) := by
  have hp := (StopFacts.push hv hx hj hd).frame (t := s.post x) id rfl rfl rfl
  rw [← post_queue] at hp
  exact hp

/-- The facts do not read the calls of the loop. -/
theorem StopValid.loop {l : Loop ℕ TaskCallback (Taken J) E} (hv : StopValid s)
    (hl : Loop.foreign l.ready = s.queue) : StopValid {s with loop := l} := by
  have hq : queue {s with loop := l} = s.queue := hl
  unfold StopValid
  rw [hq]
  exact StopFacts.frame hv id rfl rfl rfl

theorem StopValid.endServe (hv : StopValid s) (how : ServeEnd D E) : StopValid (s.endServe how) := by
  have ht : StopValid {s with serve := .ended how} :=
    StopFacts.frame hv (fun _ => ⟨how,rfl⟩) rfl rfl rfl
  unfold Served.endServe
  split
  · exact ht.post (by simp) (fun _ => ⟨how,rfl⟩) (by simp)
  · exact ht

theorem StopValid.fail (hv : StopValid s) (e : Failure D E) : StopValid (s.fail e) :=
  StopValid.endServe (s := {s with failure := if s.handle.isNone then s.failure else some e})
    (StopFacts.frame hv id rfl rfl rfl) _

section Running
variable (hn : ¬ s.ServeOver)
include hn

/-- While the serving task is not done, no `stop()` is past its gather. -/
theorem StopFacts.await (hv : StopFacts q s) (i : ℕ) : StopFacts q (s.await i) where
  waiting := hv.waiting
  order := hv.order
  joined x hx hj := absurd (hv.joined x hx hj) hn
  discards := hv.discards
  listed := hv.listed
  withdrawn := hv.withdrawn
  joining is hi := absurd (hv.joining is hi).1 hn
  finished hf := absurd (hv.finished hf).1 hn

theorem StopValid.await (hv : StopValid s) (i : ℕ) : StopValid (s.await i) :=
  StopFacts.await hn hv i

theorem StopValid.dispatch (hv : StopValid s) {i : ℕ} (hi : s.handlers i = none) (handle : ℕ)
    (item : R) : StopValid (s.dispatch i handle item) := by
  have hq : (s.dispatch i handle item).queue = s.queue ++ [.handlerStarts i] := post_queue _
  have hold : ∀ {j h}, (s.dispatch i handle item).handlers j = some h → j ≠ i →
      s.handlers j = some h := by
    intro j h hh hj
    simpa [Served.dispatch,hj] using hh
  have hnew : ∀ {h}, (s.dispatch i handle item).handlers i = some h →
      h = {handle := handle, item := item} := by
    intro h hh
    simpa [Served.dispatch] using hh.symm
  have htasks : (s.dispatch i handle item).tasks = s.tasks ++ [i] := rfl
  unfold StopValid
  rw [hq]
  constructor
  · intro j h hh hb he
    by_cases hj : j = i
    · simp [hj]
    · exact List.mem_append_left _ (hv.waiting j h (hold hh hj) hb he)
  · rw [List.pairwise_append]
    refine ⟨hv.order,List.pairwise_singleton _ _,?_⟩
    intro x hx y _ hxj
    exact absurd (hv.joined x hx hxj) hn
  · intro x hx hj
    rcases List.mem_append.mp hx with hm | hm
    · exact absurd (hv.joined x hm hj) hn
    · rw [List.mem_singleton.mp hm] at hj
      cases hj
  · intro j hj
    have hm : .discardTask j ∈ s.queue := by simpa using hj
    obtain ⟨h,hh,he⟩ := hv.discards j hm
    have hne : j ≠ i := by
      rintro rfl
      simp [hi] at hh
    exact ⟨h,by simpa [Served.dispatch,hne] using hh,he⟩
  · intro j h hh he
    rw [htasks]
    by_cases hj : j = i
    · simp [hj]
    · exact List.mem_append_left _ (hv.listed j h (hold hh hj) he)
  · intro j h hh hw
    by_cases hj : j = i
    · subst hj
      rw [hnew hh] at hw
      cases hw
    · exact hv.withdrawn j h (hold hh hj) hw
  · intro is hs
    exact absurd (hv.joining is hs).1 hn
  · intro hf
    exact absurd (hv.finished hf).1 hn

theorem StopValid.onTaken (hv : StopValid s) {i : ℕ} (hi : s.handlers i = none) (v : Taken J) :
    StopValid (s.onTaken decode i v) := by
  cases v with
  | nothing closed =>
    cases closed with
    | true => exact hv.endServe _
    | false => exact hv.await hn _
  | item h text =>
    simp only [Served.onTaken]
    split
    · exact hv.fail _
    · exact hv.await hn _
    · exact StopValid.await (s := s.dispatch i h _) hn (hv.dispatch hn hi h _) _

end Running

theorem StopValid.resume (hv : StopValid s) (hi : ∀ i, s.serve = .waiting i → s.handlers i = none) :
    StopValid (s.resume decode) := by
  unfold Served.resume
  split
  · next i hs =>
    have hn : ¬ s.ServeOver := not_over hs (by simp)
    split
    · exact hv.onTaken hn (hi i hs) _
    · exact hv.fail _
    · exact hv.endServe _
    · exact hv
  · exact hv

theorem StopValid.cancelServe (hv : StopValid s) : StopValid s.cancelServe := by
  unfold Served.cancelServe
  split
  · next b hs =>
    exact StopFacts.frame hv (fun ho => absurd ho (not_over hs (by simp))) rfl rfl rfl
  · split
    · next hl => exact hv.loop (Loop.step_foreign hl (by simp) (by simp))
    · exact hv
  · exact hv

theorem StopValid.joinLoop (hv : StopValid s) : StopValid s.joinLoop := by
  have ht : StopValid {s with stop := .joiningLoop} :=
    {hv with joining := by simp, finished := by simp}
  have hc := ht.cancelServe
  unfold Served.joinLoop
  dsimp only
  split
  · next how ho => exact hc.post (by simp) (fun _ => ⟨how,ho⟩) (by simp)
  · exact hc

theorem eq_false_of_imp {a b : Bool} (hab : a = true → b = true) (hb : b = false) : a = false := by
  cases a with
  | false => rfl
  | true => simp [hab rfl] at hb

/-- The same handlers, each as far as it was or further. -/
theorem StopFacts.advance (hv : StopFacts q s) {f : ℕ → Option (Handler R)}
    (hdom : ∀ i h, s.handlers i = some h → ∃ h', f i = some h')
    (hback : ∀ i h', f i = some h' → ∃ h, s.handlers i = some h ∧
      (h'.withdrawn = true → h'.begun = true) ∧ (h.begun = true → h'.begun = true) ∧
      (h.ended = true → h'.ended = true)) : StopFacts q {s with handlers := f} := by
  constructor
  · intro i h' hf hb he
    obtain ⟨h,hh,_,hbegun,hended⟩ := hback i h' hf
    exact hv.waiting i h hh (eq_false_of_imp hbegun hb) (eq_false_of_imp hended he)
  · exact hv.order
  · exact hv.joined
  · intro i hi
    obtain ⟨h,hh,he⟩ := hv.discards i hi
    obtain ⟨h',hf⟩ := hdom i h hh
    obtain ⟨d,hd,_,_,hended⟩ := hback i h' hf
    obtain rfl : h = d := Option.some.inj (hh.symm.trans hd)
    exact ⟨h',hf,hended he⟩
  · intro i h' hf he
    obtain ⟨h,hh,_,_,hended⟩ := hback i h' hf
    exact hv.listed i h hh (eq_false_of_imp hended he)
  · intro i h' hf hw
    obtain ⟨h,_,hbegun,_⟩ := hback i h' hf
    exact hbegun hw
  · intro is hs
    obtain ⟨ho,hl⟩ := hv.joining is hs
    refine ⟨ho,fun i h' hf he => ?_⟩
    obtain ⟨h,hh,_,_,hended⟩ := hback i h' hf
    exact hl i h hh (eq_false_of_imp hended he)
  · intro hs
    obtain ⟨ho,hl⟩ := hv.finished hs
    refine ⟨ho,fun i h' hf => ?_⟩
    obtain ⟨h,hh,_,_,hended⟩ := hback i h' hf
    exact hended (hl i h hh)

/-- One handler gets further. -/
theorem StopFacts.update (hv : StopFacts q s) {i : ℕ} {h : Handler R} (hh : s.handlers i = some h)
    (h' : Handler R) (hw : h'.withdrawn = h.withdrawn) (hb : h.begun = true → h'.begun = true)
    (he : h.ended = true → h'.ended = true) :
    StopFacts q {s with handlers := Function.update s.handlers i (some h')} := by
  refine hv.advance ?_ ?_
  · intro j d hd
    by_cases hj : j = i
    · exact ⟨h',by simp [hj]⟩
    · exact ⟨d,by simpa [hj] using hd⟩
  · intro j d' hd
    by_cases hj : j = i
    · subst hj
      obtain rfl : h' = d' := by simpa using hd
      exact ⟨h,hh,fun hx => hb (hv.withdrawn j h hh (hw ▸ hx)),hb,he⟩
    · have hold : s.handlers j = some d' := by simpa [hj] using hd
      exact ⟨d',hold,hv.withdrawn j d' hold,id,id⟩

/-- The handler's task is done, in a state whose queue holds all the facts ask for. -/
theorem StopValid.endHandler {i : ℕ} {h : Handler R}
    (hv : StopValid {s with handlers := Function.update s.handlers i (some {h with ended := true})}) :
    StopValid (s.endHandler i h) := by
  apply StopValid.post hv (by simp) (by simp [TaskCallback.joins])
  intro j hj
  obtain rfl : i = j := by simpa using hj
  exact ⟨{h with ended := true},by simp,rfl⟩
/-- Where no handler's first step is queued, every handler that is cancelled is begun. -/
theorem StopFacts.withdraw (hv : StopFacts q s) (hq : ∀ i, .handlerStarts i ∉ q) :
    StopFacts q {s with
      handlers := fun i => if i ∈ s.tasks then (s.handlers i).map Handler.withdraw
        else s.handlers i} := by
  have hbegun : ∀ i h, s.handlers i = some h → h.ended = false → h.begun = true := by
    intro i h hh he
    by_contra hb
    exact hq i (hv.waiting i h hh (by simpa using hb) he)
  refine hv.advance ?_ ?_
  · intro i h hh
    by_cases hm : i ∈ s.tasks
    · exact ⟨h.withdraw,by simp [hm,hh]⟩
    · exact ⟨h,by simp [hm,hh]⟩
  · intro i h' hf
    split at hf
    · obtain ⟨h,hh,rfl⟩ := Option.map_eq_some_iff.mp hf
      refine ⟨h,hh,fun hw => ?_,id,id⟩
      cases he : h.ended with
      | false => exact hbegun i h hh he
      | true => exact hv.withdrawn i h hh (by simpa [Handler.withdraw,he] using hw)
    · exact ⟨h',hf,hv.withdrawn i h' hf,id,id⟩

theorem StopFacts.cancelHandlers (hv : StopFacts q s) (hq : ∀ i, .handlerStarts i ∉ q)
    (ho : s.ServeOver) : StopFacts q s.cancelHandlers := by
  unfold Served.cancelHandlers
  split
  · split
    · exact {hv with joining := by simp, finished := by simp}
    · have hw := hv.withdraw hq
      refine {hw with joining := ?_, finished := by simp}
      intro is hs
      obtain rfl : s.tasks = is := by simpa using hs
      exact ⟨ho,hw.listed⟩
  · exact hv

theorem cancelHandlers_queue : s.cancelHandlers.queue = s.queue := by
  unfold Served.cancelHandlers
  split
  · split <;> rfl
  · rfl

/-- A handler takes its first step, or is done before it when it was cancelled. -/
theorem StopFacts.handlerStarts {i : ℕ} (hv : StopFacts (.handlerStarts i :: s.queue) s) :
    StopValid (s.runTask (.handlerStarts i)) := by
  have hpop : ∀ {t : Served J R D E}, StopFacts (.handlerStarts i :: s.queue) t →
      (∀ h, t.handlers i = some h → h.begun = false → h.ended = true) → StopFacts s.queue t := by
    intro t ht hi
    apply ht.pop
    intro j h hj
    cases hj
    exact hi h
  simp only [Served.runTask]
  split
  · next h hh =>
    split
    · next he =>
      refine hpop hv (fun d hd _ => ?_)
      obtain rfl : h = d := Option.some.inj (hh.symm.trans hd)
      exact he
    · split
      · refine StopValid.endHandler (hpop (hv.update hh _ rfl id (fun _ => rfl)) (fun d hd _ => ?_))
        obtain rfl : {h with ended := true} = d := by simpa using hd
        rfl
      · refine hpop (hv.update hh _ rfl (fun _ => rfl) id) (fun d hd hb => ?_)
        obtain rfl : {h with begun := true} = d := by simpa using hd
        cases hb
  · next hh => exact hpop hv (fun d hd _ => by simp [hh] at hd)

/-- A handler that is done leaves `_tasks`. -/
theorem StopFacts.discardTask {i : ℕ} (hv : StopFacts (.discardTask i :: s.queue) s) :
    StopValid (s.runTask (.discardTask i)) := by
  have hp : StopValid s := hv.pop (by simp)
  obtain ⟨h,hh,he⟩ := hv.discards i List.mem_cons_self
  refine {hp with listed := ?_}
  intro j d hd hde
  have hj : j ≠ i := by
    rintro rfl
    obtain rfl : h = d := Option.some.inj (hh.symm.trans hd)
    rw [he] at hde
    cases hde
  exact List.mem_filter.mpr ⟨hv.listed j d hd hde,by simpa using hj⟩

/-- `stop()` wakes up behind the first steps of all handlers. -/
theorem StopFacts.wakeStop (hv : StopFacts (.wakeStop :: s.queue) s) :
    StopValid (s.runTask .wakeStop) := by
  have hq : ∀ i, .handlerStarts i ∉ s.queue := fun i hi =>
    (List.pairwise_cons.mp hv.order).1 _ hi rfl i rfl
  have hc := StopFacts.cancelHandlers (hv.pop (by simp)) hq
    (hv.joined .wakeStop List.mem_cons_self rfl)
  rw [← cancelHandlers_queue] at hc
  exact hc

/-- The loop runs a callback of a task, taken off the queue. -/
theorem StopFacts.runTask {x : TaskCallback} (hv : StopFacts (x :: s.queue) s) :
    StopValid (s.runTask x) := by
  cases x with
  | serveStarts =>
    have hp : StopValid s := hv.pop (by simp)
    simp only [Served.runTask]
    split
    · exact hp.endServe _
    · next hs =>
      have hn : ¬ s.ServeOver := not_over hs (by simp)
      split
      · exact hp.endServe _
      · exact hp.await hn _
    · exact hp
  | handlerStarts i => exact hv.handlerStarts
  | discardTask i => exact hv.discardTask
  | loopDone =>
    have hp : StopValid s := hv.pop (by simp)
    exact hp.post (by simp) (fun _ => hv.joined .loopDone List.mem_cons_self rfl) (by simp)
  | wakeStop => exact hv.wakeStop
  | other => exact hv.pop (by simp)

/-- The handlers `stop()` waits for being done, they all are. -/
theorem StopFacts.allDone (hv : StopFacts q s) {is : List ℕ} (hs : s.stop = .joiningHandlers is)
    (hd : s.done is = true) : s.AllDone := by
  obtain ⟨ho,hl⟩ := hv.joining is hs
  refine ⟨ho,fun i h hh => ?_⟩
  by_contra he
  have hm := List.all_eq_true.mp hd i (hl i h hh (by simpa using he))
  rw [hh] at hm
  exact he hm

/-- Every step keeps the facts. -/
theorem step_stopValid {a : ServedAction J E} (hd : ServeValid decode s) (hv : StopValid s)
    (he : step decode s a = some t) : StopValid t := by
  have hcurrent : ∀ i, s.serve = .waiting i → s.handlers i = none := by
    intro i hs
    cases hh : s.handlers i with
    | none => rfl
    | some h =>
      obtain ⟨_,⟨c,hc,hk⟩,_⟩ := hd.handled i h hh
      obtain ⟨c',hc',hend⟩ := hd.current i hs
      obtain rfl : c = c' := Option.some.inj (hc.symm.trans hc')
      simp [hk,Task.ended] at hend
  cases step_move decode he with
  | thread hl => exact hv.loop (Loop.step_foreign hl (by simp) (by simp))
  | callback hl hr =>
    exact StopValid.resume (hv.loop (Loop.step_foreign hl (by simp) (fun _ => hr))) hcurrent
  | @task x ks _ hr =>
    have hq : s.queue = x :: Loop.foreign ks := by simp [queue,hr]
    unfold StopValid at hv
    rw [hq] at hv
    exact StopFacts.runTask (s := {s with loop := {s.loop with ready := ks}})
      (hv.frame id rfl rfl rfl)
  | endStep hl =>
    exact StopValid.resume (hv.loop (Loop.step_foreign hl (by simp) (by simp))) hcurrent
  | soon => exact hv.post (by simp) (by simp [TaskCallback.joins]) (by simp)
  | handlerEnds _ hh _ _ =>
    exact StopValid.endHandler (StopFacts.update hv hh _ rfl id (fun _ => rfl))
  | further _ _ => exact StopFacts.frame hv id rfl rfl rfl
  | stop _ _ => exact {hv with joining := by simp, finished := by simp}
  | interrupted _ _ _ => exact {hv with joining := by simp, finished := by simp}
  | notWithdrawn _ _ => exact {hv with joining := by simp, finished := by simp}
  | withdrawn _ _ => exact hv.joinLoop
  | @joined is _ hs hdone =>
    have hall : s.AllDone := StopFacts.allDone hv hs hdone
    exact {hv with joining := by simp, finished := fun _ => hall}
  | cancelLoop _ _ => exact StopValid.cancelServe (StopFacts.frame hv id rfl rfl rfl)
  | cancelStop _ _ => exact StopFacts.frame hv id rfl rfl rfl

theorem init_stopValid (handle : ℕ) : StopValid (init handle : Served J R D E) where
  waiting i h hh := by cases hh
  order := by simp [queue,init,Loop.foreign]
  joined x hx hj := by
    obtain rfl : x = .serveStarts := by simpa [queue,init,Loop.foreign] using hx
    cases hj
  discards i hi := by simp [queue,init,Loop.foreign] at hi
  listed i h hh := by cases hh
  withdrawn i h hh := by cases hh
  joining is hs := by cases hs
  finished hf := by simp [init] at hf

theorem reachable_stopValid {ok : Served J R D E → ServedAction J E → Prop} {handle : ℕ}
    (hs : Runs.Reachable (step decode) ok (init handle) s) : StopValid s :=
  hs.induct (init_stopValid handle)
    (fun _ _ _ hs hv _ he => step_stopValid (reachable_serveValid hs) hv he)

/-- `Task.cancel()` on a task that is done does nothing. -/
theorem withdraw_of_ended {h : Handler R} (he : h.ended = true) : h.withdraw = h := by
  cases h
  simp_all [Handler.withdraw]

theorem resume_of_over (ho : s.ServeOver) : s.resume decode = s := by
  exact resume_of_not_waiting (fun i hi => not_over hi (by simp) ho)

theorem cancelServe_of_over (ho : s.ServeOver) : s.cancelServe = s := by
  obtain ⟨how,hh⟩ := ho
  simp [Served.cancelServe,hh]

theorem joinLoop_of_over (ho : s.ServeOver) :
    s.joinLoop = {s with stop := .joiningLoop}.post .loopDone := by
  unfold Served.joinLoop
  rw [cancelServe_of_over (s := {s with stop := .joiningLoop}) ho]
  obtain ⟨how,hh⟩ := ho
  simp only [hh]

/-- Once all is done, it stays as it is. -/
theorem AllDone.runTask (hd : s.AllDone) (x : TaskCallback) :
    (s.runTask x).serve = s.serve ∧ (s.runTask x).handlers = s.handlers := by
  obtain ⟨⟨how,ho⟩,hl⟩ := hd
  cases x with
  | serveStarts => simp [Served.runTask,ho]
  | handlerStarts i =>
    simp only [Served.runTask]
    split
    · next h hh => simp [hl i h hh]
    · exact ⟨rfl,rfl⟩
  | discardTask i => exact ⟨rfl,rfl⟩
  | loopDone => exact ⟨rfl,rfl⟩
  | wakeStop =>
    simp only [Served.runTask,Served.cancelHandlers]
    split
    · split
      · exact ⟨rfl,rfl⟩
      · refine ⟨rfl,?_⟩
        funext i
        have hw : (s.handlers i).map Handler.withdraw = s.handlers i := by
          cases hh : s.handlers i with
          | none => rfl
          | some h => exact congrArg some (withdraw_of_ended (hl i h hh))
        dsimp only
        rw [hw,ite_self]
    · exact ⟨rfl,rfl⟩
  | other => exact ⟨rfl,rfl⟩

theorem AllDone.unchanged {a : ServedAction J E} (hd : s.AllDone) (he : step decode s a = some t) :
    t.serve = s.serve ∧ t.handlers = s.handlers := by
  cases step_move decode he with
  | thread _ => exact ⟨rfl,rfl⟩
  | @callback l _ _ =>
    rw [resume_of_over (s := {s with loop := l}) hd.1]
    exact ⟨rfl,rfl⟩
  | @task x ks _ _ => exact AllDone.runTask (s := {s with loop := {s.loop with ready := ks}}) hd x
  | @endStep l _ =>
    rw [resume_of_over (s := {s with loop := l}) hd.1]
    exact ⟨rfl,rfl⟩
  | handlerEnds _ hh _ hend =>
    rw [hd.2 _ _ hh] at hend
    cases hend
  | withdrawn _ _ =>
    rw [joinLoop_of_over hd.1]
    exact ⟨rfl,rfl⟩
  | cancelLoop _ _ =>
    rw [cancelServe_of_over (s := {s with stopCancelled := true}) hd.1]
    exact ⟨rfl,rfl⟩
  | _ => exact ⟨rfl,rfl⟩

theorem AllDone.stays {a : ServedAction J E} (hd : s.AllDone) (he : step decode s a = some t) :
    t.AllDone := by
  obtain ⟨hs,hh⟩ := hd.unchanged he
  obtain ⟨⟨how,ho⟩,hl⟩ := hd
  exact ⟨⟨how,hs.trans ho⟩,hh ▸ hl⟩

theorem AllDone.run {ok : Served J R D E → ServedAction J E → Prop} {as : List (ServedAction J E)}
    (hd : s.AllDone) (hr : Runs.Run (step decode) ok s as t) : t.handlers = s.handlers := by
  refine (hr.invariant (P := fun t => t.AllDone ∧ t.handlers = s.handlers) ?_ ⟨hd,rfl⟩).2
  rintro u a v ⟨hu,hh⟩ _ he
  exact ⟨hu.stays he,((hu.unchanged he).2).trans hh⟩

/-- The first `stop()` returned, or raised what had stopped serving early. -/
def StopCompleted (s : Served J R D E) : Prop :=
  s.stop = .ended .returned ∨ ∃ e, s.stop = .ended (.failed e)

/-- In every run whose items decode: each handler that `stop()` cancels is begun; once the
first `stop()` has returned, or raised what stopped serving early, the serving task and
every handler's task are done and no handler starts any more; and with nothing of a wait
left to run, the handle of its item was given to one handler or to `release`. -/
theorem quiescent_after_stop {handle : ℕ}
    (hs : Runs.Reachable (step decode) (Decodes decode) (init handle) s) :
    (∀ i h, s.handlers i = some h → h.withdrawn = true → h.begun = true) ∧
      (s.StopCompleted → s.AllDone ∧
        (∀ as t, Runs.Run (step decode) Runs.free s as t → t.handlers = s.handlers) ∧
        ∀ i c h text, s.loop.calls i = some c →
          .returned (.ok (.item h text)) ∈ view i s.loop.trace →
          Quiescent (route i) (s.loop.callState i c) → s.dispatches i ++ s.releases i = [h]) := by
  have hv := reachable_serveValid hs
  have hst := reachable_stopValid hs
  refine ⟨hst.withdrawn,fun hc => ?_⟩
  have hd : s.AllDone := hst.finished hc
  refine ⟨hd,fun as t hr => hd.run hr,?_⟩
  intro i c h text hc hm hq
  obtain ⟨item,hx⟩ := reachable_decodes hs hm
  exact hv.accounted hc hq hm hx

/-- The first wait takes an item, whose handler begins and does not end by itself. -/
def oneHandler : List (ServedAction ℕ Unit) :=
  [.run,.thread 0 (.newToken 1),.thread 0 .work,.thread 0 .work,.thread 0 .work,
    .thread 0 (.callReturns (.ok (.item 7 70))),.thread 0 .work,.thread 0 .work,.thread 0 .work,
    .run,.run,.run,.run,.run,.run]

/-- `stop()` ends the wait under way, the serving task and the handler. -/
def stopped : List (ServedAction ℕ Unit) :=
  oneHandler ++ [.stop none,.withdrawn (.ok ()),.run,.run,.endStep,.endStep,.endStep,.endStep,
    .thread 1 (.newToken 2),.thread 1 .work,.thread 1 .work,.thread 1 .work,.thread 1 .work,
    .thread 1 (.callReturns (.error (.nativeCancelled "cancelled"))),.thread 1 .work,
    .thread 1 .work,.thread 1 .work,.run,.run,.run,.handlerEnds 0,.joined,.run,.run,.run]

/-- `decode_payload` of a text that is its own item. -/
def itself (text : ℕ) : Except Empty (Option ℕ) := .ok (some text)

theorem decodes_itself {s : Served ℕ ℕ Empty Unit} (as : List (ServedAction ℕ Unit))
    (he : Runs.exec (step itself) (init 1) as = some s) :
    Runs.Reachable (step itself) (Decodes itself) (init 1) s :=
  .of_exec_of_forall as he (fun _ _ _ _ _ text _ => ⟨text,rfl⟩)

theorem quiescent_after_stop_running : ∃ s : Served ℕ ℕ Empty Unit,
    Runs.exec (step itself) (init 1) stopped = some s ∧ s.AllDone ∧
      s.dispatches 0 ++ s.releases 0 = [7] := by
  refine ⟨_,rfl,?_⟩
  have h := (quiescent_after_stop (decodes_itself stopped rfl)).2 (Or.inl rfl)
  refine ⟨h.1,h.2.2 0 _ 7 70 rfl (List.mem_of_getElem? (i := 3) rfl) ?_⟩
  exact quiescent_iff.mpr ⟨⟨_,rfl⟩,rfl,rfl,rfl⟩

end Served
end MaculaPy.Serving
