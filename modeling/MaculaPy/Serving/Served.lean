import MaculaPy.Blocking.Waits

/-! # A served procedure

`Served` on the event loop: the serving task with its native waits, the handler tasks it
creates, and `stop()`. The waits are calls of the loop; first steps of tasks, the
callbacks of `_tasks.discard` and those of `asyncio.gather` on the serving task travel in
its ready queue. What a handler does once it has begun, and how long it takes, is left
open, and so is which task calls `stop()`.
-/
namespace MaculaPy.Serving
open Blocking

/-- What `macula_served_next` gave one wait: an item's text with the handle written to
`out_item`, or no text, with the value of `closed`. -/
inductive Taken (J : Type*)
  | item (handle : ℕ) (text : J)
  | nothing (closed : Bool)

/-- The callbacks of tasks, a handler's named by the wait that took its item. -/
inductive TaskCallback
  | serveStarts
  | handlerStarts (i : ℕ)
  | discardTask (i : ℕ)
  | loopDone
  | wakeStop
  | other
  deriving DecidableEq, Repr

/-- An exception that ends serving. -/
inductive Failure (D E : Type*)
  | decode (error : D)
  | wait (error : Raised E)

inductive ServeEnd (D E : Type*)
  | closed
  | assertion
  | cancelled
  | failed (error : Failure D E)

/-- The task of `_serve`: not begun, and perhaps cancelled already, in one of its waits, or
ended. -/
inductive Serve (D E : Type*)
  | unstarted (mustCancel : Bool)
  | waiting (i : ℕ)
  | ended (how : ServeEnd D E)

/-- A handler's task: whether it ran its first step, whether `stop()` cancelled it, and
whether it is done. -/
structure Handler (R : Type*) where
  handle : ℕ
  item : R
  begun : Bool := false
  withdrawn : Bool := false
  ended : Bool := false

inductive StopEnd (D E : Type*)
  | returned
  | failed (error : Failure D E)
  | notWithdrawn (error : E)
  | cancelled

/-- The first call of `stop()`, by the await it is at. -/
inductive Stop (D E : Type*)
  | notCalled
  | withdrawing
  | joiningLoop
  | joiningHandlers (children : List ℕ)
  | ended (how : StopEnd D E)

structure Served (J R D E : Type*) where
  loop : Loop ℕ TaskCallback (Taken J) E
  handle : Option ℕ
  serve : Serve D E
  handlers : ℕ → Option (Handler R)
  tasks : List ℕ
  failure : Option (Failure D E)
  stop : Stop D E
  stopCancelled : Bool
  caller : Option ℕ
  /-- A further `stop()` has returned. -/
  further : Bool

inductive ServedAction (J E : Type*)
  | thread (i : ℕ) (a : ThreadAction (Taken J) E)
  | run
  | endStep
  | soon
  | handlerEnds (i : ℕ)
  | stop (caller : Option ℕ)
  | withdrawn (outcome : Except E Unit)
  | joined
  | cancelStop

/-- `_next_item` gives `discard` to `run_blocking`. -/
def route (_ : ℕ) : Route := .blocking true

variable {J R D E : Type*}

/-- `task.cancel("withdrawn")`. -/
def Handler.withdraw (h : Handler R) : Handler R := {h with withdrawn := h.withdrawn || !h.ended}

def Stop.pending : Stop D E → Bool
  | .notCalled => false
  | .ended _ => false
  | _ => true

namespace Served

def init (handle : ℕ) : Served J R D E where
  loop := ⟨fun _ => none,[.inr .serveStarts],none,[],[]⟩
  handle := some handle
  serve := .unstarted false
  handlers _ := none
  tasks := []
  failure := none
  stop := .notCalled
  stopCancelled := false
  caller := none
  further := false

/-- `loop.call_soon`. -/
def post (s : Served J R D E) (x : TaskCallback) : Served J R D E :=
  {s with loop := {s.loop with ready := s.loop.ready ++ [.inr x]}}

/-- `_serve` is at its next wait. -/
def await (s : Served J R D E) (i : ℕ) : Served J R D E :=
  {s with
    loop := {s.loop with calls := Function.update s.loop.calls i (some Blocking.start)}
    serve := .waiting i}

/-- The serving task is done; the gather of a `stop()` that waits for it hears of it. -/
def endServe (s : Served J R D E) (how : ServeEnd D E) : Served J R D E :=
  let t := {s with serve := .ended how}
  match s.stop with
  | .joiningLoop => t.post .loopDone
  | _ => t

/-- The last `except` clause of `_serve`. -/
def fail (s : Served J R D E) (e : Failure D E) : Served J R D E :=
  {s with failure := if s.handle.isNone then s.failure else some e}.endServe (.failed e)

/-- `asyncio.create_task(self._dispatch(...))` and its entry in `_tasks`. -/
def dispatch (s : Served J R D E) (i handle : ℕ) (item : R) : Served J R D E :=
  {s with
    handlers := Function.update s.handlers i (some {handle := handle, item := item})
    tasks := s.tasks ++ [i]}.post (.handlerStarts i)

variable (decode : J → Except D (Option R))

/-- `_next_item` and `_serve` after the wait: `decode` is `decode_payload`, with no item for
a JSON null. -/
def onTaken (s : Served J R D E) (i : ℕ) : Taken J → Served J R D E
  | .nothing true => s.endServe .closed
  | .nothing false => s.await (i + 1)
  | .item h text =>
    match decode text with
    | .error e => s.fail (.decode e)
    | .ok none => s.await (i + 1)
    | .ok (some item) => (s.dispatch i h item).await (i + 1)

/-- `_serve` goes on when its wait is over. -/
def resume (s : Served J R D E) : Served J R D E :=
  match s.serve with
  | .waiting i =>
    match (s.loop.calls i).map Call.task with
    | some (.returned v) => s.onTaken decode i v
    | some (.raised e) => s.fail (.wait e)
    | some .cancelled => s.endServe .cancelled
    | _ => s
  | _ => s

/-- `self._loop.cancel()`. -/
def cancelServe (s : Served J R D E) : Served J R D E :=
  match s.serve with
  | .unstarted _ => {s with serve := .unstarted true}
  | .waiting i =>
    match Loop.step route s.loop (.cancelTask i) with
    | some l => {s with loop := l}
    | none => s
  | .ended _ => s

/-- A handler's task is done, and its done callback is scheduled. -/
def endHandler (s : Served J R D E) (i : ℕ) (h : Handler R) : Served J R D E :=
  {s with handlers := Function.update s.handlers i (some {h with ended := true})}.post
    (.discardTask i)

/-- `stop()` after the gather of the serving task: it cancels the handlers and waits for
them. -/
def cancelHandlers (s : Served J R D E) : Served J R D E :=
  match s.stop with
  | .joiningLoop =>
    if s.stopCancelled then {s with stop := .ended .cancelled}
    else
      {s with
        handlers := fun i => if i ∈ s.tasks then (s.handlers i).map Handler.withdraw else s.handlers i
        stop := .joiningHandlers s.tasks}
  | _ => s

/-- The loop runs a callback of a task; a task cancelled before its first step never runs
its body. -/
def runTask (s : Served J R D E) : TaskCallback → Served J R D E
  | .serveStarts =>
    match s.serve with
    | .unstarted true => s.endServe .cancelled
    | .unstarted false => if s.handle.isNone then s.endServe .assertion else s.await 0
    | _ => s
  | .handlerStarts i =>
    match s.handlers i with
    | some h =>
      if h.ended then s
      else if h.withdrawn then s.endHandler i h
      else {s with handlers := Function.update s.handlers i (some {h with begun := true})}
    | none => s
  | .discardTask i => {s with tasks := s.tasks.filter (· ≠ i)}
  | .loopDone => s.post .wakeStop
  | .wakeStop => s.cancelHandlers
  | .other => s

/-- The tasks of the handlers named are done. -/
def done (s : Served J R D E) (is : List ℕ) : Bool :=
  is.all (fun i => (s.handlers i).all Handler.ended)

/-- `stop()` after the withdrawal: it cancels the serving task and waits for it. -/
def joinLoop (s : Served J R D E) : Served J R D E :=
  let t := {s with stop := .joiningLoop}.cancelServe
  match t.serve with
  | .ended _ => t.post .loopDone
  | _ => t

/-- What `stop()` ends with after its last await. -/
def stopEnd (s : Served J R D E) : StopEnd D E :=
  if s.stopCancelled then .cancelled
  else match s.failure with
    | some e => .failed e
    | none => .returned

/-- A step that other code takes on the loop thread, between callbacks: a handler ends, a
task calls `stop()`, and the task in `stop()` wakes up from an await or is cancelled. -/
def taskStep (s : Served J R D E) : ServedAction J E → Option (Served J R D E)
  | .handlerEnds i =>
    match s.handlers i with
    | some h =>
      if h.begun && !h.ended && !(s.stop.pending && s.caller = some i) then some (s.endHandler i h)
      else none
    | none => none
  | .stop caller =>
    match s.handle with
    | none => some {s with further := true}
    | some _ => some {s with handle := none, stop := .withdrawing, caller := caller}
  | .withdrawn outcome =>
    match s.stop with
    | .withdrawing =>
      if s.stopCancelled then some {s with stop := .ended .cancelled}
      else match outcome with
        | .error e => some {s with stop := .ended (.notWithdrawn e)}
        | .ok () => some s.joinLoop
    | _ => none
  | .joined =>
    match s.stop with
    | .joiningHandlers is => if s.done is then some {s with stop := .ended s.stopEnd} else none
    | _ => none
  | .cancelStop =>
    match s.stop with
    | .joiningLoop => some {s with stopCancelled := true}.cancelServe
    | st => if st.pending then some {s with stopCancelled := true} else none
  | _ => none

def step (s : Served J R D E) : ServedAction J E → Option (Served J R D E)
  | .thread i a => (Loop.step route s.loop (.thread i a)).map fun l => {s with loop := l}
  | .run =>
    (Loop.step route s.loop .run).map fun l =>
      let t := {s with loop := l}
      match s.loop.ready with
      | .inr x :: _ => t.runTask x
      | _ => t.resume decode
  | .endStep => (Loop.step route s.loop .endStep).map fun l => {s with loop := l}.resume decode
  | .soon => some (s.post .other)
  | a => if s.loop.busy.isSome then none else s.taskStep a

/-- What a step can be, and what it leaves. -/
inductive Move (s : Served J R D E) : ServedAction J E → Served J R D E → Prop
  | thread {i : ℕ} {a : ThreadAction (Taken J) E} {l : Loop ℕ TaskCallback (Taken J) E}
    (he : Loop.step route s.loop (.thread i a) = some l) : Move s (.thread i a) {s with loop := l}
  | callback {l : Loop ℕ TaskCallback (Taken J) E} (he : Loop.step route s.loop .run = some l)
    (hr : ∀ x ks, s.loop.ready ≠ .inr x :: ks) : Move s .run ({s with loop := l}.resume decode)
  | task {x : TaskCallback} {ks : List (Entry ℕ TaskCallback (Taken J) E)}
    (hb : s.loop.busy = none) (hr : s.loop.ready = .inr x :: ks) :
    Move s .run ({s with loop := {s.loop with ready := ks}}.runTask x)
  | endStep {l : Loop ℕ TaskCallback (Taken J) E} (he : Loop.step route s.loop .endStep = some l) :
    Move s .endStep ({s with loop := l}.resume decode)
  | soon : Move s .soon (s.post .other)
  | handlerEnds {i : ℕ} {h : Handler R} (hb : s.loop.busy = none) (hh : s.handlers i = some h)
    (hbegun : h.begun = true) (hend : h.ended = false) : Move s (.handlerEnds i) (s.endHandler i h)
  | further {c : Option ℕ} (hb : s.loop.busy = none) (hh : s.handle = none) :
    Move s (.stop c) {s with further := true}
  | stop {c : Option ℕ} (hb : s.loop.busy = none) (hh : s.handle ≠ none) :
    Move s (.stop c) {s with handle := none, stop := .withdrawing, caller := c}
  | interrupted {o : Except E Unit} (hb : s.loop.busy = none) (hs : s.stop = .withdrawing)
    (hc : s.stopCancelled = true) : Move s (.withdrawn o) {s with stop := .ended .cancelled}
  | notWithdrawn {e : E} (hb : s.loop.busy = none) (hs : s.stop = .withdrawing) :
    Move s (.withdrawn (.error e)) {s with stop := .ended (.notWithdrawn e)}
  | withdrawn (hb : s.loop.busy = none) (hs : s.stop = .withdrawing) :
    Move s (.withdrawn (.ok ())) s.joinLoop
  | joined {is : List ℕ} (hb : s.loop.busy = none) (hs : s.stop = .joiningHandlers is)
    (hd : s.done is = true) : Move s .joined {s with stop := .ended s.stopEnd}
  | cancelLoop (hb : s.loop.busy = none) (hs : s.stop = .joiningLoop) :
    Move s .cancelStop {s with stopCancelled := true}.cancelServe
  | cancelStop (hb : s.loop.busy = none) (hs : s.stop ≠ .notCalled) :
    Move s .cancelStop {s with stopCancelled := true}

theorem taskStep_move {s t : Served J R D E} {a : ServedAction J E} (hb : s.loop.busy = none)
    (he : s.taskStep a = some t) : Move decode s a t := by
  cases a with
  | handlerEnds i =>
    simp only [taskStep] at he
    split at he
    · next h hh =>
      split at he
      · next hc =>
        cases he
        simp only [Bool.and_eq_true] at hc
        exact .handlerEnds hb hh hc.1.1 (by simpa using hc.1.2)
      · cases he
    · cases he
  | stop c =>
    simp only [taskStep] at he
    split at he
    · next hh =>
      cases he
      exact .further hb hh
    · next hh =>
      cases he
      exact .stop hb (by simp [hh])
  | withdrawn o =>
    simp only [taskStep] at he
    split at he
    · next hs =>
      split at he
      · next hc =>
        cases he
        exact .interrupted hb hs hc
      · split at he
        · cases he
          exact .notWithdrawn hb hs
        · cases he
          exact .withdrawn hb hs
    · cases he
  | joined =>
    simp only [taskStep] at he
    split at he
    · next hs =>
      split at he
      · next hd =>
        cases he
        exact .joined hb hs hd
      · cases he
    · cases he
  | cancelStop =>
    simp only [taskStep] at he
    split at he
    · next hs =>
      cases he
      exact .cancelLoop hb hs
    · split at he
      · next hp =>
        cases he
        refine .cancelStop hb ?_
        intro hs
        simp [hs,Stop.pending] at hp
      · cases he
  | _ => cases he

theorem step_move {s t : Served J R D E} {a : ServedAction J E} (he : step decode s a = some t) :
    Move decode s a t := by
  have htask : ∀ {b}, (if s.loop.busy.isSome then none else s.taskStep b) = some t →
      Move decode s b t := by
    intro b h
    split at h
    · cases h
    · next hb => exact taskStep_move decode (by simpa using hb) h
  cases a with
  | thread i a =>
    obtain ⟨l,hl,rfl⟩ := Option.map_eq_some_iff.mp he
    exact .thread hl
  | run =>
    obtain ⟨l,hl,rfl⟩ := Option.map_eq_some_iff.mp he
    cases Loop.step_move hl with
    | run hb hr hc =>
      rw [hr]
      exact .callback hl (by simp [hr])
    | other hb hr =>
      rw [hr]
      exact .task hb hr
  | endStep =>
    obtain ⟨l,hl,rfl⟩ := Option.map_eq_some_iff.mp he
    exact .endStep hl
  | soon =>
    cases he
    exact .soon
  | handlerEnds i => exact htask he
  | stop c => exact htask he
  | withdrawn o => exact htask he
  | joined => exact htask he
  | cancelStop => exact htask he

end Served
end MaculaPy.Serving
