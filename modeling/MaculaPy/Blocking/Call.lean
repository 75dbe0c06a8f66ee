import MaculaPy.Foundation.Asyncio
import MaculaPy.Foundation.Runs

/-! # One native call run from asyncio

`run_blocking` and `run_native` as the interleaving of three parties: the daemon
thread that runs `work()`, the event loop with its FIFO ready queue, and the task
that awaits the shielded future. Each read and write the threads share is a step of
its own, so `_end_the_call` on the loop thread interleaves with the worker. The
trace keeps, newest first, what the parties did to the native side, to the token
and to the result.
-/
namespace MaculaPy.Blocking
open Asyncio

/-- What `work()` raises. -/
inductive Raised (E : Type*)
  | nativeCancelled (message : String)
  | maculaError (message : String)
  | other (error : E)
  deriving DecidableEq, Repr

/-- `run_blocking`, with `discard` given or not, or `run_native`. -/
inductive Route
  | blocking (discard : Bool)
  | native
  deriving DecidableEq, Repr

/-- The callbacks one call puts on the ready queue. -/
inductive Callback (V E : Type*)
  | settle (outcome : Except (Raised E) V)
  | retrieve
  | innerDone
  | outerDone
  | wakeup
  | handOver

/-- Which function a callback is. -/
inductive Kind
  | settle
  | retrieve
  | innerDone
  | outerDone
  | wakeup
  | handOver
  deriving DecidableEq, Repr

/-- The worker thread: what it does next, with the token and the outcome it holds. -/
inductive Worker (V E : Type*)
  | spawned
  | created (h : ℕ)
  | appended (h : ℕ)
  | flagged (h : ℕ)
  | ready (h : ℕ)
  | calling (h : Option ℕ)
  | returned (h : ℕ) (outcome : Except (Raised E) V)
  | freeing (h : ℕ) (outcome : Except (Raised E) V)
  | finished (outcome : Except (Raised E) V)
  | posted (outcome : Except (Raised E) V)

/-- The loop thread inside `_end_the_call`: the line it runs next. -/
inductive Ending
  | checkDone
  | setFlag
  | readToken
  | cancelToken (h : ℕ)
  | addDiscard
  deriving DecidableEq, Repr

/-- The awaiting task, from its `await asyncio.shield(future)` on. -/
inductive Task (V E : Type*)
  | awaiting
  | ending (line : Ending)
  | returned (value : V)
  | raised (error : Raised E)
  | cancelled

inductive Event (V E : Type*)
  | created (h : ℕ)
  | cancelToken (h : ℕ)
  | entered
  | returned (outcome : Except (Raised E) V)
  | freed (h : ℕ)
  | settled
  | cancelTask
  | delivered (value : V)
  | failed (error : Raised E)
  | taskCancelled
  | discarded (value : V)

/-- Everything one call shares between its parties. -/
structure Call (V E : Type*) where
  worker : Worker V E
  cancelled : Bool
  token : List ℕ
  future : Future (Callback V E) V (Raised E)
  outer : Future (Callback V E) V (Raised E)
  mustCancel : Bool
  task : Task V E
  discards : List V

/-- What a step leaves: the call, the callbacks it schedules and the events it emits. -/
structure Effect (V E : Type*) where
  call : Call V E
  posts : List (Callback V E) := []
  events : List (Event V E) := []

inductive ThreadAction (V E : Type*)
  | newToken (h : ℕ)
  | work
  | callReturns (outcome : Except (Raised E) V)
  | discard

variable {V E : Type*}

def Callback.kind : Callback V E → Kind
  | .settle _ => .settle
  | .retrieve => .retrieve
  | .innerDone => .innerDone
  | .outerDone => .outerDone
  | .wakeup => .wakeup
  | .handOver => .handOver

def Callback.is (κ : Kind) (k : Callback V E) : Bool := k.kind == κ

def outcomeOf : Except (Raised E) V → Outcome V (Raised E)
  | .ok v => .result v
  | .error e => .exception e

/-- `_start` and `asyncio.shield`: the thread runs, nothing is settled, and the task
waits for the outer future. -/
def start : Call V E where
  worker := .spawned
  cancelled := false
  token := []
  future := .pending [.retrieve,.innerDone]
  outer := .pending [.outerDone,.wakeup]
  mustCancel := false
  task := .awaiting
  discards := []

/-- The handler around `call(h)`: a `NativeCancelled` is kept only when this task
asked for it, and is the native side's own failure otherwise. -/
def translate (cancelled : Bool) : Except (Raised E) V → Except (Raised E) V
  | .error (.nativeCancelled m) =>
    if cancelled then .error (.nativeCancelled m) else .error (.maculaError ("macula-py: " ++ m))
  | o => o

/-- The next step of the worker thread, where the environment has no say in it. -/
def work (r : Route) (c : Call V E) : Option (Effect V E) :=
  match c.worker with
  | .spawned =>
    match r with
    | .native => some {call := {c with worker := .calling none}, events := [.entered]}
    | .blocking _ => none
  | .created h => some {call := {c with worker := .appended h, token := c.token ++ [h]}}
  | .appended h => some {call := {c with worker := if c.cancelled then .flagged h else .ready h}}
  | .flagged h => some {call := {c with worker := .ready h}, events := [.cancelToken h]}
  | .ready h => some {call := {c with worker := .calling (some h)}, events := [.entered]}
  | .calling _ => none
  | .returned h o => some {call := {c with worker := .freeing h (translate c.cancelled o)}}
  | .freeing h o => some {call := {c with worker := .finished o}, events := [.freed h]}
  | .finished o => some {call := {c with worker := .posted o}, posts := [.settle o]}
  | .posted _ => none

/-- A step of the worker thread or of a discard thread. -/
def threadStep (r : Route) (c : Call V E) : ThreadAction V E → Option (Effect V E)
  | .newToken h =>
    match r,c.worker with
    | .blocking _,.spawned => some {call := {c with worker := .created h}, events := [.created h]}
    | _,_ => none
  | .work => work r c
  | .callReturns o =>
    match c.worker with
    | .calling (some h) => some {call := {c with worker := .returned h o}, events := [.returned o]}
    | .calling none => some {call := {c with worker := .finished o}, events := [.returned o]}
    | _ => none
  | .discard =>
    match c.discards with
    | [] => none
    | v :: vs => some {call := {c with discards := vs}, events := [.discarded v]}

/-- `_settle`. -/
def settle (c : Call V E) (o : Except (Raised E) V) : Effect V E :=
  if c.future.done then {call := c}
  else
    let f := c.future.finish (outcomeOf o)
    {call := {c with future := f.1}, posts := f.2, events := [.settled]}

/-- `shield`'s `_inner_done_callback`. -/
def innerDone (c : Call V E) : Effect V E :=
  match c.outer.state,c.future.state with
  | some .cancelled,_ => {call := c}
  | _,some o =>
    let f := c.outer.finish o
    {call := {c with outer := f.1}, posts := f.2}
  | _,none => {call := c}

/-- `shield`'s `_outer_done_callback`. -/
def outerDone (c : Call V E) : Effect V E :=
  if c.future.done then {call := c}
  else {call := {c with future := c.future.removeDoneCallback (Callback.is .innerDone)}}

/-- A `CancelledError` thrown at the await: `run_blocking` enters `_end_the_call`, and
`run_native` lets it pass. -/
def interrupt (r : Route) (c : Call V E) : Effect V E :=
  match r with
  | .blocking _ => {call := {c with mustCancel := false, task := .ending .checkDone}}
  | .native => {call := {c with mustCancel := false, task := .cancelled}, events := [.taskCancelled]}

/-- The task wakes from its await: with the cancellation it was sent, if any, else
with what the outer future holds. -/
def wakeup (r : Route) (c : Call V E) : Effect V E :=
  let woken := {c with mustCancel := false}
  match if c.mustCancel then some .cancelled else c.outer.state with
  | none => {call := c}
  | some (.result v) => {call := {woken with task := .returned v}, events := [.delivered v]}
  | some (.exception e) =>
    match r,e with
    | .blocking _,.nativeCancelled _ =>
      {call := {woken with task := .cancelled}, events := [.taskCancelled]}
    | _,_ => {call := {woken with task := .raised e}, events := [.failed e]}
  | some .cancelled => interrupt r c

/-- `hand_over`: the result goes to a discard thread, an exception goes nowhere. -/
def handOver (c : Call V E) : Effect V E :=
  match c.future.state with
  | some (.result v) => {call := {c with discards := c.discards ++ [v]}}
  | _ => {call := c}

/-- The loop runs one callback. -/
def runCallback (r : Route) (c : Call V E) : Callback V E → Effect V E
  | .settle o => settle c o
  | .retrieve => {call := c}
  | .innerDone => innerDone c
  | .outerDone => outerDone c
  | .wakeup => wakeup r c
  | .handOver => handOver c

/-- `_discard_on_result`, when `discard` is given, and the `raise` after it. -/
def discardOnResult (r : Route) (c : Call V E) : Effect V E :=
  match r with
  | .blocking true =>
    let f := c.future.addDoneCallback .handOver
    {call := {c with future := f.1, task := .cancelled}, posts := f.2, events := [.taskCancelled]}
  | _ => {call := {c with task := .cancelled}, events := [.taskCancelled]}

/-- The next line of `_end_the_call`. -/
def endTheCall (r : Route) (c : Call V E) : Option (Effect V E) :=
  match c.task with
  | .ending .checkDone =>
    some {call := {c with task := .ending (if c.future.done then .addDiscard else .setFlag)}}
  | .ending .setFlag => some {call := {c with cancelled := true, task := .ending .readToken}}
  | .ending .readToken =>
    match c.token with
    | [] => some {call := {c with task := .ending .addDiscard}}
    | h :: _ => some {call := {c with task := .ending (.cancelToken h)}}
  | .ending (.cancelToken h) =>
    some {call := {c with task := .ending .addDiscard}, events := [.cancelToken h]}
  | .ending .addDiscard => some (discardOnResult r c)
  | _ => none

/-- `Task.cancel()` on the awaiting task: it cancels the outer future it waits for,
or, when that is done already, marks the task to be cancelled as it wakes. -/
def cancelTask (c : Call V E) : Option (Effect V E) :=
  match c.task with
  | .awaiting =>
    match c.outer.state with
    | none =>
      let f := c.outer.finish .cancelled
      some {call := {c with outer := f.1}, posts := f.2, events := [.cancelTask]}
    | some _ => some {call := {c with mustCancel := true}, events := [.cancelTask]}
  | _ => none

def Task.isEnding : Task V E → Bool
  | .ending _ => true
  | _ => false

/-- The coroutine that awaited the call is past it. -/
def Task.ended : Task V E → Bool
  | .awaiting => false
  | .ending _ => false
  | _ => true

/-- One call with the part of the ready queue that is its own, and its trace. -/
structure State (V E : Type*) where
  call : Call V E
  ready : List (Callback V E)
  trace : List (Event V E)

inductive Action (V E : Type*)
  | thread (a : ThreadAction V E)
  | cancel
  | loop
  | endCall

def State.after (s : State V E) (e : Effect V E) : State V E :=
  ⟨e.call,s.ready ++ e.posts,e.events ++ s.trace⟩

@[simp] theorem State.after_call (s : State V E) (e : Effect V E) : (s.after e).call = e.call := rfl
@[simp] theorem State.after_ready (s : State V E) (e : Effect V E) :
    (s.after e).ready = s.ready ++ e.posts := rfl
def init : State V E := ⟨start,[],[]⟩

/-- One step of one of the parties. The loop thread runs callbacks, and cancels
tasks, only between callbacks, so not inside `_end_the_call`. -/
def step (r : Route) (s : State V E) : Action V E → Option (State V E)
  | .thread a => (threadStep r s.call a).map s.after
  | .cancel => if s.call.task.isEnding then none else (cancelTask s.call).map s.after
  | .loop =>
    if s.call.task.isEnding then none
    else match s.ready with
      | [] => none
      | k :: ks => some ({s with ready := ks}.after (runCallback r s.call k))
  | .endCall => (endTheCall r s.call).map s.after

/-- What a step can be, and what it leaves. -/
inductive Move (r : Route) (s : State V E) : State V E → Prop
  | thread {a : ThreadAction V E} {e : Effect V E} (he : threadStep r s.call a = some e) :
    Move r s (s.after e)
  | cancel {e : Effect V E} (hn : s.call.task.isEnding = false) (he : cancelTask s.call = some e) :
    Move r s (s.after e)
  | loop {k : Callback V E} {ks : List (Callback V E)} (hn : s.call.task.isEnding = false)
    (hr : s.ready = k :: ks) : Move r s ({s with ready := ks}.after (runCallback r s.call k))
  | endCall {e : Effect V E} (he : endTheCall r s.call = some e) : Move r s (s.after e)

theorem step_move {r : Route} {s t : State V E} {a : Action V E} (he : step r s a = some t) :
    Move r s t := by
  cases a with
  | thread a =>
    obtain ⟨e,ha,rfl⟩ := Option.map_eq_some_iff.mp he
    exact .thread ha
  | cancel =>
    simp only [step] at he
    split at he
    · cases he
    · next hn =>
      obtain ⟨e,ha,rfl⟩ := Option.map_eq_some_iff.mp he
      exact .cancel (by simpa using hn) ha
  | loop =>
    simp only [step] at he
    split at he
    · cases he
    · next hn =>
      split at he
      · cases he
      · next hr =>
        cases he
        exact .loop (by simpa using hn) hr
  | endCall =>
    obtain ⟨e,ha,rfl⟩ := Option.map_eq_some_iff.mp he
    exact .endCall ha

/-- A thread's step leaves the task where it is, and so does a cancellation. -/
theorem threadStep_task {r : Route} {c : Call V E} {a : ThreadAction V E} {e : Effect V E}
    (he : threadStep r c a = some e) : e.call.task = c.task := by
  cases a with
  | newToken h =>
    simp only [threadStep] at he
    split at he <;> cases he
    rfl
  | work =>
    simp only [threadStep,work] at he
    split at he
    · split at he <;> cases he
      rfl
    all_goals
      cases he
      try rfl
  | callReturns o =>
    simp only [threadStep] at he
    split at he <;> cases he <;> rfl
  | discard =>
    simp only [threadStep] at he
    split at he <;> cases he
    rfl

theorem cancelTask_task {c : Call V E} {e : Effect V E} (he : cancelTask c = some e) :
    e.call.task = c.task := by
  unfold cancelTask at he
  split at he
  · split at he <;> cases he <;> rfl
  · cases he

theorem cancelTask_worker {c : Call V E} {e : Effect V E} (he : cancelTask c = some e) :
    e.call.worker = c.worker := by
  unfold cancelTask at he
  split at he
  · split at he <;> cases he <;> rfl
  · cases he

/-- What the loop thread does to the token and to the result as it runs a callback. -/
def Event.ofCallback : Event V E → Bool
  | .settled => true
  | .delivered _ => true
  | .failed _ => true
  | .taskCancelled => true
  | _ => false

/-- A callback leaves the worker where it is, and takes, cancels and frees no token. -/
theorem runCallback_worker (r : Route) (c : Call V E) (k : Callback V E) :
    (runCallback r c k).call.worker = c.worker ∧
      ∀ x ∈ (runCallback r c k).events, x.ofCallback = true := by
  cases k with
  | settle o =>
    simp only [runCallback,settle]
    split <;> simp [Event.ofCallback]
  | retrieve => simp [runCallback]
  | innerDone =>
    simp only [runCallback,innerDone]
    split <;> simp
  | outerDone =>
    simp only [runCallback,outerDone]
    split <;> simp
  | wakeup =>
    simp only [runCallback,wakeup]
    split
    · simp
    · simp [Event.ofCallback]
    · split <;> simp [Event.ofCallback]
    · cases r <;> simp [interrupt,Event.ofCallback]
  | handOver =>
    simp only [runCallback,handOver]
    split <;> simp

/-- `_end_the_call` leaves the worker where it is, and cancels a token on the line that does. -/
theorem endTheCall_worker {r : Route} {c : Call V E} {e : Effect V E}
    (he : endTheCall r c = some e) : e.call.worker = c.worker ∧ ∀ x ∈ e.events,
      x = .taskCancelled ∨ ∃ h, x = .cancelToken h ∧ c.task = .ending (.cancelToken h) := by
  unfold endTheCall at he
  split at he
  · cases he
    simp
  · cases he
    simp
  · split at he <;> cases he <;> simp
  · next hl =>
    cases he
    simp [hl]
  · cases he
    unfold discardOnResult
    split <;> simp
  · cases he

end MaculaPy.Blocking
