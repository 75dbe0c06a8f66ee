import MaculaPy.Objects.Closed
import MaculaPy.Blocking.Outcome

/-! # Iterating a subscription

`async for` over a `Subscription`: `__anext__` calls `next` until there is an event or the
subscription has ended, and the body of the loop runs in between. Any task may call any operation
of the subscription meanwhile, `stop` and `next` among them, and its pool may be closed.
-/
namespace MaculaPy.Objects
open Wire Abi Blocking History

/-- What `macula_subscription_next` comes back with. -/
inductive Answer (T : Type*)
  | event (x : T)
  | timedOut
  | closed

/-- `_next_item`, with the event decoded. -/
def Answer.item {T : Type*} : Answer T → Option T × Bool
  | .event x => (some x,false)
  | .timedOut => (none,false)
  | .closed => (none,true)

/-- What an iteration ends with; `next` may have raised before its wait, or out of it. -/
inductive Ended (E : Type*)
  | stopAsyncIteration
  | refused (e : Refusal)
  | raised (e : Raised E)
  | cancelled
  deriving DecidableEq

/-- Where the iterating task is: outside `__anext__`, in the wait of its `next`, or past the loop,
which its body can leave. -/
inductive Phase (E : Type*)
  | body
  | waiting
  | ended (how : Ended E)
  | left
  deriving DecidableEq

/-- What `__anext__` does once its `next` is where it is. -/
inductive Turn (T E : Type*)
  | waits
  | yields (x : T)
  | ends (how : Ended E)
  | asks

/-- One iteration; `wait` is the number of its last `next`. -/
structure Iteration (T E : Type*) where
  subscription : Object (Answer T) E
  poolClosed : Bool
  wait : ℕ
  phase : Phase E
  given : List T

inductive IterationAction (T E : Type*)
  | object (a : ObjectAction .subscription (Answer T) E)
  | poolCloses
  | asks
  | leaves

def IterationAction.isRelease {T E : Type*} : IterationAction T E → Bool
  | .object a => a.isRelease
  | _ => false

/-- `__anext__` past its `next`. -/
def anext {T E : Type*} (closed : Bool) : Task (Answer T) E → Turn T E
  | .returned v =>
    match v.item.1 with
    | some x => .yields x
    | none => if closed then .ends .stopAsyncIteration else .asks
  | .raised e => .ends (.raised e)
  | .cancelled => .ends .cancelled
  | _ => .waits

namespace Iteration
variable {T E : Type*}

def init (h : Handle) : Iteration T E := ⟨.init .subscription h,false,0,.body,[]⟩

/-- The task of the operation of that number, when it waits for a call of `run_blocking`. -/
def taskOf (s : Object (Answer T) E) (i : ℕ) : Option (Task (Answer T) E) :=
  (s.loop.calls (i,.blocking false)).map Call.task

/-- `self.closed`: a `next` was told that the subscription has ended. -/
def closed (s : Object (Answer T) E) : Bool :=
  (List.range s.next).any fun i =>
    match taskOf s i with
    | some (.returned v) => v.item.2
    | _ => false

/-- Where a `next` leaves the task that called it. -/
def begun : Option Outset → Phase E
  | some (.refused e) => .ended (.refused e)
  | _ => .waiting

def turn (w : Iteration T E) : Turn T E :=
  match w.phase,taskOf w.subscription w.wait with
  | .waiting,some t => anext (closed w.subscription) t
  | _,_ => .waits

/-- The native side was told to end the subscription. -/
def stopped (w : Iteration T E) : Bool :=
  w.poolClosed || w.subscription.log.any (fun x => x.2.1 = Kind.release .subscription)

/-- Once the subscription was stopped, no wait on it fails or times out: it reports the end, or an
event before it. -/
def allows (w : Iteration T E) : ObjectAction .subscription (Answer T) E → Bool
  | .thread (_,.blocking _) (.callReturns (.ok .timedOut)) => !w.stopped
  | .thread (_,.blocking _) (.callReturns (.error _)) => !w.stopped
  | _ => true

/-- What threads and the loop do by themselves. The native side need not return from a wait on a
subscription that goes on. -/
def owed (w : Iteration T E) : ObjectAction .subscription (Answer T) E → Bool
  | .thread _ (.callReturns (.ok .closed)) => w.stopped
  | .thread _ (.callReturns _) => false
  | a => a.isOwn

section Steps
variable (floatText : Binary64 → Numeral)

/-- `self.next()`, up to its wait. -/
def ask (w : Iteration T E) : Option (Iteration T E) :=
  (w.subscription.step .subscription floatText (.issue .next)).map fun s =>
    {w with
      subscription := s
      wait := w.subscription.next
      phase := begun (s.outset w.subscription.next)}

def resume (w : Iteration T E) : Option (Iteration T E) :=
  match w.turn with
  | .waits => some w
  | .yields x => some {w with phase := .body, given := w.given ++ [x]}
  | .ends how => some {w with phase := .ended how}
  | .asks => w.ask floatText

def step (w : Iteration T E) : IterationAction T E → Option (Iteration T E)
  | .object a =>
    if w.allows a then
      (w.subscription.step .subscription floatText a).bind fun s =>
        ({w with subscription := s} : Iteration T E).resume floatText
    else none
  | .poolCloses => some {w with poolClosed := true}
  | .asks =>
    match w.phase with
    | .body => w.ask floatText
    | _ => none
  | .leaves =>
    match w.phase with
    | .body => some {w with phase := .left}
    | _ => none

/-- The step calls `next` for the iteration. -/
def asksNext (w : Iteration T E) : IterationAction T E → Bool
  | .asks => true
  | .object a => (w.subscription.step .subscription floatText a).any fun s =>
    match ({w with subscription := s} : Iteration T E).turn with
    | .asks => true
    | _ => false
  | _ => false

/-- A step that calls `next` for the iteration finds the handle there. -/
def findsHandle (w : Iteration T E) (a : IterationAction T E) : Bool :=
  !w.asksNext floatText a || w.subscription.handle.isSome

/-- Nothing that is owed is left to do. -/
def Rests (w : Iteration T E) : Prop :=
  ∀ a, w.owed a = true → w.step floatText (.object a) = none

end Steps

/-- An end other than by the `ClosedError`, with where it came from: a wait that was told of it, a
failure of the last wait, a cancellation in that. -/
def Ends (s : Object (Answer T) E) (i : ℕ) : Ended E → Prop
  | .stopAsyncIteration => ∃ j, .returned (.ok .closed) ∈ view (j,.blocking false) s.loop.trace
  | .refused _ => False
  | .raised _ => ∃ e, .returned (.error e) ∈ view (i,.blocking false) s.loop.trace
  | .cancelled => .cancelTask ∈ view (i,.blocking false) s.loop.trace

end Iteration

namespace Object
variable {V E : Type*} {k : Kind} {floatText : Binary64 → Numeral} {s t : Object V E}

/-- No step takes a handle and runs a task. -/
theorem step_handle_or_task {a : ObjectAction k V E} (he : s.step k floatText a = some t)
    {x : ℕ × Route} {c c' : Call V E} (hc : s.loop.calls x = some c)
    (hc' : t.loop.calls x = some c') : t.handle = s.handle ∨ c'.task = c.task := by
  have hsame : t.loop = s.loop → c'.task = c.task := by
    intro hl
    rw [hl,hc,Option.some.injEq] at hc'
    rw [hc']
  cases step_move he with
  | run _ => exact Or.inl rfl
  | endStep _ => exact Or.inl rfl
  | cancelTask _ => exact Or.inl rfl
  | calls _ hl | swaps _ _ _ hl | exits _ hl | begins _ _ hl | thread _ _ _ hl =>
    cases Loop.step_taskStep hl hc hc' with
    | same ht => exact Or.inr ht
  | _ => exact Or.inr (hsame rfl)

theorem Enters.handle_eq {i : ℕ} (he : Enters s i t) (ho : s.outset i ≠ some .free) :
    t.handle = s.handle := by
  cases he with
  | takes hx _ => exact absurd hx ho
  | _ => rfl

/-- Only a release takes the handle of a subscription. -/
theorem step_handle_of_unreleased {h : Handle} {p : Life} (hv : ObjectValid .subscription h p s)
    {a : ObjectAction .subscription V E} (ha : a.isRelease = false)
    (he : s.step .subscription floatText a = some t) : t.handle = s.handle := by
  cases step_move he with
  | returned hx _ => simp [ha] at hx
  | takes hx _ _ => simp [ha] at hx
  | swaps hx _ _ _ => simp [ha] at hx
  | @begins x _ _ _ _ _ =>
    refine (enter_enters s x.1).handle_eq (fun ho => ?_)
    cases (hv.freeing _ ho).1
  | _ => rfl

theorem spawn_collected {r : Route} {o : Outset} (he : s.spawn r o = some t) :
    t.collected = s.collected := by
  obtain ⟨l,_,rfl⟩ := Option.map_eq_some_iff.mp he
  rfl

theorem close_collected (he : s.close k = some t) : t.collected = s.collected := by
  unfold close at he
  split at he
  · cases he
    rfl
  · exact (spawn_collected he).trans rfl

theorem enter_collected (s : Object V E) (i : ℕ) : (s.enter i).collected = s.collected := by
  unfold enter take
  repeat' split
  all_goals rfl

/-- Only a key is collected. -/
theorem step_collected {a : ObjectAction .subscription V E}
    (he : s.step .subscription floatText a = some t) : t.collected = s.collected := by
  cases a with
  | issue m =>
    simp only [step,issue] at he
    split at he
    · cases he
    · split at he
      · cases he
        rfl
      · cases he
        rfl
      · exact (spawn_collected he).trans rfl
  | release =>
    simp only [step] at he
    split at he
    · cases he
    · exact close_collected he
  | exit =>
    simp only [step] at he
    split at he
    · cases he
    · exact close_collected he
  | collect => simp [step] at he
  | thread x b =>
    cases step_move he with
    | begins _ _ _ => exact enter_collected s _
    | thread _ _ _ _ => rfl
    | returned ha _ => cases ha
    | takes ha _ _ => cases ha
    | swaps ha _ _ _ => cases ha
  | _ =>
    cases step_move he with
    | returned ha _ => cases ha
    | takes ha _ _ => cases ha
    | swaps ha _ _ _ => cases ha
    | _ => rfl

theorem thread_enabled {x : ℕ × Route} {a : ThreadAction V E} {l : Loop (ℕ × Route) Empty V E}
    (ha : s.admits x.1 a = true) (hl : Loop.step Prod.snd s.loop (.thread x a) = some l) :
    ∃ t, s.step k floatText (.thread x a) = some t := by
  simp only [step,ha,hl,if_true,Option.map_some]
  exact ⟨_,rfl⟩

theorem reachable_collected {h : Handle} {ok : Object V E → ObjectAction .subscription V E → Prop}
    (hs : Runs.Reachable (step .subscription floatText) ok (init .subscription h) s) :
    s.collected = false :=
  hs.induct (P := fun s => s.collected = false) rfl
    (fun _ _ _ _ hc _ he => (step_collected he).trans hc)

theorem next_without (hh : s.handle = none)
    (he : s.step .subscription floatText (.issue .next) = some t) :
    t.outset s.next = some (.refused (.closed (Kind.closedText .subscription))) := by
  cases step_move he with
  | refused hb =>
    rw [hh] at hb
    cases hb
    exact enlist_outset s _
  | here hb =>
    rw [hh] at hb
    cases hb
  | calls hb _ =>
    rw [hh] at hb
    cases hb
  | returned ha _ => cases ha
  | takes ha _ _ => cases ha
  | swaps ha _ _ _ => cases ha

theorem next_with {g : Handle} (hh : s.handle = some g)
    (he : s.step .subscription floatText (.issue .next) = some t) :
    t.outset s.next = some (.calls (.blocking false) []) ∧
      t.loop.calls (s.next,.blocking false) = some start := by
  cases step_move he with
  | refused hb =>
    rw [hh] at hb
    cases hb
  | here hb =>
    rw [hh] at hb
    cases hb
  | calls hb hl =>
    rw [hh] at hb
    cases hb
    refine ⟨enlist_outset (s.owe s.next _) _,?_⟩
    cases Loop.step_move hl with
    | start _ _ => simp
  | returned ha _ => cases ha
  | takes ha _ _ => cases ha
  | swaps ha _ _ _ => cases ha

variable (floatText) in
/-- A free loop lets `next` begin. -/
theorem next_enabled (hc : s.collected = false) (hb : s.loop.busy = none)
    (hf : s.loop.calls (s.next,.blocking false) = none) :
    ∃ t, s.step .subscription floatText (.issue .next) = some t := by
  cases hh : s.handle with
  | none => exact issue_enabled hh hc _
  | some g =>
    have hl : ∃ l, Loop.step Prod.snd s.loop (.start (s.next,.blocking false)) = some l := by
      simp [Loop.step,hb,hf]
    obtain ⟨l,hl⟩ := hl
    simp only [step,hc,Bool.false_eq_true,if_false,issue,hh]
    exact ⟨_,Option.map_eq_some_iff.mpr ⟨l,hl,rfl⟩⟩

end Object

namespace Iteration
variable {T E : Type*} {h : Handle} {floatText : Binary64 → Numeral} {w w' : Iteration T E}

theorem anext_eq_waits {b : Bool} {t : Task (Answer T) E} :
    anext b t = .waits ↔ t.ended = false := by
  cases t with
  | returned v => cases v <;> cases b <;> simp [anext,Answer.item,Task.ended]
  | _ => simp [anext,Task.ended]

theorem anext_ends {b : Bool} {t : Task (Answer T) E} {how : Ended E} (ha : anext b t = .ends how) :
    (how = .stopAsyncIteration ∧ b = true) ∨ (∃ e, how = .raised e ∧ t = .raised e) ∨
      (how = .cancelled ∧ t = .cancelled) := by
  cases t with
  | returned v =>
    cases v <;> cases b <;> simp [anext,Answer.item] at ha
    all_goals exact Or.inl ⟨ha.symm,rfl⟩
  | raised e =>
    cases ha
    exact Or.inr (Or.inl ⟨e,rfl,rfl⟩)
  | cancelled =>
    cases ha
    exact Or.inr (Or.inr ⟨rfl,rfl⟩)
  | _ => cases ha

theorem returned_of_asks {b : Bool} {t : Task (Answer T) E} (ha : anext b t = .asks) :
    ∃ v, t = .returned v := by
  cases t with
  | returned v => exact ⟨v,rfl⟩
  | _ => cases ha

theorem turn_of_calls (hp : w.phase = .waiting) {c : Call (Answer T) E}
    (hc : w.subscription.loop.calls (w.wait,.blocking false) = some c) :
    w.turn = anext (closed w.subscription) c.task := by
  simp [turn,hp,taskOf,hc]

theorem turn_of_not_waiting (hp : w.phase ≠ .waiting) : w.turn = .waits := by
  unfold turn
  split
  · next hx _ => exact absurd hx hp
  · rfl

theorem ask_without (hh : w.subscription.handle = none) (he : w.ask floatText = some w') :
    w'.phase = .ended (.refused (.closed (Kind.closedText .subscription))) := by
  obtain ⟨s,hs,rfl⟩ := Option.map_eq_some_iff.mp he
  dsimp only
  rw [Object.next_without hh hs]
  rfl

theorem Ends.mono {s t : Object (Answer T) E} {i : ℕ} {how : Ended E} (hx : Ends s i how)
    (ht : ∀ x ∈ s.loop.trace, x ∈ t.loop.trace) : Ends t i how := by
  cases how with
  | stopAsyncIteration =>
    obtain ⟨j,hj⟩ := hx
    exact ⟨j,mem_view.mpr (ht _ (mem_view.mp hj))⟩
  | refused e => exact hx
  | raised e =>
    obtain ⟨o,ho⟩ := hx
    exact ⟨o,mem_view.mpr (ht _ (mem_view.mp ho))⟩
  | cancelled => exact mem_view.mpr (ht _ (mem_view.mp hx))

/-- The subscription is in a state of its own, a wait is one of its operations, and an end is what
a wait came back with. -/
structure IterationFacts (h : Handle) (floatText : Binary64 → Numeral) (w : Iteration T E) :
    Prop where
  run : Runs.Reachable (Object.step .subscription floatText) Runs.free
    (Object.init .subscription h) w.subscription
  current : w.phase = .waiting →
    w.subscription.outset w.wait = some (.calls (.blocking false) []) ∧
      ∃ c, w.subscription.loop.calls (w.wait,.blocking false) = some c
  ends : ∀ how, w.phase = .ended how → Ends w.subscription w.wait how

/-- The iteration does not outwait its `next`. -/
structure IterationValid (h : Handle) (floatText : Binary64 → Numeral) (w : Iteration T E) : Prop
    extends IterationFacts h floatText w where
  waits : w.turn = .waits

theorem init_iterationValid (h : Handle) :
    IterationValid h floatText (init h : Iteration T E) where
  run := .refl _
  current hp := by cases hp
  ends _ hp := by cases hp
  waits := rfl

theorem IterationFacts.loop (hw : IterationFacts h floatText w) :
    Runs.Reachable (Loop.step Prod.snd) Runs.free Loop.init w.subscription.loop :=
  (Object.reachable_freeValid hw.run).loop

/-- What an operation of the subscription leaves of a wait and of an end. -/
theorem IterationFacts.object (hw : IterationFacts h floatText w)
    {a : ObjectAction .subscription (Answer T) E} {s : Object (Answer T) E}
    (he : w.subscription.step .subscription floatText a = some s) :
    IterationFacts h floatText {w with subscription := s} where
  run := hw.run.tail trivial he
  current hp := by
    obtain ⟨p,hv⟩ := Object.reachable_objectValid hw.run
    obtain ⟨ho,c,hc⟩ := hw.current hp
    refine ⟨(Object.step_outset he (hv.lt_of_outset ho).ne).trans ho,?_⟩
    rcases (Object.step_loop he).2 with hl | ⟨b,hb,_⟩
    · exact ⟨c,hl ▸ hc⟩
    · exact Loop.step_started hb hc
  ends how hp := by
    apply (hw.ends how hp).mono
    rcases (Object.step_loop he).2 with hl | ⟨b,hb,_⟩
    · exact fun x hx => hl ▸ hx
    · exact fun x hx => Loop.mem_step_trace hb hx

theorem ask_iterationValid (hw : IterationFacts h floatText w) {g : Handle}
    (hh : w.subscription.handle = some g) (he : w.ask floatText = some w') :
    IterationValid h floatText w' := by
  obtain ⟨s,hs,rfl⟩ := Option.map_eq_some_iff.mp he
  obtain ⟨ho,hc⟩ := Object.next_with hh hs
  have hp : begun (E := E) (s.outset w.subscription.next) = .waiting := by
    rw [ho]
    rfl
  refine ⟨⟨hw.run.tail trivial hs,fun _ => ⟨ho,_,hc⟩,fun how hx => ?_⟩,?_⟩
  · cases hp.symm.trans hx
  · rw [turn_of_calls hp hc]
    rfl

/-- The subscription is `closed` only when a wait reported it so. -/
theorem returned_of_closed {s : Object (Answer T) E}
    (hl : Runs.Reachable (Loop.step Prod.snd) Runs.free Loop.init s.loop) (hx : closed s = true) :
    ∃ j, .returned (.ok .closed) ∈ view (j,.blocking false) s.loop.trace := by
  obtain ⟨j,_,hj⟩ := List.any_eq_true.mp hx
  refine ⟨j,?_⟩
  split at hj
  · next v hv =>
    obtain ⟨c,hc,ht⟩ := Option.map_eq_some_iff.mp hv
    obtain rfl : v = .closed := by cases v <;> simp_all [Answer.item]
    exact returned_of_task (Loop.reachable_call hl hc) ht
  · cases hj

/-- What `__anext__` raises, its wait came back with. -/
theorem IterationFacts.turn_ends (hw : IterationFacts h floatText w) {how : Ended E}
    (ht : w.turn = .ends how) : Ends w.subscription w.wait how := by
  have hp : w.phase = .waiting := by
    by_contra hp
    rw [turn_of_not_waiting hp] at ht
    cases ht
  obtain ⟨_,c,hc⟩ := hw.current hp
  rw [turn_of_calls hp hc] at ht
  have hr := Loop.reachable_call hw.loop hc
  rcases anext_ends ht with ⟨rfl,hclosed⟩ | ⟨e,rfl,hk⟩ | ⟨rfl,hk⟩
  · exact returned_of_closed hw.loop hclosed
  · obtain ⟨o,b,ho,hx⟩ := raised_of_task hr hk
    cases o with
    | error o => exact ⟨o,mem_returns.mp (ho ▸ List.mem_singleton_self _)⟩
    | ok v =>
      rw [translate_ok] at hx
      cases hx
  · exact (reachable_handshakeValid hr).interrupted.mpr (by simp [Loop.callState,Call.interrupted,hk])

/-- The iteration goes on from where its wait ended, with a handle if it asks again. -/
theorem IterationFacts.resume (hw : IterationFacts h floatText w)
    (hx : w.turn = .asks → w.subscription.handle ≠ none) (he : w.resume floatText = some w') :
    IterationValid h floatText w' := by
  unfold Iteration.resume at he
  split at he
  · next ht =>
    cases he
    exact ⟨hw,ht⟩
  · cases he
    exact ⟨⟨hw.run,(fun hp => nomatch hp),(fun _ hp => nomatch hp)⟩,rfl⟩
  · next how ht =>
    cases he
    refine ⟨⟨hw.run,(fun hp => nomatch hp),fun how' hp => ?_⟩,rfl⟩
    cases hp
    exact hw.turn_ends ht
  · next ht =>
    obtain ⟨g,hg⟩ := Option.ne_none_iff_exists'.mp (hx ht)
    exact ask_iterationValid hw hg he

/-- An operation that lets the iteration ask again is the one in which its wait returned. -/
theorem IterationValid.of_asks (hw : IterationValid h floatText w)
    {a : ObjectAction .subscription (Answer T) E} {s : Object (Answer T) E}
    (he : w.subscription.step .subscription floatText a = some s)
    (ht : ({w with subscription := s} : Iteration T E).turn = .asks) :
    ∃ c c' v, w.subscription.loop.calls (w.wait,.blocking false) = some c ∧
      s.loop.calls (w.wait,.blocking false) = some c' ∧ c.task.ended = false ∧
      c'.task = .returned v := by
  have hp : w.phase = .waiting := by
    by_contra hp
    rw [turn_of_not_waiting (w := {w with subscription := s}) hp] at ht
    cases ht
  obtain ⟨_,c,hc⟩ := hw.current hp
  obtain ⟨_,c',hc'⟩ := (hw.toIterationFacts.object he).current hp
  rw [turn_of_calls (w := {w with subscription := s}) hp hc'] at ht
  obtain ⟨v,hv⟩ := returned_of_asks ht
  exact ⟨c,c',v,hc,hc',anext_eq_waits.mp ((turn_of_calls hp hc).symm.trans hw.waits),hv⟩

theorem IterationValid.handle_of_asks (hw : IterationValid h floatText w)
    {a : ObjectAction .subscription (Answer T) E} {s : Object (Answer T) E}
    (he : w.subscription.step .subscription floatText a = some s)
    (ht : ({w with subscription := s} : Iteration T E).turn = .asks) :
    s.handle = w.subscription.handle := by
  obtain ⟨c,c',v,hc,hc',hn,hv⟩ := hw.of_asks he ht
  refine (Object.step_handle_or_task he hc hc').resolve_right (fun hk => ?_)
  rw [← hk,hv] at hn
  cases hn

theorem handle_of_findsHandle {a : IterationAction T E} (hf : w.findsHandle floatText a = true)
    (ha : w.asksNext floatText a = true) : w.subscription.handle ≠ none := by
  simpa [findsHandle,ha,Option.isSome_iff_ne_none] using hf

theorem asksNext_object {a : ObjectAction .subscription (Answer T) E} {s : Object (Answer T) E}
    (he : w.subscription.step .subscription floatText a = some s) :
    w.asksNext floatText (.object a) = true ↔
      ({w with subscription := s} : Iteration T E).turn = .asks := by
  simp only [asksNext,he,Option.any_some]
  split <;> simp_all

/-- Every step whose `next` finds a handle keeps the iteration valid. -/
theorem step_iterationValid {a : IterationAction T E} (hw : IterationValid h floatText w)
    (hf : w.findsHandle floatText a = true) (he : w.step floatText a = some w') :
    IterationValid h floatText w' := by
  cases a with
  | object a =>
    simp only [step] at he
    split at he
    · obtain ⟨s,hs,hr⟩ := Option.bind_eq_some_iff.mp he
      refine (hw.toIterationFacts.object hs).resume (fun ht => ?_) hr
      dsimp only
      rw [hw.handle_of_asks hs ht]
      exact handle_of_findsHandle hf ((asksNext_object hs).mpr ht)
    · cases he
  | poolCloses =>
    cases he
    exact ⟨⟨hw.run,hw.current,hw.ends⟩,hw.waits⟩
  | asks =>
    simp only [step] at he
    split at he
    · obtain ⟨g,hg⟩ := Option.ne_none_iff_exists'.mp (handle_of_findsHandle hf rfl)
      exact ask_iterationValid hw.toIterationFacts hg he
    · cases he
  | leaves =>
    simp only [step] at he
    split at he
    · cases he
      exact ⟨⟨hw.run,(fun hp => nomatch hp),(fun _ hp => nomatch hp)⟩,rfl⟩
    · cases he

theorem reachable_iterationValid (hw : Runs.Reachable (step floatText)
    (fun w a => w.findsHandle floatText a = true) (init h) w) : IterationValid h floatText w :=
  hw.induct (init_iterationValid h) (fun _ _ _ _ hv hf he => step_iterationValid hv hf he)

/-- An iteration that has ended stays as it ended, and is given no more. -/
theorem step_ended {a : IterationAction T E} {how : Ended E} (hp : w.phase = .ended how)
    (he : w.step floatText a = some w') : w'.phase = .ended how ∧ w'.given = w.given := by
  cases a with
  | object a =>
    simp only [step] at he
    split at he
    · obtain ⟨s,_,hr⟩ := Option.bind_eq_some_iff.mp he
      have ht : ({w with subscription := s} : Iteration T E).turn = .waits :=
        turn_of_not_waiting (by simp [hp])
      simp only [Iteration.resume,ht,Option.some.injEq] at hr
      subst hr
      exact ⟨hp,rfl⟩
    · cases he
  | poolCloses =>
    cases he
    exact ⟨hp,rfl⟩
  | asks => simp [step,hp] at he
  | leaves => simp [step,hp] at he

/-- What a step does to the subscription, it does by operations of it. -/
theorem step_subscription {P : Object (Answer T) E → Prop}
    {ok : ObjectAction .subscription (Answer T) E → Prop}
    (hP : ∀ s a t, P s → ok a → s.step .subscription floatText a = some t → P t)
    (hnext : ok (.issue .next)) {a : IterationAction T E} (ha : ∀ b, a = .object b → ok b)
    (hw : P w.subscription) (he : w.step floatText a = some w') : P w'.subscription := by
  have hask : ∀ {v v' : Iteration T E}, P v.subscription → v.ask floatText = some v' →
      P v'.subscription := by
    intro v v' hv hx
    obtain ⟨s,hs,rfl⟩ := Option.map_eq_some_iff.mp hx
    exact hP _ _ _ hv hnext hs
  cases a with
  | object a =>
    simp only [step] at he
    split at he
    · obtain ⟨s,hs,hx⟩ := Option.bind_eq_some_iff.mp he
      have hs' : P s := hP _ _ _ hw (ha a rfl) hs
      unfold Iteration.resume at hx
      split at hx
      · cases hx
        exact hs'
      · cases hx
        exact hs'
      · cases hx
        exact hs'
      · exact hask (v := {w with subscription := s}) hs' hx
    · cases he
  | poolCloses =>
    cases he
    exact hw
  | asks =>
    simp only [step] at he
    split at he
    · exact hask hw he
    · cases he
  | leaves =>
    simp only [step] at he
    split at he
    · cases he
      exact hw
    · cases he

/-- Every run of an iteration is one of its subscription. -/
theorem reachable_run {ok : Iteration T E → IterationAction T E → Prop}
    (hw : Runs.Reachable (step floatText) ok (init h) w) :
    Runs.Reachable (Object.step .subscription floatText) Runs.free
      (Object.init .subscription h) w.subscription := by
  let P : Object (Answer T) E → Prop :=
    Runs.Reachable (Object.step .subscription floatText) Runs.free (Object.init .subscription h)
  have hP : ∀ s a t, P s → True → s.step .subscription floatText a = some t → P t :=
    fun _ _ _ hs _ ht => hs.tail trivial ht
  apply hw.induct (P := fun w => P w.subscription) (.refl _)
  intro w a w' _ hr _ he
  exact step_subscription hP trivial (fun _ _ => trivial) hr he

/-- A `next` of the iteration that finds no handle ends it with the `ClosedError`. -/
theorem step_without {a : IterationAction T E} (hr : Runs.Reachable
    (Object.step .subscription floatText) Runs.free (Object.init .subscription h) w.subscription)
    (hf : w.findsHandle floatText a = false) (he : w.step floatText a = some w') :
    w'.phase = .ended (.refused (.closed (Kind.closedText .subscription))) := by
  obtain ⟨ha,hh⟩ : w.asksNext floatText a = true ∧ w.subscription.handle = none := by
    simpa [findsHandle] using hf
  cases a with
  | object a =>
    simp only [step] at he
    split at he
    · obtain ⟨s,hs,hx⟩ := Option.bind_eq_some_iff.mp he
      obtain ⟨p,hv⟩ := Object.reachable_objectValid hr
      have ht := (asksNext_object hs).mp ha
      simp only [Iteration.resume,ht] at hx
      exact ask_without (w := {w with subscription := s}) (Object.step_handle hv hs hh) hx
    · cases he
  | asks =>
    simp only [step] at he
    split at he
    · exact ask_without hh he
    · cases he
  | poolCloses => cases ha
  | leaves => cases ha

/-- The loop that has the iteration ask again is free. -/
theorem IterationValid.busy_of_asks (hw : IterationValid h floatText w)
    {a : ObjectAction .subscription (Answer T) E} {s : Object (Answer T) E}
    (he : w.subscription.step .subscription floatText a = some s)
    (ht : ({w with subscription := s} : Iteration T E).turn = .asks) : s.loop.busy = none := by
  obtain ⟨c,c',v,hc,hc',hn,hv⟩ := hw.of_asks he ht
  rcases (Object.step_loop he).2 with hl | ⟨b,hb,_⟩
  · rw [hl,hc,Option.some.injEq] at hc'
    rw [hc',hv] at hn
    cases hn
  · exact (Loop.step_taskStep hb hc hc').busy_of_returned hn hv

/-- What the subscription does and the native side allows, the iteration does not hold up. -/
theorem IterationValid.object_enabled (hw : IterationValid h floatText w)
    {a : ObjectAction .subscription (Answer T) E} {s : Object (Answer T) E}
    (ha : w.allows a = true) (he : w.subscription.step .subscription floatText a = some s) :
    w.step floatText (.object a) ≠ none := by
  simp only [step,ha,if_true,he,Option.bind_some,Iteration.resume]
  split
  · simp
  · simp
  · simp
  · next ht =>
    have hr := hw.run.tail trivial he
    obtain ⟨t,hn⟩ := Object.next_enabled floatText
      (Object.reachable_collected hr) (hw.busy_of_asks he ht)
      ((Object.reachable_freeValid hr).fresh _ _ le_rfl)
    simp [ask,hn]

/-- Where nothing is left to run, a `stop` has told the native side. -/
theorem IterationValid.stopped_of_rests (hw : IterationValid h floatText w)
    (hr : w.Rests floatText) (hh : w.subscription.handle = none) : w.stopped = true := by
  obtain ⟨p,hv⟩ := Object.reachable_objectValid hw.run
  cases p with
  | live => simp [hv.handle,Life.handle] at hh
  | closing i =>
    obtain ⟨a,t,ha,he,_⟩ := hv.passes_on floatText
    cases ha with
    | enters => exact absurd (hr _ rfl) (hw.object_enabled rfl he)
    | thread => exact absurd (hr _ rfl) (hw.object_enabled rfl he)
  | released =>
    have hx : h ∈ w.subscription.released .subscription := by
      rw [hv.released]
      exact List.mem_singleton_self h
    obtain ⟨x,hx,_⟩ := List.mem_map.mp hx
    obtain ⟨hx,hk⟩ := List.mem_filter.mp hx
    simp only [stopped,Bool.or_eq_true,List.any_eq_true]
    exact Or.inr ⟨x,hx,hk⟩

/-- Where nothing is left to run, an iteration that waits does so in its native call. -/
theorem IterationValid.inside_of_rests (hw : IterationValid h floatText w)
    (hr : w.Rests floatText) (hp : w.phase = .waiting) :
    ∃ l, Loop.step Prod.snd w.subscription.loop
      (.thread (w.wait,.blocking false) (.callReturns (.ok .closed))) = some l := by
  obtain ⟨-,c,hc⟩ := hw.current hp
  have hn := anext_eq_waits.mp ((turn_of_calls hp hc).symm.trans hw.waits)
  obtain ⟨b,l,hb,hl⟩ := Loop.step_pending hw.loop hc hn (.ok .closed)
  have hrest : ∀ {a s}, w.owed a = true → w.allows a = true →
      w.subscription.step .subscription floatText a = some s → False :=
    fun ha hx he => hw.object_enabled hx he (hr _ ha)
  have hthread : ∀ {x}, b = .thread (w.wait,.blocking false) x →
      w.subscription.admits w.wait x = true → ∃ s, w.subscription.step .subscription floatText
        (.thread (w.wait,.blocking false) x) = some s :=
    fun hx ha => Object.thread_enabled ha (hx ▸ hl)
  cases hb with
  | run => exact (hrest (a := .run) rfl rfl (Option.map_eq_some_iff.mpr ⟨l,hl,rfl⟩)).elim
  | endStep => exact (hrest (a := .endStep) rfl rfl (Option.map_eq_some_iff.mpr ⟨l,hl,rfl⟩)).elim
  | work =>
    obtain ⟨s,he⟩ := hthread rfl rfl
    exact (hrest rfl rfl he).elim
  | newToken t =>
    obtain ⟨s,he⟩ := hthread rfl rfl
    exact (hrest rfl rfl he).elim
  | callReturns => exact ⟨l,hl⟩

/-- Where nothing is left to run, an iteration of a subscription that was stopped does not wait. -/
theorem IterationValid.not_waiting (hw : IterationValid h floatText w) (hr : w.Rests floatText)
    (hs : w.stopped = true) : w.phase ≠ .waiting := by
  intro hp
  obtain ⟨ho,-⟩ := hw.current hp
  obtain ⟨l,hl⟩ := hw.inside_of_rests hr hp
  have hx : w.subscription.admits w.wait (.callReturns (.ok .closed)) = true := by
    simp [Object.admits,ho,Object.encodes]
  obtain ⟨s,he⟩ := Object.thread_enabled (k := .subscription) hx hl
  exact hw.object_enabled rfl he (hr _ hs)

/-- In a run without a `stop`, whenever the pool closes, every `next` finds the handle. -/
theorem reachable_unreleased (hw : Runs.Reachable (step floatText)
    (fun _ a => a.isRelease = false) (init h) w) :
    Runs.Reachable (step floatText) (fun w a => w.findsHandle floatText a = true) (init h) w := by
  let P : Object (Answer T) E → Prop := fun s =>
    (∃ p, Object.ObjectValid .subscription h p s) ∧ s.handle ≠ none
  have hP : ∀ s a t, P s → a.isRelease = false →
      s.step .subscription floatText a = some t → P t := by
    rintro s a t ⟨⟨p,hv⟩,hh⟩ ha he
    refine ⟨(Object.step_objectValid hv he).imp (fun _ hq => hq.2),?_⟩
    rwa [Object.step_handle_of_unreleased hv ha he]
  suffices hx : P w.subscription ∧ Runs.Reachable (step floatText)
      (fun w a => w.findsHandle floatText a = true) (init h) w from hx.2
  apply hw.induct (P := fun w => P w.subscription ∧ Runs.Reachable (step floatText)
    (fun w a => w.findsHandle floatText a = true) (init h) w)
  · exact ⟨⟨⟨_,Object.init_objectValid _ _⟩,by simp [init,Object.init]⟩,.refl _⟩
  · rintro w a w' _ ⟨hs,hr⟩ ha he
    refine ⟨step_subscription hP rfl (fun b hb => by rwa [hb] at ha) hs he,hr.tail ?_ he⟩
    simp [findsHandle,Option.isSome_iff_ne_none.mpr hs.2]

theorem reachable_ended {how : Ended E} (hp : w.phase = .ended how)
    (hr : Runs.Reachable (step floatText) Runs.free w w') :
    w'.phase = .ended how ∧ w'.given = w.given := by
  refine hr.induct (P := fun v => v.phase = .ended how ∧ v.given = w.given) ⟨hp,rfl⟩ ?_
  rintro v a v' _ ⟨hv,hg⟩ _ he
  obtain ⟨hv',hg'⟩ := step_ended hv he
  exact ⟨hv',hg'.trans hg⟩

/-- Where the subscription has nothing left to run, its iteration has not. -/
theorem rests_of_object (hr : Object.Rests .subscription floatText w.subscription) :
    w.Rests floatText := by
  intro a ha
  have hown : a.isOwn = true := by
    unfold owed at ha
    split at ha
    · rfl
    · cases ha
    · exact ha
  simp [step,hr a hown]

/-- The thread of the `next` of that number, up to the native call. -/
def entered (i : ℕ) : List (IterationAction ℕ Empty) :=
  [.newToken i,.work,.work,.work].map fun a => .object (.thread (i,.blocking false) a)

/-- Its native call returns, and its task. -/
def comesBack (i : ℕ) (v : Answer ℕ) : List (IterationAction ℕ Empty) :=
  ([.callReturns (.ok v),.work,.work,.work].map fun a => .object (.thread (i,.blocking false) a)) ++
    List.replicate 5 (.object .run)

/-- A `stop`, with that number, from its call to its end. -/
def stops (i : ℕ) : List (IterationAction ℕ Empty) :=
  .object .release :: ([.work,.callReturns (.ok .closed),.work].map fun a =>
    .object (.thread (i,.native) a)) ++ List.replicate 5 (.object .run)

/-- The first event comes. -/
def firstEvent : List (IterationAction ℕ Empty) := .asks :: entered 0 ++ comesBack 0 (.event 5)

/-- The pool closes as the iteration waits. -/
def closedInWait : List (IterationAction ℕ Empty) :=
  .asks :: entered 0 ++ .poolCloses :: comesBack 0 .closed

end Iteration
end MaculaPy.Objects
