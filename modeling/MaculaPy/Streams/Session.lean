import MaculaPy.Streams.Stream

/-! # A served stream session

`_run_session` over a stream: the handler, which ends in some way, then the session's own
close or abort, and its own `free`. What the handler and the tasks it starts do with the
stream is left open, before the handler ends and after, and each of the awaits may be
cancelled.
-/
namespace MaculaPy.Streams
open Blocking Wire History

/-- How the handler ended: an exception comes with its `str`, if it has one, and what is no
`Exception`, as a `CancelledError`, passes. -/
inductive HandlerEnd
  | returned
  | raised (text : Option PyStr)
  | left

/-- Where `_run_session` is: in the handler, in one of its own awaits, or ended. -/
inductive Phase
  | handling
  | closing (i : ℕ)
  | aborting (i : ℕ)
  | freeing (i : ℕ)
  | ended
  deriving DecidableEq, Repr

/-- What `_run_session` calls of its own. -/
inductive Own
  | close
  | abort
  | free
  deriving DecidableEq, Repr

structure Session where
  stream : Stream
  phase : Phase
  started : List Own

inductive SessionAction
  | stream (a : StreamAction)
  | handlerEnds (how : HandlerEnd)

/-- The session's own call that it waits for. -/
def Phase.await? : Phase → Option ℕ
  | .closing i => some i
  | .aborting i => some i
  | .freeing i => some i
  | _ => none

/-- `str` of what a native call raised. -/
def errorText : Raised Fault → Option PyStr
  | .nativeCancelled m => some (.ofString m)
  | .maculaError m => some (.ofString m)
  | .other .closed => some []
  | .other (.failed text) => text

def handlerError : PyStr := .ofString "handler_error"

namespace Session
open Streams.Stream

def init (h : ℕ) : Session := ⟨.init h,.handling,[]⟩

/-- The session is at the await of a call of its own. -/
def await (w : Session) (j : Job) (phase : ℕ → Phase) : Session :=
  {w with stream := w.stream.spawn j, phase := phase w.stream.next}

def start (w : Session) (x : Own) : Session := {w with started := x :: w.started}

/-- The `finally` clause. -/
def finish (w : Session) : Session := (w.start .free).await .free .freeing

/-- `await stream.close()`; its `ClosedError` passes. -/
def close (w : Session) : Session :=
  match w.stream.handle with
  | none => (w.start .close).finish
  | some h => (w.start .close).await (.op .close h) .closing

/-- The `except Exception` clause. -/
def abort (w : Session) : Option PyStr → Session
  | none => w.finish
  | some text =>
    match w.stream.handle with
    | none => (w.start .abort).finish
    | some h => (w.start .abort).await (.op (.abort handlerError text) h) .aborting

/-- `_run_session` past the await of its own call, which ended as the task says. -/
def goOn (w : Session) (t : Task Unit Fault) : Session :=
  match w.phase,t with
  | .closing _,.raised (.other .closed) => w.finish
  | .closing _,.raised e => w.abort (errorText e)
  | .freeing _,_ => {w with phase := .ended}
  | _,_ => w.finish

def resume (w : Session) : Session :=
  match w.phase.await?.bind w.stream.loop.calls with
  | some c => if c.task.ended then w.goOn c.task else w
  | none => w

def step (w : Session) : SessionAction → Option Session
  | .stream a => (w.stream.step a).map fun s => {w with stream := s}.resume
  | .handlerEnds how =>
    match w.phase,how with
    | .handling,.returned => some w.close
    | .handling,.raised text => some (w.abort text)
    | .handling,.left => some w.finish
    | _,_ => none

variable {h : ℕ} {w w' : Session}

/-- The session's own call runs what its phase says, and its own `free` comes last. -/
structure SessionFacts (h : ℕ) (w : Session) : Prop where
  stream : StreamValid h w.stream
  current : ∀ i, w.phase.await? = some i → ∃ c, w.stream.loop.calls i = some c
  freeing : ∀ i, w.phase = .freeing i → w.stream.jobs i = some .free
  ended : w.phase = .ended → ∃ i c, w.stream.jobs i = some .free ∧ w.stream.loop.calls i = some c
  started : Lawful (fun v _ => .free ∉ v) w.started
  unreleased : .free ∈ w.started → (∃ i, w.phase = .freeing i) ∨ w.phase = .ended

/-- The session does not outwait its own call. -/
structure SessionValid (h : ℕ) (w : Session) : Prop extends SessionFacts h w where
  waits : ∀ i c, w.phase.await? = some i → w.stream.loop.calls i = some c → c.task.ended = false

theorem init_sessionValid (h : ℕ) : SessionValid h (init h) where
  stream := init_streamValid h
  current i hi := by cases hi
  freeing i hi := by cases hi
  ended hi := by cases hi
  started := trivial
  unreleased hx := by cases hx
  waits i c hi := by cases hi

theorem await_sessionValid {j : Job} {phase : ℕ → Phase} (hv : StreamValid h w.stream)
    (hj : (∃ o, j = .op o h) ∨ j = .free) (hp : ∀ i, (phase i).await? = some i)
    (hf : ∀ i k, phase i = .freeing k → j = .free) (hs : Lawful (fun v _ => .free ∉ v) w.started)
    (hu : .free ∈ w.started → ∀ i, phase i = .freeing i) : SessionValid h (w.await j phase) := by
  have hnext : ∀ i, (w.await j phase).phase.await? = some i → i = w.stream.next :=
    fun i hi => (Option.some.inj ((hp w.stream.next).symm.trans hi)).symm
  refine ⟨⟨spawn_streamValid hv hj,?_,?_,?_,hs,?_⟩,?_⟩
  · intro i hi
    obtain rfl := hnext i hi
    exact ⟨_,spawn_calls_self _ _⟩
  · intro i hi
    have hk : phase w.stream.next = .freeing i := hi
    obtain rfl := hnext i (hi ▸ rfl)
    rw [hf _ _ hk]
    exact enlist_jobs_self _ _
  · intro hi
    have hk : phase w.stream.next = .ended := hi
    have := hp w.stream.next
    simp [hk,Phase.await?] at this
  · intro hx
    exact Or.inl ⟨_,hu hx _⟩
  · intro i c hi hc
    obtain rfl := hnext i hi
    obtain rfl : Blocking.start = c :=
      Option.some.inj ((spawn_calls_self _ _).symm.trans hc)
    rfl

theorem finish_sessionValid (hv : StreamValid h w.stream)
    (hs : Lawful (fun v _ => .free ∉ v) w.started) (hu : .free ∉ w.started) :
    SessionValid h w.finish :=
  await_sessionValid (w := w.start .free) hv (Or.inr rfl) (fun _ => rfl) (fun _ _ _ => rfl)
    ⟨hu,hs⟩ (fun _ _ => rfl)

/-- A call of the session's own, or its `free` when the stream has no handle. -/
theorem start_sessionValid {x : Own} (hx : x ≠ .free) (hv : StreamValid h w.stream)
    (hs : Lawful (fun v _ => .free ∉ v) w.started) (hu : .free ∉ w.started) :
    SessionValid h (w.start x).finish ∧ ∀ o (phase : ℕ → Phase), (∀ i, (phase i).await? = some i) →
      (∀ i k, phase i ≠ .freeing k) → SessionValid h ((w.start x).await (.op o h) phase) := by
  have hu' : .free ∉ (w.start x).started := by
    simpa [start] using ⟨hx.symm,hu⟩
  refine ⟨finish_sessionValid hv ⟨hu,hs⟩ hu',fun o phase hp hf => ?_⟩
  exact await_sessionValid hv (Or.inl ⟨o,rfl⟩) hp (fun i k hk => absurd hk (hf i k)) ⟨hu,hs⟩
    (fun hx => absurd hx hu')

theorem close_sessionValid (hv : StreamValid h w.stream)
    (hs : Lawful (fun v _ => .free ∉ v) w.started) (hu : .free ∉ w.started) :
    SessionValid h w.close := by
  obtain ⟨hfinish,hawait⟩ := start_sessionValid (x := .close) (by decide) hv hs hu
  unfold close
  split
  · exact hfinish
  · next hh =>
    obtain rfl := hv.handle_eq hh
    exact hawait .close .closing (fun _ => rfl) (by simp)

theorem abort_sessionValid (hv : StreamValid h w.stream)
    (hs : Lawful (fun v _ => .free ∉ v) w.started) (hu : .free ∉ w.started) (text : Option PyStr) :
    SessionValid h (w.abort text) := by
  obtain ⟨hfinish,hawait⟩ := start_sessionValid (x := .abort) (by decide) hv hs hu
  cases text with
  | none => exact finish_sessionValid hv hs hu
  | some text =>
    simp only [abort]
    split
    · exact hfinish
    · next hh =>
      obtain rfl := hv.handle_eq hh
      exact hawait _ .aborting (fun _ => rfl) (by simp)

theorem SessionFacts.not_free (hw : SessionFacts h w) (hp : ∀ i, w.phase ≠ .freeing i)
    (he : w.phase ≠ .ended) : .free ∉ w.started := by
  intro hx
  rcases hw.unreleased hx with ⟨i,hi⟩ | hi
  · exact hp i hi
  · exact he hi

theorem SessionFacts.goOn (hw : SessionFacts h w) {i : ℕ} (hi : w.phase.await? = some i)
    (t : Task Unit Fault) : SessionValid h (w.goOn t) := by
  unfold Session.goOn
  split
  · next k hp =>
    exact finish_sessionValid hw.stream hw.started (hw.not_free (by simp [hp]) (by simp [hp]))
  · next k e _ hp =>
    exact abort_sessionValid hw.stream hw.started (hw.not_free (by simp [hp]) (by simp [hp])) _
  · next k hp =>
    obtain ⟨c,hc⟩ := hw.current k (by rw [hp]; rfl)
    exact ⟨⟨hw.stream,by simp [Phase.await?],by simp,fun _ => ⟨k,c,hw.freeing k hp,hc⟩,hw.started,
      fun _ => Or.inr rfl⟩,by simp [Phase.await?]⟩
  · next hn _ _ =>
    refine finish_sessionValid hw.stream hw.started (hw.not_free hn ?_)
    intro hp
    simp [hp,Phase.await?] at hi

theorem SessionFacts.resume (hw : SessionFacts h w) : SessionValid h w.resume := by
  unfold Session.resume
  split
  · next c hc =>
    obtain ⟨i,hi,hci⟩ := Option.bind_eq_some_iff.mp hc
    split
    · exact hw.goOn hi c.task
    · next hend =>
      refine ⟨hw,fun k d hk hd => ?_⟩
      obtain rfl : i = k := Option.some.inj (hi.symm.trans hk)
      obtain rfl : c = d := Option.some.inj (hci.symm.trans hd)
      simpa using hend
  · next hn =>
    refine ⟨hw,fun k d hk hd => ?_⟩
    simp [hk,hd] at hn

/-- What the stream does leaves the session's own call where it is. -/
theorem SessionFacts.stream_step (hw : SessionFacts h w) {a : StreamAction} {s : Stream}
    (he : w.stream.step a = some s) : SessionFacts h {w with stream := s} := by
  have hk := step_keeps hw.stream he
  refine ⟨step_streamValid hw.stream he,?_,?_,?_,hw.started,hw.unreleased⟩
  · intro i hi
    obtain ⟨c,hc⟩ := hw.current i hi
    exact hk.calls i c hc
  · intro i hi
    exact hk.jobs i _ (hw.freeing i hi)
  · intro hi
    obtain ⟨i,c,hj,hc⟩ := hw.ended hi
    obtain ⟨d,hd⟩ := hk.calls i c hc
    exact ⟨i,d,hk.jobs i _ hj,hd⟩

/-- Every step keeps the facts. -/
theorem step_sessionValid {a : SessionAction} (hw : SessionValid h w) (he : w.step a = some w') :
    SessionValid h w' := by
  cases a with
  | stream a =>
    obtain ⟨s,hs,rfl⟩ := Option.map_eq_some_iff.mp he
    exact (hw.toSessionFacts.stream_step hs).resume
  | handlerEnds how =>
    simp only [step] at he
    split at he
    · next hp =>
      cases he
      exact close_sessionValid hw.stream hw.started (hw.not_free (by simp [hp]) (by simp [hp]))
    · next text hp =>
      cases he
      exact abort_sessionValid hw.stream hw.started (hw.not_free (by simp [hp]) (by simp [hp])) text
    · next hp =>
      cases he
      exact finish_sessionValid hw.stream hw.started (hw.not_free (by simp [hp]) (by simp [hp]))
    · cases he

theorem reachable_sessionValid {ok : Session → SessionAction → Prop}
    (hw : Runs.Reachable step ok (init h) w) : SessionValid h w :=
  hw.induct (init_sessionValid h) (fun _ _ _ _ hv _ he => step_sessionValid hv he)

/-- With nothing left to run, a session whose handler has ended is over. -/
theorem SessionValid.over (hw : SessionValid h w) (hr : w.stream.Rests)
    (hp : w.phase ≠ .handling) : w.phase = .ended := by
  have hwait : w.phase.await? = none := by
    cases ha : w.phase.await? with
    | none => rfl
    | some i =>
      obtain ⟨c,hc⟩ := hw.current i ha
      have hend := hr.ended hw.stream hc
      rw [hw.waits i c ha hc] at hend
      cases hend
  cases hph : w.phase with
  | handling => exact absurd hph hp
  | ended => rfl
  | _ => simp [hph,Phase.await?] at hwait

/-- The handler raises; the session's abort and its `free` are both cancelled at their awaits,
and their threads run after that. -/
def cancelledTwice : List SessionAction :=
  [.handlerEnds (.raised (some [])),.stream (.cancelTask 0),.stream .run,.stream .run,
    .stream (.cancelTask 1),.stream .run,.stream .run,.stream (.thread 1 .work),
    .stream (.freeEnters 1),.stream (.thread 0 .work),
    .stream (.thread 0 (.callReturns (.error (.other .closed)))),.stream (.thread 0 .work),
    .stream (.thread 1 (.callReturns (.ok ()))),.stream (.thread 1 .work),.stream .run,.stream .run,
    .stream .run,.stream .run]

/-- What a run of two calls leaves to do. -/
def left (w : Session) : Bool × ℕ × List (ℕ × ℕ) × ℕ × List (Option (Bool × ℕ)) :=
  (w.phase = .handling,w.stream.next,w.stream.taken,w.stream.loop.ready.length,
    (List.range 2).map fun i => (w.stream.loop.calls i).map fun c =>
      (c.worker.posted?.isSome,c.discards.length))

end Session
end MaculaPy.Streams
