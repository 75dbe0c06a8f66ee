import MaculaPy.Blocking.Handover
import MaculaPy.Wire.Value

/-! # Answering a served call

`_answer_call` for one pending call: the handler ends in some way, the answer this makes
is submitted to the native side, at once for a cancelled handler and on a thread of its
own for any other, and the native side may meanwhile end the call itself.
-/
namespace MaculaPy.Serving
open Wire Blocking

/-- How the handler ended: with a result, with an exception of some text, or with a
`CancelledError` of some arguments. -/
inductive HandlerEnd
  | returned (result : PyVal)
  | raised (text : PyStr)
  | cancelled (args : List PyVal)

inductive Answer
  | reply (result : Json)
  | error (detail : PyStr)

/-- The native side's pending call: open, answered by this binding, or ended by itself. -/
inductive Pending
  | unanswered
  | answered
  | ended
  deriving DecidableEq, Repr

/-- What an answer function reports: acceptance, `answered`, `invalid_handle`, or another
error, which leaves the call pending. -/
inductive Verdict
  | accepted
  | alreadyAnswered
  | invalidHandle
  | refused
  deriving DecidableEq, Repr

def withdrawn : PyStr := .ofCodes [119,105,116,104,100,114,97,119,110]
def cancelledText : PyStr := .ofCodes [99,97,110,99,101,108,108,101,100]

/-- `"withdrawn" if e.args == ("withdrawn",) else "cancelled"`. -/
def detail : List PyVal → PyStr
  | [.str s] => if s = withdrawn then withdrawn else cancelledText
  | _ => cancelledText

/-- `str(e).encode()`, which fails on a lone surrogate. -/
def errorAnswer (text : PyStr) : Option Answer :=
  if text.scalar then some (.error text) else none

/-- The answer made of the handler's end, if it can be made. -/
def answerOf : HandlerEnd → Option Answer
  | .returned v =>
    match encodePayload v with
    | .ok j => some (.reply j)
    | .error e => errorAnswer e.text
  | .raised text => errorAnswer text
  | .cancelled args => some (.error (detail args))

/-- The handler's end makes an answer, and one that the native side carries. -/
def answerable (carries : Answer → Bool) : HandlerEnd → Bool
  | .returned v =>
    match encodePayload v with
    | .ok j => carries (.reply j)
    | .error e => carries (.error e.text)
  | .raised text => text.scalar && carries (.error text)
  | .cancelled args => carries (.error (detail args))

theorem errorAnswer_any (carries : Answer → Bool) (text : PyStr) :
    (errorAnswer text).any carries = (text.scalar && carries (.error text)) := by
  unfold errorAnswer
  split <;> simp_all

theorem answerOf_any (carries : Answer → Bool) (o : HandlerEnd) :
    (answerOf o).any carries = answerable carries o := by
  cases o with
  | returned v =>
    simp only [answerOf,answerable]
    split
    · rfl
    · next e _ => rw [errorAnswer_any,e.scalar_text,Bool.true_and]
  | raised text => exact errorAnswer_any carries text
  | cancelled args => rfl

/-- An answer function, on the native side: `gone` says which of its two errors an ended
call is reported with. -/
def submit (carries : Answer → Bool) (gone : Bool) : Pending → Answer → Verdict × Pending
  | .unanswered,a => if carries a then (.accepted,.answered) else (.refused,.unanswered)
  | p,_ => (if gone then .invalidHandle else .alreadyAnswered,p)

/-- Where the handler's task is in `_answer_call`. -/
inductive Phase
  | running
  | answering (answer : Answer) (s : State Unit Verdict)
  | ended

structure Session where
  phase : Phase
  pending : Pending
  outcome : Option HandlerEnd
  log : List (Answer × Verdict)

def Session.init : Session := ⟨.running,.unanswered,none,[]⟩

inductive AnswerAction
  | handlerEnds (o : HandlerEnd) (gone : Bool)
  | call (a : Action Unit Verdict)
  | nativeAnswers (gone : Bool)
  | nativeEnds

/-- What `n.invoke` of an answer function returns or raises. -/
def Verdict.outcome : Verdict → Except (Raised Verdict) Unit
  | .accepted => .ok ()
  | v => .error (.other v)

def Session.submit (carries : Answer → Bool) (gone : Bool) (s : Session) (a : Answer) : Session :=
  let r := Serving.submit carries gone s.pending a
  {s with pending := r.2, log := (a,r.1) :: s.log}

def step (carries : Answer → Bool) (s : Session) : AnswerAction → Option Session
  | .handlerEnds o gone =>
    match s.phase with
    | .running =>
      let s := {s with outcome := some o}
      match o,answerOf o with
      | .cancelled _,some a => some {s.submit carries gone a with phase := .ended}
      | _,some a => some {s with phase := .answering a Blocking.init}
      | _,none => some {s with phase := .ended}
    | _ => none
  | .call b =>
    match s.phase,b with
    | .answering _ _,.thread (.callReturns _) => none
    | .answering a c,b => (Blocking.step .native c b).map fun c => {s with phase := .answering a c}
    | _,_ => none
  | .nativeAnswers gone =>
    match s.phase with
    | .answering a c =>
      let t := s.submit carries gone a
      let r := (Serving.submit carries gone s.pending a).1
      (Blocking.step .native c (.thread (.callReturns r.outcome))).map fun c =>
        {t with phase := .answering a c}
    | _ => none
  | .nativeEnds =>
    match s.pending with
    | .unanswered => some {s with pending := .ended}
    | _ => none

/-- The handler's task has ended. -/
def Session.over (s : Session) : Bool :=
  match s.phase with
  | .running => false
  | .answering _ c => c.call.task.ended
  | .ended => true

/-- The thread that answers has not called the native side yet. -/
def Session.inFlight (s : Session) : Bool :=
  match s.phase with
  | .answering _ c => c.call.worker.outcome?.isNone
  | _ => false

/-- The native side accepted exactly one answer, or ended the call itself. -/
def Session.Settled (s : Session) : Prop :=
  (s.log.filter (fun x => x.2 = .accepted)).length = 1 ∨ s.pending = .ended

/-- What one submission says of the answer and of the pending call. -/
def VerdictOk (carries : Answer → Bool) (p : Pending) (a : Answer) : Verdict → Prop
  | .accepted => carries a = true ∧ p = .answered
  | .refused => carries a = false ∧ p ≠ .answered
  | _ => p = .ended

structure AnswerValid (carries : Answer → Bool) (s : Session) : Prop where
  log : (s.log = [] ∧ s.pending ≠ .answered) ∨
    ∃ a v, s.log = [(a,v)] ∧ VerdictOk carries s.pending a v
  running : s.phase = .running → s.log = []
  answering : ∀ a c, s.phase = .answering a c →
    Runs.Reachable (Blocking.step .native) Runs.free Blocking.init c ∧
      (∃ o, s.outcome = some o ∧ answerOf o = some a) ∧
      (returns c.trace = [] → s.log = []) ∧ (returns c.trace ≠ [] → ∃ v, s.log = [(a,v)])
  ended : s.phase = .ended → ∃ o, s.outcome = some o ∧
    ((answerOf o = none ∧ s.log = []) ∨ ∃ a v, answerOf o = some a ∧ s.log = [(a,v)])

variable {carries : Answer → Bool} {s t : Session}

theorem init_answerValid : AnswerValid carries .init where
  log := Or.inl ⟨rfl,by simp [Session.init]⟩
  running _ := rfl
  answering _ _ h := by simp [Session.init] at h
  ended h := by simp [Session.init] at h

/-- One submission to a call that had none before. -/
theorem submit_verdictOk (hp : s.pending ≠ .answered) (gone : Bool) (a : Answer) :
    VerdictOk carries (submit carries gone s.pending a).2 a (submit carries gone s.pending a).1 := by
  cases hs : s.pending with
  | unanswered => cases hc : carries a <;> simp [submit,hc,VerdictOk]
  | answered => exact absurd hs hp
  | ended => cases gone <;> simp [submit,VerdictOk]

theorem AnswerValid.pending_of_log (hi : AnswerValid carries s) (hl : s.log = []) :
    s.pending ≠ .answered := by
  rcases hi.log with h | ⟨a,v,h,_⟩
  · exact h.2
  · rw [hl] at h
    cases h

theorem submit_log (carries : Answer → Bool) (hl : s.log = []) (gone : Bool) (a : Answer) :
    (s.submit carries gone a).log = [(a,(submit carries gone s.pending a).1)] := by
  simp [Session.submit,hl]

theorem handlerEnds_answerValid {o : HandlerEnd} {gone : Bool} (hi : AnswerValid carries s)
    (he : step carries s (.handlerEnds o gone) = some t) : AnswerValid carries t := by
  simp only [step] at he
  split at he
  · next hp =>
    have hl := hi.running hp
    have hn := hi.pending_of_log hl
    split at he
    · next a ha =>
      cases he
      have hlog := submit_log carries hl gone a
      exact ⟨Or.inr ⟨a,_,hlog,submit_verdictOk hn gone a⟩,by simp,by simp,
        fun _ => ⟨_,rfl,Or.inr ⟨a,_,ha,hlog⟩⟩⟩
    · next a ha =>
      cases he
      refine ⟨Or.inl ⟨hl,hn⟩,by simp,?_,by simp⟩
      intro a' c h
      cases h
      exact ⟨.refl _,⟨_,rfl,ha⟩,fun _ => hl,fun h => absurd rfl h⟩
    · next ha =>
      cases he
      exact ⟨Or.inl ⟨hl,hn⟩,by simp,by simp,fun _ => ⟨_,rfl,Or.inl ⟨ha,hl⟩⟩⟩
  · cases he

theorem call_answerValid {b : Action Unit Verdict} (hi : AnswerValid carries s)
    (he : step carries s (.call b) = some t) : AnswerValid carries t := by
  simp only [step] at he
  split at he
  · cases he
  · next b a c hp hne =>
    obtain ⟨c',hc,rfl⟩ := Option.map_eq_some_iff.mp he
    obtain ⟨hr,ho,hl⟩ := hi.answering a c hp
    refine ⟨hi.log,by simp,?_,by simp⟩
    intro a' d h
    cases h
    have hret : returns c'.trace = returns c.trace :=
      step_returns (reachable_queueValid hr) hc (fun o h => hne o h)
    rw [hret]
    exact ⟨hr.tail trivial hc,ho,hl⟩
  · cases he

theorem nativeAnswers_answerValid {gone : Bool} (hi : AnswerValid carries s)
    (he : step carries s (.nativeAnswers gone) = some t) : AnswerValid carries t := by
  simp only [step] at he
  split at he
  · next a c hp =>
    obtain ⟨c',hc,rfl⟩ := Option.map_eq_some_iff.mp he
    obtain ⟨hr,ho,hl,_⟩ := hi.answering a c hp
    obtain ⟨e,ha,rfl⟩ := Option.map_eq_some_iff.mp hc
    obtain ⟨hu,hev⟩ := callReturns_events ha
    have hempty := hl ((reachable_handoverValid hr).unreturned hu)
    have hlog := submit_log carries hempty gone a
    refine ⟨Or.inr ⟨a,_,hlog,submit_verdictOk (hi.pending_of_log hempty) gone a⟩,by simp,?_,by simp⟩
    intro a' d h
    cases h
    have hne : returns (c.after e).trace ≠ [] := by
      rw [returns_after,hev]
      exact List.cons_ne_nil _ _
    exact ⟨hr.tail trivial hc,ho,fun h => absurd h hne,fun _ => ⟨_,hlog⟩⟩
  · cases he

theorem nativeEnds_answerValid (hi : AnswerValid carries s)
    (he : step carries s .nativeEnds = some t) : AnswerValid carries t := by
  simp only [step] at he
  split at he
  · next hp =>
    cases he
    refine ⟨?_,hi.running,hi.answering,hi.ended⟩
    rcases hi.log with ⟨hl,_⟩ | ⟨a,v,hl,hv⟩
    · exact Or.inl ⟨hl,by simp⟩
    · refine Or.inr ⟨a,v,hl,?_⟩
      cases v <;> simp_all [VerdictOk]
  · cases he

theorem reachable_answerValid (hs : Runs.Reachable (step carries) Runs.free .init s) :
    AnswerValid carries s := by
  apply hs.induct init_answerValid
  intro s a t _ hi _ he
  cases a with
  | handlerEnds o gone => exact handlerEnds_answerValid hi he
  | call b => exact call_answerValid hi he
  | nativeAnswers gone => exact nativeAnswers_answerValid hi he
  | nativeEnds => exact nativeEnds_answerValid hi he

/-- A submitted answer settles the call exactly if the native side carries it. -/
theorem AnswerValid.settled_iff (hi : AnswerValid carries s) {a : Answer} {v : Verdict}
    (hl : s.log = [(a,v)]) : s.Settled ↔ s.pending = .ended ∨ carries a = true := by
  obtain ⟨a',v',hl',hv⟩ := hi.log.resolve_left (by simp [hl])
  obtain ⟨rfl,rfl⟩ : a = a' ∧ v = v' := by simpa [hl] using hl'
  cases v <;> simp_all [Session.Settled,VerdictOk]

/-- While the answer is on its thread, nothing was submitted; the task only ends so when it
is cancelled as it waits for that thread. -/
theorem inFlight_log (hs : Runs.Reachable (step carries) Runs.free .init s) (hf : s.inFlight = true) :
    s.log = [] ∧ (s.over = true → ∃ a c, s.phase = .answering a c ∧ c.call.task = .cancelled) := by
  have hi := reachable_answerValid hs
  cases hp : s.phase with
  | running => simp [Session.inFlight,hp] at hf
  | ended => simp [Session.inFlight,hp] at hf
  | answering a c =>
    obtain ⟨hr,_,hl,_⟩ := hi.answering a c hp
    have hh := reachable_handoverValid hr
    have hw : c.call.worker.outcome? = none := by simpa [Session.inFlight,hp] using hf
    refine ⟨hl (hh.unreturned hw),fun hover => ⟨a,c,rfl,?_⟩⟩
    have hpost : c.call.worker.posted? = none := by
      cases hw' : c.call.worker <;> simp_all [Worker.outcome?,Worker.posted?]
    have hn := (reachable_queueValid hr).future_pending_of_unposted hpost
    cases hk : c.call.task with
    | awaiting => simp [Session.over,hp,hk,Task.ended] at hover
    | ending l => simp [Session.over,hp,hk,Task.ended] at hover
    | returned v => simpa [hn] using hh.value v hk
    | raised e => simpa [hn] using hh.raised e hk
    | cancelled => rfl

/-- Off its thread, the answer the handler's end makes was submitted, if it makes one. -/
theorem log_of_over (hs : Runs.Reachable (step carries) Runs.free .init s) {o : HandlerEnd}
    (ho : s.outcome = some o) (hover : s.over = true) (hf : s.inFlight = false) :
    (answerOf o = none ∧ s.log = []) ∨ ∃ a v, answerOf o = some a ∧ s.log = [(a,v)] := by
  have hi := reachable_answerValid hs
  cases hp : s.phase with
  | running => simp [Session.over,hp] at hover
  | answering a c =>
    obtain ⟨hr,⟨o',ho',ha⟩,_,hl⟩ := hi.answering a c hp
    obtain rfl : o = o' := Option.some.inj (ho.symm.trans ho')
    have hw : c.call.worker.outcome? ≠ none := by
      intro h
      simp [Session.inFlight,hp,h] at hf
    obtain ⟨x,hx⟩ := Option.ne_none_iff_exists'.mp hw
    obtain ⟨_,_,hret,_⟩ := (reachable_handoverValid hr).returned x hx
    obtain ⟨v,hl⟩ := hl (by simp [hret])
    exact Or.inr ⟨a,v,ha,hl⟩
  | ended =>
    obtain ⟨o',ho',h⟩ := hi.ended hp
    obtain rfl : o = o' := Option.some.inj (ho.symm.trans ho')
    exact h

/-- When the handler's task has ended, the native side has accepted exactly one answer, or
had ended the call itself, exactly if it did end the call, or the handler's end makes an
answer, the native side carries it and it is no longer on its thread. At most one answer is
submitted, and one is still on its thread only when the task was cancelled as it waited for
that thread. -/
theorem answered_once_iff (hs : Runs.Reachable (step carries) Runs.free .init s) {o : HandlerEnd}
    (ho : s.outcome = some o) (hover : s.over = true) :
    s.log.length ≤ 1 ∧
      (s.Settled ↔
        s.pending = .ended ∨ (s.inFlight = false ∧ answerable carries o = true)) ∧
      (s.inFlight = true → ∃ a c, s.phase = .answering a c ∧ c.call.task = .cancelled) := by
  have hi := reachable_answerValid hs
  refine ⟨?_,?_,fun hf => (inFlight_log hs hf).2 hover⟩
  · rcases hi.log with ⟨h,_⟩ | ⟨a,v,h,_⟩ <;> simp [h]
  · cases hf : s.inFlight with
    | true => simp [Session.Settled,(inFlight_log hs hf).1]
    | false =>
      rcases log_of_over hs ho hover hf with ⟨ha,hl⟩ | ⟨a,v,ha,hl⟩
      · simp [Session.Settled,hl,← answerOf_any,ha]
      · simp [hi.settled_iff hl,← answerOf_any,ha]

/-- The handler returns `None` and the native side takes the answer. -/
def replied : List AnswerAction :=
  [.handlerEnds (.returned .none) false,.call (.thread .work),.nativeAnswers false,
    .call (.thread .work),.call .loop,.call .loop,.call .loop,.call .loop,.call .loop]

theorem answered_once_iff_replied : ∃ s, Runs.exec (step (fun _ => true)) .init replied = some s ∧
    s.over = true ∧ s.Settled ∧ s.log.length ≤ 1 := by
  refine ⟨_,rfl,rfl,?_⟩
  have hr : Runs.Reachable (step fun _ => true) Runs.free .init _ := .of_exec replied rfl
  have h := answered_once_iff hr rfl rfl
  exact ⟨h.2.1.mpr (Or.inr ⟨rfl,rfl⟩),h.1⟩

/-- The handler raises an exception whose text holds a lone surrogate: the `except` clause
raises in its turn, nothing is submitted and the call stays pending. -/
theorem not_answered_once_surrogate : ∃ s,
    Runs.exec (step (fun _ => true)) .init [.handlerEnds (.raised (.ofCodes [0xD800])) false] =
      some s ∧
    s.over = true ∧ s.inFlight = false ∧ s.pending = .unanswered ∧ s.log = [] ∧ ¬ s.Settled := by
  refine ⟨_,rfl,rfl,rfl,rfl,rfl,?_⟩
  simp [Session.Settled,Session.init]

end MaculaPy.Serving
