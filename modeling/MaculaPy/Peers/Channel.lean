import MaculaPy.Blocking.Inbox
import MaculaPy.Blocking.Outcome
import MaculaPy.Peers.Frames
import MaculaPy.Streams.Order

/-! # A stream from end to end

At one end one task runs the operations of a stream, each when the await of the one before is over;
`free` may come from any task. At the other end one task iterates over the stream, and may be
cancelled. Every step of a thread, of a loop or of the native layers may come between any two
others.
-/
namespace MaculaPy.Streams.Stream
open Blocking History
variable {h : ℕ} {s t : Stream} {a : StreamAction}

/-- What a step does to the loop: nothing, the start of a call, or a step of the loop. -/
inductive LoopStep (s t : Stream) (a : StreamAction) : Prop
  | same (hl : t.loop = s.loop)
  | starts (j : Job) (hl : t.loop = (s.spawn j).loop)
  | steps {b : LoopAction ℕ Empty Unit Fault} (hl : Loop.step route s.loop b = some t.loop)
    (hc : ∀ i, b = .cancelTask i → a = .cancelTask i)
    (ht : ∀ i x, b = .thread i x → a = .thread i x)

theorem step_loopStep (he : s.step a = some t) : LoopStep s t a := by
  cases step_move he with
  | refused _ => exact .same rfl
  | issue _ => exact .starts _ rfl
  | free => exact .starts _ rfl
  | freeHere => exact .same (take_loop _ _)
  | freeEnters _ => exact .same rfl
  | @begins i c l _ _ hl =>
    have hloop : Loop.step route s.loop (.thread i .work) =
        some (({s with loop := l} : Stream).enter i).loop := by rw [hl,enter_loop]
    exact .steps hloop (by simp) (by simp)
  | thread _ _ hl => exact .steps hl (by simp) (by simp)
  | cancelTask hl => exact .steps hl (by simp) (by simp)
  | run hl => exact .steps hl (by simp) (by simp)

/-- What a call was past stays past, and only its cancellation cancels it. -/
theorem step_call (hv : StreamValid h s) (he : s.step a = some t) {i : ℕ} {c : Call Unit Fault}
    (hc : s.loop.calls i = some c) : ∃ c', t.loop.calls i = some c' ∧
      (c.task.ended = true → c'.task.ended = true) ∧
      (a ≠ .cancelTask i → c'.interrupted → c.interrupted) := by
  cases step_loopStep he with
  | same hl => exact ⟨c,hl ▸ hc,id,fun _ => id⟩
  | starts j hl => exact ⟨c,hl ▸ spawn_calls hv hc,id,fun _ => id⟩
  | steps hl hcancel _ =>
    obtain ⟨c',hc',ht,hi⟩ := Loop.step_call hv.loop hl hc
    exact ⟨c',hc',fun hend => ht hend ▸ hend,fun ha => hi fun hb => ha (hcancel i hb)⟩

theorem step_returned (hv : StreamValid h s) (he : s.step a = some t) {i : ℕ}
    {o : Except (Raised Fault) Unit} (hm : .returned o ∈ view i t.loop.trace) :
    .returned o ∈ view i s.loop.trace ∨ a = .thread i (.callReturns o) := by
  cases step_loopStep he with
  | same hl => exact .inl (hl ▸ hm)
  | starts j hl =>
    rw [hl] at hm
    exact .inl hm
  | steps hl _ ht => exact (Loop.step_returned hv.loop hl hm).imp_right (ht i _)

/-- Only an `issue` makes an operation of a job. -/
theorem step_op (he : s.step a = some t) (ha : ∀ o, a ≠ .issue o) {i : ℕ} {o : Op} {k : ℕ}
    (hj : t.jobs i = some (.op o k)) : s.jobs i = some (.op o k) := by
  have hfree : ∀ j : Job, (∀ o k, j ≠ .op o k) → (s.enlist j).jobs i = some (.op o k) →
      s.jobs i = some (.op o k) := by
    intro j hne hj
    by_cases hi : i = s.next
    · subst hi
      rw [enlist_jobs_self] at hj
      exact absurd (Option.some.inj hj) (hne o k)
    · rwa [enlist_jobs_of_ne s j hi] at hj
  cases step_move he with
  | issue _ => exact absurd rfl (ha _)
  | free => exact hfree _ (by simp) hj
  | freeHere =>
    rw [take_jobs] at hj
    exact hfree _ (by simp) hj
  | begins _ _ _ =>
    rw [enter_jobs] at hj
    exact hj
  | _ => exact hj

theorem spawn_op {o : Op} {g : ℕ} {i : ℕ} {o' : Op} {k : ℕ}
    (hj : (s.spawn (.op o g)).jobs i = some (.op o' k)) :
    (i = s.next ∧ o' = o) ∨ i ≠ s.next ∧ s.jobs i = some (.op o' k) := by
  change (s.enlist (.op o g)).jobs i = _ at hj
  by_cases hi : i = s.next
  · subst hi
    rw [enlist_jobs_self] at hj
    cases hj
    exact .inl ⟨rfl,rfl⟩
  · exact .inr ⟨hi,(enlist_jobs_of_ne s _ hi).symm.trans hj⟩

theorem ended_of_allOver (hv : StreamValid h s) (ho : s.allOver = true) {i : ℕ}
    {c : Call Unit Fault} (hc : s.loop.calls i = some c) : c.task.ended = true := by
  have hi : i < s.next := by
    by_contra hge
    rw [(hv.unused i (Nat.le_of_not_lt hge)).1] at hc
    cases hc
  have hall := List.all_eq_true.mp ho i (List.mem_range.mpr hi)
  simpa [hc] using hall

end MaculaPy.Streams.Stream

namespace MaculaPy.Blocking.Loop
open History
variable {T E : Type*} {route : ℕ → Route} {l l' : Loop ℕ Empty (Option T) E}
  {a : LoopAction ℕ Empty (Option T) E}

/-- The inbox hands an item over as the native call of a wait returns. -/
theorem step_handedOut (hl : Runs.Reachable (step route) Runs.free init l)
    (he : step route l a = some l') : l'.handedOut = l.handedOut ∨
      ∃ i x c, a = .thread i (.callReturns (.ok (some x))) ∧ l.calls i = some c ∧
        c.worker.outcome? = none ∧ l'.handedOut = (i,x) :: l.handedOut := by
  have hsame : ∀ {u : Loop ℕ Empty (Option T) E} {i : ℕ} {e : Effect (Option T) E},
      returns e.events = [] → (u.after i e).handedOut = u.handedOut := by
    intro u i e hr
    rw [after_handedOut,filterMap_handedOut,hr]
    rfl
  cases step_move he with
  | start _ _ => exact .inl rfl
  | @thread i b c e _ hc ht =>
    rcases (threadStep_returns ht).2 with hr | ⟨o,rfl,hw⟩
    · exact .inl (hsame hr)
    · rw [after_handedOut,(callReturns_events ht).2]
      rcases o with e | _ | x
      · exact .inl rfl
      · exact .inl rfl
      · exact .inr ⟨i,x,c,rfl,hc,hw,rfl⟩
  | cancelTask _ _ ht => exact .inl (hsame (by rw [cancelTask_events ht]; rfl))
  | @run i k ks c hb hr hc =>
    have hown : (l.callState i c).ready = k :: own i ks := by simp [callState,hr,own_cons_inl]
    have hret := (runCallback_taskChange (reachable_queueValid (reachable_call hl hc)) hown).2
    exact .inl (hsame (u := {l with ready := ks}) hret)
  | other _ _ => exact .inl rfl
  | endStep _ _ ht => exact .inl (hsame (endTheCall_taskChange ht).2)
  | soon => exact .inl rfl

theorem outcome_of_task (hl : Runs.Reachable (step route) Runs.free init l) {i : ℕ}
    {c : Call (Option T) E} {v : Option T} (hc : l.calls i = some c) (hv : c.task = .returned v) :
    c.worker.outcome? ≠ none := by
  have hs := reachable_call hl hc
  obtain ⟨o,ho,-⟩ := (reachable_queueValid hs).future_done _ ((reachable_handoverValid hs).value v hv)
  intro hn
  have hx := Worker.outcome_of_posted ho
  rw [show (l.callState i c).call = c from rfl,hn] at hx
  cases hx

end MaculaPy.Blocking.Loop

namespace MaculaPy.Peers
open Wire Streams Streams.Stream Blocking History Runs

/-- What an iteration ends with: `recv` may raise before its wait, out of it, or past it. -/
inductive ReadEnd (E : Type*)
  | stopAsyncIteration
  | closed
  | raised (e : Raised E)
  | received (e : RecvError)
  | cancelled

inductive Reading (E : Type*)
  | body
  | waiting
  | ended (how : ReadEnd E)

/-- What `__anext__` does once its `recv` is where it is. -/
inductive ReadTurn (E : Type*)
  | waits
  | yields (f : StreamFrame)
  | ends (how : ReadEnd E)

/-- The sender's stream, what each of its operations sends, and the frames that its native layer has
put on the wire, with their operations; the waits of the reader, one for each frame it was given,
and whether its own stream was freed. -/
structure Channel (E : Type*) where
  sender : Stream
  program : ℕ → Option (Sent PyVal)
  wire : List (ℕ × Sent PyStr)
  reader : Loop ℕ Empty (Option PyStr) E
  reading : Reading E
  given : List StreamFrame
  freed : Bool

inductive ChannelAction (E : Type*)
  | sends (x : Sent PyVal)
  | sender (a : StreamAction)
  | frames (i : ℕ)
  | asks
  | frees
  | reader (a : LoopAction ℕ Empty (Option PyStr) E)

namespace Channel
variable {E : Type*}

def recvRoute (_ : ℕ) : Route := .blocking false

def init (h : ℕ) : Channel E := ⟨.init h,fun _ => none,[],.init,.body,[],false⟩

/-- The native function of the operation was entered and has not returned. -/
def inside (s : Stream) (i : ℕ) : Bool :=
  s.log.any (fun x => x.1 = i && x.2.free?.isNone) &&
    (s.loop.calls i).any fun c =>
      match c.worker with
      | .calling _ => true
      | _ => false

section Step
variable (num : Numbers) (floatText : Binary64 → Numeral) (repr : PyVal → PyStr)
  (timedOut : E → Bool) (mesh : StreamMesh num)

/-- `__anext__` past its `recv`. -/
def anext : Task (Option PyStr) E → ReadTurn E
  | .returned none => .ends .stopAsyncIteration
  | .returned (some s) =>
    match recvText num repr s with
    | .ok .eof => .ends .stopAsyncIteration
    | .ok f => .yields f
    | .error e => .ends (.received e)
  | .raised e =>
    match e with
    | .other x => if timedOut x then .ends .stopAsyncIteration else .ends (.raised e)
    | _ => .ends (.raised e)
  | .cancelled => .ends .cancelled
  | _ => .waits

def resume (w : Channel E) : Channel E :=
  match w.reading,w.reader.calls w.given.length with
  | .waiting,some c =>
    match anext num repr timedOut c.task with
    | .waits => w
    | .yields f => {w with reading := .body, given := w.given ++ [f]}
    | .ends how => {w with reading := .ended how}
  | _,_ => w

/-- What the native function of an operation puts on the wire. -/
def frame? (w : Channel E) (i : ℕ) : Option (Sent PyStr) :=
  if inside w.sender i && (w.wire.lookup i).isNone then
    (w.program i).bind fun x => (x.wired floatText).toOption
  else none

def step (w : Channel E) : ChannelAction E → Option (Channel E)
  | .sends x =>
    match w.sender.handle,x.wired floatText with
    | some _,.ok _ => (w.sender.step (.issue x.op)).map fun s =>
      {w with sender := s, program := Function.update w.program w.sender.next (some x)}
    | _,_ => some w
  | .sender a =>
    match a with
    | .issue _ => none
    | a => (w.sender.step a).map fun s => {w with sender := s}
  | .frames i => (w.frame? floatText i).map fun y => {w with wire := w.wire ++ [(i,y)]}
  | .asks =>
    match w.reading with
    | .body =>
      if w.freed then some {w with reading := .ended .closed}
      else (Loop.step recvRoute w.reader (.start w.given.length)).map fun l =>
        {w with reader := l, reading := .waiting}
    | _ => none
  | .frees => some {w with freed := true}
  | .reader a =>
    match a with
    | .start _ => none
    | a => (Loop.step recvRoute w.reader a).map fun l =>
      ({w with reader := l} : Channel E).resume num repr timedOut

variable {num}

/-- What the next wait of the reader is handed. -/
def nextText (w : Channel E) : Option PyStr :=
  w.wire[w.reader.handedOut.length]?.map fun z => mesh.text z.2

/-- Payloads are fair, and no operation but a `free` is cancelled or issued before the awaits of
the others are over; one that succeeds has put its frame on the wire, and the frames are handed
over in the order they have there. -/
def contract (w : Channel E) : ChannelAction E → Prop
  | .sends x => x.Fair ∧ w.sender.allOver = true
  | .sender (.cancelTask i) => ∀ o k, w.sender.jobs i ≠ some (.op o k)
  | .sender (.thread i (.callReturns (.ok ()))) =>
    ∀ o k, w.sender.jobs i = some (.op o k) → i ∈ w.wire.map Prod.fst
  | .reader (.thread _ (.callReturns (.ok (some s)))) => w.nextText mesh = some s
  | _ => True

/-- What the reader's threads and loop do by themselves, with the native layer, which hands over
what there is. -/
def owed (w : Channel E) : LoopAction ℕ Empty (Option PyStr) E → Prop
  | .thread _ (.callReturns (.ok (some s))) => w.nextText mesh = some s
  | .thread _ (.callReturns _) => False
  | .start _ => False
  | .cancelTask _ => False
  | _ => True

/-- Nothing that is owed is left to do. -/
def Rests (w : Channel E) : Prop :=
  ∀ a, w.owed mesh a → w.step num floatText repr timedOut (.reader a) = none

/-- The frame after those that were given, as it was sent. -/
def Next (w : Channel E) (x : Sent PyVal) : Prop :=
  ∃ z, w.wire[w.given.length]? = some z ∧ w.program z.1 = some x

/-- The wait for that frame came back with an outcome. -/
def CameBack (w : Channel E) (o : Except (Raised E) (Option PyStr)) : Prop :=
  (w.given.length,.returned o) ∈ w.reader.trace

/-- Where an end comes from. -/
def Ends (w : Channel E) : ReadEnd E → Prop
  | .stopAsyncIteration => w.Next .close ∨ w.CameBack (.ok none) ∨
    ∃ e, timedOut e = true ∧ w.CameBack (.error (.other e))
  | .closed => w.freed = true
  | .raised _ => ∃ e, w.CameBack (.error e)
  | .received e => ∃ code message, w.Next (.abort code message) ∧
    e = .frame (.stream code message false)
  | .cancelled => (w.given.length,.cancelTask) ∈ w.reader.trace

end Step

variable {num : Numbers} {floatText : Binary64 → Numeral} {repr : PyVal → PyStr}
  {timedOut : E → Bool} {mesh : StreamMesh num} {h : ℕ} {w w' : Channel E}

/-- Each operation sends what the program said, no two are under way at once, and the frames are on
the wire in the order of their operations. -/
structure SendValid (floatText : Binary64 → Numeral) (h : ℕ) (w : Channel E) : Prop where
  stream : StreamValid h w.sender
  log : LogValid w.sender
  program : ∀ i o k, w.sender.jobs i = some (.op o k) →
    ∃ x, w.program i = some x ∧ x.op = o ∧ x.Fair
  finished : ∀ i j o k o' k', i < j → w.sender.jobs i = some (.op o k) →
    w.sender.jobs j = some (.op o' k') → ∀ c, w.sender.loop.calls i = some c → c.task.ended = true
  uncancelled : ∀ i o k c, w.sender.jobs i = some (.op o k) → w.sender.loop.calls i = some c →
    ¬ c.interrupted
  sent : ∀ i o k, w.sender.jobs i = some (.op o k) →
    .returned (.ok ()) ∈ view i w.sender.loop.trace → i ∈ w.wire.map Prod.fst
  wired : ∀ z ∈ w.wire, ∃ x, w.program z.1 = some x ∧ x.wired floatText = .ok z.2
  issued : ∀ z ∈ w.wire, ∃ o k, w.sender.jobs z.1 = some (.op o k) ∧ o.encodes = true
  order : (w.wire.map Prod.fst).Pairwise (· < ·)

theorem init_sendValid (h : ℕ) : SendValid floatText h (init h : Channel E) where
  stream := init_streamValid h
  log := init_logValid h
  program i o k hj := by cases hj
  finished i j o k o' k' _ hj := by cases hj
  uncancelled i o k c hj := by cases hj
  sent i o k hj := by cases hj
  wired z hz := by cases hz
  issued z hz := by cases hz
  order := .nil

/-- What the reader does, the sender does not see. -/
theorem SendValid.of_eq (hw : SendValid floatText h w) (hs : w'.sender = w.sender)
    (hp : w'.program = w.program) (hz : w'.wire = w.wire) : SendValid floatText h w' := by
  obtain ⟨h1,h2,h3,h4,h5,h6,h7,h8,h9⟩ := hw
  constructor <;> simp only [hs,hp,hz] <;> assumption

/-- A step of the stream that issues no operation. -/
theorem SendValid.sender (hw : SendValid floatText h w) {a : StreamAction} {s : Stream}
    (ha : ∀ o, a ≠ .issue o) (hc : ∀ i, a = .cancelTask i → ∀ o k, w.sender.jobs i ≠ some (.op o k))
    (hret : ∀ i, a = .thread i (.callReturns (.ok ())) →
      ∀ o k, w.sender.jobs i = some (.op o k) → i ∈ w.wire.map Prod.fst)
    (he : w.sender.step a = some s) : SendValid floatText h {w with sender := s} where
  stream := step_streamValid hw.stream he
  log := step_logValid hw.stream hw.log he
  program i o k hj := hw.program i o k (step_op he ha hj)
  finished i j o k o' k' hij hi hj c hci := by
    have hi := step_op he ha hi
    have hj := step_op he ha hj
    obtain ⟨d,hd⟩ := (hw.log.called i _ hi).resolve_left (by simp)
    obtain ⟨c',hc',hend,-⟩ := step_call hw.stream he hd
    obtain rfl := Option.some.inj (hc'.symm.trans hci)
    exact hend (hw.finished i j o k o' k' hij hi hj d hd)
  uncancelled i o k c hi hci := by
    have hi := step_op he ha hi
    obtain ⟨d,hd⟩ := (hw.log.called i _ hi).resolve_left (by simp)
    obtain ⟨c',hc',-,hx⟩ := step_call hw.stream he hd
    obtain rfl := Option.some.inj (hc'.symm.trans hci)
    exact fun hint => hw.uncancelled i o k d hi hd (hx (fun h => hc i h o k hi) hint)
  sent i o k hi hm := by
    have hi := step_op he ha hi
    rcases step_returned hw.stream he hm with hold | hnew
    · exact hw.sent i o k hi hold
    · exact hret i hnew o k hi
  wired := hw.wired
  issued z hz := by
    obtain ⟨o,k,hj,ho⟩ := hw.issued z hz
    exact ⟨o,k,(step_keeps hw.stream he).jobs _ _ hj,ho⟩
  order := hw.order

theorem SendValid.lt_next (hw : SendValid floatText h w) {i : ℕ} {j : Job}
    (hj : w.sender.jobs i = some j) : i < w.sender.next := by
  by_contra hge
  rw [(hw.stream.unused i (Nat.le_of_not_lt hge)).2] at hj
  cases hj

/-- The step of the stream that issues an operation. -/
theorem SendValid.sends (hw : SendValid floatText h w) {x : Sent PyVal} {g : ℕ} (hx : x.Fair)
    (ho : w.sender.allOver = true)
    (he : w.sender.step (.issue x.op) = some (w.sender.spawn (.op x.op g))) :
    SendValid floatText h {w with
      sender := w.sender.spawn (.op x.op g)
      program := Function.update w.program w.sender.next (some x)} where
  stream := step_streamValid hw.stream he
  log := step_logValid hw.stream hw.log he
  program i o k hj := by
    dsimp only
    rcases spawn_op hj with ⟨rfl,rfl⟩ | ⟨hne,hj⟩
    · exact ⟨x,Function.update_self _ _ _,rfl,hx⟩
    · rw [Function.update_of_ne hne]
      exact hw.program i o k hj
  finished i j o k o' k' hij hi hj c hc := by
    dsimp only at hi hj hc
    have hi' : i ≠ w.sender.next ∧ w.sender.jobs i = some (.op o k) := by
      rcases spawn_op hi with ⟨rfl,-⟩ | hi
      · rcases spawn_op hj with ⟨rfl,-⟩ | ⟨-,hj⟩
        · exact absurd hij (lt_irrefl _)
        · exact absurd hij (hw.lt_next hj).not_gt
      · exact hi
    rw [spawn_calls_of_ne _ _ hi'.1] at hc
    exact ended_of_allOver hw.stream ho hc
  uncancelled i o k c hi hc := by
    dsimp only at hi hc
    rcases spawn_op hi with ⟨rfl,-⟩ | ⟨hne,hi⟩
    · rw [spawn_calls_self] at hc
      cases hc
      simp [Call.interrupted,Blocking.start]
    · rw [spawn_calls_of_ne _ _ hne] at hc
      exact hw.uncancelled i o k c hi hc
  sent i o k hi hm := by
    rcases spawn_op hi with ⟨rfl,-⟩ | ⟨-,hi⟩
    · have hnone := ((Loop.reachable_valid hw.stream.loop).unstarted _
        (hw.stream.unused w.sender.next le_rfl).1).2.1
      change _ ∈ view w.sender.next w.sender.loop.trace at hm
      rw [hnone] at hm
      cases hm
    · exact hw.sent i o k hi hm
  wired z hz := by
    obtain ⟨o,k,hj,-⟩ := hw.issued z hz
    dsimp only
    rw [Function.update_of_ne (hw.lt_next hj).ne]
    exact hw.wired z hz
  issued z hz := by
    obtain ⟨o,k,hj,hk⟩ := hw.issued z hz
    exact ⟨o,k,(step_keeps hw.stream he).jobs _ _ hj,hk⟩
  order := hw.order

theorem inside_cases {s : Stream} {i : ℕ} (hi : inside s i = true) :
    ∃ o k c, (i,.op o k) ∈ s.log ∧ s.loop.calls i = some c ∧ c.worker.posted? = none := by
  obtain ⟨hlog,hcall⟩ := Bool.and_eq_true_iff.mp hi
  obtain ⟨⟨j,e⟩,he,hop⟩ := List.any_eq_true.mp hlog
  obtain ⟨hj,hfree⟩ := Bool.and_eq_true_iff.mp hop
  obtain rfl : j = i := of_decide_eq_true hj
  obtain ⟨c,hc,hw⟩ := (Option.any_eq_true _ _).mp hcall
  cases e with
  | free k => cases hfree
  | op o k => exact ⟨o,k,c,he,hc,by cases hx : c.worker <;> simp_all [Worker.posted?]⟩

theorem frame_cases {i : ℕ} {y : Sent PyStr} (hy : w.frame? floatText i = some y) :
    inside w.sender i = true ∧ i ∉ w.wire.map Prod.fst ∧
      ∃ x, w.program i = some x ∧ x.wired floatText = .ok y := by
  unfold frame? at hy
  split at hy
  case isFalse => cases hy
  case isTrue hin =>
    obtain ⟨x,hx,hxy⟩ := Option.bind_eq_some_iff.mp hy
    obtain ⟨hinside,hnew⟩ := Bool.and_eq_true_iff.mp hin
    refine ⟨hinside,?_,x,hx,?_⟩
    · intro hm
      obtain ⟨z,hz,rfl⟩ := List.mem_map.mp hm
      have hnone := List.lookup_eq_none_iff.mp (Option.isNone_iff_eq_none.mp hnew) z hz
      simp at hnone
    · cases hr : x.wired floatText <;> rw [hr] at hxy <;> cases hxy
      rfl

/-- The frame of an operation comes after those of the operations before it. -/
theorem SendValid.frames (hw : SendValid floatText h w) {i : ℕ} {y : Sent PyStr}
    (hy : w.frame? floatText i = some y) :
    SendValid floatText h {w with wire := w.wire ++ [(i,y)]} := by
  obtain ⟨hinside,hnew,x,hx,hxy⟩ := frame_cases hy
  obtain ⟨o,k,c,hlog,hc,hposted⟩ := inside_cases hinside
  obtain ⟨hj,ho,-⟩ := hw.log.logged i o k hlog
  -- an operation after this one would have waited for it
  have hlast : ∀ z ∈ w.wire, z.1 < i := by
    intro z hz
    rcases Nat.lt_trichotomy z.1 i with hlt | heq | hgt
    · exact hlt
    · exact absurd (heq ▸ List.mem_map_of_mem hz) hnew
    · obtain ⟨o',k',hz',-⟩ := hw.issued z hz
      have hs := Loop.reachable_call hw.stream.loop hc
      have hend := hw.finished i z.1 o k o' k' hgt hj hz' c hc
      have hnot := (reachable_handshakeValid hs).interrupted.not.mpr (hw.uncancelled i o k c hj hc)
      obtain ⟨v,hv⟩ := posted_of_uncancelled hs hend hnot
      rw [show (w.sender.loop.callState i c).call = c from rfl,hposted] at hv
      cases hv
  have hmem : ∀ z ∈ w.wire ++ [(i,y)], z ∈ w.wire ∨ z = (i,y) := by
    intro z hz
    simpa using hz
  refine {hw with sent := ?_, wired := ?_, issued := ?_, order := ?_}
  · intro j o' k' hj' hm
    exact List.mem_map.mpr ((List.mem_map.mp (hw.sent j o' k' hj' hm)).imp
      fun z hz => ⟨List.mem_append_left _ hz.1,hz.2⟩)
  · intro z hz
    rcases hmem z hz with hz | rfl
    · exact hw.wired z hz
    · exact ⟨x,hx,hxy⟩
  · intro z hz
    rcases hmem z hz with hz | rfl
    · exact hw.issued z hz
    · exact ⟨o,k,hj,ho⟩
  · dsimp only
    rw [List.map_append,List.pairwise_append]
    refine ⟨hw.order,List.pairwise_singleton _ _,?_⟩
    intro j hj b hb
    obtain ⟨z,hz,rfl⟩ := List.mem_map.mp hj
    rw [List.map_singleton,List.mem_singleton] at hb
    exact hb ▸ hlast z hz

variable (num repr timedOut) in
theorem resume_leaves (w : Channel E) : (w.resume num repr timedOut).sender = w.sender ∧
    (w.resume num repr timedOut).program = w.program ∧
    (w.resume num repr timedOut).wire = w.wire := by
  unfold resume
  split
  · split <;> exact ⟨rfl,rfl,rfl⟩
  · exact ⟨rfl,rfl,rfl⟩

theorem sender_step {a : StreamAction}
    (he : w.step num floatText repr timedOut (.sender a) = some w') : (∀ o, a ≠ .issue o) ∧
      ∃ s, w.sender.step a = some s ∧ w' = {w with sender := s} := by
  simp only [step] at he
  split at he
  · cases he
  · next hne =>
    obtain ⟨s,hs,rfl⟩ := Option.map_eq_some_iff.mp he
    exact ⟨hne,s,hs,rfl⟩

theorem reader_step {a : LoopAction ℕ Empty (Option PyStr) E}
    (he : w.step num floatText repr timedOut (.reader a) = some w') : (∀ i, a ≠ .start i) ∧
      ∃ l, Loop.step recvRoute w.reader a = some l ∧
        w' = ({w with reader := l} : Channel E).resume num repr timedOut := by
  simp only [step] at he
  split at he
  · cases he
  · next hne =>
    obtain ⟨l,hl,rfl⟩ := Option.map_eq_some_iff.mp he
    exact ⟨hne,l,hl,rfl⟩

theorem step_sendValid {a : ChannelAction E} (hw : SendValid floatText h w)
    (hok : w.contract mesh a) (he : w.step num floatText repr timedOut a = some w') :
    SendValid floatText h w' := by
  cases a with
  | sends x =>
    simp only [step] at he
    split at he
    · next g _ hh _ =>
      obtain ⟨s,hs,rfl⟩ := Option.map_eq_some_iff.mp he
      have hspawn : s = w.sender.spawn (.op x.op g) := by
        simp only [Stream.step,Stream.issue,hh,Option.some.injEq] at hs
        exact hs.symm
      subst hspawn
      exact hw.sends hok.1 hok.2 hs
    · cases he
      exact hw
  | sender a =>
    obtain ⟨hne,s,hs,rfl⟩ := sender_step he
    refine hw.sender hne ?_ ?_ hs
    · rintro i rfl
      exact hok
    · rintro i rfl
      exact hok
  | frames i =>
    obtain ⟨y,hy,rfl⟩ := Option.map_eq_some_iff.mp he
    exact hw.frames hy
  | asks =>
    simp only [step] at he
    split at he
    · split at he
      · cases he
        exact hw.of_eq rfl rfl rfl
      · obtain ⟨l,-,rfl⟩ := Option.map_eq_some_iff.mp he
        exact hw.of_eq rfl rfl rfl
    · cases he
  | frees =>
    cases he
    exact hw.of_eq rfl rfl rfl
  | reader a =>
    obtain ⟨-,l,-,rfl⟩ := reader_step he
    obtain ⟨h1,h2,h3⟩ := resume_leaves num repr timedOut {w with reader := l}
    exact hw.of_eq h1 h2 h3

section Items
variable {T : Type*} {xs : List (ℕ × T)} {n : ℕ}

/-- Where item `k` went to wait `k`, and all later ones to wait `n`, those are what it was given. -/
theorem filter_eq_drop (hx : ∀ k < n, ∃ x, xs[k]? = some (k,x))
    (ht : ∀ z ∈ xs.drop n, z.1 = n) : xs.filter (fun z => z.1 = n) = xs.drop n := by
  have htake : (xs.take n).filter (fun z => z.1 = n) = [] := by
    rw [List.filter_eq_nil_iff]
    intro z hz
    obtain ⟨k,hk,hkz⟩ := List.mem_iff_getElem.mp hz
    have hkn : k < n ∧ k < xs.length := by simpa using hk
    obtain ⟨x,hkx⟩ := hx k hkn.1
    rw [List.getElem?_eq_getElem hkn.2,← List.getElem_take (h := hk),hkz] at hkx
    cases hkx
    simpa using hkn.1.ne
  have hdrop : (xs.drop n).filter (fun z => z.1 = n) = xs.drop n :=
    List.filter_eq_self.mpr fun z hz => by simpa using ht z hz
  conv_lhs => rw [← List.take_append_drop n xs]
  rw [List.filter_append,htake,hdrop,List.nil_append]

theorem forall₂_of_getElem? {A B : Type*} {R : A → B → Prop} {as : List A} {bs : List B}
    (h : ∀ (k : ℕ) b, bs[k]? = some b → ∃ a, as[k]? = some a ∧ R a b) :
    List.Forall₂ R (as.take bs.length) bs := by
  induction bs generalizing as with
  | nil => exact .nil
  | cons b bs ih =>
    obtain ⟨a,ha,hab⟩ := h 0 b rfl
    cases as with
    | nil => cases ha
    | cons a' as =>
      cases ha
      exact .cons hab (ih fun k b hb => h (k + 1) b hb)

end Items

/-- The item after those that were given, with what `recv` makes of it. -/
def Comes (repr : PyVal → PyStr) (w : Channel E) (num : Numbers)
    (o : Except RecvError StreamFrame) : Prop :=
  ∃ s, w.reader.handedOut.reverse[w.given.length]? = some (w.given.length,s) ∧
    recvText num repr s = o

/-- An end, with the text it comes from. -/
def EndsOn (num : Numbers) (repr : PyVal → PyStr) (timedOut : E → Bool) (w : Channel E) :
    ReadEnd E → Prop
  | .stopAsyncIteration => w.Comes repr num (.ok .eof) ∨ w.CameBack (.ok none) ∨
    ∃ e, timedOut e = true ∧ w.CameBack (.error (.other e))
  | .closed => w.freed = true
  | .raised _ => ∃ e, w.CameBack (.error e)
  | .received e => w.Comes repr num (.error e)
  | .cancelled => (w.given.length,.cancelTask) ∈ w.reader.trace

/-- The waits that are over gave one frame each, in their order, and what is handed over besides
went to the wait after them. -/
structure ReadFacts (num : Numbers) (repr : PyVal → PyStr) (timedOut : E → Bool)
    (mesh : StreamMesh num) (w : Channel E) : Prop where
  run : Reachable (Loop.step recvRoute) (fun l a => Loop.sequential l a = true) Loop.init w.reader
  done : ∀ i < w.given.length, ∃ c v, w.reader.calls i = some c ∧ c.task = .returned v
  fresh : ∀ i, w.given.length < i → w.reader.calls i = none
  idle : w.reading = .body → w.reader.calls w.given.length = none
  started : w.reading = .waiting → ∃ c, w.reader.calls w.given.length = some c
  handed : ∀ (k : ℕ) z, w.reader.handedOut.reverse[k]? = some z →
    ∃ y, w.wire[k]? = some y ∧ z.2 = mesh.text y.2
  items : ∀ (k : ℕ) f, w.given[k]? = some f → ∃ s, w.reader.handedOut.reverse[k]? = some (k,s) ∧
    recvText num repr s = .ok f
  rest : (∀ how, w.reading ≠ .ended how) →
    ∀ z ∈ w.reader.handedOut.reverse.drop w.given.length, z.1 = w.given.length
  ends : ∀ how, w.reading = .ended how → EndsOn num repr timedOut w how

/-- The reader does not outwait its `recv`. -/
structure ReadValid (num : Numbers) (repr : PyVal → PyStr) (timedOut : E → Bool)
    (mesh : StreamMesh num) (w : Channel E) : Prop extends ReadFacts num repr timedOut mesh w where
  waits : ∀ c, w.reading = .waiting → w.reader.calls w.given.length = some c →
    c.task.ended = false

theorem init_readValid (h : ℕ) : ReadValid num repr timedOut mesh (init h : Channel E) where
  run := .refl _
  done i hi := absurd hi (Nat.not_lt_zero i)
  fresh i _ := rfl
  idle _ := rfl
  started hr := by cases hr
  handed k z hz := by cases hz
  items k f hf := by cases hf
  rest _ z hz := by cases hz
  ends how hr := by cases hr
  waits c hr := by cases hr

/-- What the sender does only adds to the wire. -/
theorem ReadFacts.of_wire (hw : ReadFacts num repr timedOut mesh w) (hr : w'.reader = w.reader)
    (hg : w'.given = w.given) (hp : w'.reading = w.reading) (hf : w.freed = true → w'.freed = true)
    (hz : w.wire <+: w'.wire) : ReadFacts num repr timedOut mesh w' := by
  obtain ⟨h1,h2,h3,h4,h5,h6,h7,h8,h9⟩ := hw
  constructor
  case handed =>
    rw [hr]
    intro k z hk
    obtain ⟨y,hy,he⟩ := h6 k z hk
    obtain ⟨hlt,hget⟩ := List.getElem?_eq_some_iff.mp hy
    exact ⟨y,hget ▸ List.prefix_iff_getElem?.mp hz k hlt,he⟩
  case ends =>
    intro how hh
    have hx := h9 how (hp ▸ hh)
    cases how <;> simp only [EndsOn,Comes,CameBack,hr,hg] at hx ⊢
    case closed => exact hf hx
    all_goals exact hx
  all_goals
    simp only [hr,hg,hp]
    assumption

theorem ReadFacts.free (hw : ReadFacts num repr timedOut mesh w) :
    Reachable (Loop.step recvRoute) Runs.free Loop.init w.reader :=
  hw.run.mono fun _ _ _ => trivial

/-- The call of `recv`, up to its wait. -/
theorem ReadValid.asks (hw : ReadValid num repr timedOut mesh w) (hr : w.reading = .body)
    {l : Loop ℕ Empty (Option PyStr) E}
    (hl : Loop.step recvRoute w.reader (.start w.given.length) = some l) :
    ReadValid num repr timedOut mesh {w with reader := l, reading := .waiting} := by
  have hseq : w.reader.sequential (.start w.given.length) = true := by
    refine List.all_eq_true.mpr fun i hi => ?_
    obtain ⟨c,v,hc,hv⟩ := hw.done i (List.mem_range.mp hi)
    simp [hc,hv,Task.ended]
  have hrun := hw.run.tail hseq hl
  cases Loop.step_move hl with
  | start hb hc =>
    refine {hw with
      run := hrun, done := ?_, fresh := ?_, idle := ?_, started := ?_, rest := ?_, ends := ?_
      waits := ?_}
    · intro i hi
      dsimp only
      rw [Function.update_of_ne hi.ne]
      exact hw.done i hi
    · intro i hi
      dsimp only
      rw [Function.update_of_ne hi.ne']
      exact hw.fresh i hi
    · intro h
      cases h
    · intro _
      exact ⟨_,Function.update_self _ _ _⟩
    · intro _
      exact hw.rest (by simp [hr])
    · intro how h
      cases h
    · intro c _ hc'
      dsimp only at hc'
      rw [Function.update_self] at hc'
      cases hc'
      rfl

/-- What a step adds to the items is at their end. -/
theorem ReadFacts.handedOut_step (hw : ReadFacts num repr timedOut mesh w)
    {a : LoopAction ℕ Empty (Option PyStr) E} {l : Loop ℕ Empty (Option PyStr) E}
    (hl : Loop.step recvRoute w.reader a = some l) :
    w.reader.handedOut.reverse <+: l.handedOut.reverse := by
  rcases Loop.step_handedOut hw.free hl with h | ⟨i,x,c,-,-,-,h⟩
  · rw [h]
  · rw [h,List.reverse_cons]
    exact List.prefix_append _ _

theorem Comes.mono {o : Except RecvError StreamFrame} (hc : w.Comes repr num o)
    (hg : w'.given = w.given) (hh : w.reader.handedOut.reverse <+: w'.reader.handedOut.reverse) :
    w'.Comes repr num o := by
  obtain ⟨s,hs,ho⟩ := hc
  obtain ⟨hlt,hget⟩ := List.getElem?_eq_some_iff.mp hs
  rw [Comes,hg]
  exact ⟨s,hget ▸ List.prefix_iff_getElem?.mp hh _ hlt,ho⟩

theorem EndsOn.mono {how : ReadEnd E} (hx : EndsOn num repr timedOut w how)
    (hg : w'.given = w.given) (hf : w'.freed = w.freed)
    (hh : w.reader.handedOut.reverse <+: w'.reader.handedOut.reverse)
    (ht : ∀ x ∈ w.reader.trace, x ∈ w'.reader.trace) : EndsOn num repr timedOut w' how := by
  have hback : ∀ {o}, w.CameBack o → w'.CameBack o := by
    intro o ho
    rw [CameBack,hg]
    exact ht _ ho
  cases how with
  | stopAsyncIteration =>
    exact hx.imp (fun h => h.mono hg hh) (Or.imp hback fun ⟨e,he,hb⟩ => ⟨e,he,hback hb⟩)
  | closed => exact hf.trans hx
  | raised e => exact hx.imp fun _ => hback
  | received e => exact Comes.mono hx hg hh
  | cancelled =>
    rw [EndsOn,hg]
    exact ht _ hx

/-- What a step of the reader's threads and loop leaves. -/
theorem ReadFacts.reader (hw : ReadFacts num repr timedOut mesh w)
    {a : LoopAction ℕ Empty (Option PyStr) E} {l : Loop ℕ Empty (Option PyStr) E}
    (ha : ∀ i, a ≠ .start i) (hok : w.contract mesh (.reader a))
    (hl : Loop.step recvRoute w.reader a = some l) :
    ReadFacts num repr timedOut mesh {w with reader := l} where
  run := by
    refine hw.run.tail ?_ hl
    cases a with
    | start i => exact absurd rfl (ha i)
    | _ => rfl
  done i hi := by
    obtain ⟨c,v,hc,hv⟩ := hw.done i hi
    obtain ⟨c',hc',ht,-⟩ := Loop.step_call hw.free hl hc
    exact ⟨c',v,hc',(ht (by rw [hv]; rfl)).trans hv⟩
  fresh i hi := Loop.step_unstarted hl (hw.fresh i hi) (ha i)
  idle hr := Loop.step_unstarted hl (hw.idle hr) (ha _)
  started hr := by
    obtain ⟨c,hc⟩ := hw.started hr
    exact Loop.step_started hl hc
  handed k z hz := by
    dsimp only at hz
    rcases Loop.step_handedOut hw.free hl with h | ⟨i,x,c,rfl,-,-,h⟩
    · rw [h] at hz
      exact hw.handed k z hz
    · rw [h,List.reverse_cons,List.getElem?_append] at hz
      split at hz
      · exact hw.handed k z hz
      · next hge =>
        obtain ⟨y,hy,rfl⟩ := Option.map_eq_some_iff.mp hok
        obtain ⟨hlt,rfl⟩ := List.getElem?_eq_some_iff.mp hz
        rw [List.length_reverse] at hge
        rw [List.length_singleton,List.length_reverse] at hlt
        obtain rfl : k = w.reader.handedOut.length := by omega
        exact ⟨y,hy,by simp⟩
  items k f hf := by
    obtain ⟨s,hs,ho⟩ := hw.items k f hf
    obtain ⟨hlt,hget⟩ := List.getElem?_eq_some_iff.mp hs
    exact ⟨s,hget ▸ List.prefix_iff_getElem?.mp (hw.handedOut_step hl) _ hlt,ho⟩
  rest hr z hz := by
    dsimp only at hz hr
    rcases Loop.step_handedOut hw.free hl with h | ⟨i,x,c,rfl,hc,hn,h⟩
    · rw [h] at hz
      exact hw.rest hr z hz
    · rw [h,List.reverse_cons,List.drop_append] at hz
      rcases List.mem_append.mp hz with hz | hz
      · exact hw.rest hr z hz
      · obtain rfl := List.mem_singleton.mp (List.mem_of_mem_drop hz)
        rcases Nat.lt_trichotomy i w.given.length with hlt | heq | hgt
        · obtain ⟨d,v,hd,hv⟩ := hw.done i hlt
          obtain rfl := Option.some.inj (hc.symm.trans hd)
          exact absurd hn (Loop.outcome_of_task hw.free hc hv)
        · exact heq
        · rw [hw.fresh i hgt] at hc
          cases hc
  ends how hh := (hw.ends how hh).mono rfl rfl (hw.handedOut_step hl)
    fun _ hx => Loop.mem_step_trace hl hx

theorem anext_eq_waits {t : Task (Option PyStr) E} (ha : anext num repr timedOut t = .waits) :
    t.ended = false := by
  cases t with
  | awaiting => rfl
  | ending l => rfl
  | returned v =>
    cases v with
    | none => cases ha
    | some s =>
      simp only [anext] at ha
      split at ha <;> cases ha
  | raised e =>
    simp only [anext] at ha
    split at ha
    · split at ha <;> cases ha
    · cases ha
  | cancelled => cases ha

theorem anext_eq_yields {t : Task (Option PyStr) E} {f : StreamFrame}
    (ha : anext num repr timedOut t = .yields f) :
    ∃ s, t = .returned (some s) ∧ recvText num repr s = .ok f := by
  cases t with
  | returned v =>
    cases v with
    | none => cases ha
    | some s =>
      simp only [anext] at ha
      split at ha
      · cases ha
      · next hs =>
        cases ha
        exact ⟨s,rfl,hs⟩
      · cases ha
  | raised e =>
    simp only [anext] at ha
    split at ha
    · split at ha <;> cases ha
    · cases ha
  | _ => cases ha

/-- What an end comes from. -/
inductive AnextEnds (num : Numbers) (repr : PyVal → PyStr) (timedOut : E → Bool) :
    Task (Option PyStr) E → ReadEnd E → Prop
  | nothing : AnextEnds num repr timedOut (.returned none) .stopAsyncIteration
  | eof {s : PyStr} (hs : recvText num repr s = .ok .eof) :
    AnextEnds num repr timedOut (.returned (some s)) .stopAsyncIteration
  | timedOut {x : E} (hx : timedOut x = true) :
    AnextEnds num repr timedOut (.raised (.other x)) .stopAsyncIteration
  | received {s : PyStr} {e : RecvError} (hs : recvText num repr s = .error e) :
    AnextEnds num repr timedOut (.returned (some s)) (.received e)
  | raised (e : Raised E) : AnextEnds num repr timedOut (.raised e) (.raised e)
  | cancelled : AnextEnds num repr timedOut .cancelled .cancelled

theorem anext_eq_ends {t : Task (Option PyStr) E} {how : ReadEnd E}
    (ha : anext num repr timedOut t = .ends how) : AnextEnds num repr timedOut t how := by
  cases t with
  | returned v =>
    cases v with
    | none =>
      cases ha
      exact .nothing
    | some s =>
      simp only [anext] at ha
      split at ha
      · next hs =>
        cases ha
        exact .eof hs
      · cases ha
      · next hs =>
        cases ha
        exact .received hs
  | raised e =>
    simp only [anext] at ha
    split at ha
    · split at ha
      · next hx =>
        cases ha
        exact .timedOut hx
      · cases ha
        exact .raised _
    · cases ha
      exact .raised _
  | cancelled =>
    cases ha
    exact .cancelled
  | _ => cases ha

/-- The current wait returned the item that comes next, and nothing is handed over after it. -/
theorem ReadFacts.came (hw : ReadFacts num repr timedOut mesh w) (hr : w.reading = .waiting)
    {c : Call (Option PyStr) E} (hc : w.reader.calls w.given.length = some c) {s : PyStr}
    (ht : c.task = .returned (some s)) :
    w.reader.handedOut.reverse.drop w.given.length = [(w.given.length,s)] := by
  have hfut := (reachable_handoverValid (Loop.reachable_call hw.free hc)).value _ ht
  have hsettled := Loop.handedOut_of_settled hw.run hc hfut
  rw [← filter_eq_drop (n := w.given.length) _ (hw.rest (by simp [hr])),List.filter_reverse,
    hsettled]
  · rfl
  · intro k hk
    obtain ⟨s',hs',-⟩ := hw.items k _ (List.getElem?_eq_getElem hk)
    exact ⟨s',hs'⟩

theorem ReadFacts.comes (hw : ReadFacts num repr timedOut mesh w) (hr : w.reading = .waiting)
    {c : Call (Option PyStr) E} (hc : w.reader.calls w.given.length = some c) {s : PyStr}
    (ht : c.task = .returned (some s)) : w.Comes repr num (recvText num repr s) := by
  have hd := hw.came hr hc ht
  refine ⟨s,?_,rfl⟩
  have hget := congrArg (·[0]?) hd
  simpa using hget

theorem ReadFacts.ends_of_task (hw : ReadFacts num repr timedOut mesh w)
    (hr : w.reading = .waiting) {c : Call (Option PyStr) E}
    (hc : w.reader.calls w.given.length = some c) {how : ReadEnd E}
    (ha : AnextEnds num repr timedOut c.task how) : EndsOn num repr timedOut w how := by
  have hs := Loop.reachable_call hw.free hc
  have hraised : ∀ e, c.task = .raised e → ∃ o, w.CameBack (.error o) ∧
      ∀ x, e = .other x → o = .other x := by
    intro e he
    obtain ⟨o,b,hret,ho⟩ := raised_of_task hs he
    have hm := mem_view.mp (mem_returns.mp (hret ▸ List.mem_singleton_self o))
    cases o with
    | ok v =>
      rw [translate_ok] at ho
      cases ho
    | error o =>
      refine ⟨o,hm,?_⟩
      rintro x rfl
      cases o with
      | nativeCancelled m => cases b <;> simp [Blocking.translate] at ho
      | maculaError m => cases ho
      | other y =>
        cases ho
        rfl
  generalize ht : c.task = t at ha
  cases ha with
  | nothing => exact .inr (.inl (mem_view.mp (returned_of_task hs ht)))
  | eof h => exact .inl (h ▸ hw.comes hr hc ht)
  | @timedOut x hx =>
    obtain ⟨o,ho,hother⟩ := hraised _ ht
    exact .inr (.inr ⟨x,hx,hother x rfl ▸ ho⟩)
  | received h =>
    have hcomes := hw.comes hr hc ht
    rw [h] at hcomes
    exact hcomes
  | raised e =>
    obtain ⟨o,ho,-⟩ := hraised _ ht
    exact ⟨o,ho⟩
  | cancelled =>
    have hint : c.interrupted := by simp [Call.interrupted,ht]
    exact mem_view.mp ((reachable_handshakeValid hs).interrupted.mpr hint)

/-- The frame that came is given. -/
theorem ReadFacts.yields (hw : ReadFacts num repr timedOut mesh w) (hr : w.reading = .waiting)
    {c : Call (Option PyStr) E} (hc : w.reader.calls w.given.length = some c) {s : PyStr}
    (ht : c.task = .returned (some s)) {f : StreamFrame} (hf : recvText num repr s = .ok f) :
    ReadValid num repr timedOut mesh {w with reading := .body, given := w.given ++ [f]} := by
  have hlen : (w.given ++ [f]).length = w.given.length + 1 := by simp
  have hcame := hw.came hr hc ht
  constructor
  · constructor
    case run => exact hw.run
    case done =>
      dsimp only
      rw [hlen]
      intro i hi
      rcases Nat.lt_succ_iff_lt_or_eq.mp hi with hi | rfl
      · exact hw.done i hi
      · exact ⟨c,some s,hc,ht⟩
    case fresh =>
      dsimp only
      rw [hlen]
      intro i hi
      exact hw.fresh i (Nat.lt_of_succ_lt hi)
    case idle =>
      dsimp only
      rw [hlen]
      exact fun _ => hw.fresh _ (Nat.lt_succ_self _)
    case started =>
      intro h
      cases h
    case handed => exact hw.handed
    case items =>
      dsimp only
      intro k g hg
      rw [List.getElem?_append] at hg
      split at hg
      · exact hw.items k g hg
      · next hge =>
        obtain ⟨hlt,rfl⟩ := List.getElem?_eq_some_iff.mp hg
        rw [List.length_singleton] at hlt
        obtain rfl : k = w.given.length := by omega
        have hget := congrArg (·[0]?) hcame
        exact ⟨s,by simpa using hget,by simpa using hf⟩
    case rest =>
      dsimp only
      rw [hlen,← List.drop_drop,hcame]
      intro _ z hz
      cases hz
    case ends =>
      intro how h
      cases h
  · intro d h
    cases h

/-- Where the iteration goes on from the end of its wait. -/
theorem ReadFacts.resume (hw : ReadFacts num repr timedOut mesh w) :
    ReadValid num repr timedOut mesh (w.resume num repr timedOut) := by
  unfold Channel.resume
  split
  case h_2 hne =>
    refine ⟨hw,fun c hr hc => ?_⟩
    exact (hne c hr hc).elim
  case h_1 c hr hc =>
    split
    case h_1 ht =>
      refine ⟨hw,fun d _ hd => ?_⟩
      rw [hc] at hd
      cases hd
      exact anext_eq_waits ht
    case h_2 f ht =>
      obtain ⟨s,ht,hs⟩ := anext_eq_yields ht
      exact hw.yields hr hc ht hs
    case h_3 how ht =>
      have hend := hw.ends_of_task hr hc (anext_eq_ends ht)
      refine ⟨⟨hw.run,hw.done,hw.fresh,?_,?_,hw.handed,hw.items,?_,?_⟩,?_⟩
      case refine_4 =>
        intro how' hx
        cases hx
        exact hend
      case refine_3 => exact fun hne => absurd rfl (hne how)
      case refine_5 =>
        intro d hx
        cases hx
      all_goals
        intro hx
        cases hx

theorem ReadValid.of_wire (hw : ReadValid num repr timedOut mesh w) (hr : w'.reader = w.reader)
    (hg : w'.given = w.given) (hp : w'.reading = w.reading) (hf : w.freed = true → w'.freed = true)
    (hz : w.wire <+: w'.wire) : ReadValid num repr timedOut mesh w' := by
  refine ⟨hw.toReadFacts.of_wire hr hg hp hf hz,fun c hx hc => hw.waits c (hp ▸ hx) ?_⟩
  rwa [← hr,← hg]

theorem step_readValid {a : ChannelAction E} (hw : ReadValid num repr timedOut mesh w)
    (hok : w.contract mesh a) (he : w.step num floatText repr timedOut a = some w') :
    ReadValid num repr timedOut mesh w' := by
  cases a with
  | sends x =>
    simp only [step] at he
    split at he
    · obtain ⟨s,-,rfl⟩ := Option.map_eq_some_iff.mp he
      exact hw.of_wire rfl rfl rfl id List.prefix_rfl
    · cases he
      exact hw
  | sender a =>
    obtain ⟨-,s,-,rfl⟩ := sender_step he
    exact hw.of_wire rfl rfl rfl id List.prefix_rfl
  | frames i =>
    obtain ⟨y,-,rfl⟩ := Option.map_eq_some_iff.mp he
    exact hw.of_wire rfl rfl rfl id (List.prefix_append _ _)
  | asks =>
    simp only [step] at he
    split at he
    · next hr =>
      split at he
      · next hfreed =>
        cases he
        refine ⟨⟨hw.run,hw.done,hw.fresh,?_,?_,hw.handed,hw.items,?_,?_⟩,?_⟩
        case refine_3 => exact fun hne => absurd rfl (hne _)
        case refine_4 =>
          intro how hx
          cases hx
          exact hfreed
        case refine_5 =>
          intro d hx
          cases hx
        all_goals
          intro hx
          cases hx
      · obtain ⟨l,hl,rfl⟩ := Option.map_eq_some_iff.mp he
        exact hw.asks hr hl
    · cases he
  | frees =>
    cases he
    exact hw.of_wire rfl rfl rfl (fun _ => rfl) List.prefix_rfl
  | reader a =>
    obtain ⟨ha,l,hl,rfl⟩ := reader_step he
    exact (hw.toReadFacts.reader ha hok hl).resume

theorem reachable_valid (hw : Reachable (step num floatText repr timedOut) (contract mesh)
    (init h) w) : SendValid floatText h w ∧ ReadValid num repr timedOut mesh w := by
  refine hw.induct (P := fun w => SendValid floatText h w ∧ ReadValid num repr timedOut mesh w)
    ⟨init_sendValid h,init_readValid h⟩ ?_
  rintro w a w' - ⟨hs,hr⟩ hok he
  exact ⟨step_sendValid hs hok he,step_readValid hr hok he⟩

/-- What was handed over in a place is what `recv` makes of the frame in that place. -/
theorem received_at (hf : ReadsFloats num floatText) (hs : SendValid floatText h w)
    (hr : ReadFacts num repr timedOut mesh w) {k : ℕ} {z : ℕ × PyStr}
    (hz : w.reader.handedOut.reverse[k]? = some z) : ∃ y x, w.wire[k]? = some y ∧
      w.program y.1 = some x ∧ recvText num repr z.2 = mesh.labels.received x := by
  obtain ⟨y,hy,hzy⟩ := hr.handed k z hz
  have hmem := List.mem_of_getElem? hy
  obtain ⟨x,hx,hxy⟩ := hs.wired y hmem
  obtain ⟨o,g,hj,ho⟩ := hs.issued y hmem
  obtain ⟨x',hx',rfl,hfair⟩ := hs.program _ _ _ hj
  obtain rfl := Option.some.inj (hx'.symm.trans hx)
  exact ⟨y,x',hy,hx',hzy ▸ recvText_text hf mesh hfair ho hxy⟩

theorem received_eq_eof {t : Labels} {x : Sent PyVal} (h : t.received x = .ok .eof) :
    x = .close := by
  cases x <;> cases h
  rfl

theorem received_eq_error {t : Labels} {x : Sent PyVal} {e : RecvError}
    (h : t.received x = .error e) : ∃ code message, x = .abort code message ∧
      e = .frame (.stream code message false) := by
  cases x <;> cases h
  exact ⟨_,_,rfl,rfl⟩

theorem ends_of_endsOn (hf : ReadsFloats num floatText) (hs : SendValid floatText h w)
    (hr : ReadFacts num repr timedOut mesh w) {how : ReadEnd E}
    (he : EndsOn num repr timedOut w how) : w.Ends timedOut how := by
  have hnext : ∀ {o}, w.Comes repr num o → ∃ x, w.Next x ∧ mesh.labels.received x = o := by
    rintro o ⟨s,hget,rfl⟩
    obtain ⟨y,x,hy,hx,hrecv⟩ := received_at hf hs hr hget
    exact ⟨x,⟨y,hy,hx⟩,hrecv.symm⟩
  cases how with
  | stopAsyncIteration =>
    refine he.imp_left fun hc => ?_
    obtain ⟨x,hx,hrecv⟩ := hnext hc
    exact received_eq_eof hrecv ▸ hx
  | received e =>
    obtain ⟨x,hx,hrecv⟩ := hnext he
    obtain ⟨code,message,rfl,rfl⟩ := received_eq_error hrecv
    exact ⟨code,message,hx,rfl⟩
  | _ => exact he

theorem given_of_valid (hf : ReadsFloats num floatText) (hs : SendValid floatText h w)
    (hr : ReadFacts num repr timedOut mesh w) :
    List.Forall₂ (fun z f => ∃ x, w.program z.1 = some x ∧ mesh.labels.received x = .ok f)
      (w.wire.take w.given.length) w.given := by
  refine forall₂_of_getElem? fun k f hk => ?_
  obtain ⟨s,hget,ho⟩ := hr.items k f hk
  obtain ⟨y,x,hy,hx,hrecv⟩ := received_at hf hs hr hget
  exact ⟨y,hy,x,hx,hrecv.symm.trans ho⟩

/-- A wait whose native call has not returned was handed nothing. -/
theorem ReadFacts.handedOut_of_inside (hw : ReadFacts num repr timedOut mesh w)
    (hr : w.reading = .waiting) {c : Call (Option PyStr) E}
    (hc : w.reader.calls w.given.length = some c) (hn : c.worker.outcome? = none) :
    w.reader.handedOut.length ≤ w.given.length := by
  have hdrop : w.reader.handedOut.reverse.drop w.given.length = [] := by
    refine List.eq_nil_iff_forall_not_mem.mpr fun z hz => ?_
    have hz1 := hw.rest (by simp [hr]) z hz
    obtain ⟨e,he,hx⟩ := mem_tagged.mp (List.mem_reverse.mp (List.mem_of_mem_drop hz))
    rw [hz1,← mem_view] at he
    obtain ⟨o,ho,-⟩ := Option.bind_eq_some_iff.mp hx
    have hunreturned := (reachable_handoverValid (Loop.reachable_call hw.free hc)).unreturned hn
    have hmem : o ∈ returns (view w.given.length w.reader.trace) :=
      List.mem_filterMap.mpr ⟨e,he,ho⟩
    rw [show (w.reader.callState w.given.length c).trace = view w.given.length w.reader.trace from rfl]
      at hunreturned
    rw [hunreturned] at hmem
    cases hmem
  simpa using List.drop_eq_nil_iff.mp hdrop

/-- A reader that waits with nothing left to run has been given all that is on the wire. -/
theorem ReadValid.none_left (hw : ReadValid num repr timedOut mesh w)
    (hrest : w.Rests floatText repr timedOut mesh) (hr : w.reading = .waiting) :
    w.wire.length ≤ w.given.length := by
  by_contra hlt
  obtain ⟨c,hc⟩ := hw.started hr
  have hstep : ∀ a, w.owed mesh a → (∀ i, a ≠ .start i) → Loop.step recvRoute w.reader a = none := by
    intro a ha hne
    have hnone := hrest a ha
    simp only [step] at hnone
    exact Option.map_eq_none_iff.mp hnone
  obtain ⟨a,l,ha,hl⟩ := Loop.step_pending hw.free hc (hw.waits c hr hc) (.ok (w.nextText mesh))
  have howed : w.owed mesh a ∧ ∀ i, a ≠ .start i := by
    cases ha with
    | callReturns =>
      refine ⟨?_,by simp⟩
      cases Loop.step_move hl with
      | thread _ hc' ht =>
        obtain rfl := Option.some.inj (hc.symm.trans hc')
        have hle := hw.handedOut_of_inside hr hc (callReturns_events ht).1
        have hget := List.getElem?_eq_getElem (l := w.wire) (hle.trans_lt (Nat.lt_of_not_le hlt))
        simp [owed,nextText,hget]
    | _ => exact ⟨trivial,by simp⟩
  rw [hstep a howed.1 howed.2] at hl
  cases hl

def aValue : Sent PyVal := .value (.tuple [.int 7])

/-- The contract of a run that sends this value and the end of the stream. -/
def admits (w : Channel Unit) : ChannelAction Unit → Bool
  | .sends (.value (.tuple [.int 7])) => w.sender.allOver
  | .sends .close => w.sender.allOver
  | .sends _ => false
  | .sender (.cancelTask _) => false
  | .sender (.thread i (.callReturns (.ok ()))) => i ∈ w.wire.map Prod.fst
  | .reader (.thread _ (.callReturns (.ok (some s)))) => w.nextText rewriting = some s
  | _ => true

theorem contract_of_admits {w : Channel Unit} {a : ChannelAction Unit}
    (ha : w.admits a = true) : w.contract rewriting a := by
  unfold admits at ha
  split at ha
  · have h7 : int64Min ≤ 7 ∧ 7 ≤ int64Max := by decide
    exact ⟨⟨⟨h7,trivial⟩,trivial,trivial⟩,ha⟩
  · exact ⟨trivial,ha⟩
  · cases ha
  · cases ha
  · exact fun _ _ _ => of_decide_eq_true ha
  · have hs := of_decide_eq_true ha
    exact hs
  · next h1 h2 h3 h4 h5 h6 =>
    unfold contract
    split <;> first | trivial | simp_all

/-- An operation: its thread puts the frame on the wire, and its await is over. -/
def carries (i : ℕ) : List (ChannelAction Unit) :=
  [.sender (.thread i .work),.frames i,.sender (.thread i (.callReturns (.ok ()))),
    .sender (.thread i .work)] ++ List.replicate 5 (.sender .run)

/-- The reader calls `recv`, is handed a text, and goes on from there. -/
def receives (i : ℕ) (s : PyStr) : List (ChannelAction Unit) :=
  .asks :: ([.newToken i,.work,.work,.work,.callReturns (.ok (some s)),.work,.work,.work].map
    fun a => .reader (.thread i a)) ++ List.replicate 5 (.reader .run)

def valueAndEnd : List (ChannelAction Unit) :=
  .sends aValue :: carries 0 ++ receives 0 (rewriting.text (.value (.ofCodes [91,55,93]))) ++
    .sends .close :: carries 1 ++ receives 1 (rewriting.text .close)

def stops : Reading Unit → Bool
  | .ended .stopAsyncIteration => true
  | _ => false

theorem eq_of_stops {r : Reading Unit} (h : stops r = true) : r = .ended .stopAsyncIteration := by
  unfold stops at h
  split at h
  · rfl
  · cases h

end Channel
end MaculaPy.Peers
