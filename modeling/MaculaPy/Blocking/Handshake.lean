import MaculaPy.Blocking.Handover

/-! # The cancellation handshake

The worker appends its token and then reads the flag; the loop sets the flag and then
reads the token list. Whichever thread comes second sees what the other one wrote, so a
token in use under a set flag has been cancelled, or the loop thread is about to.
-/
namespace MaculaPy.Blocking
open Asyncio
variable {V E : Type*}

/-- The task was sent a cancellation: it waits to be thrown, or it was. -/
def Call.interrupted (c : Call V E) : Prop :=
  match c.task with
  | .awaiting => c.mustCancel = true ∨ c.outer.state = some .cancelled
  | .ending _ => True
  | .returned _ => False
  | .raised _ => False
  | .cancelled => True

/-- The loop thread is past the line that sets the flag, or past that branch. -/
def Task.pastFlag : Task V E → Bool
  | .ending .readToken => true
  | .ending (.cancelToken _) => true
  | .ending .addDiscard => true
  | .cancelled => true
  | _ => false

/-- The loop thread has set the flag and not yet cancelled the token it finds. -/
def Task.cancelsNext : Task V E → Bool
  | .ending .readToken => true
  | .ending (.cancelToken _) => true
  | _ => false

/-- The token the worker has created and not freed. -/
def Worker.token? : Worker V E → Option ℕ
  | .created h => some h
  | .appended h => some h
  | .flagged h => some h
  | .ready h => some h
  | .calling h => h
  | .returned h _ => some h
  | .freeing h _ => some h
  | _ => none

/-- The token under which the native call runs, or starts without reading the flag again. -/
def Worker.inUse? : Worker V E → Option ℕ
  | .ready h => some h
  | .calling h => h
  | _ => none

/-- The outcome after the handler around the call has run. -/
def Worker.translated? : Worker V E → Option (Except (Raised E) V)
  | .freeing _ o => some o
  | .finished o => some o
  | .posted o => some o
  | _ => none

/-- What the list shared with the loop holds, by the worker's own line. -/
def Worker.wrote (token : List ℕ) : Worker V E → Prop
  | .spawned => token = []
  | .created _ => token = []
  | .appended h => token = [h]
  | .flagged h => token = [h]
  | .ready h => token = [h]
  | .calling (some h) => token = [h]
  | _ => True

/-- The call's own token was cancelled with the native call not yet returned. -/
def CancelledInTime (t : List (Event V E)) : Prop :=
  ∃ u v h, t = u ++ .cancelToken h :: v ∧ .created h ∈ t ∧ ∀ o, .returned o ∉ v

/-- The native call had returned when the cancelled task ended. -/
def ReturnedFirst (t : List (Event V E)) : Prop :=
  ∃ u v o, t = u ++ .taskCancelled :: v ∧ .returned o ∈ v

theorem CancelledInTime.append {t : List (Event V E)} (h : CancelledInTime t)
    (es : List (Event V E)) : CancelledInTime (es ++ t) := by
  obtain ⟨u,v,h,rfl,hc,hr⟩ := h
  exact ⟨es ++ u,v,h,by simp,List.mem_append_right _ hc,hr⟩

theorem ReturnedFirst.append {t : List (Event V E)} (h : ReturnedFirst t)
    (es : List (Event V E)) : ReturnedFirst (es ++ t) := by
  obtain ⟨u,v,o,rfl,hr⟩ := h
  exact ⟨es ++ u,v,o,by simp,hr⟩

@[simp] theorem mem_after {s : State V E} {e : Effect V E} {x : Event V E} :
    x ∈ (s.after e).trace ↔ x ∈ e.events ∨ x ∈ s.trace := List.mem_append

structure HandshakeValid (r : Route) (s : State V E) : Prop where
  interrupted : .cancelTask ∈ s.trace ↔ s.call.interrupted
  flag : s.call.cancelled = true → s.call.task.pastFlag = true
  lines : s.call.task.cancelsNext = true → s.call.cancelled = true
  unflagged : r ≠ .native → s.call.task.pastFlag = true → s.call.cancelled = false →
    s.call.future.state ≠ none
  created : ∀ h, s.call.worker.token? = some h → .created h ∈ s.trace
  wrote : s.call.worker.wrote s.call.token
  tokenless : s.call.worker = .calling none → r = .native
  flagged : ∀ h, s.call.worker = .flagged h → s.call.cancelled = true
  reached : s.call.cancelled = true → ∀ h, s.call.worker.inUse? = some h →
    .cancelToken h ∈ s.trace ∨ s.call.task = .ending .readToken ∨
      s.call.task = .ending (.cancelToken h)
  translated : r ≠ .native → ∀ m, s.call.worker.translated? = some (.error (.nativeCancelled m)) →
    s.call.cancelled = true
  asked : ∀ h, .cancelToken h ∈ s.trace → s.call.cancelled = true
  timely : r ≠ .native → s.call.task = .cancelled → s.call.worker.outcome? ≠ none →
    CancelledInTime s.trace ∨ ReturnedFirst s.trace

theorem init_handshakeValid (r : Route) : HandshakeValid r (init : State V E) where
  interrupted := by simp [init,start,Call.interrupted]
  flag h := by simp [init,start] at h
  lines h := by simp [init,start,Task.cancelsNext] at h
  unflagged _ h := by simp [init,start,Task.pastFlag] at h
  created _ h := by simp [init,start,Worker.token?] at h
  wrote := rfl
  tokenless h := by simp [init,start] at h
  flagged _ h := by simp [init,start] at h
  reached h := by simp [init,start] at h
  translated _ _ h := by simp [init,start,Worker.translated?] at h
  asked _ h := by simp [init] at h
  timely _ h := by simp [init,start] at h

theorem translate_nativeCancelled {b : Bool} {o : Except (Raised E) V} {m : String}
    (h : translate b o = .error (.nativeCancelled m)) : b = true := by
  cases b with
  | true => rfl
  | false => rcases o with (_ | _ | _) | _ <;> simp [translate] at h

section Steps
variable {r : Route} {s : State V E}

theorem HandshakeValid.timely_append (hi : HandshakeValid r s) (es : List (Event V E))
    (hr : r ≠ .native) (ht : s.call.task = .cancelled) (hw : s.call.worker.outcome? ≠ none) :
    CancelledInTime (es ++ s.trace) ∨ ReturnedFirst (es ++ s.trace) :=
  (hi.timely hr ht hw).imp (fun h => h.append es) (fun h => h.append es)

/-- Before the native call returns, a cancelled task has left a cancelled token behind. -/
theorem HandshakeValid.cancelled_in_use (hi : HandshakeValid r s) (hq : QueueValid r s)
    (hr : r ≠ .native) (ht : s.call.task = .cancelled) {h : ℕ}
    (hw : s.call.worker.inUse? = some h) : .cancelToken h ∈ s.trace := by
  have hp : s.call.worker.posted? = none := by
    cases hk : s.call.worker <;> simp_all [Worker.inUse?,Worker.posted?]
  have hf := hq.future_pending_of_unposted hp
  have hc : s.call.cancelled = true := by
    by_contra hc
    exact hi.unflagged hr (by simp [ht,Task.pastFlag]) (by simpa using hc) hf
  have hx := hi.reached hc h hw
  simpa [ht] using hx

/-- A step of the worker, by what it writes and emits. -/
theorem HandshakeValid.worker (hi : HandshakeValid r s) {w : Worker V E} {token : List ℕ}
    {posts : List (Callback V E)} {events : List (Event V E)}
    (hn : .cancelTask ∉ events) (hc : ∀ h, w.token? = some h → .created h ∈ events ++ s.trace)
    (hw : w.wrote token) (hl : w = .calling none → r = .native)
    (hf : ∀ h, w = .flagged h → s.call.cancelled = true)
    (hu : s.call.cancelled = true → ∀ h, w.inUse? = some h →
      .cancelToken h ∈ events ∨ s.call.worker.inUse? = some h)
    (ht : r ≠ .native → ∀ m, w.translated? = some (.error (.nativeCancelled m)) →
      s.call.cancelled = true)
    (ha : ∀ h, .cancelToken h ∈ events → s.call.cancelled = true)
    (ho : r ≠ .native → s.call.task = .cancelled → w.outcome? ≠ none →
      CancelledInTime (events ++ s.trace) ∨ ReturnedFirst (events ++ s.trace)) :
    HandshakeValid r (s.after
      {call := {s.call with worker := w, token := token}, posts := posts, events := events}) := by
  refine {hi with
    interrupted := ?_
    created := hc
    wrote := hw
    tokenless := hl
    flagged := hf
    reached := ?_
    translated := ht
    asked := ?_
    timely := ho}
  · rw [mem_after]
    exact ⟨fun h => hi.interrupted.mp (h.resolve_left hn),fun h => Or.inr (hi.interrupted.mpr h)⟩
  · intro hb h hx
    rw [mem_after]
    rcases hu hb h hx with h1 | h1
    · exact Or.inl (Or.inl h1)
    · exact (hi.reached hb h h1).imp Or.inr id
  · intro h hx
    rcases mem_after.mp hx with h1 | h1
    · exact ha h h1
    · exact hi.asked h h1

theorem work_handshakeValid {e : Effect V E} (hi : HandshakeValid r s)
    (he : work r s.call = some e) : HandshakeValid r (s.after e) := by
  unfold work at he
  split at he
  · next hw =>
    split at he <;> cases he
    exact hi.worker (by simp) (by simp [Worker.token?]) (by simp [Worker.wrote]) (by simp)
      (by simp) (by simp [Worker.inUse?]) (by simp) (by simp) (by simp)
  · next h hw =>
    cases he
    have hc := hi.created h (by simp [hw,Worker.token?])
    have ht : s.call.token = [] := by simpa [hw,Worker.wrote] using hi.wrote
    exact hi.worker (by simp) (by simp [Worker.token?,hc]) (by simp [Worker.wrote,ht]) (by simp)
      (by simp) (by simp [Worker.inUse?]) (by simp [Worker.translated?]) (by simp)
      (by simp [Worker.outcome?])
  · next h hw =>
    cases he
    have hc := hi.created h (by simp [hw,Worker.token?])
    have ht : s.call.token = [h] := by simpa [hw,Worker.wrote] using hi.wrote
    by_cases hb : s.call.cancelled = true
    · rw [if_pos hb]
      exact hi.worker (by simp) (by simp [Worker.token?,hc]) (by simp [Worker.wrote,ht]) (by simp)
        (by simp [hb]) (by simp [Worker.inUse?]) (by simp [Worker.translated?]) (by simp)
        (by simp [Worker.outcome?])
    · rw [if_neg hb]
      exact hi.worker (by simp) (by simp [Worker.token?,hc]) (by simp [Worker.wrote,ht]) (by simp)
        (by simp) (by simp [hb]) (by simp [Worker.translated?]) (by simp)
        (by simp [Worker.outcome?])
  · next h hw =>
    cases he
    have hc := hi.created h (by simp [hw,Worker.token?])
    have ht : s.call.token = [h] := by simpa [hw,Worker.wrote] using hi.wrote
    have hb := hi.flagged h hw
    exact hi.worker (by simp) (by simp [Worker.token?,hc]) (by simp [Worker.wrote,ht]) (by simp)
      (by simp) (by simp [Worker.inUse?]) (by simp [Worker.translated?]) (by simp [hb])
      (by simp [Worker.outcome?])
  · next h hw =>
    cases he
    have hc := hi.created h (by simp [hw,Worker.token?])
    have ht : s.call.token = [h] := by simpa [hw,Worker.wrote] using hi.wrote
    exact hi.worker (by simp) (by simp [Worker.token?,hc]) (by simp [Worker.wrote,ht]) (by simp)
      (by simp) (by simp [hw,Worker.inUse?]) (by simp [Worker.translated?]) (by simp)
      (by simp [Worker.outcome?])
  · cases he
  · next h o hw =>
    cases he
    have hc := hi.created h (by simp [hw,Worker.token?])
    refine hi.worker (by simp) (by simp [Worker.token?,hc]) (by simp [Worker.wrote]) (by simp)
      (by simp) (by simp [Worker.inUse?]) ?_ (by simp) ?_
    · intro _ m hm
      exact translate_nativeCancelled (by simpa [Worker.translated?] using hm)
    · exact fun hr hk _ => hi.timely_append _ hr hk (by simp [hw,Worker.outcome?])
  · next h o hw =>
    cases he
    have ht := hi.translated
    rw [hw] at ht
    exact hi.worker (by simp) (by simp [Worker.token?]) (by simp [Worker.wrote]) (by simp)
      (by simp) (by simp [Worker.inUse?]) ht (by simp)
      (fun hr hk _ => hi.timely_append _ hr hk (by simp [hw,Worker.outcome?]))
  · next o hw =>
    cases he
    have ht := hi.translated
    rw [hw] at ht
    exact hi.worker (by simp) (by simp [Worker.token?]) (by simp [Worker.wrote]) (by simp)
      (by simp) (by simp [Worker.inUse?]) ht (by simp)
      (fun hr hk _ => hi.timely_append _ hr hk (by simp [hw,Worker.outcome?]))
  · cases he

/-- A step that moves neither the worker nor the task past a line of the handshake. -/
theorem HandshakeValid.frame {e : Effect V E} (hi : HandshakeValid r s)
    (hw : e.call.worker = s.call.worker) (hc : e.call.cancelled = s.call.cancelled)
    (hk : e.call.token = s.call.token) (ht : e.call.task = s.call.task)
    (hf : e.call.future.state = none → s.call.future.state = none)
    (hx : .cancelTask ∈ (s.after e).trace ↔ e.call.interrupted)
    (he : ∀ h, .cancelToken h ∉ e.events) : HandshakeValid r (s.after e) := by
  constructor <;> simp only [State.after_call,hw,hc,hk,ht]
  · exact hx
  · exact hi.flag
  · exact hi.lines
  · exact fun hr hp hb hn => hi.unflagged hr hp hb (hf hn)
  · exact fun h hh => mem_after.mpr (Or.inr (hi.created h hh))
  · exact hi.wrote
  · exact hi.tokenless
  · exact hi.flagged
  · exact fun hb h hh => (hi.reached hb h hh).imp (fun h => mem_after.mpr (Or.inr h)) id
  · exact hi.translated
  · exact fun h hh => hi.asked h ((mem_after.mp hh).resolve_left (he h))
  · exact fun hr hk hh => hi.timely_append _ hr hk hh

/-- A step that besides leaves the await of the task alone. -/
theorem HandshakeValid.still {e : Effect V E} (hi : HandshakeValid r s)
    (hw : e.call.worker = s.call.worker) (hc : e.call.cancelled = s.call.cancelled)
    (hk : e.call.token = s.call.token) (ht : e.call.task = s.call.task)
    (ho : e.call.outer = s.call.outer) (hm : e.call.mustCancel = s.call.mustCancel)
    (hf : e.call.future.state = none → s.call.future.state = none)
    (hn : .cancelTask ∉ e.events) (he : ∀ h, .cancelToken h ∉ e.events) :
    HandshakeValid r (s.after e) := by
  refine hi.frame hw hc hk ht hf ?_ he
  have hx : e.call.interrupted ↔ s.call.interrupted := by
    simp only [Call.interrupted,ht,ho,hm]
  rw [mem_after,hx,← hi.interrupted]
  exact or_iff_right hn

theorem threadStep_handshakeValid {a : ThreadAction V E} {e : Effect V E}
    (hq : QueueValid r s) (hd : HandoverValid r s) (hi : HandshakeValid r s)
    (he : threadStep r s.call a = some e) : HandshakeValid r (s.after e) := by
  cases a with
  | newToken h =>
    simp only [threadStep] at he
    split at he
    · next hw =>
      cases he
      have ht : s.call.token = [] := by simpa [hw,Worker.wrote] using hi.wrote
      exact hi.worker (by simp) (by simp [Worker.token?]) (by simp [Worker.wrote,ht]) (by simp)
        (by simp) (by simp [Worker.inUse?]) (by simp [Worker.translated?]) (by simp)
        (by simp [Worker.outcome?])
    · cases he
  | work => exact work_handshakeValid hi he
  | callReturns o =>
    simp only [threadStep] at he
    split at he
    · next h hw =>
      cases he
      have hc := hi.created h (by simp [hw,Worker.token?])
      have hn : returns s.trace = [] := hd.unreturned (by simp [hw,Worker.outcome?])
      refine hi.worker (by simp) (by simp [Worker.token?,hc]) (by simp [Worker.wrote]) (by simp)
        (by simp) (by simp [Worker.inUse?]) (by simp [Worker.translated?]) (by simp) ?_
      intro hr hk _
      have hm := hi.cancelled_in_use hq hr hk (h := h) (by simp [hw,Worker.inUse?])
      obtain ⟨u,v,huv⟩ := List.append_of_mem hm
      have hx : CancelledInTime s.trace := by
        refine ⟨u,v,h,huv,hc,?_⟩
        intro o' ho'
        have hr := mem_returns.mpr (huv ▸ List.mem_append_right u (List.mem_cons_of_mem _ ho'))
        simp [hn] at hr
      exact Or.inl (hx.append _)
    · next hw =>
      cases he
      have hr := hi.tokenless hw
      exact hi.worker (by simp) (by simp [Worker.token?]) (by simp [Worker.wrote]) (by simp)
        (by simp) (by simp [Worker.inUse?]) (fun h => absurd hr h) (by simp) (fun h => absurd hr h)
    · cases he
  | discard =>
    simp only [threadStep] at he
    split at he <;> cases he
    exact hi.still rfl rfl rfl rfl rfl rfl id (by simp) (by simp)

end Steps

section Loop
variable {r : Route} {s : State V E} {ks : List (Callback V E)}

theorem outcomeOf_ne_cancelled (o : Except (Raised E) V) : outcomeOf o ≠ .cancelled := by
  cases o <;> simp [outcomeOf]

theorem innerDone_handshakeValid (hq : QueueValid r s) (hi : HandshakeValid r s) :
    HandshakeValid r ({s with ready := ks}.after (innerDone s.call)) := by
  have hs : HandshakeValid r {s with ready := ks} := {hi with}
  unfold innerDone
  split
  · exact hs.still rfl rfl rfl rfl rfl rfl id (by simp) (by simp)
  · next x hf _ =>
    cases ho : s.call.outer.state with
    | none =>
      obtain ⟨_,ht,hm,_⟩ := hq.outer_pending ho
      obtain ⟨o,_,rfl⟩ := hq.future_done x hf
      rw [Future.finish_of_pending ho]
      refine hs.frame rfl rfl rfl rfl id ?_ (by simp)
      have hx := hi.interrupted
      simp only [Call.interrupted,ht,hm,ho] at hx
      simp [Call.interrupted,ht,hm,hx,outcomeOf_ne_cancelled]
    | some x =>
      rw [Future.finish_of_done ho]
      exact hs.still rfl rfl rfl rfl rfl rfl id (by simp) (by simp)
  · exact hs.still rfl rfl rfl rfl rfl rfl id (by simp) (by simp)

/-- The task wakes from its await: cancelled exactly when it was sent a cancellation. -/
theorem HandshakeValid.wake (hi : HandshakeValid r s) (ht : s.call.task = .awaiting)
    {t : Task V E} {events : List (Event V E)}
    (hx : s.call.interrupted ↔ ({s.call with mustCancel := false, task := t}).interrupted)
    (hn : t.cancelsNext = false) (hp : t.pastFlag = true → r = .native)
    (hk : t = .cancelled → r = .native) (he : .cancelTask ∉ events)
    (hc : ∀ h, .cancelToken h ∉ events) :
    HandshakeValid r ({s with ready := ks}.after
      {call := {s.call with mustCancel := false, task := t}, events := events}) := by
  have hb : s.call.cancelled = false := by
    by_contra h
    simpa [ht,Task.pastFlag] using hi.flag (by simpa using h)
  refine ⟨?_,?_,?_,?_,?_,hi.wrote,hi.tokenless,hi.flagged,?_,hi.translated,?_,?_⟩
  · rw [mem_after]
    exact ⟨fun h => hx.mp (hi.interrupted.mp (h.resolve_left he)),
      fun h => Or.inr (hi.interrupted.mpr (hx.mpr h))⟩
  · simp [hb]
  · simp [hn]
  · exact fun hr h => absurd (hp h) hr
  · exact fun h hh => mem_after.mpr (Or.inr (hi.created h hh))
  · simp [hb]
  · exact fun h hh => hi.asked h ((mem_after.mp hh).resolve_left (hc h))
  · exact fun hr h => absurd (hk h) hr

theorem interrupt_handshakeValid (hi : HandshakeValid r s) (ht : s.call.task = .awaiting)
    (hx : s.call.interrupted) :
    HandshakeValid r ({s with ready := ks}.after (interrupt r s.call)) := by
  cases r with
  | blocking d =>
    exact hi.wake ht (iff_of_true hx trivial) rfl (by simp [Task.pastFlag]) (by simp)
      (by simp) (by simp)
  | native =>
    exact hi.wake ht (iff_of_true hx trivial) rfl (by simp) (by simp) (by simp) (by simp)

/-- A settled `NativeCancelled` was asked for, so the task is not awaiting it any more. -/
theorem HandshakeValid.no_nativeCancelled (hq : QueueValid r s) (hi : HandshakeValid r s)
    (ht : s.call.task = .awaiting) (hr : r ≠ .native) {m : String} :
    s.call.future.state ≠ some (.exception (.nativeCancelled m)) := by
  intro hf
  obtain ⟨o,ho,he⟩ := hq.future_done _ hf
  obtain rfl : o = .error (.nativeCancelled m) := by
    cases o <;> simp_all [outcomeOf]
  have hw : s.call.worker.translated? = some (.error (.nativeCancelled m)) := by
    cases hk : s.call.worker <;> simp_all [Worker.posted?,Worker.translated?]
  simpa [ht,Task.pastFlag] using hi.flag (hi.translated hr m hw)

theorem wakeup_handshakeValid (hq : QueueValid r s) (hi : HandshakeValid r s)
    (hr : s.ready = .wakeup :: ks) :
    HandshakeValid r ({s with ready := ks}.after (wakeup r s.call)) := by
  obtain ⟨ht,ho,_⟩ := hq.awake hr
  obtain ⟨x,hx⟩ := Option.ne_none_iff_exists'.mp ho
  cases hm : s.call.mustCancel with
  | true =>
    simpa [wakeup,hm] using interrupt_handshakeValid hi ht (by simp [Call.interrupted,ht,hm])
  | false =>
    cases x with
    | cancelled =>
      simpa [wakeup,hm,hx] using interrupt_handshakeValid hi ht (by simp [Call.interrupted,ht,hx])
    | result v =>
      simp only [wakeup,hm,hx,Bool.false_eq_true,↓reduceIte]
      exact hi.wake ht (by simp [Call.interrupted,ht,hm,hx]) rfl (by simp [Task.pastFlag])
        (by simp) (by simp) (by simp)
    | exception e =>
      have hf : s.call.future.state = some (.exception e) := by simpa using hq.outer_done _ hx
      have hraised : HandshakeValid r ({s with ready := ks}.after
          {call := {s.call with mustCancel := false, task := .raised e}, events := [.failed e]}) :=
        hi.wake ht (by simp [Call.interrupted,ht,hm,hx]) rfl (by simp [Task.pastFlag]) (by simp)
          (by simp) (by simp)
      simp only [wakeup,hm,hx,Bool.false_eq_true,↓reduceIte]
      cases r with
      | native => exact hraised
      | blocking d =>
        cases e with
        | nativeCancelled m => exact absurd hf (hi.no_nativeCancelled hq ht (by simp))
        | _ => exact hraised

theorem runCallback_handshakeValid {k : Callback V E} (hq : QueueValid r s)
    (hi : HandshakeValid r s) (hr : s.ready = k :: ks) :
    HandshakeValid r ({s with ready := ks}.after (runCallback r s.call k)) := by
  have hs : HandshakeValid r {s with ready := ks} := {hi with}
  cases k with
  | settle o =>
    simp only [runCallback,settle]
    split
    · exact hs.still rfl rfl rfl rfl rfl rfl id (by simp) (by simp)
    · next hf =>
      have hn : s.call.future.state = none := by simpa [Future.done_eq_false] using hf
      exact hs.still rfl rfl rfl rfl rfl rfl (by simp [hn]) (by simp) (by simp)
  | retrieve =>
    exact hs.still rfl rfl rfl rfl rfl rfl id (by simp [runCallback]) (by simp [runCallback])
  | innerDone => exact innerDone_handshakeValid hq hi
  | outerDone =>
    simp only [runCallback,outerDone]
    split
    · exact hs.still rfl rfl rfl rfl rfl rfl id (by simp) (by simp)
    · exact hs.still rfl rfl rfl rfl rfl rfl id (by simp) (by simp)
  | wakeup => exact wakeup_handshakeValid hq hi hr
  | handOver =>
    simp only [runCallback,handOver]
    split <;> exact hs.still rfl rfl rfl rfl rfl rfl id (by simp) (by simp)

theorem cancelTask_handshakeValid {e : Effect V E} (hi : HandshakeValid r s)
    (he : cancelTask s.call = some e) : HandshakeValid r (s.after e) := by
  unfold cancelTask at he
  split at he
  · next ht =>
    split at he
    · next ho =>
      cases he
      rw [Future.finish_of_pending ho]
      exact hi.frame rfl rfl rfl rfl id (by simp [Call.interrupted,ht]) (by simp)
    · cases he
      exact hi.frame rfl rfl rfl rfl id (by simp [Call.interrupted,ht]) (by simp)
  · cases he

theorem Worker.wrote_of_inUse {w : Worker V E} {token : List ℕ} {h : ℕ} (hw : w.wrote token)
    (hu : w.inUse? = some h) : token = [h] := by
  unfold Worker.inUse? at hu
  split at hu
  · cases hu
    exact hw
  · cases hu
    exact hw
  · cases hu

/-- A line of `_end_the_call` before its last one. -/
theorem HandshakeValid.line (hi : HandshakeValid r s) {l l' : Ending} {flag : Bool}
    {events : List (Event V E)} (hl : s.call.task = .ending l)
    (hf : flag = true → (Task.ending l' : Task V E).pastFlag = true)
    (hc : (Task.ending l' : Task V E).cancelsNext = true → flag = true)
    (hu : (Task.ending l' : Task V E).pastFlag = true → flag = false →
      s.call.future.state ≠ none)
    (hm : s.call.cancelled = true → flag = true)
    (hr : flag = true → ∀ h, s.call.worker.inUse? = some h →
      .cancelToken h ∈ events ++ s.trace ∨ l' = .readToken ∨ l' = .cancelToken h)
    (he : ∀ h, .cancelToken h ∈ events → flag = true) : HandshakeValid r (s.after
      {call := {s.call with task := .ending l', cancelled := flag}, events := events}) := by
  have hx : .cancelTask ∈ s.trace := hi.interrupted.mpr (by simp [Call.interrupted,hl])
  refine ⟨?_,hf,hc,fun _ => hu,?_,hi.wrote,hi.tokenless,?_,?_,?_,?_,?_⟩
  · simp [Call.interrupted,hx]
  · exact fun h hh => mem_after.mpr (Or.inr (hi.created h hh))
  · exact fun h hh => hm (hi.flagged h hh)
  · intro hb h hh
    simpa using hr hb h hh
  · exact fun hr m hh => hm (hi.translated hr m hh)
  · intro h hh
    rcases mem_after.mp hh with h1 | h1
    · exact he h h1
    · exact hm (hi.asked h h1)
  · exact fun _ h => by simp at h

theorem discardOnResult_handshakeValid (hd : HandoverValid r s) (hi : HandshakeValid r s)
    (hl : s.call.task = .ending .addDiscard) :
    HandshakeValid r (s.after (discardOnResult r s.call)) := by
  have hx : .cancelTask ∈ s.trace := hi.interrupted.mpr (by simp [Call.interrupted,hl])
  have hf : ∀ h, s.call.cancelled = true → s.call.worker.inUse? = some h →
      .cancelToken h ∈ s.trace := by
    intro h hb hh
    simpa [hl] using hi.reached hb h hh
  have ht : s.call.worker.outcome? ≠ none → ReturnedFirst ([.taskCancelled] ++ s.trace) := by
    intro h
    obtain ⟨o,ho⟩ := Option.ne_none_iff_exists'.mp h
    obtain ⟨o',_,hr,_⟩ := hd.returned o ho
    exact ⟨[],s.trace,o',rfl,mem_returns.mp (by simp [hr])⟩
  have hu : r ≠ .native → s.call.cancelled = false → s.call.future.state ≠ none :=
    fun hr => hi.unflagged hr (by simp [hl,Task.pastFlag])
  unfold discardOnResult
  split
  · refine ⟨by simp [Call.interrupted,hx],fun _ => rfl,fun h => by simp [Task.cancelsNext] at h,
      ?_,?_,hi.wrote,hi.tokenless,hi.flagged,?_,hi.translated,?_,?_⟩
    · simpa using fun hr _ => hu hr
    · exact fun h hh => mem_after.mpr (Or.inr (hi.created h hh))
    · exact fun hb h hh => Or.inl (mem_after.mpr (Or.inr (hf h hb hh)))
    · exact fun h hh => hi.asked h ((mem_after.mp hh).resolve_left (by simp))
    · exact fun _ _ h => Or.inr (ht h)
  · refine ⟨by simp [Call.interrupted,hx],fun _ => rfl,fun h => by simp [Task.cancelsNext] at h,
      fun hr _ => hu hr,?_,hi.wrote,hi.tokenless,hi.flagged,?_,hi.translated,?_,?_⟩
    · exact fun h hh => mem_after.mpr (Or.inr (hi.created h hh))
    · exact fun hb h hh => Or.inl (mem_after.mpr (Or.inr (hf h hb hh)))
    · exact fun h hh => hi.asked h ((mem_after.mp hh).resolve_left (by simp))
    · exact fun _ _ h => Or.inr (ht h)

theorem endTheCall_handshakeValid {e : Effect V E} (hd : HandoverValid r s)
    (hi : HandshakeValid r s) (he : endTheCall r s.call = some e) :
    HandshakeValid r (s.after e) := by
  unfold endTheCall at he
  split at he
  · next hl =>
    cases he
    have hb : s.call.cancelled = false := by
      by_contra h
      simpa [hl,Task.pastFlag] using hi.flag (by simpa using h)
    by_cases hf : s.call.future.done = true
    · rw [if_pos hf]
      exact hi.line hl (by simp [hb]) (by simp [Task.cancelsNext])
        (fun _ _ => Future.done_eq_true.mp hf) id (by simp [hb]) (by simp)
    · rw [if_neg hf]
      exact hi.line hl (by simp [hb]) (by simp [Task.cancelsNext])
        (by simp [Task.pastFlag]) id (by simp [hb]) (by simp)
  · next hl =>
    cases he
    exact hi.line hl (by simp [Task.pastFlag]) (by simp) (by simp) (by simp) (by simp)
      (by simp)
  · next hl =>
    have hb : s.call.cancelled = true := hi.lines (by simp [hl,Task.cancelsNext])
    split at he
    · next ht =>
      cases he
      refine hi.line hl (by simp [Task.pastFlag]) (by simp [Task.cancelsNext])
        (by simp [hb]) id ?_ (by simp)
      intro _ h hh
      have hw := Worker.wrote_of_inUse hi.wrote hh
      rw [ht] at hw
      cases hw
    · next h' t ht =>
      cases he
      refine hi.line hl (by simp [Task.pastFlag]) (by simp [hb]) (by simp [hb]) id ?_
        (by simp)
      intro _ h hh
      have hw := Worker.wrote_of_inUse hi.wrote hh
      rw [ht] at hw
      cases hw
      exact Or.inr (Or.inr rfl)
  · next h' hl =>
    cases he
    have hb : s.call.cancelled = true := hi.lines (by simp [hl,Task.cancelsNext])
    refine hi.line hl (by simp [Task.pastFlag]) (by simp [Task.cancelsNext])
      (by simp [hb]) id ?_ (by simp [hb])
    intro _ h hh
    have hr := hi.reached hb h hh
    rw [hl] at hr
    rcases hr with hr | hr | hr
    · exact Or.inl (List.mem_append_right _ hr)
    · cases hr
    · cases hr
      exact Or.inl (by simp)
  · next hl =>
    cases he
    exact discardOnResult_handshakeValid hd hi hl
  · cases he

end Loop

theorem step_handshakeValid {r : Route} {s t : State V E} {a : Action V E} (hq : QueueValid r s)
    (hd : HandoverValid r s) (hi : HandshakeValid r s) (he : step r s a = some t) :
    HandshakeValid r t := by
  cases step_move he with
  | thread ha => exact threadStep_handshakeValid hq hd hi ha
  | cancel _ hc => exact cancelTask_handshakeValid hi hc
  | loop _ hr => exact runCallback_handshakeValid hq hi hr
  | endCall hc => exact endTheCall_handshakeValid hd hi hc

theorem reachable_handshakeValid {r : Route} {s : State V E}
    (hs : Runs.Reachable (step r) Runs.free init s) : HandshakeValid r s :=
  hs.induct (init_handshakeValid r) (fun _ _ _ hs hi _ he =>
    step_handshakeValid (reachable_queueValid hs) (reachable_handoverValid hs) hi he)

/-- The loop thread has still to cancel the token: the task has yet to wake, or
`_end_the_call` has yet to come to that line. -/
def CancelPending (s : State V E) : Prop :=
  (s.call.task = .awaiting ∧ .wakeup ∈ s.ready) ∨ s.call.task = .ending .checkDone ∨
    s.call.task = .ending .setFlag ∨ s.call.task.cancelsNext = true

/-- While the native call runs under a token, that token has been cancelled or the loop
thread is about to cancel it. -/
theorem calling_cancelled {d : Bool} {s : State V E}
    (hs : Runs.Reachable (step (.blocking d)) Runs.free init s) (hc : .cancelTask ∈ s.trace)
    {h : ℕ} (hw : s.call.worker = .calling (some h)) : .cancelToken h ∈ s.trace ∨ CancelPending s := by
  have hq := reachable_queueValid hs
  have hi := reachable_handshakeValid hs
  have hu : s.call.worker.inUse? = some h := by simp [hw,Worker.inUse?]
  have hx := hi.interrupted.mp hc
  cases ht : s.call.task with
  | awaiting =>
    refine Or.inr (Or.inl ⟨ht,?_⟩)
    have ho : s.call.outer.state ≠ none := by
      intro ho
      simp [Call.interrupted,ht,ho,(hq.outer_pending ho).2.2.1] at hx
    have hm := hq.woken ht ho
    exact List.mem_of_mem_filter (hm ▸ List.mem_singleton_self _)
  | ending l =>
    cases l with
    | checkDone => exact Or.inr (Or.inr (Or.inl ht))
    | setFlag => exact Or.inr (Or.inr (Or.inr (Or.inl ht)))
    | readToken => exact Or.inr (Or.inr (Or.inr (Or.inr (by rw [ht]; rfl))))
    | cancelToken h' => exact Or.inr (Or.inr (Or.inr (Or.inr (by rw [ht]; rfl))))
    | addDiscard =>
      have hf := hq.future_pending_of_unposted (by simp [hw,Worker.posted?])
      have hb : s.call.cancelled = true := by
        by_contra hb
        exact hi.unflagged (by simp) (by simp [ht,Task.pastFlag]) (by simpa using hb) hf
      apply Or.inl
      simpa [ht] using hi.reached hb h hu
  | returned v => simp [Call.interrupted,ht] at hx
  | raised e => simp [Call.interrupted,ht] at hx
  | cancelled => exact Or.inl (hi.cancelled_in_use hq (by simp) ht hu)

/-- Only the native call itself can go on, by returning. -/
def Stalled (r : Route) (s : State V E) : Prop :=
  ∀ a t, step r s a = some t → a = .cancel ∨ ∃ o, a = .thread (.callReturns o)

theorem Stalled.not_pending {r : Route} {s : State V E} (hs : Stalled r s) : ¬ CancelPending s := by
  have hne : s.call.task.isEnding = false := by
    by_contra h
    obtain ⟨l,hl⟩ := isEnding_eq_true.mp (by simpa using h)
    obtain ⟨e,he⟩ := endTheCall_of_ending (r := r) hl
    rcases hs .endCall (s.after e) (by simp [step,he]) with h | ⟨o,h⟩ <;> cases h
  rintro (⟨ht,hw⟩ | ht | ht | ht)
  · cases hr : s.ready with
    | nil => simp [hr] at hw
    | cons k ks =>
      rcases hs .loop _ (by simp only [step,hne,hr,Bool.false_eq_true,↓reduceIte]; rfl)
        with h | ⟨o,h⟩ <;> cases h
  · simp [ht,Task.isEnding] at hne
  · simp [ht,Task.isEnding] at hne
  · cases hk : s.call.task <;> simp_all [Task.cancelsNext,Task.isEnding]

/-- No cancellation is lost. Once the task of a `run_blocking` is cancelled, a native call
that runs has its own token cancelled, or the loop thread is about to cancel it, so it is
never left waiting under a token that nobody cancels; when nothing is left to run, that
token was cancelled before the call returned, unless the call had returned by the time the
task ended. Without a cancellation no token is cancelled. -/
theorem no_cancellation_lost {d : Bool} {s : State V E}
    (hs : Runs.Reachable (step (.blocking d)) Runs.free init s) :
    (.cancelTask ∈ s.trace →
      (∀ h, s.call.worker = .calling (some h) → .cancelToken h ∈ s.trace ∨ CancelPending s) ∧
      (Stalled (.blocking d) s → ∀ h, s.call.worker = .calling (some h) →
        .cancelToken h ∈ s.trace) ∧
      (Quiescent (.blocking d) s → CancelledInTime s.trace ∨ ReturnedFirst s.trace)) ∧
    (.cancelTask ∉ s.trace → ∀ h, .cancelToken h ∉ s.trace) := by
  have hq := reachable_queueValid hs
  have hi := reachable_handshakeValid hs
  refine ⟨fun hc => ⟨?_,?_,?_⟩,?_⟩
  · exact fun h hw => calling_cancelled hs hc hw
  · exact fun hst h hw => (calling_cancelled hs hc hw).resolve_right hst.not_pending
  · intro hquiet
    obtain ⟨⟨o,ho⟩,_,hne,_⟩ := quiescent_iff.mp hquiet
    have hx := hi.interrupted.mp hc
    have ht : s.call.task = .cancelled := by
      have hna := hquiet.not_awaiting hq
      cases hk : s.call.task <;> simp_all [Call.interrupted,Task.isEnding]
    exact hi.timely (by simp) ht (by simp [Worker.outcome_of_posted ho])
  · intro hc h hh
    have hp := hi.flag (hi.asked h hh)
    refine hc (hi.interrupted.mpr ?_)
    unfold Task.pastFlag at hp
    split at hp <;> simp_all [Call.interrupted]

/-- The task is cancelled while the native call runs. -/
def cancelledWait : List (Action ℕ Empty) :=
  [.thread (.newToken 1),.thread .work,.thread .work,.thread .work,.cancel,.loop,.loop,
    .endCall,.endCall,.endCall,.endCall,.endCall,
    .thread (.callReturns (.error (.nativeCancelled "cancelled"))),
    .thread .work,.thread .work,.thread .work,.loop,.loop]

theorem no_cancellation_lost_wait : ∃ s : State ℕ Empty,
    Runs.exec (step (.blocking false)) init cancelledWait = some s ∧
      (CancelledInTime s.trace ∨ ReturnedFirst s.trace) := by
  refine ⟨_,rfl,?_⟩
  refine ((no_cancellation_lost (d := false) (.of_exec cancelledWait rfl)).1 ?_).2.2 ?_
  · exact List.mem_of_getElem? (i := 5) rfl
  · exact quiescent_iff.mpr ⟨⟨_,rfl⟩,rfl,rfl,rfl⟩

end MaculaPy.Blocking
