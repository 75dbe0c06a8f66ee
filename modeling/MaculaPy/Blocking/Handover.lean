import MaculaPy.Blocking.Queue

/-! # Where the result of a call goes

What the native call returned is what the future is settled with, up to the
translation of `NativeCancelled`; a settled result reaches the awaiting task, or the
discard thread of a task that was cancelled, and never both.
-/
namespace MaculaPy.Blocking
open Asyncio
variable {V E : Type*}

def Event.outcome? : Event V E → Option (Except (Raised E) V)
  | .returned o => some o
  | _ => none

def Event.delivered? : Event V E → Option V
  | .delivered v => some v
  | _ => none

def Event.discarded? : Event V E → Option V
  | .discarded v => some v
  | _ => none

/-- What `call` returned or raised. -/
def returns (t : List (Event V E)) : List (Except (Raised E) V) := t.filterMap Event.outcome?

/-- The results the awaiting task got. -/
def delivered (t : List (Event V E)) : List V := t.filterMap Event.delivered?

/-- The results `discard` was called with. -/
def discarded (t : List (Event V E)) : List V := t.filterMap Event.discarded?

@[simp] theorem returns_append (t u : List (Event V E)) :
    returns (t ++ u) = returns t ++ returns u := List.filterMap_append
@[simp] theorem delivered_append (t u : List (Event V E)) :
    delivered (t ++ u) = delivered t ++ delivered u := List.filterMap_append
@[simp] theorem discarded_append (t u : List (Event V E)) :
    discarded (t ++ u) = discarded t ++ discarded u := List.filterMap_append

@[simp] theorem returns_after (s : State V E) (e : Effect V E) :
    returns (s.after e).trace = returns e.events ++ returns s.trace := returns_append _ _
@[simp] theorem delivered_after (s : State V E) (e : Effect V E) :
    delivered (s.after e).trace = delivered e.events ++ delivered s.trace := delivered_append _ _
@[simp] theorem discarded_after (s : State V E) (e : Effect V E) :
    discarded (s.after e).trace = discarded e.events ++ discarded s.trace := discarded_append _ _

theorem mem_returns {t : List (Event V E)} {o : Except (Raised E) V} :
    o ∈ returns t ↔ .returned o ∈ t := by
  simp only [returns,List.mem_filterMap]
  constructor
  · rintro ⟨e,he,ho⟩
    cases e <;> simp_all [Event.outcome?]
  · exact fun h => ⟨_,h,rfl⟩

/-- The outcome the worker holds once the native call has returned. -/
def Worker.outcome? : Worker V E → Option (Except (Raised E) V)
  | .returned _ o => some o
  | .freeing _ o => some o
  | .finished o => some o
  | .posted o => some o
  | _ => none

def Task.value? : Task V E → Option V
  | .returned v => some v
  | _ => none

theorem Worker.outcome_of_posted {w : Worker V E} {o : Except (Raised E) V}
    (h : w.posted? = some o) : w.outcome? = some o := by
  cases w <;> simp_all [Worker.posted?,Worker.outcome?]

@[simp] theorem translate_ok (b : Bool) (v : V) :
    translate b (.ok v : Except (Raised E) V) = .ok v := rfl

theorem translate_error (b : Bool) (e : Raised E) :
    ∃ e', translate b (.error e : Except (Raised E) V) = .error e' := by
  cases e <;> cases b <;> simp [translate]

@[simp] theorem translate_true (o : Except (Raised E) V) : translate true o = o := by
  unfold translate
  split <;> rfl

theorem translate_translate (b c : Bool) (o : Except (Raised E) V) :
    translate c (translate b o) = translate (b && c) o := by
  cases b with
  | true => simp
  | false => rcases o with (_ | _ | _) | _ <;> rfl

/-- The results that were handed to a discard thread, started or already run. -/
def handed (s : State V E) : List V := s.call.discards ++ discarded s.trace

/-- The worker, the task and the discard threads hold what the trace says. -/
structure HandoverValid (r : Route) (s : State V E) : Prop where
  unreturned : s.call.worker.outcome? = none → returns s.trace = []
  returned : ∀ o, s.call.worker.outcome? = some o →
    ∃ o' b, returns s.trace = [o'] ∧ o = translate b o'
  delivers : delivered s.trace = s.call.task.value?.toList
  value : ∀ v, s.call.task = .returned v → s.call.future.state = some (.result v)
  raised : ∀ e, s.call.task = .raised e → s.call.future.state = some (.exception e)
  unsettled : s.call.future.state = none → queued .handOver s.ready = [] ∧ handed s = []
  kept : handOvers r s.call.task = [] → queued .handOver s.ready = [] ∧ handed s = []
  failed : ∀ e, s.call.future.state = some (.exception e) → handed s = []
  left : ∀ v, s.call.future.state = some (.result v) → handOvers r s.call.task ≠ [] →
    (queued .handOver s.ready = [.handOver] ∧ handed s = []) ∨
      (queued .handOver s.ready = [] ∧ handed s = [v])

theorem init_handoverValid (r : Route) : HandoverValid r (init : State V E) where
  unreturned _ := rfl
  returned _ h := by simp [init,start,Worker.outcome?] at h
  delivers := rfl
  value _ h := by simp [init,start] at h
  raised _ h := by simp [init,start] at h
  unsettled _ := ⟨rfl,rfl⟩
  kept _ := ⟨rfl,rfl⟩
  failed _ h := by simp [init,start] at h
  left _ h := by simp [init,start] at h

theorem HandoverValid.frame {r : Route} {s t : State V E} (hi : HandoverValid r s)
    (hw : t.call.worker.outcome? = s.call.worker.outcome?) (ht : t.call.task = s.call.task)
    (hf : t.call.future.state = s.call.future.state) (hr : returns t.trace = returns s.trace)
    (hd : delivered t.trace = delivered s.trace)
    (hq : queued .handOver t.ready = queued .handOver s.ready) (hh : handed t = handed s) :
    HandoverValid r t := by
  obtain ⟨h1,h2,h3,h4,h5,h6,h7,h8,h9⟩ := hi
  constructor <;> simp only [hw,ht,hf,hr,hd,hq,hh] <;> assumption

/-- A worker step that neither returns from the call nor translates its outcome. -/
theorem HandoverValid.worker {r : Route} {s : State V E} (hi : HandoverValid r s) {w : Worker V E}
    (hw : w.outcome? = s.call.worker.outcome?) (flag : Bool) (token : List ℕ)
    {posts : List (Callback V E)} (hq : queued .handOver posts = []) {events : List (Event V E)}
    (hr : returns events = []) (hd : delivered events = []) (hc : discarded events = []) :
    HandoverValid r (s.after
      {call := {s.call with worker := w, cancelled := flag, token := token}, posts := posts,
        events := events}) :=
  hi.frame hw rfl rfl (by simp [hr]) (by simp [hd]) (by simp [hq]) (by simp [handed,hc])

theorem work_handoverValid {r : Route} {s : State V E} {e : Effect V E} (hi : HandoverValid r s)
    (he : work r s.call = some e) : HandoverValid r (s.after e) := by
  unfold work at he
  split at he
  · next hw =>
    split at he <;> cases he
    exact hi.worker (by simp [hw,Worker.outcome?]) _ _ rfl rfl rfl rfl
  · next hw =>
    cases he
    exact hi.worker (by simp [hw,Worker.outcome?]) _ _ rfl rfl rfl rfl
  · next hw =>
    cases he
    refine hi.worker ?_ _ _ rfl rfl rfl rfl
    cases s.call.cancelled <;> simp [hw,Worker.outcome?]
  · next hw =>
    cases he
    exact hi.worker (by simp [hw,Worker.outcome?]) _ _ rfl rfl rfl rfl
  · next hw =>
    cases he
    exact hi.worker (by simp [hw,Worker.outcome?]) _ _ rfl rfl rfl rfl
  · cases he
  · next h o hw =>
    cases he
    obtain ⟨o',b,hr,rfl⟩ := hi.returned o (by simp [hw,Worker.outcome?])
    simp only [State.after,List.append_nil]
    refine {hi with
      unreturned := by simp [Worker.outcome?]
      returned := ?_}
    intro o ho
    refine ⟨o',b && s.call.cancelled,hr,?_⟩
    rw [← translate_translate]
    simpa [Worker.outcome?] using ho.symm
  · next hw =>
    cases he
    exact hi.worker (by simp [hw,Worker.outcome?]) _ _ rfl rfl rfl rfl
  · next hw =>
    cases he
    exact hi.worker (by simp [hw,Worker.outcome?]) _ _ rfl rfl rfl rfl
  · cases he

/-- The native call returns once, with the outcome the worker then holds. -/
theorem HandoverValid.returns {r : Route} {s : State V E} (hi : HandoverValid r s)
    (hn : s.call.worker.outcome? = none) {o : Except (Raised E) V} {w : Worker V E}
    (hw : w.outcome? = some o) : HandoverValid r
      (s.after {call := {s.call with worker := w}, events := [.returned o]}) := by
  have hd : discarded [(.returned o : Event V E)] = [] := rfl
  have hv : delivered [(.returned o : Event V E)] = [] := rfl
  have hr : Blocking.returns [(.returned o : Event V E)] = [o] := rfl
  refine ⟨?_,?_,?_,hi.value,hi.raised,?_,?_,?_,?_⟩
  · simp [hw]
  · intro o' ho
    refine ⟨o,true,?_,?_⟩
    · simp [hr,hi.unreturned hn]
    · simpa [hw] using ho.symm
  · simpa [hv] using hi.delivers
  · simpa [handed,hd] using hi.unsettled
  · simpa [handed,hd] using hi.kept
  · simpa [handed,hd] using hi.failed
  · simpa [handed,hd] using hi.left

/-- At most one result is ever handed to a discard thread. -/
theorem HandoverValid.handed_cases {r : Route} {s : State V E} (hi : HandoverValid r s)
    (hq : QueueValid r s) : handed s = [] ∨ ∃ v, handed s = [v] := by
  by_cases hk : handOvers r s.call.task = []
  · exact Or.inl (hi.kept hk).2
  · cases hf : s.call.future.state with
    | none => exact Or.inl (hi.unsettled hf).2
    | some x =>
      obtain ⟨o,_,rfl⟩ := hq.future_done x hf
      cases o with
      | error e => exact Or.inl (hi.failed e hf)
      | ok v => exact (hi.left v hf hk).imp (fun h => h.2) (fun h => ⟨v,h.2⟩)

theorem threadStep_handoverValid {r : Route} {s : State V E} {a : ThreadAction V E}
    {e : Effect V E} (hq : QueueValid r s) (hi : HandoverValid r s)
    (he : threadStep r s.call a = some e) : HandoverValid r (s.after e) := by
  cases a with
  | newToken h =>
    simp only [threadStep] at he
    split at he
    · next hw =>
      cases he
      exact hi.worker (by simp [hw,Worker.outcome?]) _ _ rfl rfl rfl rfl
    · cases he
  | work => exact work_handoverValid hi he
  | callReturns o =>
    simp only [threadStep] at he
    split at he
    · next hw =>
      cases he
      exact hi.returns (by simp [hw,Worker.outcome?]) rfl
    · next hw =>
      cases he
      exact hi.returns (by simp [hw,Worker.outcome?]) rfl
    · cases he
  | discard =>
    simp only [threadStep] at he
    split at he
    · cases he
    · next v vs hd =>
      cases he
      refine hi.frame rfl rfl rfl rfl rfl (by simp) ?_
      rcases hi.handed_cases hq with hh | ⟨w,hh⟩
      · simp [handed,hd] at hh
      · obtain ⟨rfl,hvs,ht⟩ : v = w ∧ vs = [] ∧ discarded s.trace = [] := by
          simpa [handed,hd] using hh
        have hv : discarded [(.discarded v : Event V E)] = [v] := rfl
        simp [handed,hd,hvs,ht,hv]

section Callbacks
variable {r : Route} {s : State V E} {ks : List (Callback V E)}

/-- Running a callback that is not `hand_over` and changes neither task nor future. -/
theorem HandoverValid.drop {k : Callback V E} (hi : HandoverValid r s) (hr : s.ready = k :: ks)
    (hk : k.kind ≠ .handOver) : HandoverValid r {s with ready := ks} :=
  hi.frame rfl rfl rfl rfl rfl (by simp [hr,queued_cons,Callback.is,hk]) rfl

theorem settle_handoverValid {o : Except (Raised E) V} (hq : QueueValid r s)
    (hi : HandoverValid r s) (hr : s.ready = .settle o :: ks) :
    HandoverValid r ({s with ready := ks}.after (settle s.call o)) := by
  have hf : s.call.future.state = none := by
    by_contra h
    simpa [hr,queued_cons] using hq.settled h
  obtain ⟨b,hb,_⟩ := hq.future_pending hf
  obtain ⟨hks,hh⟩ := hi.unsettled hf
  have hks' : queued .handOver ks = [] := by simpa [hr,queued_cons] using hks
  have hcb : queued .handOver s.call.future.callbacks = handOvers r s.call.task := by
    rw [hb]
    cases b <;> simp [queued_cons]
  simp only [settle,Future.done_eq_false.mpr hf,Future.finish_of_pending hf,Bool.false_eq_true,
    ↓reduceIte]
  refine ⟨hi.unreturned,hi.returned,hi.delivers,?_,?_,by simp,?_,fun _ _ => hh,?_⟩
  · exact fun v hv => absurd (hi.value v hv) (by simp [hf])
  · exact fun e he => absurd (hi.raised e he) (by simp [hf])
  · intro hk
    exact ⟨by simpa [hks',hcb] using hk,hh⟩
  · intro v _ hk
    rcases handOvers_cases r s.call.task with h | ⟨h,_,_⟩
    · exact absurd h hk
    · exact Or.inl ⟨by simp [hks',hcb,h],hh⟩

/-- The task ends its await without a result handed over: with the value or the
exception of the settled future, or on its way through `_end_the_call`. -/
theorem HandoverValid.wake (hq : QueueValid r s) (hi : HandoverValid r s)
    (hr : s.ready = .wakeup :: ks) {t : Task V E} {events : List (Event V E)}
    (hd : delivered events = t.value?.toList)
    (hv : ∀ v, t = .returned v → s.call.future.state = some (.result v))
    (he : ∀ e, t = .raised e → s.call.future.state = some (.exception e))
    (hx : handOvers r t ≠ [] → ∃ e, s.call.future.state = some (.exception e))
    (hret : Blocking.returns events = []) (hdis : discarded events = []) :
    HandoverValid r ({s with ready := ks}.after
      {call := {s.call with mustCancel := false, task := t}, events := events}) := by
  obtain ⟨ht,_,_⟩ := hq.awake hr
  obtain ⟨hk,hh⟩ := hi.kept (by simp [ht])
  have hks : queued .handOver ks = [] := by simpa [hr,queued_cons] using hk
  have hh' : handed ({s with ready := ks}.after
      {call := {s.call with mustCancel := false, task := t}, events := events}) = [] := by
    simpa [handed,hdis] using hh
  refine ⟨?_,?_,?_,hv,he,?_,?_,fun _ _ => hh',?_⟩
  · simpa [hret] using hi.unreturned
  · simpa [hret] using hi.returned
  · have hs := hi.delivers
    simp only [ht,Task.value?,Option.toList_none] at hs
    simp [hd,hs]
  · exact fun _ => ⟨by simpa using hks,hh'⟩
  · exact fun _ => ⟨by simpa using hks,hh'⟩
  · intro v hv hk
    obtain ⟨e,he⟩ := hx hk
    exact absurd (hv.symm.trans he) (by simp)

theorem interrupt_handoverValid (hq : QueueValid r s) (hi : HandoverValid r s)
    (hr : s.ready = .wakeup :: ks) :
    HandoverValid r ({s with ready := ks}.after (interrupt r s.call)) := by
  cases r with
  | blocking d => exact hi.wake hq hr rfl (by simp) (by simp) (by simp) rfl rfl
  | native => exact hi.wake hq hr rfl (by simp) (by simp) (by simp [handOvers]) rfl rfl

theorem wakeup_handoverValid (hq : QueueValid r s) (hi : HandoverValid r s)
    (hr : s.ready = .wakeup :: ks) :
    HandoverValid r ({s with ready := ks}.after (wakeup r s.call)) := by
  obtain ⟨_,ho,_⟩ := hq.awake hr
  obtain ⟨x,hx⟩ := Option.ne_none_iff_exists'.mp ho
  cases hm : s.call.mustCancel with
  | true => simpa [wakeup,hm] using interrupt_handoverValid hq hi hr
  | false =>
    cases x with
    | cancelled => simpa [wakeup,hm,hx] using interrupt_handoverValid hq hi hr
    | result v =>
      have hf : s.call.future.state = some (.result v) := by simpa using hq.outer_done _ hx
      simp only [wakeup,hm,hx,Bool.false_eq_true,↓reduceIte]
      exact hi.wake hq hr rfl (by simp [hf]) (by simp) (by simp) rfl rfl
    | exception e =>
      have hf : s.call.future.state = some (.exception e) := by simpa using hq.outer_done _ hx
      simp only [wakeup,hm,hx,Bool.false_eq_true,↓reduceIte]
      cases r <;> cases e <;>
        exact hi.wake hq hr rfl (by simp) (by simp [hf]) (by simp [hf]) rfl rfl

theorem handOver_handoverValid (hq : QueueValid r s) (hi : HandoverValid r s)
    (hr : s.ready = .handOver :: ks) :
    HandoverValid r ({s with ready := ks}.after (handOver s.call)) := by
  have hk : handOvers r s.call.task ≠ [] := by
    intro h
    simpa [hr,queued_cons] using (hi.kept h).1
  cases hf : s.call.future.state with
  | none => simpa [hr,queued_cons] using (hi.unsettled hf).1
  | some x =>
    obtain ⟨o,_,rfl⟩ := hq.future_done x hf
    cases o with
    | error e =>
      simp only [outcomeOf] at hf
      simp only [handOver,hf,State.after,List.append_nil]
      have hh := hi.failed e hf
      exact {hi with
        unsettled := fun h => absurd h (by simp [hf])
        kept := fun h => absurd h hk
        left := fun v h => absurd h (by simp [hf])}
    | ok v =>
      simp only [outcomeOf] at hf
      obtain ⟨hks,hh⟩ : queued .handOver ks = [] ∧ handed s = [] := by
        rcases hi.left v hf hk with h | h
        · exact ⟨by simpa [hr,queued_cons] using h.1,h.2⟩
        · simpa [hr,queued_cons] using h.1
      obtain ⟨hd,ht⟩ : s.call.discards = [] ∧ discarded s.trace = [] := by
        simpa [handed] using hh
      simp only [handOver,hf,State.after,List.append_nil]
      refine {hi with
        unsettled := fun h => absurd h (by simp [hf])
        kept := fun h => absurd h hk
        failed := fun e h => absurd h (by simp [hf])
        left := ?_}
      intro w hw _
      obtain rfl : v = w := by simpa [hf] using hw
      exact Or.inr ⟨hks,by simp [handed,hd,ht]⟩

theorem innerDone_handoverValid (hq : QueueValid r s) (hi : HandoverValid r s)
    (hr : s.ready = .innerDone :: ks) :
    HandoverValid r ({s with ready := ks}.after (innerDone s.call)) := by
  have hd : HandoverValid r {s with ready := ks} := hi.drop hr (by simp [Callback.kind])
  unfold innerDone
  split
  · exact hd.frame rfl rfl rfl rfl rfl (by simp) rfl
  · cases ho : s.call.outer.state with
    | none =>
      rw [Future.finish_of_pending ho,(hq.outer_pending ho).1]
      exact hd.frame rfl rfl rfl rfl rfl (by simp [queued_cons]) rfl
    | some x =>
      rw [Future.finish_of_done ho]
      exact hd.frame rfl rfl rfl rfl rfl (by simp) rfl
  · exact hd.frame rfl rfl rfl rfl rfl (by simp) rfl

theorem runCallback_handoverValid {k : Callback V E} (hq : QueueValid r s)
    (hi : HandoverValid r s) (hr : s.ready = k :: ks) :
    HandoverValid r ({s with ready := ks}.after (runCallback r s.call k)) := by
  cases k with
  | settle o => exact settle_handoverValid hq hi hr
  | retrieve =>
    exact (hi.drop hr (by simp [Callback.kind])).frame rfl rfl rfl rfl rfl (by simp [runCallback]) rfl
  | innerDone => exact innerDone_handoverValid hq hi hr
  | outerDone =>
    have hd : HandoverValid r {s with ready := ks} := hi.drop hr (by simp [Callback.kind])
    simp only [runCallback,outerDone]
    split
    · exact hd.frame rfl rfl rfl rfl rfl (by simp) rfl
    · exact hd.frame rfl rfl rfl rfl rfl (by simp) rfl
  | wakeup => exact wakeup_handoverValid hq hi hr
  | handOver => exact handOver_handoverValid hq hi hr

end Callbacks

theorem cancelTask_handoverValid {r : Route} {s : State V E} {e : Effect V E}
    (hq : QueueValid r s) (hi : HandoverValid r s) (he : cancelTask s.call = some e) :
    HandoverValid r (s.after e) := by
  unfold cancelTask at he
  split at he
  · split at he
    · next ho =>
      rw [Future.finish_of_pending ho,(hq.outer_pending ho).1] at he
      cases he
      exact hi.frame rfl rfl rfl rfl rfl (by simp [queued_cons]) rfl
    · cases he
      exact hi.frame rfl rfl rfl rfl rfl (by simp) rfl
  · cases he

theorem HandoverValid.ending {r : Route} {s : State V E} (hi : HandoverValid r s) {l l' : Ending}
    (hl : s.call.task = .ending l) (flag : Bool) (token : List ℕ) {events : List (Event V E)}
    (hr : Blocking.returns events = []) (hd : delivered events = [])
    (hc : discarded events = []) : HandoverValid r (s.after
      {call := {s.call with task := .ending l', cancelled := flag, token := token},
        events := events}) := by
  obtain ⟨hk,hh⟩ := hi.kept (by simp [hl])
  have hs := hi.delivers
  have hh' : handed (s.after
      {call := {s.call with task := .ending l', cancelled := flag, token := token},
        events := events}) = [] := by simpa [handed,hc] using hh
  refine ⟨?_,?_,?_,by simp,by simp,?_,?_,fun _ _ => hh',by simp⟩
  · simpa [hr] using hi.unreturned
  · simpa [hr] using hi.returned
  · simpa [hd,hl,Task.value?] using hs
  · exact fun _ => ⟨by simpa using hk,hh'⟩
  · exact fun _ => ⟨by simpa using hk,hh'⟩

theorem discardOnResult_handoverValid {r : Route} {s : State V E} {l : Ending}
    (hi : HandoverValid r s) (hl : s.call.task = .ending l) :
    HandoverValid r (s.after (discardOnResult r s.call)) := by
  obtain ⟨hk,hh⟩ := hi.kept (by simp [hl])
  have hs := hi.delivers
  simp only [hl,Task.value?,Option.toList_none] at hs
  unfold discardOnResult
  split
  · have hh' : ∀ posts, handed (s.after
        {call := {s.call with future := (s.call.future.addDoneCallback .handOver).1, task := .cancelled},
          posts := posts, events := [.taskCancelled]}) = [] := fun _ => hh
    refine ⟨hi.unreturned,hi.returned,hs,by simp,by simp,?_,?_,fun _ _ => hh' _,?_⟩
    · intro hf
      rw [State.after_call,Future.addDoneCallback_state] at hf
      rw [Future.addDoneCallback_of_pending hf]
      exact ⟨by simpa using hk,hh⟩
    · intro h
      simp [handOvers] at h
    · intro v hf _
      rw [State.after_call,Future.addDoneCallback_state] at hf
      refine Or.inl ⟨?_,hh' _⟩
      rw [Future.addDoneCallback_of_done hf]
      simp [queued_cons,hk]
  · have hh' : handed (s.after
        {call := {s.call with task := .cancelled}, events := [.taskCancelled]}) = [] := hh
    refine ⟨hi.unreturned,hi.returned,hs,by simp,by simp,?_,?_,fun _ _ => hh',?_⟩
    · exact fun _ => ⟨by simpa using hk,hh'⟩
    · exact fun _ => ⟨by simpa using hk,hh'⟩
    · next hr =>
      intro v _ h
      rcases handOvers_cases r (.cancelled : Task V E) with hn | ⟨_,hb,_⟩
      · exact absurd hn h
      · exact absurd hb hr

theorem endTheCall_handoverValid {r : Route} {s : State V E} {e : Effect V E}
    (hi : HandoverValid r s) (he : endTheCall r s.call = some e) :
    HandoverValid r (s.after e) := by
  unfold endTheCall at he
  split at he
  · next hl =>
    cases he
    exact hi.ending hl _ _ rfl rfl rfl
  · next hl =>
    cases he
    exact hi.ending hl _ _ rfl rfl rfl
  · next hl =>
    split at he <;> cases he <;> exact hi.ending hl _ _ rfl rfl rfl
  · next hl =>
    cases he
    exact hi.ending hl _ _ rfl rfl rfl
  · next hl =>
    cases he
    exact discardOnResult_handoverValid hi hl
  · cases he

theorem step_handoverValid {r : Route} {s t : State V E} {a : Action V E} (hq : QueueValid r s)
    (hi : HandoverValid r s) (he : step r s a = some t) : HandoverValid r t := by
  cases step_move he with
  | thread ha => exact threadStep_handoverValid hq hi ha
  | cancel _ hc => exact cancelTask_handoverValid hq hi hc
  | loop _ hr => exact runCallback_handoverValid hq hi hr
  | endCall hc => exact endTheCall_handoverValid hi hc

theorem reachable_handoverValid {r : Route} {s : State V E}
    (hs : Runs.Reachable (step r) Runs.free init s) : HandoverValid r s :=
  hs.induct (init_handoverValid r)
    (fun _ _ _ hs hi _ he => step_handoverValid (reachable_queueValid hs) hi he)

/-- What a step does to the awaiting task: nothing, or it ends the await with the result
of the settled future, or otherwise. -/
inductive TaskChange (c : Call V E) (e : Effect V E) : Prop
  | same (ht : e.call.task = c.task) (hd : delivered e.events = [])
  | delivers (v : V) (ht : c.task = .awaiting) (hf : c.future.state = some (.result v))
    (hn : e.call.task = .returned v) (hd : delivered e.events = [v])
  | leaves (ht : c.task = .awaiting ∨ c.task.isEnding = true) (hn : e.call.task ≠ .awaiting)
    (hv : e.call.task.value? = none) (hd : delivered e.events = [])

/-- A thread delivers nothing, and the native call returns only where it had not. -/
theorem threadStep_returns {r : Route} {c : Call V E} {a : ThreadAction V E} {e : Effect V E}
    (he : threadStep r c a = some e) :
    delivered e.events = [] ∧
      (returns e.events = [] ∨ ∃ o, a = .callReturns o ∧ c.worker.outcome? = none) := by
  cases a with
  | newToken h =>
    simp only [threadStep] at he
    split at he <;> cases he
    exact ⟨rfl,Or.inl rfl⟩
  | work =>
    simp only [threadStep,work] at he
    split at he
    · split at he <;> cases he
      exact ⟨rfl,Or.inl rfl⟩
    all_goals
      cases he
      try exact ⟨rfl,Or.inl rfl⟩
  | callReturns o =>
    simp only [threadStep] at he
    split at he
    · next hw =>
      cases he
      exact ⟨rfl,Or.inr ⟨o,rfl,by simp [hw,Worker.outcome?]⟩⟩
    · next hw =>
      cases he
      exact ⟨rfl,Or.inr ⟨o,rfl,by simp [hw,Worker.outcome?]⟩⟩
    · cases he
  | discard =>
    simp only [threadStep] at he
    split at he <;> cases he
    exact ⟨rfl,Or.inl rfl⟩

/-- The native call returns once. -/
theorem callReturns_events {r : Route} {c : Call V E} {o : Except (Raised E) V} {e : Effect V E}
    (he : threadStep r c (.callReturns o) = some e) :
    c.worker.outcome? = none ∧ e.events = [.returned o] := by
  simp only [threadStep] at he
  split at he
  · next hw =>
    cases he
    exact ⟨by simp [hw,Worker.outcome?],rfl⟩
  · next hw =>
    cases he
    exact ⟨by simp [hw,Worker.outcome?],rfl⟩
  · cases he

theorem cancelTask_events {c : Call V E} {e : Effect V E} (he : cancelTask c = some e) :
    e.events = [.cancelTask] := by
  unfold cancelTask at he
  split at he
  · split at he <;> cases he <;> rfl
  · cases he

theorem endTheCall_taskChange {r : Route} {c : Call V E} {e : Effect V E}
    (he : endTheCall r c = some e) : TaskChange c e ∧ returns e.events = [] := by
  have hl : ∃ l, c.task = .ending l := by
    cases hk : c.task <;> simp_all [endTheCall]
  obtain ⟨l,hl⟩ := hl
  have ht : c.task.isEnding = true := by simp [hl,Task.isEnding]
  unfold endTheCall at he
  split at he
  · cases he
    exact ⟨.leaves (Or.inr ht) (by simp) rfl rfl,rfl⟩
  · cases he
    exact ⟨.leaves (Or.inr ht) (by simp) rfl rfl,rfl⟩
  · split at he <;> cases he <;> exact ⟨.leaves (Or.inr ht) (by simp) rfl rfl,rfl⟩
  · cases he
    exact ⟨.leaves (Or.inr ht) (by simp) rfl rfl,rfl⟩
  · cases he
    unfold discardOnResult
    split <;> exact ⟨.leaves (Or.inr ht) (by simp) rfl rfl,rfl⟩
  · cases he

theorem wakeup_taskChange {r : Route} {s : State V E} {ks : List (Callback V E)}
    (hq : QueueValid r s) (hr : s.ready = .wakeup :: ks) :
    TaskChange s.call (wakeup r s.call) ∧ returns (wakeup r s.call).events = [] := by
  obtain ⟨ht,ho,_⟩ := hq.awake hr
  obtain ⟨x,hx⟩ := Option.ne_none_iff_exists'.mp ho
  have hi : TaskChange s.call (interrupt r s.call) ∧ returns (interrupt r s.call).events = [] := by
    cases r <;> exact ⟨.leaves (Or.inl ht) (by simp [interrupt]) rfl rfl,rfl⟩
  cases hm : s.call.mustCancel with
  | true => simpa [wakeup,hm] using hi
  | false =>
    cases x with
    | cancelled => simpa [wakeup,hm,hx] using hi
    | result v =>
      have hf : s.call.future.state = some (.result v) := by simpa using hq.outer_done _ hx
      simp only [wakeup,hm,hx,Bool.false_eq_true,↓reduceIte]
      exact ⟨.delivers v ht hf rfl rfl,rfl⟩
    | exception e =>
      simp only [wakeup,hm,hx,Bool.false_eq_true,↓reduceIte]
      cases r <;> cases e <;> exact ⟨.leaves (Or.inl ht) (by simp) rfl rfl,rfl⟩

theorem runCallback_taskChange {r : Route} {s : State V E} {k : Callback V E}
    {ks : List (Callback V E)} (hq : QueueValid r s) (hr : s.ready = k :: ks) :
    TaskChange s.call (runCallback r s.call k) ∧ returns (runCallback r s.call k).events = [] := by
  cases k with
  | settle o =>
    simp only [runCallback,settle]
    split <;> exact ⟨.same rfl rfl,rfl⟩
  | retrieve => exact ⟨.same rfl rfl,rfl⟩
  | innerDone =>
    simp only [runCallback,innerDone]
    split <;> exact ⟨.same rfl rfl,rfl⟩
  | outerDone =>
    simp only [runCallback,outerDone]
    split <;> exact ⟨.same rfl rfl,rfl⟩
  | wakeup => exact wakeup_taskChange hq hr
  | handOver =>
    simp only [runCallback,handOver]
    split <;> exact ⟨.same rfl rfl,rfl⟩

/-- Only the return of the native call adds to what it returned. -/
theorem step_returns {r : Route} {s t : State V E} {a : Action V E} (hq : QueueValid r s)
    (he : step r s a = some t) (ha : ∀ o, a ≠ .thread (.callReturns o)) :
    returns t.trace = returns s.trace := by
  cases a with
  | thread a =>
    obtain ⟨e,hx,rfl⟩ := Option.map_eq_some_iff.mp he
    rcases (threadStep_returns hx).2 with h | ⟨o,rfl,_⟩
    · simp [h]
    · exact absurd rfl (ha o)
  | cancel =>
    simp only [step] at he
    split at he
    · cases he
    · obtain ⟨e,hx,rfl⟩ := Option.map_eq_some_iff.mp he
      rw [returns_after,cancelTask_events hx]
      rfl
  | loop =>
    simp only [step] at he
    split at he
    · cases he
    · split at he
      · cases he
      · next hr =>
        cases he
        simp [(runCallback_taskChange hq hr).2]
  | endCall =>
    obtain ⟨e,hx,rfl⟩ := Option.map_eq_some_iff.mp he
    simp [(endTheCall_taskChange hx).2]

/-- With nothing left to run, a result the native call returned was delivered, or its task
was cancelled and it was handed to `discard` if there is one. -/
theorem Quiescent.result {r : Route} {s : State V E} (hs : Runs.Reachable (step r) Runs.free init s)
    (hq : Quiescent r s) {v : V} (hv : .returned (.ok v) ∈ s.trace) :
    (s.call.task = .returned v ∧ delivered s.trace = [v] ∧ discarded s.trace = []) ∨
      (s.call.task = .cancelled ∧ delivered s.trace = [] ∧
        discarded s.trace = if r = .blocking true then [v] else []) := by
  have hqi := reachable_queueValid hs
  have hi := reachable_handoverValid hs
  obtain ⟨o,ho,hf⟩ := hq.settled hqi
  obtain ⟨_,hr,ht,hdis⟩ := quiescent_iff.mp hq
  obtain ⟨o',b,hret,rfl⟩ := hi.returned o (Worker.outcome_of_posted ho)
  obtain rfl : o' = .ok v := by
    have hm := mem_returns.mpr hv
    rw [hret,List.mem_singleton] at hm
    exact hm.symm
  rw [translate_ok,outcomeOf] at hf
  have hdel := hi.delivers
  cases hk : s.call.task with
  | awaiting => exact absurd hk (hq.not_awaiting hqi)
  | ending l => simp [hk,Task.isEnding] at ht
  | returned w =>
    obtain rfl : v = w := by simpa [hf] using hi.value w hk
    have hh := (hi.kept (by simp [hk])).2
    rw [handed,hdis] at hh
    exact Or.inl ⟨rfl,by simpa [hk,Task.value?] using hdel,by simpa using hh⟩
  | raised e => simpa [hf] using hi.raised e hk
  | cancelled =>
    refine Or.inr ⟨rfl,by simpa [hk,Task.value?] using hdel,?_⟩
    split
    · next hb =>
      have hl := hi.left v hf (by simp [hk,hb,handOvers])
      simpa [hr,handed,hdis] using hl
    · next hb =>
      have hn : handOvers r s.call.task = [] := by
        rcases handOvers_cases r s.call.task with h | h
        · exact h
        · exact absurd h.2.1 hb
      have hh := (hi.kept hn).2
      simpa [handed,hdis] using hh

/-- A call that raised leaves nothing to `discard`, in any reachable state. -/
theorem discarded_of_raised {r : Route} {s : State V E}
    (hs : Runs.Reachable (step r) Runs.free init s) {e : Raised E}
    (he : .returned (.error e) ∈ s.trace) : discarded s.trace = [] ∧ s.call.discards = [] := by
  have hqi := reachable_queueValid hs
  have hi := reachable_handoverValid hs
  have hh : handed s = [] := by
    cases hf : s.call.future.state with
    | none => exact (hi.unsettled hf).2
    | some x =>
      obtain ⟨o,ho,rfl⟩ := hqi.future_done x hf
      obtain ⟨o',b,hret,rfl⟩ := hi.returned o (Worker.outcome_of_posted ho)
      obtain rfl : o' = .error e := by
        have hm := mem_returns.mpr he
        rw [hret,List.mem_singleton] at hm
        exact hm.symm
      obtain ⟨e',he'⟩ := translate_error (V := V) b e
      exact hi.failed e' (by rw [hf,he',outcomeOf])
  rw [handed,List.append_eq_nil_iff] at hh
  exact hh.symm

/-- The native call returns once. -/
theorem returned_unique {r : Route} {s : State V E}
    (hs : Runs.Reachable (step r) Runs.free init s) {o o' : Except (Raised E) V}
    (h : .returned o ∈ s.trace) (h' : .returned o' ∈ s.trace) : o = o' := by
  have hi := reachable_handoverValid hs
  rw [← mem_returns] at h h'
  cases hw : s.call.worker.outcome? with
  | none =>
    rw [hi.unreturned hw] at h
    cases h
  | some x =>
    obtain ⟨y,b,hy,-⟩ := hi.returned x hw
    rw [hy,List.mem_singleton] at h h'
    rw [h,h']

/-- Only what the native call returned is handed to `discard`. -/
theorem returned_of_discarded {r : Route} {s : State V E}
    (hs : Runs.Reachable (step r) Runs.free init s) {v : V} (hv : v ∈ discarded s.trace) :
    .returned (.ok v) ∈ s.trace := by
  have hi := reachable_handoverValid hs
  have hm : v ∈ handed s := List.mem_append_right _ hv
  cases hf : s.call.future.state with
  | none =>
    rw [(hi.unsettled hf).2] at hm
    cases hm
  | some x =>
    obtain ⟨o,ho,rfl⟩ := (reachable_queueValid hs).future_done x hf
    obtain ⟨o',b,hret,rfl⟩ := hi.returned o (Worker.outcome_of_posted ho)
    cases o' with
    | error e =>
      obtain ⟨e',he'⟩ := translate_error (V := V) b e
      rw [hi.failed e' (by rw [hf,he',outcomeOf])] at hm
      cases hm
    | ok u =>
      have hu : handed s = [] ∨ handed s = [u] := by
        by_cases hk : handOvers r s.call.task = []
        · exact .inl (hi.kept hk).2
        · rw [translate_ok,outcomeOf] at hf
          exact (hi.left u hf hk).imp And.right And.right
      rcases hu with hu | hu
      · rw [hu] at hm
        cases hm
      · rw [hu,List.mem_singleton] at hm
        rw [hm]
        exact mem_returns.mp (hret ▸ List.mem_singleton_self _)

/-- `run_blocking` with `discard`: when nothing is left to run, a result the native call
returned was delivered to the awaiter or handed to `discard`, and not both; a call that
raised hands nothing to `discard` at any time. -/
theorem result_handed_over_once {s : State V E}
    (hs : Runs.Reachable (step (.blocking true)) Runs.free init s) :
    (∀ v, Quiescent (.blocking true) s → .returned (.ok v) ∈ s.trace →
      (delivered s.trace = [v] ∧ discarded s.trace = []) ∨
        (delivered s.trace = [] ∧ discarded s.trace = [v])) ∧
      ∀ e, .returned (.error e) ∈ s.trace → discarded s.trace = [] ∧ s.call.discards = [] := by
  refine ⟨?_,fun e he => discarded_of_raised hs he⟩
  intro v hq hv
  rcases hq.result hs hv with ⟨_,h⟩ | ⟨_,hd,hx⟩
  · exact Or.inl h
  · exact Or.inr ⟨hd,by simpa using hx⟩

/-- The task is cancelled after the future is settled and before it has woken. -/
def lateCancellation : List (Action ℕ Empty) :=
  [.thread (.newToken 1),.thread .work,.thread .work,.thread .work,
    .thread (.callReturns (.ok 7)),.thread .work,.thread .work,.thread .work,
    .loop,.loop,.loop,.cancel,.loop,.loop,.endCall,.endCall,.loop,.thread .discard]

theorem result_handed_over_once_late : ∃ s : State ℕ Empty,
    Runs.exec (step (.blocking true)) init lateCancellation = some s ∧
      Quiescent (.blocking true) s ∧ delivered s.trace = [] ∧ discarded s.trace = [7] := by
  refine ⟨_,rfl,?_,?_⟩
  · exact quiescent_iff.mpr ⟨⟨.ok 7,rfl⟩,rfl,rfl,rfl⟩
  · have h := (result_handed_over_once (.of_exec lateCancellation rfl)).1 7
      (quiescent_iff.mpr ⟨⟨.ok 7,rfl⟩,rfl,rfl,rfl⟩) (mem_returns.mp (List.mem_singleton_self _))
    exact h.resolve_left (by rintro ⟨h,_⟩; cases h)

end MaculaPy.Blocking
