import MaculaPy.Blocking.Handshake
import MaculaPy.Blocking.Loop
import Mathlib.Data.Fintype.EquivFin

/-! # The tasks of many calls

What one step of the loop does to the other code's part of the queue, to the tasks that
have ended and to those that were never cancelled.
-/
namespace MaculaPy.Blocking
open Asyncio History
variable {V E : Type*}

/-- A task that has ended stays as it ended. -/
theorem step_task_of_ended {r : Route} {s t : State V E} {a : Action V E} (hq : QueueValid r s)
    (he : step r s a = some t) (hend : s.call.task.ended = true) : t.call.task = s.call.task := by
  cases step_move he with
  | thread ha => exact threadStep_task ha
  | cancel _ hc => exact cancelTask_task hc
  | loop _ hr =>
    cases (runCallback_taskChange hq hr).1 with
    | same ht _ => exact ht
    | delivers v ht _ _ _ => simp [ht,Task.ended] at hend
    | leaves ht _ _ _ =>
      rcases ht with ht | ht
      · simp [ht,Task.ended] at hend
      · cases hk : s.call.task <;> simp_all [Task.ended,Task.isEnding]
  | endCall hc => cases hk : s.call.task <;> simp_all [Task.ended,endTheCall]

/-- A task returns what its native call returned. -/
theorem returned_of_task {r : Route} {s : State V E} (hs : Runs.Reachable (step r) Runs.free init s)
    {v : V} (hk : s.call.task = .returned v) : .returned (.ok v) ∈ s.trace := by
  have hi := reachable_handoverValid hs
  obtain ⟨o,ho,hx⟩ := (reachable_queueValid hs).future_done _ (hi.value v hk)
  obtain rfl : o = .ok v := by
    cases o with
    | error e => simp [outcomeOf] at hx
    | ok w => simpa [outcomeOf] using hx.symm
  obtain ⟨o',b,hret,ht⟩ := hi.returned _ (Worker.outcome_of_posted ho)
  obtain rfl : o' = .ok v := by
    cases o' with
    | error e =>
      obtain ⟨e',he'⟩ := translate_error (V := V) b e
      rw [he'] at ht
      cases ht
    | ok w => simpa using ht.symm
  exact mem_returns.mp (by simp [hret])

/-- A task raises the error that its worker posted. -/
theorem posted_of_raised {r : Route} {s : State V E} (hs : Runs.Reachable (step r) Runs.free init s)
    {e : Raised E} (hk : s.call.task = .raised e) : s.call.worker.posted? = some (.error e) := by
  have hi := reachable_handoverValid hs
  obtain ⟨o,ho,hx⟩ := (reachable_queueValid hs).future_done _ (hi.raised e hk)
  cases o with
  | error e' =>
    obtain rfl : e' = e := by simpa [outcomeOf] using hx.symm
    exact ho
  | ok w => simp [outcomeOf] at hx

theorem threadStep_uncancelled {r : Route} {c : Call V E} {a : ThreadAction V E} {e : Effect V E}
    (he : threadStep r c a = some e) : .cancelTask ∉ e.events := by
  cases a with
  | newToken h =>
    simp only [threadStep] at he
    split at he <;> cases he
    simp
  | work =>
    simp only [threadStep,work] at he
    split at he
    · split at he <;> cases he
      simp
    all_goals
      cases he
      try simp
  | callReturns o =>
    simp only [threadStep] at he
    split at he <;> cases he <;> simp
  | discard =>
    simp only [threadStep] at he
    split at he <;> cases he
    simp

/-- Only `Task.cancel()` cancels. -/
theorem step_uncancelled {r : Route} {s t : State V E} {a : Action V E} (he : step r s a = some t)
    (ha : a ≠ .cancel) (hc : .cancelTask ∈ t.trace) : .cancelTask ∈ s.trace := by
  cases a with
  | thread a =>
    obtain ⟨e,hx,rfl⟩ := Option.map_eq_some_iff.mp he
    exact (mem_after.mp hc).resolve_left (threadStep_uncancelled hx)
  | cancel => exact absurd rfl ha
  | loop =>
    simp only [step] at he
    split at he
    · cases he
    · split at he
      · cases he
      · cases he
        refine (mem_after.mp hc).resolve_left (fun hx => ?_)
        exact Bool.false_ne_true ((runCallback_worker r _ _).2 _ hx)
  | endCall =>
    obtain ⟨e,hx,rfl⟩ := Option.map_eq_some_iff.mp he
    exact (mem_after.mp hc).resolve_left (fun hm => by simpa using (endTheCall_worker hx).2 _ hm)

theorem step_trace {r : Route} {s t : State V E} {a : Action V E} (he : step r s a = some t) :
    ∀ x ∈ s.trace, x ∈ t.trace := by
  cases step_move he with
  | thread _ => exact fun _ hx => mem_after.mpr (Or.inr hx)
  | cancel _ _ => exact fun _ hx => mem_after.mpr (Or.inr hx)
  | loop _ _ => exact fun _ hx => mem_after.mpr (Or.inr hx)
  | endCall _ => exact fun _ hx => mem_after.mpr (Or.inr hx)

/-- A task that was sent a cancellation is awake, or cancelled. -/
theorem QueueValid.woken_of_interrupted {r : Route} {s : State V E} (hq : QueueValid r s)
    (hx : s.call.interrupted) (ht : s.call.task = .awaiting) : s.ready ≠ [] := by
  intro hr
  have ho : s.call.outer.state ≠ none := by
    intro ho
    rcases (by simpa [Call.interrupted,ht] using hx) with hm | hc
    · simp [(hq.outer_pending ho).2.2.1] at hm
    · simp [ho] at hc
  simpa [hr] using hq.woken ht ho

theorem cancelTask_interrupted {c : Call V E} {e : Effect V E} (he : cancelTask c = some e) :
    e.call.interrupted := by
  unfold cancelTask at he
  split at he
  · next ht =>
    split at he
    · next ho =>
      cases he
      simp [Call.interrupted,ht,Future.finish_of_pending ho]
    · cases he
      simp [Call.interrupted,ht]
  · cases he

theorem cancelTask_of_awaiting {c : Call V E} (ht : c.task = .awaiting) :
    ∃ e, cancelTask c = some e := by
  unfold cancelTask
  rw [ht]
  dsimp only
  split <;> exact ⟨_,rfl⟩

namespace Loop
variable {ι X : Type*}

/-- The callbacks of other code, in queue order. -/
def foreign (ks : List (Entry ι X V E)) : List X := ks.filterMap Sum.getRight?

@[simp] theorem foreign_append (ks ls : List (Entry ι X V E)) :
    foreign (ks ++ ls) = foreign ks ++ foreign ls := List.filterMap_append
@[simp] theorem foreign_cons_inl (x : ι × Callback V E) (ks : List (Entry ι X V E)) :
    foreign (.inl x :: ks) = foreign ks := rfl
@[simp] theorem foreign_cons_inr (x : X) (ks : List (Entry ι X V E)) :
    foreign (.inr x :: ks) = x :: foreign ks := rfl
@[simp] theorem foreign_nil : foreign ([] : List (Entry ι X V E)) = [] := rfl

variable [DecidableEq ι]

@[simp] theorem foreign_after (l : Loop ι X V E) (i : ι) (e : Effect V E) :
    foreign (l.after i e).ready = foreign l.ready := by
  simp [after,foreign]

variable {route : ι → Route} {l l' : Loop ι X V E} {a : LoopAction ι X V E}

/-- The steps of the calls leave other code's callbacks where they are. -/
theorem step_foreign (he : step route l a = some l') (hs : ∀ x, a ≠ .soon x)
    (hr : a = .run → ∀ x ks, l.ready ≠ .inr x :: ks) : foreign l'.ready = foreign l.ready := by
  cases step_move he with
  | start _ _ => rfl
  | thread _ _ _ => simp
  | cancelTask _ _ _ => simp
  | run _ hk _ => simp [hk]
  | other _ hk => exact absurd hk (hr rfl _ _)
  | endStep _ _ _ => simp
  | soon => exact absurd rfl (hs _)

/-- A call that runs goes on, one whose task has ended with the same end, and one that was
not cancelled uncancelled, unless this step cancels it. -/
theorem step_call (hl : Runs.Reachable (step route) Runs.free init l)
    (he : step route l a = some l') {i : ι} {c : Call V E} (hc : l.calls i = some c) :
    ∃ c', l'.calls i = some c' ∧ (c.task.ended = true → c'.task = c.task) ∧
      (a ≠ .cancelTask i → c'.interrupted → c.interrupted) := by
  have hr := reachable_call hl hc
  have hr' : ∀ {c'}, l'.calls i = some c' → _ := reachable_call (hl.tail trivial he)
  rcases step_at (reachable_valid hl) he i with h | ⟨h,_⟩ | ⟨s,b,t,hs,hb,hst,ht⟩
  · obtain ⟨c',hc',hx⟩ := at_eq_some (h.trans (at_of_calls hc))
    obtain rfl : c' = c := (congrArg State.call hx).symm
    exact ⟨_,hc',fun _ => rfl,fun _ h => h⟩
  · rw [at_of_calls hc] at h
    cases h
  · obtain ⟨c',hc',rfl⟩ := at_eq_some ht
    rw [at_of_calls hc] at hs
    cases hs
    refine ⟨c',hc',step_task_of_ended (reachable_queueValid hr) hst,?_⟩
    intro ha hx
    have hm := (reachable_handshakeValid (hr' hc')).interrupted.mpr hx
    refine (reachable_handshakeValid hr).interrupted.mp (step_uncancelled hst ?_ hm)
    rintro rfl
    cases hb
    exact ha rfl

/-- A call that was sent a cancellation keeps it. -/
theorem step_interrupted (hl : Runs.Reachable (step route) Runs.free init l)
    (he : step route l a = some l') {i : ι} {c : Call V E} (hc : l.calls i = some c)
    (hx : c.interrupted) : ∃ c', l'.calls i = some c' ∧ c'.interrupted := by
  rcases step_at (reachable_valid hl) he i with h | ⟨h,_⟩ | ⟨s,b,t,hs,_,hst,ht⟩
  · obtain ⟨c',hc',hs⟩ := at_eq_some (h.trans (at_of_calls hc))
    obtain rfl : c' = c := (congrArg State.call hs).symm
    exact ⟨_,hc',hx⟩
  · rw [at_of_calls hc] at h
    cases h
  · obtain ⟨c',hc',rfl⟩ := at_eq_some ht
    rw [at_of_calls hc] at hs
    cases hs
    refine ⟨c',hc',?_⟩
    have hm := (reachable_handshakeValid (reachable_call hl hc)).interrupted.mpr hx
    exact (reachable_handshakeValid (reachable_call (hl.tail trivial he) hc')).interrupted.mp
      (step_trace hst _ hm)

/-- Only the return of a call's native call adds to what it returned. -/
theorem step_returned (hl : Runs.Reachable (step route) Runs.free init l)
    (he : step route l a = some l') {i : ι} {o : Except (Raised E) V}
    (hm : .returned o ∈ view i l'.trace) :
    .returned o ∈ view i l.trace ∨ a = .thread i (.callReturns o) := by
  have hv := reachable_valid hl
  cases hc' : l'.calls i with
  | none =>
    rw [((step_valid hv he).unstarted i hc').2.1] at hm
    cases hm
  | some c' =>
    have hat := at_of_calls hc'
    rcases step_at hv he i with h | ⟨_,h⟩ | ⟨s,b,t,hs,hb,hst,ht⟩
    · obtain ⟨c,_,hx⟩ := at_eq_some (h.symm.trans hat)
      have htrace : view i l'.trace = view i l.trace := congrArg State.trace hx
      exact Or.inl (htrace ▸ hm)
    · have hx : Blocking.init = l'.callState i c' := Option.some.inj (h.symm.trans hat)
      have htrace : [] = view i l'.trace := congrArg State.trace hx
      rw [← htrace] at hm
      cases hm
    · obtain rfl : t = l'.callState i c' := Option.some.inj (ht.symm.trans hat)
      obtain ⟨c,hc,rfl⟩ := at_eq_some hs
      by_cases hr : ∃ o', b = .thread (.callReturns o')
      · obtain ⟨o',rfl⟩ := hr
        cases hb
        obtain ⟨e,hx,ht⟩ := Option.map_eq_some_iff.mp hst
        have hmem : .returned o ∈ ((l.callState i c).after e).trace := ht ▸ hm
        rw [mem_after,(callReturns_events hx).2] at hmem
        rcases hmem with hmem | hmem
        · obtain rfl : o = o' := by simpa using hmem
          exact Or.inr rfl
        · exact Or.inl hmem
      · have hret := step_returns (reachable_queueValid (reachable_call hl hc)) hst
          (fun o' h => hr ⟨o',h⟩)
        have hmem := mem_returns.mpr hm
        exact Or.inl (mem_returns.mp (hret ▸ hmem))

/-- What happened stays in the trace. -/
theorem mem_step_trace (he : step route l a = some l') {x : ι × Event V E} (hx : x ∈ l.trace) :
    x ∈ l'.trace := by
  cases step_move he with
  | start _ _ => exact hx
  | thread _ _ _ => exact List.mem_append_right _ hx
  | cancelTask _ _ _ => exact List.mem_append_right _ hx
  | run _ _ _ => exact List.mem_append_right _ hx
  | other _ _ => exact hx
  | endStep _ _ _ => exact List.mem_append_right _ hx
  | soon => exact hx

theorem after_unstarted {i j : ι} {c : Call V E} (hi : l.calls i = none) (hj : l.calls j = some c)
    (e : Effect V E) : (l.after j e).calls i = none := by
  have hne : i ≠ j := by
    rintro rfl
    simp [hi] at hj
  rw [after_calls_of_ne l e hne,hi]

theorem step_unstarted (he : step route l a = some l') {i : ι} (hi : l.calls i = none)
    (ha : a ≠ .start i) : l'.calls i = none := by
  cases step_move he with
  | @start j _ _ =>
    have hne : i ≠ j := by
      rintro rfl
      exact ha rfl
    simpa [hne] using hi
  | thread _ hj _ => exact after_unstarted hi hj _
  | cancelTask _ hj _ => exact after_unstarted hi hj _
  | run _ _ hj => exact after_unstarted (l := {l with ready := _}) hi hj _
  | other _ _ => exact hi
  | endStep _ hj _ => exact after_unstarted hi hj _
  | soon => exact hi

theorem after_started {i j : ι} {c : Call V E} (hi : l.calls i = some c) (e : Effect V E) :
    ∃ d, (l.after j e).calls i = some d := by
  by_cases hij : i = j
  · exact ⟨e.call,by rw [hij,after_calls_self]⟩
  · exact ⟨c,by rw [after_calls_of_ne l e hij,hi]⟩

/-- A call that was started stays so. -/
theorem step_started (he : step route l a = some l') {i : ι} {c : Call V E}
    (hi : l.calls i = some c) : ∃ d, l'.calls i = some d := by
  cases step_move he with
  | @start j _ hj =>
    have hne : i ≠ j := by
      rintro rfl
      simp [hi] at hj
    exact ⟨c,by simpa [hne] using hi⟩
  | thread _ _ _ => exact after_started hi _
  | cancelTask _ _ _ => exact after_started hi _
  | run _ _ _ => exact after_started (l := {l with ready := _}) hi _
  | other _ _ => exact ⟨c,hi⟩
  | endStep _ _ _ => exact after_started hi _
  | soon => exact ⟨c,hi⟩

theorem after_task {i : ι} {e : Effect V E} {c : Call V E} (hc : l.calls i = some c)
    (ht : e.call.task = c.task) {j : ι} {d' : Call V E} (hd' : (l.after i e).calls j = some d') :
    ∃ d, l.calls j = some d ∧ d'.task = d.task := by
  by_cases hj : j = i
  · subst hj
    rw [after_calls_self] at hd'
    cases hd'
    exact ⟨c,hc,ht⟩
  · rw [after_calls_of_ne l e hj] at hd'
    exact ⟨d',hd',rfl⟩

/-- The steps of threads and `Task.cancel()` leave every task where it is. -/
theorem step_task (he : step route l a = some l')
    (ha : (∃ i b, a = .thread i b) ∨ ∃ i, a = .cancelTask i) {j : ι} {d' : Call V E}
    (hd' : l'.calls j = some d') : ∃ d, l.calls j = some d ∧ d'.task = d.task := by
  cases step_move he with
  | thread _ hc ht => exact after_task hc (threadStep_task ht) hd'
  | cancelTask _ hc ht => exact after_task hc (cancelTask_task ht) hd'
  | _ => simp at ha

/-- A step of the loop leaves the task of a call, or it runs a callback of the call, which leaves
the loop inside `_end_the_call` or free, or a line of its `_end_the_call`. -/
inductive TaskStep (route : ι → Route) (i : ι) (c c' : Call V E) (l' : Loop ι X V E) :
    LoopAction ι X V E → Prop
  | same {a : LoopAction ι X V E} (ht : c'.task = c.task) : TaskStep route i c c' l' a
  | run (hb : c'.task.isEnding = false → l'.busy = none) : TaskStep route i c c' l' .run
  | endStep {e : Effect V E} (he : endTheCall (route i) c = some e) (hc : c' = e.call) :
    TaskStep route i c c' l' .endStep

theorem after_taskStep {i j : ι} {c c' d : Call V E} {e : Effect V E} (hc : l.calls i = some c)
    (hd : l.calls j = some d) (hc' : (l.after j e).calls i = some c')
    (hs : i = j → c = d → c' = e.call → TaskStep route i c c' (l.after j e) a) :
    TaskStep route i c c' (l.after j e) a := by
  by_cases hij : i = j
  · subst hij
    rw [after_calls_self,Option.some.injEq] at hc'
    exact hs rfl (Option.some.inj (hc.symm.trans hd)) hc'.symm
  · rw [after_calls_of_ne l e hij,hc,Option.some.injEq] at hc'
    exact .same (by rw [hc'])

theorem step_taskStep (he : step route l a = some l') {i : ι} {c c' : Call V E}
    (hc : l.calls i = some c) (hc' : l'.calls i = some c') : TaskStep route i c c' l' a := by
  cases step_move he with
  | @start j _ hj =>
    have hne : i ≠ j := by
      rintro rfl
      simp [hj] at hc
    have hx : some c = some c' := by simpa [hne,hc] using hc'
    exact .same (by rw [Option.some.inj hx])
  | thread _ hj ht =>
    apply after_taskStep hc hj hc'
    rintro rfl rfl rfl
    exact .same (threadStep_task ht)
  | cancelTask _ hj ht =>
    apply after_taskStep hc hj hc'
    rintro rfl rfl rfl
    exact .same (cancelTask_task ht)
  | @run j k ks d hb _ hj =>
    apply after_taskStep (l := {l with ready := ks}) hc hj hc'
    rintro rfl rfl rfl
    exact .run (fun hn => by simp [after,hn,hb])
  | other _ _ => exact .same (by rw [Option.some.inj (hc.symm.trans hc')])
  | endStep _ hj ht =>
    apply after_taskStep hc hj hc'
    rintro rfl rfl rfl
    exact .endStep ht rfl
  | soon => exact .same (by rw [Option.some.inj (hc.symm.trans hc')])

omit [DecidableEq ι] in
/-- The loop that lets a task return is free then. -/
theorem TaskStep.busy_of_returned {i : ι} {c c' : Call V E} (hs : TaskStep route i c c' l' a)
    (hn : c.task.ended = false) {v : V} (hv : c'.task = .returned v) : l'.busy = none := by
  cases hs with
  | same ht =>
    rw [← ht,hv] at hn
    cases hn
  | run hb => exact hb (by rw [hv]; rfl)
  | endStep he hc =>
    subst hc
    cases (endTheCall_taskChange he).1 with
    | same ht _ =>
      rw [← ht,hv] at hn
      cases hn
    | delivers _ ht _ _ _ => simp [endTheCall,ht] at he
    | leaves _ _ hx _ => simp [hv,Task.value?] at hx

/-- What goes on by itself while a task has not ended: the loop, or the thread of its call, which
may need its native call to return. -/
inductive Pending (i : ι) (o : Except (Raised E) V) : LoopAction ι X V E → Prop
  | run : Pending i o .run
  | endStep : Pending i o .endStep
  | work : Pending i o (.thread i .work)
  | newToken (t : ℕ) : Pending i o (.thread i (.newToken t))
  | callReturns : Pending i o (.thread i (.callReturns o))

omit [DecidableEq ι] in
theorem exists_pending {i : ι} {o : Except (Raised E) V} {b : ThreadAction V E} {t : ℕ}
    (hb : b = .work ∨ b = .newToken t ∨ b = .callReturns o) :
    Pending (X := X) i o (.thread i b) := by
  rcases hb with rfl | rfl | rfl
  · exact .work
  · exact .newToken t
  · exact .callReturns

/-- Until its task has ended, a call that is let return goes on. -/
theorem step_pending {l : Loop ι Empty V E}
    (hl : Runs.Reachable (step route) Runs.free init l) {i : ι} {c : Call V E}
    (hc : l.calls i = some c) (hn : c.task.ended = false) (o : Except (Raised E) V) :
    ∃ a l', Pending i o a ∧ step route l a = some l' := by
  have hv := reachable_valid hl
  cases hb : l.busy with
  | some j =>
    obtain ⟨d,hd⟩ := Option.ne_none_iff_exists'.mp (fun h => (hv.unstarted j h).2.2 hb)
    obtain ⟨x,hx⟩ := isEnding_eq_true.mp ((hv.ending j d hd).mpr hb)
    obtain ⟨e,he⟩ := endTheCall_of_ending (r := route j) hx
    exact ⟨.endStep,l.after j e,.endStep,by simp [step,hb,hd,he]⟩
  | none =>
    cases hr : l.ready with
    | cons x ks =>
      obtain ⟨j,k⟩ | x := x
      · obtain ⟨d,hd⟩ := Option.ne_none_iff_exists'.mp (fun h => by
          simpa [hr,own_cons_inl] using (hv.unstarted j h).1)
        exact ⟨.run,_,.run,by simp only [step,hb,hr,hd]; rfl⟩
      · exact x.elim
    | nil =>
      have hq := reachable_queueValid (reachable_call hl hc)
      have ho : c.worker.posted? = none := by
        by_contra hne
        obtain ⟨o',ho'⟩ := Option.ne_none_iff_exists'.mp hne
        have ha := hq.not_awaiting ho' (by simp [callState,hr])
        have hne := hv.not_ending hb hc
        cases hk : c.task <;> simp_all [callState,Task.ended,Task.isEnding]
      obtain ⟨t,ht⟩ := Infinite.exists_notMem_finset l.live.toFinset
      obtain ⟨b,e,hx,he⟩ := thread_of_unposted (r := route i) ho t o
      have hf : b.fresh l.live = true := by
        rcases hx with rfl | rfl | rfl
        · rfl
        · simpa [ThreadAction.fresh] using ht
        · rfl
      exact ⟨.thread i b,l.after i e,exists_pending hx,by simp [step,hf,hc,he]⟩

end Loop
end MaculaPy.Blocking
