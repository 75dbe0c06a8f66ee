import MaculaPy.Blocking.Waits

/-! # A native call without a token

What the thread of `run_native` hands over is what its native call returned.
-/
namespace MaculaPy.Blocking
open Asyncio
variable {V E : Type*}

/-- The thread has no token, and from its return on holds what the call returned. -/
inductive Worker.Bare (t : List (Event V E)) : Worker V E → Prop
  | spawned : Bare t .spawned
  | calling : Bare t (.calling none)
  | finished {o : Except (Raised E) V} (h : .returned o ∈ t) : Bare t (.finished o)
  | posted {o : Except (Raised E) V} (h : .returned o ∈ t) : Bare t (.posted o)

theorem Worker.Bare.mono {w : Worker V E} {t u : List (Event V E)} (h : w.Bare t)
    (hs : ∀ e ∈ t, e ∈ u) : w.Bare u := by
  cases h with
  | spawned => exact .spawned
  | calling => exact .calling
  | finished ho => exact .finished (hs _ ho)
  | posted ho => exact .posted (hs _ ho)

theorem threadStep_bare {s : State V E} {a : ThreadAction V E} {e : Effect V E}
    (hw : s.call.worker.Bare s.trace) (he : threadStep .native s.call a = some e) :
    e.call.worker.Bare (s.after e).trace := by
  have hmono : ∀ x ∈ s.trace, x ∈ (s.after e).trace := fun _ hx => mem_after.mpr (Or.inr hx)
  cases a with
  | newToken h => simp [threadStep] at he
  | work =>
    simp only [threadStep,work] at he
    split at he
    · cases he
      exact .calling
    all_goals cases he
    all_goals
      rename_i hx
      rw [hx] at hw
      cases hw
    next ho => exact .posted (hmono _ ho)
  | callReturns o =>
    simp only [threadStep] at he
    split at he
    · next hx =>
      rw [hx] at hw
      cases hw
    · cases he
      exact .finished (mem_after.mpr (Or.inl List.mem_cons_self))
    · cases he
  | discard =>
    simp only [threadStep] at he
    split at he <;> cases he
    exact hw.mono hmono

theorem reachable_bare {s : State V E} (hs : Runs.Reachable (step .native) Runs.free init s) :
    s.call.worker.Bare s.trace := by
  apply hs.induct (P := fun s : State V E => s.call.worker.Bare s.trace) .spawned
  intro s a t _ hw _ he
  cases step_move he with
  | thread ha => exact threadStep_bare hw ha
  | @cancel e _ hc =>
    rw [State.after_call,cancelTask_worker hc]
    exact hw.mono (fun _ hx => mem_after.mpr (Or.inr hx))
  | @loop k ks _ _ =>
    rw [State.after_call,(runCallback_worker .native s.call k).1]
    exact hw.mono (fun _ hx => mem_after.mpr (Or.inr hx))
  | endCall hc =>
    rw [State.after_call,(endTheCall_worker hc).1]
    exact hw.mono (fun _ hx => mem_after.mpr (Or.inr hx))

/-- A thread of `run_native` begins with its own step alone. -/
theorem threadStep_spawned {c : Call V E} {a : ThreadAction V E} {e : Effect V E}
    (hw : c.worker = .spawned) (ha : a ≠ .work) (he : threadStep .native c a = some e) :
    e.call.worker = .spawned := by
  cases a with
  | newToken h => simp [threadStep] at he
  | work => exact absurd rfl ha
  | callReturns o => simp [threadStep,hw] at he
  | discard =>
    simp only [threadStep] at he
    split at he <;> cases he
    exact hw

theorem threadStep_begins {c : Call V E} {e : Effect V E} (hw : c.worker = .spawned)
    (he : threadStep .native c .work = some e) : e.call.worker ≠ .spawned := by
  simp only [threadStep,work,hw] at he
  cases he
  simp

/-- A thread that has begun does not begin again. -/
theorem threadStep_begun {r : Route} {c : Call V E} {a : ThreadAction V E} {e : Effect V E}
    (hw : c.worker ≠ .spawned) (he : threadStep r c a = some e) : e.call.worker ≠ .spawned := by
  cases a with
  | newToken h =>
    simp only [threadStep] at he
    split at he <;> cases he
    simp
  | work =>
    simp only [threadStep,work] at he
    split at he
    · next hs => exact absurd hs hw
    · cases he
      simp
    · cases he
      dsimp only
      split <;> simp
    all_goals
      cases he
      try simp
  | callReturns o =>
    simp only [threadStep] at he
    split at he <;> cases he <;> simp
  | discard =>
    simp only [threadStep] at he
    split at he <;> cases he
    exact hw

/-- The task raises the very error that the native call raised. -/
theorem raised_of_native {s : State V E} (hs : Runs.Reachable (step .native) Runs.free init s)
    {e : Raised E} (hk : s.call.task = .raised e) : returns s.trace = [.error e] := by
  have hi := reachable_handoverValid hs
  have ho := posted_of_raised hs hk
  obtain ⟨o',_,hret,_⟩ := hi.returned _ (Worker.outcome_of_posted ho)
  have hmem : .returned (.error e) ∈ s.trace := by
    have hb := reachable_bare hs
    cases hw : s.call.worker <;> simp only [hw,Worker.posted?,reduceCtorEq] at ho
    rw [hw] at hb
    cases hb with
    | posted h => exact Option.some.inj ho ▸ h
  have hin := mem_returns.mpr hmem
  rw [hret] at hin ⊢
  rw [List.mem_singleton.mp hin]

/-- Without the handler of `run_blocking`, no task is inside `_end_the_call`. -/
theorem runCallback_not_ending {c : Call V E} (k : Callback V E) (hc : c.task.isEnding = false) :
    (runCallback .native c k).call.task.isEnding = false := by
  cases k with
  | settle o =>
    simp only [runCallback,settle]
    split <;> exact hc
  | retrieve => exact hc
  | innerDone =>
    simp only [runCallback,innerDone]
    split <;> exact hc
  | outerDone =>
    simp only [runCallback,outerDone]
    split <;> exact hc
  | wakeup =>
    simp only [runCallback,wakeup]
    split
    · exact hc
    · rfl
    · rfl
    · rfl
  | handOver =>
    simp only [runCallback,handOver]
    split <;> exact hc

theorem reachable_not_ending {s : State V E}
    (hs : Runs.Reachable (step .native) Runs.free init s) : s.call.task.isEnding = false := by
  apply hs.induct (P := fun s : State V E => s.call.task.isEnding = false) rfl
  intro s a t _ hn _ he
  cases step_move he with
  | thread ha => rwa [State.after_call,threadStep_task ha]
  | cancel _ hc => rwa [State.after_call,cancelTask_task hc]
  | @loop k ks _ _ => exact runCallback_not_ending k hn
  | endCall hc =>
    cases hk : s.call.task <;> simp_all [endTheCall,Task.isEnding]

/-- A task that ended and was never cancelled waited for its thread to post. -/
theorem posted_of_uncancelled {r : Route} {s : State V E}
    (hs : Runs.Reachable (step r) Runs.free init s) (hend : s.call.task.ended = true)
    (hx : .cancelTask ∉ s.trace) : ∃ o, s.call.worker.posted? = some o := by
  have hq := reachable_queueValid hs
  have hi := reachable_handoverValid hs
  have hn := (reachable_handshakeValid hs).interrupted.not.mp hx
  cases hk : s.call.task with
  | awaiting => simp [hk,Task.ended] at hend
  | ending l => simp [hk,Task.ended] at hend
  | returned v =>
    obtain ⟨o,ho,_⟩ := hq.future_done _ (hi.value v hk)
    exact ⟨o,ho⟩
  | raised e =>
    obtain ⟨o,ho,_⟩ := hq.future_done _ (hi.raised e hk)
    exact ⟨o,ho⟩
  | cancelled => exact absurd (by simp [Call.interrupted,hk]) hn

namespace Loop
variable {ι X : Type*} [DecidableEq ι] {route : ι → Route} {l l' : Loop ι X V E}

/-- Where every call is one of `run_native`, the loop thread is free between callbacks. -/
theorem not_busy (hr : ∀ i, route i = .native) (hl : Runs.Reachable (step route) Runs.free init l) :
    l.busy = none := by
  have hv := reachable_valid hl
  cases hb : l.busy with
  | none => rfl
  | some i =>
    cases hc : l.calls i with
    | none => exact absurd hb (hv.unstarted i hc).2.2
    | some c =>
      have hs := reachable_call hl hc
      rw [hr i] at hs
      have hn := reachable_not_ending hs
      have hend := (hv.ending i c hc).mpr hb
      simp [callState,hend] at hn

theorem after_worker {i : ι} {e : Effect V E} {c : Call V E} (hc : l.calls i = some c)
    (hw : e.call.worker = c.worker) {j : ι} {d' : Call V E}
    (hd' : (l.after i e).calls j = some d') : ∃ d, l.calls j = some d ∧ d'.worker = d.worker := by
  by_cases hj : j = i
  · subst hj
    rw [after_calls_self] at hd'
    cases hd'
    exact ⟨c,hc,hw⟩
  · rw [after_calls_of_ne l e hj] at hd'
    exact ⟨d',hd',rfl⟩

/-- Only a thread's own step moves it. -/
theorem step_worker {a : LoopAction ι X V E} (he : step route l a = some l') {j : ι}
    {d' : Call V E} (hd' : l'.calls j = some d') :
    a = .start j ∨ (∃ b, a = .thread j b) ∨ ∃ d, l.calls j = some d ∧ d'.worker = d.worker := by
  cases step_move he with
  | @start i _ _ =>
    by_cases hj : j = i
    · exact Or.inl (by rw [hj])
    · exact Or.inr (Or.inr ⟨d',by simpa [hj] using hd',rfl⟩)
  | @thread i b _ e _ hc ht =>
    by_cases hj : j = i
    · exact Or.inr (Or.inl ⟨b,by rw [hj]⟩)
    · rw [after_calls_of_ne l e hj] at hd'
      exact Or.inr (Or.inr ⟨d',hd',rfl⟩)
  | cancelTask _ hc ht => exact Or.inr (Or.inr (after_worker hc (cancelTask_worker ht) hd'))
  | @run i k ks c _ _ hc =>
    exact Or.inr (Or.inr (after_worker (l := {l with ready := ks}) hc
      (runCallback_worker (route i) c k).1 hd'))
  | other _ _ => exact Or.inr (Or.inr ⟨d',hd',rfl⟩)
  | endStep _ hc ht => exact Or.inr (Or.inr (after_worker hc (endTheCall_worker ht).1 hd'))
  | soon => exact Or.inr (Or.inr ⟨d',hd',rfl⟩)

theorem step_worker_of {a : LoopAction ι X V E} (he : step route l a = some l') {j : ι}
    {d : Call V E} (hd : l.calls j = some d) (ha : ∀ i, a ≠ .start i) :
    ∃ d', l'.calls j = some d' ∧ (d'.worker = d.worker ∨ ∃ b, a = .thread j b) := by
  obtain ⟨d',hd'⟩ := step_started he hd
  refine ⟨d',hd',?_⟩
  rcases step_worker he hd' with h | h | ⟨e,he,hw⟩
  · exact absurd h (ha j)
  · exact Or.inr h
  · exact Or.inl (by rw [hw,Option.some.inj (he.symm.trans hd)])

end Loop

end MaculaPy.Blocking
