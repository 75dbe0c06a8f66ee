import MaculaPy.Blocking.Waits

/-! # How an awaited call ends

The task that awaits a native call ends with its result, with its error, or cancelled, and
cancelled exactly if it was sent a cancellation as it waited.
-/
namespace MaculaPy.Blocking
open Asyncio
variable {V E : Type*}

/-- A task raises what its native call raised, up to the handler around the call. -/
theorem raised_of_task {r : Route} {s : State V E} (hs : Runs.Reachable (step r) Runs.free init s)
    {e : Raised E} (hk : s.call.task = .raised e) :
    ∃ o b, returns s.trace = [o] ∧ translate b o = .error e := by
  have hi := reachable_handoverValid hs
  have ho := posted_of_raised hs hk
  obtain ⟨o',b,hret,ht⟩ := hi.returned _ (Worker.outcome_of_posted ho)
  exact ⟨o',b,hret,ht.symm⟩

/-- A `NativeCancelled` that is kept was asked for, so the task does not raise it. -/
theorem not_raised_nativeCancelled {d : Bool} {s : State V E}
    (hs : Runs.Reachable (step (.blocking d)) Runs.free init s) (m : String) :
    s.call.task ≠ .raised (.nativeCancelled m) := by
  intro hk
  have hi := reachable_handshakeValid hs
  have ho := posted_of_raised hs hk
  have hw : s.call.worker.translated? = some (.error (.nativeCancelled m)) := by
    cases hw : s.call.worker <;> simp_all [Worker.posted?,Worker.translated?]
  simpa [hk,Task.pastFlag] using hi.flag (hi.translated (by simp) m hw)

/-- Off the `NativeCancelled` it keeps, the handler does not look at the flag. -/
theorem translate_of_other {b : Bool} {o : Except (Raised E) V} {e : Raised E}
    (h : translate b o = .error e) (he : ∀ m, e ≠ .nativeCancelled m) :
    translate false o = .error e := by
  cases b with
  | false => exact h
  | true =>
    rw [translate_true] at h
    subst h
    cases e with
    | nativeCancelled m => exact absurd rfl (he m)
    | _ => rfl

/-- The task wakes with a `NativeCancelled`, in the branch of `run_blocking` for it. -/
def WakesNativeCancelled (s : State V E) : Prop :=
  ∃ m ks, s.ready = .wakeup :: ks ∧ s.call.mustCancel = false ∧
    s.call.outer.state = some (.exception (.nativeCancelled m))

theorem not_wakesNativeCancelled {d : Bool} {s : State V E}
    (hs : Runs.Reachable (step (.blocking d)) Runs.free init s) : ¬ WakesNativeCancelled s := by
  rintro ⟨m,ks,hr,_,ho⟩
  have hq := reachable_queueValid hs
  obtain ⟨ht,_,_⟩ := hq.awake hr
  apply (reachable_handshakeValid hs).no_nativeCancelled hq ht (by simp) (m := m)
  simpa using hq.outer_done _ ho

/-- The native side ends the call as cancelled, though nobody asked for it. -/
def unaskedCancellation : List (Action ℕ Empty) :=
  [.thread (.newToken 1),.thread .work,.thread .work,.thread .work,
    .thread (.callReturns (.error (.nativeCancelled "stopped"))),
    .thread .work,.thread .work,.thread .work,.loop,.loop,.loop,.loop,.loop]

end MaculaPy.Blocking
