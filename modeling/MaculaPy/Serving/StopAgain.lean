import MaculaPy.Serving.Stop

/-! # Stopping again

`stop()` clears its handle before its first await, and a further `stop()` finds it cleared
and returns at once. So what a further `stop()` promises depends on how far the first one
came.
-/
namespace MaculaPy.Serving
open Blocking
variable {J R D E : Type*}

def Stop.over : Stop D E → Bool
  | .ended _ => true
  | _ => false

def Stop.atHandlers : Stop D E → Bool
  | .joiningHandlers _ => true
  | _ => false

namespace Served

/-- The native side reports no error to `stop()`, its task is not cancelled before its last
await, and `stop()` is not called while another call of it is in progress. -/
def unbroken (s : Served J R D E) : ServedAction J E → Bool
  | .withdrawn (.error _) => false
  | .cancelStop => s.stop.atHandlers
  | .stop _ => s.handle.isSome || s.stop.over
  | _ => true

variable {decode : J → Except D (Option R)} {s t : Served J R D E}

theorem cancelServe_control : s.cancelServe.control = s.control := by
  unfold Served.cancelServe
  split
  · rfl
  · split <;> rfl
  · rfl

theorem cancelHandlers_control : s.cancelHandlers.control = s.control ∨
    (s.stop = .joiningLoop ∧ (s.stopCancelled = false →
      s.cancelHandlers.stop.over = false ∧ s.cancelHandlers.stopCancelled = false ∧
        s.cancelHandlers.further = s.further)) := by
  unfold Served.cancelHandlers
  split
  · next hs =>
    refine Or.inr ⟨hs,fun hc => ?_⟩
    simp [hc,Stop.over]
  · exact Or.inl rfl

theorem joinLoop_control : s.joinLoop.control = (.joiningLoop,s.stopCancelled,s.further) := by
  unfold Served.joinLoop
  dsimp only
  split <;> exact cancelServe_control (s := {s with stop := .joiningLoop})

/-- A call of `stop()` that is over left nothing running. -/
structure StopsWhole (s : Served J R D E) : Prop where
  ended : s.stop.over = true → s.AllDone
  further : s.further = true → s.AllDone
  cancelled : s.stopCancelled = true → s.stop.atHandlers = true ∨ s.stop.over = true

theorem StopsWhole.of_control {a : ServedAction J E} (hw : StopsWhole s)
    (he : step decode s a = some t) (hc : t.control = s.control) : StopsWhole t := by
  obtain ⟨hs,hcf⟩ := Prod.mk.inj hc
  obtain ⟨hcan,hf⟩ := Prod.mk.inj hcf
  constructor
  · intro ho
    exact (hw.ended (hs ▸ ho)).stays he
  · intro ho
    exact (hw.further (hf ▸ ho)).stays he
  · intro ho
    rw [hs]
    exact hw.cancelled (hcan ▸ ho)

/-- The first `stop()` goes on to its next await. -/
theorem StopsWhole.goes_on {a : ServedAction J E} (hw : StopsWhole s)
    (he : step decode s a = some t) (hn : t.stop.over = false) (hf : t.further = s.further)
    (hc : t.stopCancelled = false) : StopsWhole t := by
  constructor
  · intro ho
    rw [hn] at ho
    cases ho
  · intro ho
    exact (hw.further (hf ▸ ho)).stays he
  · intro ho
    rw [hc] at ho
    cases ho

theorem StopsWhole.not_cancelled (hw : StopsWhole s)
    (hs : (s.stop.atHandlers || s.stop.over) = false) : s.stopCancelled = false := by
  by_contra h
  have hc := hw.cancelled (by simpa using h)
  rw [← Bool.or_eq_true,hs] at hc
  cases hc

/-- Every step that the condition admits keeps it so. -/
theorem step_stopsWhole {a : ServedAction J E} (hd : ServeValid decode s) (hv : StopValid s)
    (hw : StopsWhole s) (ha : s.unbroken a = true) (he : step decode s a = some t) :
    StopsWhole t := by
  cases step_move decode he with
  | thread _ => exact hw.of_control he rfl
  | @callback l _ _ => exact hw.of_control he (resume_leaves (s := {s with loop := l})).2
  | @task x ks _ _ =>
    by_cases hx : x = .wakeStop
    · subst hx
      rcases cancelHandlers_control (s := {s with loop := {s.loop with ready := ks}}) with h | ⟨hj,h⟩
      · exact hw.of_control he h
      · have hs : s.stop = .joiningLoop := hj
        have hc := hw.not_cancelled (by simp [hs,Stop.atHandlers,Stop.over])
        obtain ⟨ho,hcan,hf⟩ := h hc
        exact hw.goes_on he ho hf hcan
    · exact hw.of_control he
        ((runTask_leaves (s := {s with loop := {s.loop with ready := ks}}) x).2 hx)
  | @endStep l _ => exact hw.of_control he (resume_leaves (s := {s with loop := l})).2
  | soon => exact hw.of_control he rfl
  | handlerEnds _ _ _ _ => exact hw.of_control he rfl
  | further _ hh =>
    have ho : s.stop.over = true := by simpa [unbroken,hh] using ha
    have hall := (hw.ended ho).stays he
    exact ⟨fun _ => hall,fun _ => hall,hw.cancelled⟩
  | stop _ hh =>
    have hs : s.stop = .notCalled := by
      by_contra h
      exact hh (hd.called h)
    exact hw.goes_on he rfl rfl (hw.not_cancelled (by simp [hs,Stop.atHandlers,Stop.over]))
  | interrupted _ hs hc =>
    rw [hw.not_cancelled (by simp [hs,Stop.atHandlers,Stop.over])] at hc
    cases hc
  | notWithdrawn _ _ => cases ha
  | withdrawn _ hs =>
    have hc := hw.not_cancelled (by simp [hs,Stop.atHandlers,Stop.over])
    obtain ⟨hstop,hcf⟩ := Prod.mk.inj (joinLoop_control (s := s))
    obtain ⟨hcan,hf⟩ := Prod.mk.inj hcf
    exact hw.goes_on he (by simp [hstop,Stop.over]) hf (hcan.trans hc)
  | joined _ hs hdone =>
    have hall : s.AllDone := StopFacts.allDone hv hs hdone
    exact ⟨fun _ => hall.stays he,fun _ => hall.stays he,fun _ => Or.inr rfl⟩
  | cancelLoop _ hs => simp [unbroken,hs,Stop.atHandlers] at ha
  | cancelStop _ _ => exact ⟨hw.ended,hw.further,fun _ => Or.inl ha⟩

/-- In every run in which the native side reports no error to `stop()`, its task is not
cancelled before its last await and no `stop()` is called while another is in progress:
when a `stop()` has ended, the first or a further one, the serving task and every handler's
task are done. -/
theorem all_done_of_unbroken {handle : ℕ}
    (hs : Runs.Reachable (step decode) (fun s a => s.unbroken a = true) (init handle) s) :
    (∀ how, s.stop = .ended how → s.AllDone) ∧ (s.further = true → s.AllDone) := by
  have hw : StopsWhole s := by
    refine hs.induct ⟨by simp [init,Stop.over],by simp [init],by simp [init]⟩ ?_
    intro s a t hs hw ha he
    exact step_stopsWhole (reachable_serveValid hs) (reachable_stopValid hs) hw ha he
  exact ⟨fun how hh => hw.ended (by simp [hh,Stop.over]),hw.further⟩

/-- The first `stop()` runs to its end, and then `stop()` is called again. -/
def stoppedTwice : List (ServedAction ℕ Unit) := stopped ++ [.stop none]

theorem unbroken_of_exec {s : Served ℕ ℕ Empty Unit} (as : List (ServedAction ℕ Unit))
    (he : Runs.exec (Runs.guarded (step itself) unbroken) (init 1) as = some s) :
    Runs.Reachable (step itself) (fun s a => s.unbroken a = true) (init 1) s := .of_guarded as he

theorem all_done_of_unbroken_twice : ∃ s : Served ℕ ℕ Empty Unit,
    Runs.exec (Runs.guarded (step itself) unbroken) (init 1) stoppedTwice = some s ∧
      s.further = true ∧ s.AllDone := by
  refine ⟨_,rfl,rfl,?_⟩
  exact (all_done_of_unbroken (unbroken_of_exec stoppedTwice rfl)).2 rfl

/-- The native side reports an error to the first `stop()`; the second one returns while the
serving task waits and the handler runs. -/
theorem not_all_done_notWithdrawn : ∃ s : Served ℕ ℕ Empty Unit,
    Runs.exec (step itself) (init 1)
        (oneHandler ++ [.stop none,.withdrawn (.error ()),.stop none]) = some s ∧
      s.further = true ∧ s.serve = .waiting 1 ∧
      (∃ h, s.handlers 0 = some h ∧ h.begun = true ∧ h.ended = false) ∧ ¬ s.AllDone := by
  refine ⟨_,rfl,rfl,rfl,⟨_,rfl,rfl,rfl⟩,?_⟩
  rintro ⟨⟨how,ho⟩,_⟩
  cases ho

end Served
end MaculaPy.Serving
