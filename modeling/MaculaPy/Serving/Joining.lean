import MaculaPy.Serving.Stop

/-! # What a stop waits for

`stop()` waits for the serving task, which ends of itself once it is cancelled, and then for
the tasks of the handlers alone.
-/
namespace MaculaPy.Serving
open Blocking
variable {J R D E : Type*}

namespace Served

/-- What brings the wait of `stop()` for the serving task to its end, where `q` is what is
queued. -/
structure JoinFacts (q : List TaskCallback) (s : Served J R D E) : Prop where
  unstarted : ∀ b, s.serve = .unstarted b → .serveStarts ∈ q
  waiting : s.stop = .joiningLoop → ∀ i, s.serve = .waiting i →
    ∃ c, s.loop.calls i = some c ∧ c.interrupted
  called : s.stop = .joiningLoop → s.ServeOver → .loopDone ∈ q ∨ .wakeStop ∈ q

def JoinValid (s : Served J R D E) : Prop := JoinFacts s.queue s

variable {decode : J → Except D (Option R)} {q q' : List TaskCallback} {s t : Served J R D E}

/-- The facts read the calls, the serving task and the stop. -/
theorem JoinFacts.frame (hv : JoinFacts q s) (hq : ∀ x ∈ q, x ∈ q')
    (hc : t.loop.calls = s.loop.calls) (hs : t.serve = s.serve) (ht : t.stop = s.stop) :
    JoinFacts q' t where
  unstarted b hb := hq _ (hv.unstarted b (hs ▸ hb))
  waiting hj i hi := by
    rw [hc]
    exact hv.waiting (ht ▸ hj) i (hs ▸ hi)
  called hj := by
    rintro ⟨how,ho⟩
    exact (hv.called (ht ▸ hj) ⟨how,hs ▸ ho⟩).imp (hq _) (hq _)

/-- Where `stop()` is not at its first gather, there is little to keep. -/
theorem JoinFacts.of_not_joining (hu : ∀ b, s.serve ≠ .unstarted b) (hs : s.stop ≠ .joiningLoop) :
    JoinFacts q s :=
  ⟨fun b hb => absurd hb (hu b),fun hj => absurd hj hs,fun hj => absurd hj hs⟩

theorem JoinValid.post (hv : JoinValid s) (x : TaskCallback) : JoinValid (s.post x) := by
  unfold JoinValid
  rw [post_queue]
  exact JoinFacts.frame hv (fun _ hy => List.mem_append_left _ hy) rfl rfl rfl

/-- The serving task's end is told to the gather that waits for it. -/
theorem endServe_joinValid (how : ServeEnd D E) : JoinValid (s.endServe how) := by
  unfold Served.endServe
  dsimp only
  split
  · refine ⟨by simp [Served.post],by simp [Served.post],fun _ _ => Or.inl ?_⟩
    simp
  · next hs => exact .of_not_joining (by simp) hs

theorem fail_joinValid (e : Failure D E) : JoinValid (s.fail e) := endServe_joinValid _

theorem onTaken_joinValid (hs : s.stop ≠ .joiningLoop) (i : ℕ) (v : Taken J) :
    JoinValid (s.onTaken decode i v) := by
  cases v with
  | nothing closed =>
    cases closed with
    | true => exact endServe_joinValid _
    | false => exact .of_not_joining (by simp [Served.onTaken,Served.await]) hs
  | item h text =>
    simp only [Served.onTaken]
    split
    · exact fail_joinValid _
    · exact .of_not_joining (by simp [Served.await]) hs
    · exact .of_not_joining (by simp [Served.await]) hs

theorem JoinValid.resume (hv : JoinValid s) : JoinValid (s.resume decode) := by
  unfold Served.resume
  split
  · next i hi =>
    split
    · next v hk =>
      by_cases hs : s.stop = .joiningLoop
      · obtain ⟨c,hc,hx⟩ := hv.waiting hs i hi
        have ht : c.task = .returned v := by simpa [hc] using hk
        simp [Call.interrupted,ht] at hx
      · exact onTaken_joinValid hs i v
    · exact fail_joinValid _
    · exact endServe_joinValid _
    · exact hv
  · exact hv

/-- A cancellation reaches the serving task, wherever it is. -/
theorem ServeValid.cancelServe_cases (hd : ServeValid decode s) (hb : s.loop.busy = none) :
    (∀ b, s.serve = .unstarted b → s.cancelServe = {s with serve := .unstarted true}) ∧
      (∀ i, s.serve = .waiting i → ∃ l c, s.cancelServe = {s with loop := l} ∧
        Loop.foreign l.ready = s.queue ∧ l.calls i = some c ∧ c.interrupted) ∧
      (s.ServeOver → s.cancelServe = s) := by
  refine ⟨fun b hs => by simp [Served.cancelServe,hs],?_,cancelServe_of_over⟩
  intro i hs
  obtain ⟨c,hc,hend⟩ := hd.current i hs
  have hl := Loop.reachable_valid hd.loop
  have ht : c.task = .awaiting := by
    have hn := hl.not_ending hb hc
    cases hk : c.task <;> simp_all [Task.ended,Task.isEnding]
  obtain ⟨e,he⟩ := cancelTask_of_awaiting ht
  have hstep : Loop.step route s.loop (.cancelTask i) = some (s.loop.after i e) := by
    simp [Loop.step,hb,hc,he]
  refine ⟨s.loop.after i e,e.call,by simp [Served.cancelServe,hs,hstep],?_,by simp,
    cancelTask_interrupted he⟩
  exact Loop.step_foreign hstep (by simp) (by simp)

/-- From here on `stop()` waits for a serving task that was cancelled, or is done. -/
theorem JoinValid.cancelServe (hd : ServeValid decode s) (hb : s.loop.busy = none)
    (hu : ∀ b, s.serve = .unstarted b → .serveStarts ∈ s.queue)
    (ho : s.ServeOver → .loopDone ∈ s.queue ∨ .wakeStop ∈ s.queue) : JoinValid s.cancelServe := by
  obtain ⟨h1,h2,h3⟩ := hd.cancelServe_cases hb
  cases hs : s.serve with
  | unstarted b =>
    rw [JoinValid,h1 b hs]
    exact ⟨fun _ _ => hu b hs,by simp,by simp [ServeOver]⟩
  | waiting i =>
    obtain ⟨l,c,hl,hq,hc,hx⟩ := h2 i hs
    rw [JoinValid,hl]
    refine ⟨by simp [hs],?_,by simp [ServeOver,hs]⟩
    intro _ j hj
    obtain rfl : i = j := by simpa [hs] using hj
    exact ⟨c,hc,hx⟩
  | ended how =>
    rw [JoinValid,h3 ⟨how,hs⟩]
    exact ⟨by simp [hs],by simp [hs],fun _ => ho⟩

theorem JoinValid.joinLoop (hd : ServeValid decode s) (hb : s.loop.busy = none)
    (hs : s.stop = .withdrawing) (hv : JoinValid s) : JoinValid s.joinLoop := by
  by_cases ho : s.ServeOver
  · rw [joinLoop_of_over ho]
    obtain ⟨how,hh⟩ := ho
    refine ⟨by simp [Served.post,hh],by simp [Served.post,hh],fun _ _ => Or.inl ?_⟩
    simp
  · have hd' : ServeValid decode {s with stop := .joiningLoop} :=
      hd.of_core rfl (fun _ => hd.called (by simp [hs]))
    have hc := JoinValid.cancelServe hd' hb hv.unstarted (fun h => absurd h ho)
    unfold Served.joinLoop
    dsimp only
    split
    · exact hc.post _
    · exact hc

theorem endHandler_joinValid (hv : JoinValid s) (i : ℕ) (h : Handler R) :
    JoinValid (s.endHandler i h) := by
  have ht : JoinValid {s with handlers := Function.update s.handlers i (some {h with ended := true})} :=
    JoinFacts.frame hv (fun _ h => h) rfl rfl rfl
  exact ht.post _

/-- Past its first gather, `stop()` no longer waits for the serving task. -/
theorem cancelHandlers_joinFacts (hu : ∀ b, s.serve = .unstarted b → .serveStarts ∈ q) :
    JoinFacts q s.cancelHandlers := by
  unfold Served.cancelHandlers
  split
  · split <;> exact ⟨hu,by simp,by simp⟩
  · next hs => exact ⟨hu,fun hj => absurd hj hs,fun hj => absurd hj hs⟩

/-- A callback other than those of the gather and the serving task's first step runs. -/
theorem JoinFacts.pop {x : TaskCallback} (hv : JoinFacts (x :: q) s) (h1 : x ≠ .serveStarts)
    (h2 : x ≠ .loopDone) (h3 : x ≠ .wakeStop) : JoinFacts q s where
  unstarted b hb := (List.mem_cons.mp (hv.unstarted b hb)).resolve_left (Ne.symm h1)
  waiting := hv.waiting
  called hj ho := by
    refine (hv.called hj ho).imp (fun h => ?_) (fun h => ?_)
    · exact (List.mem_cons.mp h).resolve_left (Ne.symm h2)
    · exact (List.mem_cons.mp h).resolve_left (Ne.symm h3)

/-- The loop runs a callback of a task, taken off the queue. -/
theorem JoinFacts.runTask {x : TaskCallback} (hc : s.stop ≠ .notCalled → s.handle = none)
    (hv : JoinFacts (x :: s.queue) s) : JoinValid (s.runTask x) := by
  cases x with
  | serveStarts =>
    simp only [Served.runTask]
    split
    · exact endServe_joinValid _
    · split
      · exact endServe_joinValid _
      · next hn =>
        refine .of_not_joining (by simp [Served.await]) (fun hs => hn ?_)
        have hs' : s.stop = .joiningLoop := hs
        rw [hc (by simp [hs'])]
        rfl
    · next hu1 hu2 =>
      have hu : ∀ b, s.serve ≠ .unstarted b := by
        intro b
        cases b with
        | true => exact hu1
        | false => exact hu2
      refine ⟨fun b hb => absurd hb (hu b),hv.waiting,fun hj ho => ?_⟩
      exact (hv.called hj ho).imp (fun h => by simpa using h) (fun h => by simpa using h)
  | handlerStarts i =>
    have hp : JoinValid s := hv.pop (by simp) (by simp) (by simp)
    simp only [Served.runTask]
    split
    · split
      · exact hp
      · split
        · exact endHandler_joinValid hp _ _
        · exact hp.frame (fun _ h => h) rfl rfl rfl
    · exact hp
  | discardTask i =>
    exact JoinFacts.frame (hv.pop (by simp) (by simp) (by simp)) (fun _ h => h) rfl rfl rfl
  | loopDone =>
    have hq : (s.post .wakeStop).queue = s.queue ++ [.wakeStop] := post_queue _
    unfold JoinValid
    simp only [Served.runTask]
    rw [hq]
    refine ⟨fun b hb => ?_,hv.waiting,fun _ _ => Or.inr (by simp)⟩
    have hm := hv.unstarted b hb
    exact List.mem_append_left _ (by simpa using hm)
  | wakeStop =>
    have hq : s.cancelHandlers.queue = s.queue := cancelHandlers_queue
    unfold JoinValid
    simp only [Served.runTask]
    rw [hq]
    refine cancelHandlers_joinFacts (fun b hb => ?_)
    have hm := hv.unstarted b hb
    simpa using hm
  | other => exact hv.pop (by simp) (by simp) (by simp)

theorem JoinValid.loop_step {a : LoopAction ℕ TaskCallback (Taken J) E}
    {l : Loop ℕ TaskCallback (Taken J) E} (hd : ServeValid decode s) (hv : JoinValid s)
    (he : Loop.step route s.loop a = some l) (hq : Loop.foreign l.ready = s.queue) :
    JoinValid {s with loop := l} := by
  have hq' : queue {s with loop := l} = s.queue := hq
  unfold JoinValid
  rw [hq']
  refine ⟨hv.unstarted,?_,hv.called⟩
  intro hs i hi
  obtain ⟨c,hc,hx⟩ := hv.waiting hs i hi
  exact Loop.step_interrupted hd.loop he hc hx

/-- Every step keeps the facts. -/
theorem step_joinValid {a : ServedAction J E} (hd : ServeValid decode s) (hv : JoinValid s)
    (he : step decode s a = some t) : JoinValid t := by
  cases step_move decode he with
  | thread hl => exact hv.loop_step hd hl (Loop.step_foreign hl (by simp) (by simp))
  | callback hl hr =>
    exact JoinValid.resume (hv.loop_step hd hl (Loop.step_foreign hl (by simp) (fun _ => hr)))
  | @task x ks _ hr =>
    have hq : s.queue = x :: Loop.foreign ks := by simp [queue,hr]
    unfold JoinValid at hv
    rw [hq] at hv
    exact JoinFacts.runTask (s := {s with loop := {s.loop with ready := ks}}) hd.called
      (hv.frame (fun _ h => h) rfl rfl rfl)
  | endStep hl =>
    exact JoinValid.resume (hv.loop_step hd hl (Loop.step_foreign hl (by simp) (by simp)))
  | soon => exact hv.post _
  | handlerEnds _ _ _ _ => exact endHandler_joinValid hv _ _
  | further _ _ => exact JoinFacts.frame hv (fun _ h => h) rfl rfl rfl
  | stop _ _ => exact ⟨hv.unstarted,by simp,by simp⟩
  | interrupted _ _ _ => exact ⟨hv.unstarted,by simp,by simp⟩
  | notWithdrawn _ _ => exact ⟨hv.unstarted,by simp,by simp⟩
  | withdrawn hb hs => exact JoinValid.joinLoop hd hb hs hv
  | joined _ _ _ => exact ⟨hv.unstarted,by simp,by simp⟩
  | cancelLoop hb hs =>
    exact JoinValid.cancelServe (hd.of_core rfl (fun h => hd.called h)) hb hv.unstarted
      (hv.called hs)
  | cancelStop _ _ => exact JoinFacts.frame hv (fun _ h => h) rfl rfl rfl

theorem init_joinValid (handle : ℕ) : JoinValid (init handle : Served J R D E) where
  unstarted b hb := by simp [queue,init,Loop.foreign]
  waiting hj := by simp [init] at hj
  called hj := by simp [init] at hj

theorem reachable_joinValid {ok : Served J R D E → ServedAction J E → Prop} {handle : ℕ}
    (hs : Runs.Reachable (step decode) ok (init handle) s) : JoinValid s :=
  hs.induct (init_joinValid handle)
    (fun _ _ _ hs hv _ he => step_joinValid (reachable_serveValid hs) hv he)

/-- The loop thread has nothing to run. -/
def Rests (s : Served J R D E) : Prop := s.loop.ready = [] ∧ s.loop.busy = none

/-- With nothing left to run on the loop, a `stop()` past its withdrawal waits for handlers
alone. -/
theorem joiningHandlers_of_rests (hd : ServeValid decode s) (hv : JoinValid s) (hr : s.Rests)
    (hp : s.stop.pending = true) (hw : s.stop ≠ .withdrawing) :
    ∃ is, s.stop = .joiningHandlers is := by
  have hq : s.queue = [] := by simp [queue,hr.1]
  cases hs : s.stop with
  | notCalled => simp [hs,Stop.pending] at hp
  | withdrawing => exact absurd hs hw
  | joiningLoop =>
    cases hserve : s.serve with
    | unstarted b =>
      have hm := hv.unstarted b hserve
      simp [hq] at hm
    | waiting i =>
      obtain ⟨c,hc,hx⟩ := hv.waiting hs i hserve
      obtain ⟨c',hc',hend⟩ := hd.current i hserve
      obtain rfl : c = c' := Option.some.inj (hc.symm.trans hc')
      have hn := (Loop.reachable_valid hd.loop).not_ending hr.2 hc
      have ht : c.task = .awaiting := by
        cases hk : c.task <;> simp_all [Task.ended,Task.isEnding]
      have hwake := (reachable_queueValid (Loop.reachable_call hd.loop hc)).woken_of_interrupted
        hx ht
      simp [Loop.callState,hr.1] at hwake
    | ended how =>
      have hm := hv.called hs ⟨how,hserve⟩
      simp [hq] at hm
  | joiningHandlers is => exact ⟨is,rfl⟩
  | ended how => simp [hs,Stop.pending] at hp

end Served
end MaculaPy.Serving
