import MaculaPy.Foundation.WaitFor
import MaculaPy.Serving.Joining
import MaculaPy.Serving.StopAgain

/-! # Who may stop a served procedure

The tasks that wait for one another around a served procedure: the one in `stop()`, the
serving task, the handlers and the application's other tasks. Which tasks a handler or
another task waits for is left open, and so is when it begins and ends to.
-/
namespace MaculaPy.Serving
open Blocking WaitFor
variable {J R D E : Type*}

/-- A task of the event loop. -/
inductive Who
  | serving
  | handler (i : ℕ)
  | other (x : ℕ)
  deriving DecidableEq, Repr

/-- The handler a task is of, if it is of one. -/
def Who.handler? : Who → Option ℕ
  | .handler i => some i
  | _ => none

/-- A served procedure, what the application's tasks wait for, and the task of the first
`stop()`. -/
structure Around (J R D E : Type*) where
  served : Served J R D E
  awaits : Who → List Who
  caller : Option Who

inductive AroundAction (J E : Type*)
  | served (a : ServedAction J E)
  | stop (x : Who)
  | await (x : Who) (ys : List Who)

namespace Around

def init (handle : ℕ) : Around J R D E := ⟨.init handle,fun _ => [],none⟩

/-- The task can run code of the application's: a handler's once it has begun and till it
ends. -/
def live (w : Around J R D E) : Who → Bool
  | .serving => false
  | .handler i => (w.served.handlers i).any (fun h => h.begun && !h.ended)
  | .other _ => true

/-- The tasks that `stop()` waits for at the await it is at. -/
def joins (w : Around J R D E) : List Who :=
  match w.served.stop with
  | .joiningLoop => [.serving]
  | .joiningHandlers is => is.map .handler
  | _ => []

/-- The task is the one whose `stop()` is under way. -/
def stopping (w : Around J R D E) (x : Who) : Bool :=
  w.caller = some x && w.served.stop.pending

/-- What each task waits for; the one in `stop()` waits for what `stop()` does. -/
def waitsFor (w : Around J R D E) (x : Who) : List Who :=
  if w.stopping x then w.joins else w.awaits x

variable (decode : J → Except D (Option R))

/-- A step of the served procedure, a call of `stop()` by a task, or a task that comes to wait
for others, or for none. A handler ends when it waits for no task. -/
def step (w : Around J R D E) : AroundAction J E → Option (Around J R D E)
  | .served (.stop _) => none
  | .served (.handlerEnds i) =>
    if w.awaits (.handler i) = [] then
      (w.served.step decode (.handlerEnds i)).map fun s => {w with served := s}
    else none
  | .served a => (w.served.step decode a).map fun s => {w with served := s}
  | .stop x =>
    if w.live x && w.awaits x = [] && !w.stopping x then
      (w.served.step decode (.stop x.handler?)).map fun s =>
        {w with served := s, caller := if w.served.handle.isSome then some x else w.caller}
    else none
  | .await x ys =>
    if w.live x && !w.stopping x then some {w with awaits := Function.update w.awaits x ys}
    else none

/-- No handler's task calls `stop()`, nor does a task that one of them waits for; and while a
task is in `stop()`, no handler comes to wait for it, directly or through other tasks. -/
def apart (w : Around J R D E) : AroundAction J E → Prop
  | .served _ => True
  | .stop x => w.served.handle ≠ none →
    ∀ i h, w.served.handlers i = some h → ¬ Reaches w.awaits (.handler i) x
  | .await x ys => ∀ t, w.stopping t = true →
    (∃ i h, w.served.handlers i = some h ∧ Reaches w.awaits (.handler i) x) →
      ∀ y ∈ ys, ¬ Reaches w.awaits y t

end Around

namespace Served
variable {decode : J → Except D (Option R)} {s t : Served J R D E}

/-- No handler is forgotten. -/
def Keeps (s t : Served J R D E) : Prop := ∀ i, t.handlers i = none → s.handlers i = none

theorem endServe_handlers (how : ServeEnd D E) : (s.endServe how).handlers = s.handlers := by
  unfold Served.endServe
  split <;> rfl

theorem Keeps.of_eq (h : t.handlers = s.handlers) : Keeps s t := fun _ hi => h ▸ hi

theorem onTaken_keeps (i : ℕ) (v : Taken J) : Keeps s (s.onTaken decode i v) := by
  cases v with
  | nothing closed =>
    cases closed with
    | true => exact .of_eq (endServe_handlers _)
    | false => exact .of_eq rfl
  | item h text =>
    simp only [Served.onTaken]
    split
    · exact .of_eq (endServe_handlers _)
    · exact .of_eq rfl
    · intro j hj
      by_cases hji : j = i
      · simp [Served.await,Served.dispatch,hji] at hj
      · simpa [Served.await,Served.dispatch,hji] using hj

theorem resume_keeps : Keeps s (s.resume decode) := by
  unfold Served.resume
  split
  · split
    · exact onTaken_keeps _ _
    · exact .of_eq (endServe_handlers _)
    · exact .of_eq (endServe_handlers _)
    · exact .of_eq rfl
  · exact .of_eq rfl

theorem update_keeps {i : ℕ} {h : Handler R} :
    Keeps s {s with handlers := Function.update s.handlers i (some h)} := by
  intro j hj
  by_cases hji : j = i
  · simp [hji] at hj
  · simpa [hji] using hj

theorem cancelHandlers_keeps : Keeps s s.cancelHandlers := by
  unfold Served.cancelHandlers
  split
  · split
    · exact .of_eq rfl
    · intro j hj
      dsimp only at hj
      split at hj
      · exact Option.map_eq_none_iff.mp hj
      · exact hj
  · exact .of_eq rfl

theorem runTask_keeps (x : TaskCallback) : Keeps s (s.runTask x) := by
  cases x with
  | serveStarts =>
    simp only [Served.runTask]
    split
    · exact .of_eq (endServe_handlers _)
    · split
      · exact .of_eq (endServe_handlers _)
      · exact .of_eq rfl
    · exact .of_eq rfl
  | handlerStarts i =>
    simp only [Served.runTask]
    split
    · split
      · exact .of_eq rfl
      · split <;> exact update_keeps
    · exact .of_eq rfl
  | wakeStop => exact cancelHandlers_keeps
  | _ => exact .of_eq rfl

theorem cancelServe_handlers : s.cancelServe.handlers = s.handlers := by
  unfold Served.cancelServe
  split
  · rfl
  · split <;> rfl
  · rfl

theorem joinLoop_handlers : s.joinLoop.handlers = s.handlers := by
  unfold Served.joinLoop
  dsimp only
  split <;> exact cancelServe_handlers

theorem step_keeps {a : ServedAction J E} (he : step decode s a = some t) : Keeps s t := by
  cases step_move decode he with
  | @callback l _ _ => exact resume_keeps (s := {s with loop := l})
  | @task x ks _ _ => exact runTask_keeps (s := {s with loop := {s.loop with ready := ks}}) x
  | @endStep l _ => exact resume_keeps (s := {s with loop := l})
  | handlerEnds _ _ _ _ => exact update_keeps
  | withdrawn _ _ => exact .of_eq joinLoop_handlers
  | cancelLoop _ _ => exact .of_eq cancelServe_handlers
  | _ => exact .of_eq rfl

/-- Only a call of `stop()` begins a stop. -/
theorem step_pending {a : ServedAction J E} (he : step decode s a = some t)
    (ha : ∀ c, a ≠ .stop c) (hp : t.stop.pending = true) : s.stop.pending = true := by
  have hcontrol : t.control = s.control → s.stop.pending = true := fun hc => by
    rwa [← (Prod.mk.inj hc).1]
  cases step_move decode he with
  | @callback l _ _ => exact hcontrol (resume_leaves (s := {s with loop := l})).2
  | @task x ks _ _ =>
    by_cases hx : x = .wakeStop
    · subst hx
      rcases cancelHandlers_control (s := {s with loop := {s.loop with ready := ks}}) with h | ⟨hj,_⟩
      · exact hcontrol h
      · have hs : s.stop = .joiningLoop := hj
        rw [hs]
        rfl
    · exact hcontrol ((runTask_leaves (s := {s with loop := {s.loop with ready := ks}}) x).2 hx)
  | @endStep l _ => exact hcontrol (resume_leaves (s := {s with loop := l})).2
  | further _ _ => exact absurd rfl (ha _)
  | stop _ _ => exact absurd rfl (ha _)
  | withdrawn _ hs =>
    rw [hs]
    rfl
  | cancelLoop _ hs =>
    rw [hs]
    rfl
  | interrupted _ _ _ => cases hp
  | notWithdrawn _ _ => cases hp
  | joined _ _ _ => cases hp
  | _ => exact hp

end Served

namespace Around
variable {decode : J → Except D (Option R)} {w w' : Around J R D E}

/-- What a step can be, and what it leaves. -/
inductive Move (decode : J → Except D (Option R)) (w : Around J R D E) :
    AroundAction J E → Around J R D E → Prop
  | served {a : ServedAction J E} {s : Served J R D E} (ha : ∀ c, a ≠ .stop c)
    (he : w.served.step decode a = some s) : Move decode w (.served a) {w with served := s}
  | stop {x : Who} (hl : w.live x = true) (hh : w.served.handle ≠ none) :
    Move decode w (.stop x)
      {w with
        served := {w.served with handle := none, stop := .withdrawing, caller := x.handler?}
        caller := some x}
  | further {x : Who} (hh : w.served.handle = none) :
    Move decode w (.stop x) {w with served := {w.served with further := true}}
  | await {x : Who} {ys : List Who} (hl : w.live x = true) (hs : w.stopping x = false) :
    Move decode w (.await x ys) {w with awaits := Function.update w.awaits x ys}

theorem step_move {a : AroundAction J E} (he : step decode w a = some w') : Move decode w a w' := by
  cases a with
  | served b =>
    have hserved : (∀ c, b ≠ .stop c) → (w.served.step decode b).map (fun s => {w with served := s})
        = some w' → Move decode w (.served b) w' := by
      intro hb h
      obtain ⟨s,hs,rfl⟩ := Option.map_eq_some_iff.mp h
      exact .served hb hs
    cases b with
    | stop c => cases he
    | handlerEnds i =>
      simp only [step] at he
      split at he
      · exact hserved (by simp) he
      · cases he
    | _ => exact hserved (by simp) he
  | stop x =>
    simp only [step] at he
    split at he
    · next hc =>
      simp only [Bool.and_eq_true,decide_eq_true_eq] at hc
      obtain ⟨s,hs,rfl⟩ := Option.map_eq_some_iff.mp he
      cases Served.step_move decode hs with
      | further _ hh =>
        have hc : (if w.served.handle.isSome then some x else w.caller) = w.caller := by simp [hh]
        rw [hc]
        exact .further hh
      | stop _ hh =>
        rw [Option.isSome_iff_ne_none.mpr hh]
        exact .stop hc.1.1 hh
    · cases he
  | await x ys =>
    simp only [step] at he
    split at he
    · next hc =>
      simp only [Bool.and_eq_true,Bool.not_eq_true'] at hc
      cases he
      exact .await hc.1 hc.2
    · cases he

/-- The task in `stop()` is of no handler, and no handler waits for it. -/
structure ApartValid (w : Around J R D E) : Prop where
  caller : ∀ t, w.stopping t = true → ∃ x, t = .other x
  serving : w.awaits .serving = []
  uncreated : ∀ i, w.served.handlers i = none → w.awaits (.handler i) = []
  apart : ∀ t, w.stopping t = true → ∀ i h, w.served.handlers i = some h →
    ¬ Reaches w.awaits (.handler i) t

theorem stopping_eq_true {x : Who} :
    w.stopping x = true ↔ w.caller = some x ∧ w.served.stop.pending = true := by
  simp [stopping]

theorem ApartValid.not_reaches (hv : ApartValid w) {t : Who} (ht : w.stopping t = true) (i : ℕ) :
    ¬ Reaches w.awaits (.handler i) t := by
  cases hh : w.served.handlers i with
  | none =>
    intro hr
    obtain ⟨x,rfl⟩ := hv.caller t ht
    cases hr.of_none (hv.uncreated i hh)
  | some h => exact hv.apart t ht i h hh

/-- A step of the served procedure in which no task calls `stop()` with effect. -/
theorem ApartValid.served (hv : ApartValid w) {s : Served J R D E} (hk : Served.Keeps w.served s)
    (hp : s.stop.pending = true → w.served.stop.pending = true) :
    ApartValid {w with served := s} := by
  have hstop : ∀ {t}, stopping {w with served := s} t = true → w.stopping t = true := by
    intro t ht
    obtain ⟨hc,hs⟩ := stopping_eq_true.mp ht
    exact stopping_eq_true.mpr ⟨hc,hp hs⟩
  constructor
  · exact fun t ht => hv.caller t (hstop ht)
  · exact hv.serving
  · exact fun i hi => hv.uncreated i (hk i hi)
  · exact fun t ht i _ _ => hv.not_reaches (hstop ht) i

theorem live_handler {i : ℕ} (h : w.live (.handler i) = true) :
    ∃ d, w.served.handlers i = some d := by
  cases hh : w.served.handlers i with
  | none => simp [live,hh] at h
  | some d => exact ⟨d,rfl⟩

theorem step_apartValid {a : AroundAction J E} (hv : ApartValid w) (ha : w.apart a)
    (he : step decode w a = some w') : ApartValid w' := by
  cases step_move he with
  | served hb hs =>
    exact hv.served (Served.step_keeps hs) (Served.step_pending hs hb)
  | @stop x hl hh =>
    obtain ⟨y,rfl⟩ : ∃ y, x = .other y := by
      cases x with
      | serving => cases hl
      | handler i =>
        obtain ⟨d,hd⟩ := live_handler hl
        exact absurd (.refl _ _) (ha hh i d hd)
      | other y => exact ⟨y,rfl⟩
    refine ⟨?_,hv.serving,hv.uncreated,?_⟩
    · intro t ht
      exact ⟨y,(Option.some.inj (stopping_eq_true.mp ht).1).symm⟩
    · intro t ht
      obtain rfl : .other y = t := Option.some.inj (stopping_eq_true.mp ht).1
      exact ha hh
  | further hh => exact hv.served (.of_eq rfl) id
  | @await x ys hl hs =>
    have hne : ∀ i, w.served.handlers i = none → x ≠ .handler i := by
      rintro i hi rfl
      obtain ⟨d,hd⟩ := live_handler hl
      simp [hi] at hd
    have hx : x ≠ .serving := by
      rintro rfl
      cases hl
    refine ⟨hv.caller,?_,?_,?_⟩
    · exact (Function.update_of_ne hx.symm ys w.awaits).trans hv.serving
    · intro i hi
      exact (Function.update_of_ne (hne i hi).symm ys w.awaits).trans (hv.uncreated i hi)
    · intro t ht i h hh hr
      rcases hr.of_update with hr | ⟨hr,y,hy,hyt⟩
      · exact hv.apart t ht i h hh hr
      · exact ha t ht ⟨i,h,hh,hr⟩ y hy hyt

theorem init_apartValid (handle : ℕ) : ApartValid (init handle : Around J R D E) where
  caller t ht := by simp [init,stopping] at ht
  serving := rfl
  uncreated _ _ := rfl
  apart t ht := by simp [init,stopping] at ht

theorem reachable_apartValid {handle : ℕ}
    (hw : Runs.Reachable (step decode) apart (init handle) w) : ApartValid w :=
  hw.induct (init_apartValid handle) (fun _ _ _ _ hv ha he => step_apartValid hv ha he)

theorem step_served {a : AroundAction J E} (he : step decode w a = some w') :
    w'.served = w.served ∨ ∃ b, w.served.step decode b = some w'.served := by
  have hmap : ∀ b {f : Served J R D E → Around J R D E}, (∀ s, (f s).served = s) →
      (w.served.step decode b).map f = some w' → ∃ b, w.served.step decode b = some w'.served := by
    intro b f hf h
    obtain ⟨s,hs,rfl⟩ := Option.map_eq_some_iff.mp h
    exact ⟨b,(hf s).symm ▸ hs⟩
  cases a with
  | served b =>
    cases b with
    | stop c => cases he
    | handlerEnds i =>
      simp only [step] at he
      split at he
      · exact Or.inr (hmap _ (fun _ => rfl) he)
      · cases he
    | soon =>
      cases he
      exact Or.inr ⟨.soon,rfl⟩
    | _ => exact Or.inr (hmap _ (fun _ => rfl) he)
  | stop x =>
    simp only [step] at he
    split at he
    · exact Or.inr (hmap _ (fun _ => rfl) he)
    · cases he
  | await x ys =>
    simp only [step] at he
    split at he
    · cases he
      exact Or.inl rfl
    · cases he

/-- The served procedure of a run runs as it does on its own. -/
theorem reachable_served {ok : Around J R D E → AroundAction J E → Prop} {handle : ℕ}
    (hw : Runs.Reachable (step decode) ok (init handle) w) :
    Runs.Reachable (Served.step decode) Runs.free (.init handle) w.served := by
  refine hw.induct (P := fun w : Around J R D E =>
    Runs.Reachable (Served.step decode) Runs.free (.init handle) w.served) (.refl _) ?_
  intro w a w' _ hs _ he
  rcases step_served he with h | ⟨b,hb⟩
  · exact h ▸ hs
  · exact hs.tail trivial hb

/-- What waits for a task waits for it through what the application's tasks wait for. -/
theorem reaches_awaits {y t : Who} (ht : w.stopping t = true) (h : Reaches w.waitsFor y t) :
    Reaches w.awaits y t := by
  apply h.of_agree
  intro a ha b hb
  have hn : w.stopping a = false := by
    by_contra hs
    rw [Bool.not_eq_false] at hs
    have hca := (stopping_eq_true.mp hs).1
    have hct := (stopping_eq_true.mp ht).1
    exact ha (Option.some.inj (hca.symm.trans hct))
  simpa [waitsFor,hn] using hb

/-- In every run in which no handler's task calls `stop()`, and none comes to wait for the task
that does, no task that `stop()` waits for is that task or waits for it. With nothing left to
run on the loop, a `stop()` past its withdrawal waits for handlers alone, and it ends when they
have. -/
theorem not_waits_on_itself {handle : ℕ} (hw : Runs.Reachable (step decode) apart (init handle) w) :
    (∀ x y, w.stopping x = true → y ∈ w.joins → ¬ Reaches w.waitsFor y x) ∧
      (w.served.Rests → w.served.stop.pending = true → w.served.stop ≠ .withdrawing →
        ∃ is, w.served.stop = .joiningHandlers is ∧ (w.served.done is = true →
          ∃ w', step decode w (.served .joined) = some w' ∧ w'.served.stop.pending = false)) := by
  have hv := reachable_apartValid hw
  have hs := reachable_served hw
  constructor
  · intro x y hx hy hr
    have hra := reaches_awaits hx hr
    unfold joins at hy
    split at hy
    · obtain rfl : y = .serving := by simpa using hy
      obtain ⟨z,rfl⟩ := hv.caller x hx
      cases hra.of_none hv.serving
    · obtain ⟨i,_,rfl⟩ := List.mem_map.mp hy
      exact hv.not_reaches hx i hra
    · cases hy
  · intro hrest hp hn
    obtain ⟨is,his⟩ := Served.joiningHandlers_of_rests (Served.reachable_serveValid hs)
      (Served.reachable_joinValid hs) hrest hp hn
    let s : Served J R D E := {w.served with stop := .ended w.served.stopEnd}
    refine ⟨is,his,fun hd => ⟨{w with served := s},?_,rfl⟩⟩
    simp [step,Served.step,hrest.2,Served.taskStep,his,hd,s]

/-- `stop()` goes on to its wait for the handlers. -/
def toHandlers : List (ServedAction ℕ Unit) :=
  [.withdrawn (.ok ()),.run,.run,.endStep,.endStep,.endStep,.endStep,.run,.run]

/-- A task calls `stop()` while a handler runs. -/
def stoppedBy (x : Who) : List (AroundAction ℕ Unit) :=
  Served.oneHandler.map .served ++ .stop x :: toHandlers.map .served

/-- Without a task that waits for another, every task but a handler's may call `stop()`. -/
theorem reachable_of_outside {as : List (AroundAction ℕ Unit)} {v w : Around ℕ ℕ Empty Unit}
    (hv : v.awaits = fun _ => [])
    (ha : ∀ a ∈ as, (∃ b, a = .served b) ∨ ∃ x, a = .stop (.other x))
    (he : Runs.exec (step Served.itself) v as = some w) :
    Runs.Reachable (step Served.itself) apart v w := by
  induction as generalizing v with
  | nil =>
    cases he
    exact .refl _
  | cons a as ih =>
    obtain ⟨u,hu,he⟩ := Option.bind_eq_some_iff.mp he
    have hok : v.apart a := by
      rcases ha a List.mem_cons_self with ⟨b,rfl⟩ | ⟨x,rfl⟩
      · trivial
      · intro _ i h _ hr
        cases hr.of_none (by rw [hv])
    have hawaits : u.awaits = fun _ => [] := by
      rw [← hv]
      cases step_move hu with
      | await _ _ => simp at ha
      | _ => rfl
    obtain ⟨bs,hb⟩ := ih hawaits (fun b hb => ha b (List.mem_cons_of_mem a hb)) he
    exact ⟨a :: bs,.step hok hu hb⟩

theorem not_waits_on_itself_outside : ∃ w : Around ℕ ℕ Empty Unit,
    Runs.exec (step Served.itself) (init 1) (stoppedBy (.other 0)) = some w ∧
      w.joins = [.handler 0] ∧ ¬ Reaches w.waitsFor (.handler 0) (.other 0) := by
  have hrun : (Runs.exec (step Served.itself) (init 1) (stoppedBy (.other 0))).map
      (fun w => (w.stopping (.other 0),w.joins)) = some (true,[.handler 0]) := rfl
  obtain ⟨w,hw,hx⟩ := Option.map_eq_some_iff.mp hrun
  obtain ⟨hs,hj⟩ := Prod.mk.inj hx
  have hacts : ∀ a ∈ stoppedBy (.other 0),
      (∃ b, a = .served b) ∨ ∃ x, a = .stop (.other x) := by
    intro a ha
    rcases List.mem_append.mp ha with ha | ha
    · obtain ⟨b,_,rfl⟩ := List.mem_map.mp ha
      exact Or.inl ⟨b,rfl⟩
    · rcases List.mem_cons.mp ha with rfl | ha
      · exact Or.inr ⟨0,rfl⟩
      · obtain ⟨b,_,rfl⟩ := List.mem_map.mp ha
        exact Or.inl ⟨b,rfl⟩
  refine ⟨w,hw,hj,?_⟩
  exact (not_waits_on_itself (reachable_of_outside rfl hacts hw)).1 _ _ hs (by simp [hj])

/-- A handler's task that calls `stop()` comes to wait for itself, with nothing left to run. -/
theorem waits_on_itself_handler : ∃ w : Around ℕ ℕ Empty Unit,
    Runs.exec (step Served.itself) (init 1) (stoppedBy (.handler 0)) = some w ∧
      w.stopping (.handler 0) = true ∧ w.joins = [.handler 0] ∧ w.served.Rests ∧
      step Served.itself w (.served .joined) = none ∧
      step Served.itself w (.served (.handlerEnds 0)) = none := by
  have hrun : (Runs.exec (step Served.itself) (init 1) (stoppedBy (.handler 0))).map
      (fun w => (w.stopping (.handler 0),w.joins,w.served.loop.ready.length,w.served.loop.busy,
        (step Served.itself w (.served .joined)).isNone,
        (step Served.itself w (.served (.handlerEnds 0))).isNone)) =
      some (true,[.handler 0],0,none,true,true) := rfl
  obtain ⟨w,hw,hx⟩ := Option.map_eq_some_iff.mp hrun
  simp only [Prod.mk.injEq,List.length_eq_zero_iff,Option.isNone_iff_eq_none] at hx
  obtain ⟨hs,hj,hr,hb,h1,h2⟩ := hx
  exact ⟨w,hw,hs,hj,⟨hr,hb⟩,h1,h2⟩

end Around
end MaculaPy.Serving
