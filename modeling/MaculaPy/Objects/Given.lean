import MaculaPy.Objects.Iteration

/-! # What an iteration is given

The events that the waits of an iteration come back with, one by one as the iteration is given them:
in any run, and in one in which no other task takes events from the subscription.
-/
namespace MaculaPy.Objects
open Wire Abi Blocking History

namespace Object
variable {V E : Type*} {floatText : Binary64 → Numeral} {s t : Object V E}

/-- Off `next` and cancellations, a step lets the waits on a subscription go on. -/
theorem step_wait (hs : s.FreeValid) {a : ObjectAction .subscription V E} (ha : a ≠ .issue .next)
    (hx : ∀ x, a ≠ .cancelTask x) (he : s.step .subscription floatText a = some t) {i : ℕ}
    {c' : Call V E} (hc' : t.loop.calls (i,.blocking false) = some c') :
    ∃ c, s.loop.calls (i,.blocking false) = some c ∧
      (c.task.ended = true → c'.task = c.task) ∧ (c'.interrupted → c.interrupted) := by
  have hloop : ∀ {b l}, Loop.step Prod.snd s.loop b = some l →
      l.calls (i,.blocking false) = some c' → b ≠ .start (i,.blocking false) →
      b ≠ .cancelTask (i,.blocking false) → ∃ c, s.loop.calls (i,.blocking false) = some c ∧
        (c.task.ended = true → c'.task = c.task) ∧ (c'.interrupted → c.interrupted) := by
    intro b l hl hl' hstart hcancel
    cases hc : s.loop.calls (i,.blocking false) with
    | none =>
      rw [Loop.step_unstarted hl hc hstart] at hl'
      cases hl'
    | some c =>
      obtain ⟨d,hd,hend,hint⟩ := Loop.step_call hs.loop hl hc
      obtain rfl : d = c' := Option.some.inj (hd.symm.trans hl')
      exact ⟨c,rfl,hend,hint hcancel⟩
  cases step_move he with
  | @calls m n h r texts l hb hl =>
    cases m with
    | next => exact absurd rfl ha
    | dropped =>
      cases hh : s.handle with
      | none =>
        rw [hh] at hb
        cases hb
      | some g =>
        rw [hh] at hb
        cases hb
  | swaps _ _ _ hl => exact hloop hl hc' (by simp) (by simp)
  | exits hk _ => cases hk
  | begins _ _ hl => exact hloop hl hc' (by simp) (by simp)
  | thread _ _ _ hl => exact hloop hl hc' (by simp) (by simp)
  | cancelTask _ => exact absurd rfl (hx _)
  | run hl => exact hloop hl hc' (by simp) (by simp)
  | endStep hl => exact hloop hl hc' (by simp) (by simp)
  | _ => exact ⟨c',hc',fun _ => rfl,id⟩

/-- What a wait has come back with, it has come back with after a further step. -/
theorem step_came {a : ObjectAction .subscription V E}
    (he : s.step .subscription floatText a = some t) {x : ℕ × Route} {e : Event V E}
    (hm : e ∈ view x s.loop.trace) : e ∈ view x t.loop.trace := by
  rw [mem_view] at hm ⊢
  rcases (step_loop he).2 with hl | ⟨b,hb,-⟩
  · exact hl ▸ hm
  · exact Loop.mem_step_trace hb hm

/-- A call that its native call can return from has not come back before. -/
theorem unreturned_of_returns {l l' : Loop (ℕ × Route) Empty V E} {x : ℕ × Route}
    {o : Except (Raised E) V} (hl : Runs.Reachable (Loop.step Prod.snd) Runs.free Loop.init l)
    (he : Loop.step Prod.snd l (.thread x (.callReturns o)) = some l')
    (o' : Except (Raised E) V) : .returned o' ∉ view x l.trace := by
  intro ho
  cases Loop.step_move he with
  | thread _ hc ht =>
    have hempty := (reachable_handoverValid (Loop.reachable_call hl hc)).unreturned
      (callReturns_events ht).1
    change returns (view x l.trace) = [] at hempty
    have hm : o' ∈ returns (view x l.trace) := mem_returns.mpr ho
    rw [hempty] at hm
    cases hm

/-- A `next` has come back with nothing when it begins. -/
theorem next_came (hs : s.FreeValid) (he : s.step .subscription floatText (.issue .next) = some t)
    (o : Except (Raised E) V) : .returned o ∉ view (s.next,.blocking false) t.loop.trace := by
  intro hx
  rcases step_returned hs.loop he hx with hold | ⟨ha,-⟩
  · have hfresh := hs.fresh s.next (.blocking false) le_rfl
    rw [((Loop.reachable_valid hs.loop).unstarted _ hfresh).2.1] at hold
    cases hold
  · cases ha

end Object

namespace Iteration
variable {T E : Type*} {h : Handle} {floatText : Binary64 → Numeral} {w w' : Iteration T E}
  {P Q : List T → Prop}

/-- `P` holds of what the iteration was given, with the event that its wait has come back with. -/
structure Given (h : Handle) (floatText : Binary64 → Numeral) (P : List T → Prop)
    (w : Iteration T E) : Prop where
  run : Runs.Reachable (Object.step .subscription floatText) Runs.free
    (Object.init .subscription h) w.subscription
  given : P w.given
  next : w.phase = .waiting → ∀ x, .returned (.ok (.event x)) ∈
    view (w.wait,.blocking false) w.subscription.loop.trace → P (w.given ++ [x])

theorem Given.mono (hw : Given h floatText P w) (hPQ : ∀ xs, P xs → Q xs) :
    Given h floatText Q w :=
  ⟨hw.run,hPQ _ hw.given,fun hp x hx => hPQ _ (hw.next hp x hx)⟩

theorem Given.loop (hw : Given h floatText P w) :
    Runs.Reachable (Loop.step Prod.snd) Runs.free Loop.init w.subscription.loop :=
  (Object.reachable_freeValid hw.run).loop

/-- An operation of the subscription, which may be a wait that comes back with an event. -/
theorem Given.object (hw : Given h floatText P w) (hPQ : ∀ xs, P xs → Q xs)
    {a : ObjectAction .subscription (Answer T) E}
    (hQ : ∀ i x, a = .thread (i,.blocking false) (.callReturns (.ok (.event x))) →
      Q (w.given ++ [x])) {s : Object (Answer T) E}
    (he : w.subscription.step .subscription floatText a = some s) :
    Given h floatText Q {w with subscription := s} where
  run := hw.run.tail trivial he
  given := hPQ _ hw.given
  next hp x hx := by
    rcases Object.step_returned hw.loop he hx with hold | ⟨ha,-⟩
    · exact hPQ _ (hw.next hp x hold)
    · exact hQ _ x ha

theorem Given.ask (hw : Given h floatText P w) (he : w.ask floatText = some w') :
    Given h floatText P w' := by
  obtain ⟨s,hs,rfl⟩ := Option.map_eq_some_iff.mp he
  refine ⟨hw.run.tail trivial hs,hw.given,fun _ x hx => ?_⟩
  exact absurd hx (Object.next_came (Object.reachable_freeValid hw.run) hs _)

theorem returned_of_yields {x : T} (ht : w.turn = .yields x) : w.phase = .waiting ∧
    ∃ c, w.subscription.loop.calls (w.wait,.blocking false) = some c ∧
      c.task = .returned (.event x) := by
  unfold turn at ht
  split at ht
  · next t hp hk =>
    obtain ⟨c,hc,rfl⟩ := Option.map_eq_some_iff.mp hk
    refine ⟨hp,c,hc,?_⟩
    cases hr : c.task with
    | returned v =>
      rw [hr] at ht
      cases v with
      | event y =>
        cases ht
        rfl
      | timedOut => cases hcl : closed w.subscription <;> simp [anext,Answer.item,hcl] at ht
      | closed => cases hcl : closed w.subscription <;> simp [anext,Answer.item,hcl] at ht
    | _ =>
      rw [hr] at ht
      cases ht
  · cases ht

theorem Given.resume (hw : Given h floatText P w) (he : w.resume floatText = some w') :
    Given h floatText P w' := by
  unfold Iteration.resume at he
  split at he
  · cases he
    exact hw
  · next x ht =>
    cases he
    obtain ⟨hp,c,hc,hk⟩ := returned_of_yields ht
    exact ⟨hw.run,hw.next hp x (returned_of_task (Loop.reachable_call hw.loop hc) hk),
      (fun hp => by cases hp)⟩
  · cases he
    exact ⟨hw.run,hw.given,(fun hp => by cases hp)⟩
  · exact hw.ask he

/-- What a step hands a wait is given at the end, if it is given. -/
theorem Given.step (hw : Given h floatText P w) (hPQ : ∀ xs, P xs → Q xs)
    {a : IterationAction T E}
    (hQ : ∀ i x, a = .object (.thread (i,.blocking false) (.callReturns (.ok (.event x)))) →
      Q (w.given ++ [x])) (he : w.step floatText a = some w') : Given h floatText Q w' := by
  cases a with
  | object a =>
    simp only [Iteration.step] at he
    split at he
    · obtain ⟨s,hs,hr⟩ := Option.bind_eq_some_iff.mp he
      exact (hw.object hPQ (fun i x ha => hQ i x (ha ▸ rfl)) hs).resume hr
    · cases he
  | poolCloses =>
    cases he
    exact ⟨hw.run,hPQ _ hw.given,fun hp x hx => hPQ _ (hw.next hp x hx)⟩
  | asks =>
    simp only [Iteration.step] at he
    split at he
    · exact (hw.mono hPQ).ask he
    · cases he
  | leaves =>
    simp only [Iteration.step] at he
    split at he
    · cases he
      exact ⟨hw.run,hPQ _ hw.given,(fun hp => by cases hp)⟩
    · cases he

/-- No other task takes events, and none is cancelled. -/
def alone : IterationAction T E → Bool
  | .object (.issue .next) => false
  | .object (.cancelTask _) => false
  | _ => true

/-- The iteration's wait is the only one under way, and no wait was cancelled. -/
structure Alone (h : Handle) (floatText : Binary64 → Numeral) (w : Iteration T E) : Prop where
  run : Runs.Reachable (Object.step .subscription floatText) Runs.free
    (Object.init .subscription h) w.subscription
  past : ∀ i c, w.subscription.loop.calls (i,.blocking false) = some c → c.task.ended = false →
    w.phase = .waiting ∧ i = w.wait
  uncancelled : ∀ i c, w.subscription.loop.calls (i,.blocking false) = some c → ¬ c.interrupted

/-- `P` holds of what the iteration was given and, if its wait has come back with an event, of that
in addition. -/
structure Whole (h : Handle) (floatText : Binary64 → Numeral) (P : List T → Prop)
    (w : Iteration T E) : Prop extends Alone h floatText w where
  came : w.phase = .waiting → ∀ x, .returned (.ok (.event x)) ∈
    view (w.wait,.blocking false) w.subscription.loop.trace → P (w.given ++ [x])
  rest : (w.phase = .waiting → ∀ x, .returned (.ok (.event x)) ∉
    view (w.wait,.blocking false) w.subscription.loop.trace) → P w.given

theorem Alone.loop (hw : Alone h floatText w) :
    Runs.Reachable (Loop.step Prod.snd) Runs.free Loop.init w.subscription.loop :=
  (Object.reachable_freeValid hw.run).loop

theorem Alone.object (hw : Alone h floatText w) {a : ObjectAction .subscription (Answer T) E}
    (ha : alone (.object a) = true) {s : Object (Answer T) E}
    (he : w.subscription.step .subscription floatText a = some s) :
    Alone h floatText {w with subscription := s} := by
  have hissue : a ≠ .issue .next := by
    rintro rfl
    cases ha
  have hcancel : ∀ x, a ≠ .cancelTask x := by
    rintro x rfl
    cases ha
  have hv := Object.reachable_freeValid hw.run
  refine ⟨hw.run.tail trivial he,fun i c' hc' hend => ?_,fun i c' hc' hx => ?_⟩
  · obtain ⟨c,hc,hk,-⟩ := Object.step_wait hv hissue hcancel he hc'
    refine hw.past i c hc ?_
    by_contra hn
    rw [hk (by simpa using hn)] at hend
    exact hn hend
  · obtain ⟨c,hc,-,hint⟩ := Object.step_wait hv hissue hcancel he hc'
    exact hw.uncancelled i c hc (hint hx)

/-- Where the iteration goes on, all waits are over. -/
theorem Alone.over (hw : Alone h floatText w) (ht : w.turn ≠ .waits) (i : ℕ)
    (c : Call (Answer T) E) (hc : w.subscription.loop.calls (i,.blocking false) = some c) :
    c.task.ended = true := by
  by_contra hn
  obtain ⟨hp,rfl⟩ := hw.past i c hc (by simpa using hn)
  exact ht ((turn_of_calls hp hc).trans (anext_eq_waits.mpr (by simpa using hn)))

theorem Alone.settle (hw : Alone h floatText w) (ht : w.turn ≠ .waits) (q : Phase E) (xs : List T) :
    Alone h floatText {w with phase := q, given := xs} where
  run := hw.run
  past i c hc hend := by
    rw [hw.over ht i c hc] at hend
    cases hend
  uncancelled := hw.uncancelled

/-- A wait that is over has come back, and the task with what its wait has come back with. -/
theorem Alone.came_of_ended (hw : Alone h floatText w) {i : ℕ} {c : Call (Answer T) E}
    (hc : w.subscription.loop.calls (i,.blocking false) = some c) (hend : c.task.ended = true) :
    ∃ o, .returned o ∈ view (i,.blocking false) w.subscription.loop.trace ∧
      ∀ v, o = .ok v → c.task = .returned v := by
  have hr := Loop.reachable_call hw.loop hc
  cases hk : c.task with
  | returned v => exact ⟨.ok v,returned_of_task hr hk,fun _ hv => by cases hv; rfl⟩
  | raised e =>
    obtain ⟨o,b,ho,hx⟩ := raised_of_task hr hk
    refine ⟨o,mem_returns.mp (ho ▸ List.mem_singleton_self o),fun v hv => ?_⟩
    rw [hv,translate_ok] at hx
    cases hx
  | cancelled => exact absurd (by simp [Call.interrupted,hk]) (hw.uncancelled i c hc)
  | _ =>
    rw [hk] at hend
    cases hend

/-- A wait that ends the iteration, or has it ask again, has come back with no event. -/
theorem Alone.nothing (hw : Alone h floatText w) (hn : w.turn ≠ .waits)
    (hy : ∀ x, w.turn ≠ .yields x) (hp : w.phase = .waiting) (x : T) :
    .returned (.ok (.event x)) ∉ view (w.wait,.blocking false) w.subscription.loop.trace := by
  intro hx
  obtain ⟨c,hc⟩ : ∃ c, w.subscription.loop.calls (w.wait,.blocking false) = some c := by
    refine Option.ne_none_iff_exists'.mp fun hnone => ?_
    rw [((Loop.reachable_valid hw.loop).unstarted _ hnone).2.1] at hx
    cases hx
  obtain ⟨o,ho,hk⟩ := hw.came_of_ended hc (hw.over hn _ c hc)
  have ho' := returned_unique (Loop.reachable_call hw.loop hc) ho hx
  exact hy x ((turn_of_calls hp hc).trans (by rw [hk _ ho']; rfl))

theorem Whole.mono (hw : Whole h floatText P w) (hPQ : ∀ xs, P xs → Q xs) : Whole h floatText Q w :=
  ⟨hw.toAlone,fun hp x hx => hPQ _ (hw.came hp x hx),fun hn => hPQ _ (hw.rest hn)⟩

theorem init_whole (h : Handle) (hP : P []) :
    Whole h floatText P (.init h : Iteration T E) where
  run := .refl _
  past i c hc := by cases hc
  uncancelled i c hc := by cases hc
  came hp := by cases hp
  rest _ := hP

/-- All is given, up to an event that the wait has come back with. -/
theorem Whole.given_or (hw : Whole h floatText P w) :
    (w.phase = .waiting ∧ ∃ x, P (w.given ++ [x])) ∨ P w.given := by
  by_cases hn : ∀ x, .returned (.ok (.event x)) ∉
      view (w.wait,.blocking false) w.subscription.loop.trace
  · exact .inr (hw.rest fun _ => hn)
  · by_cases hp : w.phase = .waiting
    · obtain ⟨x,hx⟩ := not_forall.mp hn
      exact .inl ⟨hp,x,hw.came hp x (not_not.mp hx)⟩
    · exact .inr (hw.rest fun h => absurd h hp)

/-- Where nothing is left to run, all is given. -/
theorem Whole.given_of_rests (hw : Whole h floatText P w) (hv : IterationValid h floatText w)
    (hr : w.Rests floatText) : P w.given := by
  refine hw.rest fun hp x hx => ?_
  obtain ⟨l,hl⟩ := hv.inside_of_rests hr hp
  exact Object.unreturned_of_returns hw.loop hl _ hx

/-- An operation of the subscription other than a wait that comes back with an event. -/
theorem Whole.object (hw : Whole h floatText P w) {a : ObjectAction .subscription (Answer T) E}
    (ha : alone (.object a) = true)
    (hret : ∀ i x, a ≠ .thread (i,.blocking false) (.callReturns (.ok (.event x))))
    {s : Object (Answer T) E} (he : w.subscription.step .subscription floatText a = some s) :
    Whole h floatText P {w with subscription := s} := by
  refine ⟨hw.toAlone.object ha he,fun hp x hx => ?_,fun hn => ?_⟩
  · rcases Object.step_returned hw.loop he hx with hold | ⟨h,-⟩
    · exact hw.came hp x hold
    · exact absurd h (hret _ x)
  · exact hw.rest fun hp x hx => hn hp x (Object.step_came he hx)

/-- The wait that comes back with an event is the iteration's. -/
theorem Whole.event (hw : Whole h floatText P w) {i : ℕ} {x : T}
    (hQ : P w.given → Q (w.given ++ [x])) {s : Object (Answer T) E}
    (he : w.subscription.step .subscription floatText
      (.thread (i,.blocking false) (.callReturns (.ok (.event x)))) = some s) :
    Whole h floatText Q {w with subscription := s} := by
  cases Object.step_move he with
  | returned ha _ => cases ha
  | takes ha _ _ => cases ha
  | swaps ha _ _ _ => cases ha
  | thread hc _ _ hl =>
    cases Loop.step_move hl with
    | @thread _ _ c e _ hc' hth =>
      have hun := Object.unreturned_of_returns hw.loop hl
      have hend : c.task.ended = false := by
        by_contra hend
        obtain ⟨o,ho,-⟩ := hw.came_of_ended hc' (by simpa using hend)
        exact hun o ho
      obtain ⟨hp,rfl⟩ := hw.past i c hc' hend
      refine ⟨hw.toAlone.object rfl he,fun _ y hy => ?_,fun hnone => ?_⟩
      · rcases Object.step_returned hw.loop he hy with hold | ⟨h,-⟩
        · exact absurd hold (hun _)
        · cases h
          exact hQ (hw.rest fun _ _ => hun _)
      · refine absurd (mem_view.mpr (List.mem_append_left _ ?_)) (hnone hp x)
        rw [(callReturns_events hth).2]
        exact List.mem_singleton_self _

/-- A `next` of the iteration begins where all waits are over. -/
theorem Alone.ask (hw : Alone h floatText w) (hover : ∀ i c,
    w.subscription.loop.calls (i,.blocking false) = some c → c.task.ended = true)
    (hP : P w.given) (he : w.ask floatText = some w') : Whole h floatText P w' := by
  obtain ⟨s,hs,rfl⟩ := Option.map_eq_some_iff.mp he
  have hcalls : ∀ i c, s.loop.calls (i,.blocking false) = some c →
      w.subscription.loop.calls (i,.blocking false) = some c ∨
        i = w.subscription.next ∧ c = Blocking.start ∧
          begun (E := E) (s.outset w.subscription.next) = .waiting := by
    intro i c hc
    cases Object.step_move hs with
    | refused _ => exact .inl hc
    | here hb =>
      cases hh : w.subscription.handle with
      | none =>
        rw [hh] at hb
        cases hb
      | some g =>
        rw [hh] at hb
        cases hb
    | calls hb hl =>
      cases hh : w.subscription.handle with
      | none =>
        rw [hh] at hb
        cases hb
      | some g =>
        obtain ⟨ho,-⟩ := Object.next_with hh hs
        rw [hh] at hb
        cases hb
        cases Loop.step_move hl with
        | start _ _ =>
          dsimp only at hc
          by_cases hi : i = w.subscription.next
          · subst hi
            rw [Function.update_self] at hc
            cases hc
            exact .inr ⟨rfl,rfl,by rw [ho]; rfl⟩
          · rw [Function.update_of_ne (by simp [hi])] at hc
            exact .inl hc
    | returned ha _ => cases ha
    | takes ha _ _ => cases ha
    | swaps ha _ _ _ => cases ha
  refine ⟨⟨hw.run.tail trivial hs,fun i c hc hend => ?_,fun i c hc hx => ?_⟩,fun _ x hx => ?_,
    fun _ => hP⟩
  · rcases hcalls i c hc with hold | ⟨rfl,-,hp⟩
    · rw [hover i c hold] at hend
      cases hend
    · exact ⟨hp,rfl⟩
  · rcases hcalls i c hc with hold | ⟨-,rfl,-⟩
    · exact hw.uncancelled i c hold hx
    · simp [Blocking.start,Call.interrupted] at hx
  · exact absurd hx (Object.next_came (Object.reachable_freeValid hw.run) hs _)

theorem Whole.resume (hw : Whole h floatText P w) (he : w.resume floatText = some w') :
    Whole h floatText P w' := by
  unfold Iteration.resume at he
  split at he
  · cases he
    exact hw
  · next x ht =>
    cases he
    obtain ⟨hp,c,hc,hk⟩ := returned_of_yields ht
    refine ⟨hw.settle (by simp [ht]) _ _,(fun hp => by cases hp),fun _ => ?_⟩
    exact hw.came hp x (returned_of_task (Loop.reachable_call hw.loop hc) hk)
  · next how ht =>
    cases he
    refine ⟨hw.settle (by simp [ht]) _ w.given,(fun hp => by cases hp),fun _ => ?_⟩
    exact hw.rest (hw.nothing (by simp [ht]) (by simp [ht]))
  · next ht =>
    exact hw.toAlone.ask (hw.over (by simp [ht]))
      (hw.rest (hw.nothing (by simp [ht]) (by simp [ht]))) he

/-- A step in which no wait comes back with an event. -/
theorem Whole.step (hw : Whole h floatText P w) {a : IterationAction T E} (ha : alone a = true)
    (hret : ∀ i x, a ≠ .object (.thread (i,.blocking false) (.callReturns (.ok (.event x)))))
    (he : w.step floatText a = some w') : Whole h floatText P w' := by
  cases a with
  | object a =>
    simp only [Iteration.step] at he
    split at he
    · obtain ⟨s,hs,hr⟩ := Option.bind_eq_some_iff.mp he
      exact (hw.object ha (fun i x h => hret i x (h ▸ rfl)) hs).resume hr
    · cases he
  | poolCloses =>
    cases he
    exact ⟨⟨hw.run,hw.past,hw.uncancelled⟩,hw.came,hw.rest⟩
  | asks =>
    simp only [Iteration.step] at he
    split at he
    · next hp =>
      refine hw.toAlone.ask (fun i c hc => ?_) (hw.rest fun h => by rw [hp] at h; cases h) he
      by_contra hn
      rw [(hw.past i c hc (by simpa using hn)).1] at hp
      cases hp
    · cases he
  | leaves =>
    simp only [Iteration.step] at he
    split at he
    · next hp =>
      cases he
      refine ⟨⟨hw.run,fun i c hc hend => ?_,hw.uncancelled⟩,(fun h => by cases h),fun _ => ?_⟩
      · rw [(hw.past i c hc hend).1] at hp
        cases hp
      · exact hw.rest fun h => by rw [hp] at h; cases h
    · cases he

/-- A step in which a wait comes back with an event. -/
theorem Whole.step_event (hw : Whole h floatText P w) {i : ℕ} {x : T}
    (hQ : P w.given → Q (w.given ++ [x])) (he : w.step floatText
      (.object (.thread (i,.blocking false) (.callReturns (.ok (.event x))))) = some w') :
    Whole h floatText Q w' := by
  simp only [Iteration.step] at he
  split at he
  · obtain ⟨s,hs,hr⟩ := Option.bind_eq_some_iff.mp he
    exact (hw.event hQ hs).resume hr
  · cases he

end Iteration
end MaculaPy.Objects
