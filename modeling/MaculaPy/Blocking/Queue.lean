import MaculaPy.Blocking.Call

/-! # What is left to run

The callbacks of the two futures and the callbacks on the ready queue, in every
reachable state: an outcome the worker posted is settled once, the task is woken
once, and `shield` copies a settled outcome while the outer future is pending.
-/
namespace MaculaPy.Blocking
open Asyncio
variable {V E : Type*}

@[simp] theorem is_settle (κ : Kind) (o : Except (Raised E) V) :
    Callback.is κ (.settle o) = (.settle == κ) := rfl
@[simp] theorem is_retrieve (κ : Kind) :
    Callback.is κ (.retrieve : Callback V E) = (.retrieve == κ) := rfl
@[simp] theorem is_innerDone (κ : Kind) :
    Callback.is κ (.innerDone : Callback V E) = (.innerDone == κ) := rfl
@[simp] theorem is_outerDone (κ : Kind) :
    Callback.is κ (.outerDone : Callback V E) = (.outerDone == κ) := rfl
@[simp] theorem is_wakeup (κ : Kind) :
    Callback.is κ (.wakeup : Callback V E) = (.wakeup == κ) := rfl
@[simp] theorem is_handOver (κ : Kind) :
    Callback.is κ (.handOver : Callback V E) = (.handOver == κ) := rfl

/-- The callbacks of one kind, in queue order. -/
def queued (κ : Kind) (ks : List (Callback V E)) : List (Callback V E) := ks.filter (Callback.is κ)

@[simp] theorem queued_nil (κ : Kind) : queued κ ([] : List (Callback V E)) = [] := rfl
@[simp] theorem queued_append (κ : Kind) (ks ls : List (Callback V E)) :
    queued κ (ks ++ ls) = queued κ ks ++ queued κ ls := List.filter_append ks ls
theorem queued_cons (κ : Kind) (k : Callback V E) (ks : List (Callback V E)) :
    queued κ (k :: ks) = if k.is κ then k :: queued κ ks else queued κ ks := List.filter_cons

/-- The outcome the worker has posted to the loop. -/
def Worker.posted? : Worker V E → Option (Except (Raised E) V)
  | .posted o => some o
  | _ => none

/-- The callback by which a cancelled call leaves its result to `discard`. -/
def handOvers : Route → Task V E → List (Callback V E)
  | .blocking true,.cancelled => [.handOver]
  | _,_ => []

@[simp] theorem queued_handOvers {κ : Kind} (r : Route) (t : Task V E)
    (hκ : κ ≠ .handOver := by decide) :
    queued κ (handOvers r t) = [] := by
  have hne : (Kind.handOver == κ) = false := by cases κ <;> simp_all
  unfold handOvers
  split <;> simp [queued_cons,hne]

@[simp] theorem queued_handOver_handOvers (r : Route) (t : Task V E) :
    queued .handOver (handOvers r t) = handOvers r t := by
  unfold handOvers
  split <;> simp [queued_cons]

theorem handOvers_cases (r : Route) (t : Task V E) :
    handOvers r t = [] ∨ (handOvers r t = [.handOver] ∧ r = .blocking true ∧ t = .cancelled) := by
  unfold handOvers
  split <;> simp

@[simp] theorem handOvers_awaiting (r : Route) : handOvers r (.awaiting : Task V E) = [] := by
  simp [handOvers]
@[simp] theorem handOvers_ending (r : Route) (l : Ending) :
    handOvers r (.ending l : Task V E) = [] := by simp [handOvers]
@[simp] theorem handOvers_returned (r : Route) (v : V) :
    handOvers r (.returned v : Task V E) = [] := by simp [handOvers]
@[simp] theorem handOvers_raised (r : Route) (e : Raised E) :
    handOvers r (.raised e : Task V E) = [] := by simp [handOvers]

structure QueueValid (r : Route) (s : State V E) : Prop where
  outer_pending : s.call.outer.state = none → s.call.outer.callbacks = [.outerDone,.wakeup] ∧
    s.call.task = .awaiting ∧ s.call.mustCancel = false ∧ queued .outerDone s.ready = []
  future_pending : s.call.future.state = none → ∃ inner : Bool,
    s.call.future.callbacks =
      .retrieve :: ((if inner then [.innerDone] else []) ++ handOvers r s.call.task) ∧
    (s.call.outer.state = none → inner = true)
  future_done : ∀ x, s.call.future.state = some x →
    ∃ o, s.call.worker.posted? = some o ∧ x = outcomeOf o
  settled : s.call.future.state ≠ none → queued .settle s.ready = []
  unsettled : s.call.future.state = none →
    queued .settle s.ready = s.call.worker.posted?.toList.map .settle
  asleep : s.call.task ≠ .awaiting ∨ s.call.outer.state = none →
    queued .wakeup s.ready = []
  woken : s.call.task = .awaiting → s.call.outer.state ≠ none →
    queued .wakeup s.ready = [.wakeup]
  inner : s.call.outer.state = none → s.call.future.state ≠ none → .innerDone ∈ s.ready
  outer_done : ∀ x, s.call.outer.state = some x → x = .cancelled ∨ s.call.future.state = some x

theorem init_queueValid (r : Route) : QueueValid r (init : State V E) where
  outer_pending _ := ⟨rfl,rfl,rfl,rfl⟩
  future_pending _ := ⟨true,by simp [init,start,handOvers],fun _ => rfl⟩
  future_done _ h := by simp [init,start] at h
  settled h := absurd rfl h
  unsettled _ := rfl
  asleep _ := rfl
  woken _ h := absurd rfl h
  inner _ h := absurd rfl h
  outer_done _ h := by simp [init,start] at h

/-- The queue facts read the two futures, the task, the queue and what was posted. -/
theorem QueueValid.frame {r : Route} {s t : State V E} (hi : QueueValid r s)
    (hf : t.call.future = s.call.future) (ho : t.call.outer = s.call.outer)
    (hm : t.call.mustCancel = s.call.mustCancel) (ht : t.call.task = s.call.task)
    (hp : t.call.worker.posted? = s.call.worker.posted?) (hr : t.ready = s.ready) :
    QueueValid r t := by
  obtain ⟨h1,h2,h3,h4,h5,h6,h7,h8,h9⟩ := hi
  constructor <;> simp only [hf,ho,hm,ht,hp,hr] <;> assumption

theorem QueueValid.future_pending_of_unposted {r : Route} {s : State V E} (hi : QueueValid r s)
    (hp : s.call.worker.posted? = none) : s.call.future.state = none := by
  cases hx : s.call.future.state with
  | none => rfl
  | some x =>
    obtain ⟨o,ho,_⟩ := hi.future_done x hx
    simp [hp] at ho

/-- A worker step that posts nothing leaves the queue facts alone. -/
theorem QueueValid.worker {r : Route} {s : State V E} (hi : QueueValid r s) {w : Worker V E}
    (hw : w.posted? = s.call.worker.posted?) (flag : Bool) (token : List ℕ)
    (events : List (Event V E)) :
    QueueValid r (s.after
      {call := {s.call with worker := w, cancelled := flag, token := token}, events := events}) :=
  hi.frame rfl rfl rfl rfl hw (by simp)

theorem work_queueValid {r : Route} {s : State V E} {e : Effect V E} (hi : QueueValid r s)
    (he : work r s.call = some e) : QueueValid r (s.after e) := by
  cases hw : s.call.worker with
  | spawned =>
    cases r with
    | native =>
      simp only [work,hw] at he
      cases he
      exact hi.worker (by simp [hw,Worker.posted?]) _ _ _
    | blocking d => simp [work,hw] at he
  | appended h =>
    simp only [work,hw] at he
    cases he
    refine hi.worker ?_ _ _ _
    cases s.call.cancelled <;> simp [hw,Worker.posted?]
  | finished o =>
    simp only [work,hw] at he
    cases he
    have hf : s.call.future.state = none := hi.future_pending_of_unposted (by simp [hw,Worker.posted?])
    have hs := hi.unsettled hf
    obtain ⟨h1,h2,h3,_,_,h6,h7,h8,h9⟩ := hi
    constructor <;> simp_all [Worker.posted?,queued_cons]
  | calling h => simp [work,hw] at he
  | posted o => simp [work,hw] at he
  | _ =>
    simp only [work,hw] at he
    cases he
    exact hi.worker (by simp [hw,Worker.posted?]) _ _ _

theorem threadStep_queueValid {r : Route} {s : State V E} {a : ThreadAction V E} {e : Effect V E}
    (hi : QueueValid r s) (he : threadStep r s.call a = some e) : QueueValid r (s.after e) := by
  cases a with
  | newToken h =>
    cases r <;> cases hw : s.call.worker <;> simp only [threadStep,hw] at he <;> cases he
    exact hi.worker (by simp [hw,Worker.posted?]) _ _ _
  | work => exact work_queueValid hi he
  | callReturns o =>
    cases hw : s.call.worker with
    | calling h =>
      cases h <;> simp only [threadStep,hw] at he <;> cases he <;>
        exact hi.worker (by simp [hw,Worker.posted?]) _ _ _
    | _ => simp [threadStep,hw] at he
  | discard =>
    cases hd : s.call.discards with
    | nil => simp [threadStep,hd] at he
    | cons v vs =>
      simp only [threadStep,hd] at he
      cases he
      exact hi.frame rfl rfl rfl rfl rfl (by simp)

section Callbacks
variable {r : Route} {s : State V E} {ks : List (Callback V E)}

/-- A callback that is on the queue only to be run leaves with nothing else changed. -/
theorem QueueValid.drop {k : Callback V E} (hi : QueueValid r s) (hr : s.ready = k :: ks)
    (hs : k.kind ≠ .settle) (hw : k.kind ≠ .wakeup)
    (hk : k.kind = .innerDone → s.call.outer.state ≠ none ∨ s.call.future.state = none) :
    QueueValid r {s with ready := ks} := by
  have hsettle : queued .settle ks = queued .settle s.ready := by
    simp [hr,queued_cons,Callback.is,hs]
  have hwake : queued .wakeup ks = queued .wakeup s.ready := by
    simp [hr,queued_cons,Callback.is,hw]
  refine {hi with
    outer_pending := ?_
    settled := fun h => hsettle.trans (hi.settled h)
    unsettled := fun h => hsettle.trans (hi.unsettled h)
    asleep := fun h => hwake.trans (hi.asleep h)
    woken := fun ht ho => hwake.trans (hi.woken ht ho)
    inner := ?_}
  · intro ho
    obtain ⟨hc,ht,hm,hd⟩ := hi.outer_pending ho
    rw [hr,queued_cons] at hd
    refine ⟨hc,ht,hm,?_⟩
    split at hd
    · exact absurd hd (List.cons_ne_nil _ _)
    · exact hd
  · intro ho hf
    have hm := hi.inner ho hf
    rw [hr] at hm
    rcases List.mem_cons.mp hm with rfl | hm
    · rcases hk rfl with h | h
      · exact absurd ho h
      · exact absurd h hf
    · exact hm

theorem settle_queueValid {o : Except (Raised E) V} (hi : QueueValid r s)
    (hr : s.ready = .settle o :: ks) :
    QueueValid r ({s with ready := ks}.after (settle s.call o)) := by
  have hf : s.call.future.state = none := by
    by_contra h
    simpa [hr,queued_cons] using hi.settled h
  obtain ⟨b,hb,hbo⟩ := hi.future_pending hf
  obtain ⟨hp,hks⟩ : s.call.worker.posted? = some o ∧ queued .settle ks = [] := by
    have hs := hi.unsettled hf
    cases hp : s.call.worker.posted? with
    | none => simp [hr,queued_cons,hp] at hs
    | some o' =>
      obtain ⟨rfl,hks⟩ : o = o' ∧ queued .settle ks = [] := by simpa [hr,queued_cons,hp] using hs
      exact ⟨rfl,hks⟩
  have hw : queued .wakeup ks = queued .wakeup s.ready := by simp [hr,queued_cons]
  simp only [settle,Future.done_eq_false.mpr hf,Future.finish_of_pending hf,hb]
  refine ⟨?_,?_,?_,?_,?_,?_,?_,?_,?_⟩
  · intro ho
    obtain ⟨hc,ht,hm,hod⟩ := hi.outer_pending ho
    have hod' : queued .outerDone ks = [] := by simpa [hr,queued_cons] using hod
    refine ⟨hc,ht,hm,?_⟩
    cases b <;> simp [queued_cons,hod']
  · simp
  · intro x hx
    exact ⟨o,hp,by simpa using hx.symm⟩
  · intro _
    cases b <;> simp [queued_cons,hks]
  · simp
  · intro h
    cases b <;> simp [queued_cons,hw,hi.asleep h]
  · intro ht ho
    cases b <;> simp [queued_cons,hw,hi.woken ht ho]
  · intro ho _
    simp [hbo ho]
  · intro x hx
    exact Or.inl ((hi.outer_done x hx).resolve_right (by simp [hf]))

theorem innerDone_queueValid (hi : QueueValid r s) (hr : s.ready = .innerDone :: ks) :
    QueueValid r ({s with ready := ks}.after (innerDone s.call)) := by
  have hdrop (h : s.call.outer.state ≠ none ∨ s.call.future.state = none) :
      QueueValid r {s with ready := ks} :=
    hi.drop hr (by simp [Callback.kind]) (by simp [Callback.kind]) (fun _ => h)
  cases ho : s.call.outer.state with
  | some x =>
    have hd := hdrop (Or.inl (by simp [ho]))
    cases x <;> cases hf : s.call.future.state <;>
      simpa [innerDone,ho,hf,State.after,Future.finish] using hd
  | none =>
    cases hf : s.call.future.state with
    | none => simpa [innerDone,ho,hf,State.after] using hdrop (Or.inr hf)
    | some x =>
      obtain ⟨hc,ht,_,_⟩ := hi.outer_pending ho
      have hs : queued .settle ks = queued .settle s.ready := by simp [hr,queued_cons]
      have hw : queued .wakeup ks = [] := by simpa [hr,queued_cons] using hi.asleep (Or.inr ho)
      simp only [innerDone,ho,hf,Future.finish_of_pending ho,hc]
      refine ⟨?_,?_,hi.future_done,?_,?_,?_,?_,?_,?_⟩
      · simp
      · simp [hf]
      · intro h
        simp [queued_cons,hs,hi.settled h]
      · simp [hf]
      · simp [ht]
      · simp [queued_cons,hw]
      · simp
      · intro y hy
        exact Or.inr (by simpa [hf] using hy)

theorem outerDone_queueValid (hi : QueueValid r s) (hr : s.ready = .outerDone :: ks) :
    QueueValid r ({s with ready := ks}.after (outerDone s.call)) := by
  have ho : s.call.outer.state ≠ none := by
    intro ho
    simpa [hr,queued_cons] using (hi.outer_pending ho).2.2.2
  have hd : QueueValid r {s with ready := ks} :=
    hi.drop hr (by simp [Callback.kind]) (by simp [Callback.kind]) (by simp [Callback.kind])
  cases hf : s.call.future.done with
  | true => simpa [outerDone,hf,State.after] using hd
  | false =>
    obtain ⟨b,hb,_⟩ := hi.future_pending (Future.done_eq_false.mp hf)
    have hkept : (handOvers r s.call.task).filter (fun k => !Callback.is .innerDone k) =
        handOvers r s.call.task := by
      unfold handOvers
      split <;> simp
    simp only [outerDone,hf,State.after,Bool.false_eq_true,↓reduceIte,List.append_nil]
    refine {hd with outer_pending := fun h => absurd h ho, future_pending := ?_}
    intro _
    refine ⟨false,?_,fun h => absurd h ho⟩
    simp only [Future.removeDoneCallback,hb]
    cases b <;> simp [List.filter_cons,hkept]

/-- A task that wakes was awaiting a done future, and no other wake-up of it is queued. -/
theorem QueueValid.awake (hi : QueueValid r s) (hr : s.ready = .wakeup :: ks) :
    s.call.task = .awaiting ∧ s.call.outer.state ≠ none ∧ queued .wakeup ks = [] := by
  by_cases h : s.call.task ≠ .awaiting ∨ s.call.outer.state = none
  · simpa [hr,queued_cons] using hi.asleep h
  · rw [not_or,not_not] at h
    refine ⟨h.1,h.2,?_⟩
    simpa [hr,queued_cons] using hi.woken h.1 h.2

/-- Waking ends the await: with the outer future done, a task that no longer awaits,
and has not left its result to `discard`, keeps the queue facts. -/
theorem QueueValid.wake (hi : QueueValid r s) (hr : s.ready = .wakeup :: ks) {t : Task V E}
    (ht : t ≠ .awaiting) (hh : s.call.future.state = none → handOvers r t = [])
    (events : List (Event V E)) :
    QueueValid r ({s with ready := ks}.after
      {call := {s.call with mustCancel := false, task := t}, events := events}) := by
  obtain ⟨hta,ho,hw⟩ := hi.awake hr
  have hs : queued .settle ks = queued .settle s.ready := by simp [hr,queued_cons]
  simp only [State.after,List.append_nil]
  refine ⟨fun h => absurd h ho,?_,hi.future_done,?_,?_,fun _ => hw,fun h => absurd h ht,
    fun h => absurd h ho,hi.outer_done⟩
  · intro hf
    obtain ⟨b,hb,_⟩ := hi.future_pending hf
    have hna : handOvers r s.call.task = [] := by
      rw [hta]
      cases r <;> simp [handOvers]
    exact ⟨b,by simp [hb,hna,hh hf],fun h => absurd h ho⟩
  · exact fun hf => hs.trans (hi.settled hf)
  · exact fun hf => hs.trans (hi.unsettled hf)

theorem interrupt_queueValid (hi : QueueValid r s) (hr : s.ready = .wakeup :: ks) :
    QueueValid r ({s with ready := ks}.after (interrupt r s.call)) := by
  cases r with
  | blocking d => exact hi.wake hr (by simp) (by cases d <;> simp [handOvers]) _
  | native => exact hi.wake hr (by simp) (by simp [handOvers]) _

theorem wakeup_queueValid (hi : QueueValid r s) (hr : s.ready = .wakeup :: ks) :
    QueueValid r ({s with ready := ks}.after (wakeup r s.call)) := by
  obtain ⟨_,ho,_⟩ := hi.awake hr
  obtain ⟨x,hx⟩ := Option.ne_none_iff_exists'.mp ho
  cases hm : s.call.mustCancel with
  | true => simpa [wakeup,hm] using interrupt_queueValid hi hr
  | false =>
    cases x with
    | cancelled => simpa [wakeup,hm,hx] using interrupt_queueValid hi hr
    | result v =>
      simp only [wakeup,hm,hx,Bool.false_eq_true,↓reduceIte]
      exact hi.wake hr (by simp) (by cases r <;> simp [handOvers]) _
    | exception e =>
      have hf : s.call.future.state ≠ none := by
        rcases hi.outer_done _ hx with h | h <;> simp_all
      simp only [wakeup,hm,hx,Bool.false_eq_true,↓reduceIte]
      cases r <;> cases e <;> exact hi.wake hr (by simp) (fun h => absurd h hf) _

theorem handOver_queueValid (hi : QueueValid r s) (hr : s.ready = .handOver :: ks) :
    QueueValid r ({s with ready := ks}.after (handOver s.call)) := by
  have hd : QueueValid r {s with ready := ks} :=
    hi.drop hr (by simp [Callback.kind]) (by simp [Callback.kind]) (by simp [Callback.kind])
  unfold handOver
  split <;> exact hd.frame rfl rfl rfl rfl rfl (by simp)

theorem runCallback_queueValid {k : Callback V E} (hi : QueueValid r s) (hr : s.ready = k :: ks) :
    QueueValid r ({s with ready := ks}.after (runCallback r s.call k)) := by
  cases k with
  | settle o => exact settle_queueValid hi hr
  | retrieve =>
    have hd : QueueValid r {s with ready := ks} :=
      hi.drop hr (by simp [Callback.kind]) (by simp [Callback.kind]) (by simp [Callback.kind])
    simpa [runCallback,State.after] using hd
  | innerDone => exact innerDone_queueValid hi hr
  | outerDone => exact outerDone_queueValid hi hr
  | wakeup => exact wakeup_queueValid hi hr
  | handOver => exact handOver_queueValid hi hr

end Callbacks

theorem cancelTask_queueValid {r : Route} {s : State V E} {e : Effect V E} (hi : QueueValid r s)
    (he : cancelTask s.call = some e) : QueueValid r (s.after e) := by
  unfold cancelTask at he
  split at he
  · next ht =>
    split at he
    · next ho =>
      rw [Future.finish_of_pending ho,(hi.outer_pending ho).1] at he
      cases he
      have hw := hi.asleep (Or.inr ho)
      refine ⟨?_,?_,hi.future_done,?_,?_,?_,?_,?_,?_⟩
      · simp
      · intro hf
        obtain ⟨b,hb,_⟩ := hi.future_pending hf
        exact ⟨b,hb,by simp⟩
      · intro hf
        simp [queued_cons,hi.settled hf]
      · intro hf
        simp [queued_cons,hi.unsettled hf]
      · simp [ht]
      · simp [queued_cons,hw]
      · simp
      · intro x hx
        exact Or.inl (by simpa using hx.symm)
    · next x ho =>
      cases he
      simp only [State.after,List.append_nil]
      exact {hi with outer_pending := fun h => absurd h (by simp [ho])}
  · cases he

/-- Inside `_end_the_call` the outer future is done, and nothing wakes the task again. -/
theorem QueueValid.ending {r : Route} {s : State V E} (hi : QueueValid r s) {l l' : Ending}
    (hl : s.call.task = .ending l) (flag : Bool) (token : List ℕ) (events : List (Event V E)) :
    QueueValid r (s.after
      {call := {s.call with task := .ending l', cancelled := flag, token := token},
        events := events}) := by
  have ho : s.call.outer.state ≠ none := by
    intro ho
    simpa [hl] using (hi.outer_pending ho).2.1
  have hh : handOvers r (.ending l' : Task V E) = handOvers r s.call.task := by
    rw [hl]
    cases r <;> simp [handOvers]
  simp only [State.after,List.append_nil]
  refine {hi with
    outer_pending := fun h => absurd h ho
    future_pending := fun hf => by simpa [hh] using hi.future_pending hf
    asleep := fun _ => hi.asleep (Or.inl (by simp [hl]))
    woken := fun h => by simp at h}

theorem discardOnResult_queueValid {r : Route} {s : State V E} {l : Ending} (hi : QueueValid r s)
    (hl : s.call.task = .ending l) : QueueValid r (s.after (discardOnResult r s.call)) := by
  have ho : s.call.outer.state ≠ none := by
    intro ho
    simpa [hl] using (hi.outer_pending ho).2.1
  have ha := hi.asleep (Or.inl (by simp [hl]))
  have hh : handOvers r s.call.task = [] := by
    rw [hl]
    cases r <;> simp [handOvers]
  unfold discardOnResult
  split
  · cases hf : s.call.future.state with
    | none =>
      obtain ⟨b,hb,_⟩ := hi.future_pending hf
      rw [hh] at hb
      rw [Future.addDoneCallback_of_pending hf]
      refine ⟨fun h => absurd h ho,?_,?_,?_,?_,?_,?_,fun h => absurd h ho,?_⟩
      · exact fun _ => ⟨b,by simp [hb,handOvers],fun h => absurd h ho⟩
      · simp [hf]
      · simp [hf]
      · simpa using hi.unsettled
      · simpa using ha
      · simp
      · simpa using hi.outer_done
    | some x =>
      rw [Future.addDoneCallback_of_done hf]
      refine ⟨fun h => absurd h ho,?_,hi.future_done,?_,?_,?_,?_,fun h => absurd h ho,hi.outer_done⟩
      · simp [hf]
      · simpa [queued_cons] using hi.settled
      · simp [hf]
      · simpa [queued_cons] using ha
      · simp
  · next hr =>
    have hn : handOvers r (.cancelled : Task V E) = [] := by
      cases r with
      | blocking d => cases d <;> simp_all [handOvers]
      | native => simp [handOvers]
    simp only [State.after,List.append_nil]
    refine {hi with
      outer_pending := fun h => absurd h ho
      future_pending := fun hf => by simpa [hh,hn] using hi.future_pending hf
      asleep := fun _ => ha
      woken := fun h => by simp at h}

theorem endTheCall_queueValid {r : Route} {s : State V E} {e : Effect V E} (hi : QueueValid r s)
    (he : endTheCall r s.call = some e) : QueueValid r (s.after e) := by
  unfold endTheCall at he
  split at he
  · next hl =>
    cases he
    exact hi.ending hl _ _ _
  · next hl =>
    cases he
    exact hi.ending hl _ _ _
  · next hl =>
    split at he <;> cases he <;> exact hi.ending hl _ _ _
  · next hl =>
    cases he
    exact hi.ending hl _ _ _
  · next hl =>
    cases he
    exact discardOnResult_queueValid hi hl
  · cases he

/-- Every step keeps the queue facts. -/
theorem step_queueValid {r : Route} {s t : State V E} {a : Action V E} (hi : QueueValid r s)
    (he : step r s a = some t) : QueueValid r t := by
  cases step_move he with
  | thread ha => exact threadStep_queueValid hi ha
  | cancel _ hc => exact cancelTask_queueValid hi hc
  | loop _ hr => exact runCallback_queueValid hi hr
  | endCall hc => exact endTheCall_queueValid hi hc

theorem reachable_queueValid {r : Route} {s : State V E}
    (hs : Runs.Reachable (step r) Runs.free init s) : QueueValid r s :=
  hs.induct (init_queueValid r) (fun _ _ _ _ hi _ he => step_queueValid hi he)

/-- Nothing is left to run: no party can take a step, though the task may be cancelled. -/
def Quiescent (r : Route) (s : State V E) : Prop := ∀ a t, step r s a = some t → a = .cancel

theorem isEnding_eq_true {t : Task V E} : t.isEnding = true ↔ ∃ l, t = .ending l := by
  cases t <;> simp [Task.isEnding]

theorem endTheCall_of_ending {r : Route} {c : Call V E} {l : Ending} (hl : c.task = .ending l) :
    ∃ e, endTheCall r c = some e := by
  cases l with
  | readToken => cases ht : c.token <;> simp [endTheCall,hl,ht]
  | _ => simp [endTheCall,hl]

/-- A worker that has not posted its outcome has a step to take, which may wait for a token or for
its call to return. -/
theorem thread_of_unposted {r : Route} {c : Call V E} (h : c.worker.posted? = none) (t : ℕ)
    (o : Except (Raised E) V) : ∃ a e, (a = .work ∨ a = .newToken t ∨ a = .callReturns o) ∧
      threadStep r c a = some e := by
  cases hw : c.worker with
  | spawned =>
    cases r with
    | native => exact ⟨.work,_,Or.inl rfl,by simp only [threadStep,work,hw]; rfl⟩
    | blocking d => exact ⟨.newToken t,_,Or.inr (Or.inl rfl),by simp only [threadStep,hw]; rfl⟩
  | calling h =>
    have hx : ∃ e, threadStep r c (.callReturns o) = some e := by
      cases h <;> simp [threadStep,hw]
    exact ⟨.callReturns o,hx.choose,Or.inr (Or.inr rfl),hx.choose_spec⟩
  | posted o => simp [hw,Worker.posted?] at h
  | _ => exact ⟨.work,_,Or.inl rfl,by simp only [threadStep,work,hw]; rfl⟩

theorem threadStep_of_posted {r : Route} {c : Call V E} {o : Except (Raised E) V}
    (h : c.worker.posted? = some o) (hd : c.discards = []) (a : ThreadAction V E) :
    threadStep r c a = none := by
  have hw : c.worker = .posted o := by
    cases hw : c.worker <;> simp_all [Worker.posted?]
  cases a <;> simp [threadStep,work,hw,hd]

theorem quiescent_iff {r : Route} {s : State V E} : Quiescent r s ↔
    (∃ o, s.call.worker.posted? = some o) ∧ s.ready = [] ∧ s.call.task.isEnding = false ∧
      s.call.discards = [] := by
  constructor
  · intro hq
    have ht : s.call.task.isEnding = false := by
      by_contra h
      obtain ⟨l,hl⟩ := isEnding_eq_true.mp (by simpa using h)
      obtain ⟨e,he⟩ := endTheCall_of_ending (r := r) hl
      have := hq .endCall (s.after e) (by simp [step,he])
      cases this
    have hthread : ∀ a, threadStep r s.call a = none := by
      intro a
      cases he : threadStep r s.call a with
      | none => rfl
      | some e =>
        have := hq (.thread a) (s.after e) (by simp [step,he])
        cases this
    refine ⟨?_,?_,ht,?_⟩
    · refine Option.ne_none_iff_exists'.mp (fun h => ?_)
      obtain ⟨a,e,_,he⟩ := thread_of_unposted (r := r) h 0 (.error (.maculaError ""))
      rw [hthread] at he
      cases he
    · cases hr : s.ready with
      | nil => rfl
      | cons k ks =>
        have := hq .loop _ (by simp only [step,ht,hr,Bool.false_eq_true,↓reduceIte]; rfl)
        cases this
    · cases hd : s.call.discards with
      | nil => rfl
      | cons v vs =>
        have := hthread .discard
        simp [threadStep,hd] at this
  · rintro ⟨⟨o,ho⟩,hr,ht,hd⟩ a t he
    cases a with
    | thread a => simp [step,threadStep_of_posted ho hd] at he
    | cancel => rfl
    | loop => simp [step,ht,hr] at he
    | endCall => cases hk : s.call.task <;> simp_all [step,endTheCall,Task.isEnding]

/-- With its outcome posted and nothing queued, the future of a call is settled with it. -/
theorem QueueValid.future_of_posted {r : Route} {s : State V E} (hi : QueueValid r s)
    {o : Except (Raised E) V} (ho : s.call.worker.posted? = some o) (hr : s.ready = []) :
    s.call.future.state = some (outcomeOf o) := by
  cases hf : s.call.future.state with
  | none => simpa [hr,ho] using hi.unsettled hf
  | some x =>
    obtain ⟨o',ho',rfl⟩ := hi.future_done x hf
    rw [ho] at ho'
    cases ho'
    rfl

theorem QueueValid.not_awaiting {r : Route} {s : State V E} (hi : QueueValid r s)
    {o : Except (Raised E) V} (ho : s.call.worker.posted? = some o) (hr : s.ready = []) :
    s.call.task ≠ .awaiting := by
  have hf := hi.future_of_posted ho hr
  intro ht
  cases ho : s.call.outer.state with
  | none => simpa [hr] using hi.inner ho (by simp [hf])
  | some x => simpa [hr] using hi.woken ht (by simp [ho])

theorem Quiescent.settled {r : Route} {s : State V E} (hq : Quiescent r s)
    (hi : QueueValid r s) : ∃ o, s.call.worker.posted? = some o ∧
      s.call.future.state = some (outcomeOf o) := by
  obtain ⟨⟨o,ho⟩,hr,_,_⟩ := quiescent_iff.mp hq
  exact ⟨o,ho,hi.future_of_posted ho hr⟩

theorem Quiescent.not_awaiting {r : Route} {s : State V E} (hq : Quiescent r s)
    (hi : QueueValid r s) : s.call.task ≠ .awaiting := by
  obtain ⟨⟨o,ho⟩,hr,_,_⟩ := quiescent_iff.mp hq
  exact hi.not_awaiting ho hr

end MaculaPy.Blocking
