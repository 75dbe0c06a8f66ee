import MaculaPy.Blocking.Waits

/-! # A cancelled task does not wait for its call

A task that is cancelled while it awaits has its wakeup in the ready queue. The loop takes the
queue from the front and everything else adds to its end, so once it has run as many callbacks as
were queued the task has gone into `_end_the_call` and out of it, whatever its thread did.
-/
namespace MaculaPy.Blocking
open Asyncio History
variable {V E : Type*}

section Queue
variable {α : Type*} {x y : α} {n : ℕ} {q r : List α}

/-- Among the first `n` of a queue is `x`. -/
def Within (x : α) (n : ℕ) (q : List α) : Prop :=
  ∃ before after, q = before ++ x :: after ∧ before.length < n

theorem Within.of_mem (h : x ∈ q) : Within x q.length q := by
  obtain ⟨before,after,rfl⟩ := List.append_of_mem h
  refine ⟨before,after,rfl,?_⟩
  rw [List.length_append,List.length_cons]
  omega

theorem Within.append (h : Within x n q) : Within x n (q ++ r) := by
  obtain ⟨before,after,rfl,hn⟩ := h
  exact ⟨before,after ++ r,by simp,hn⟩

theorem Within.tail (h : Within x (n + 1) (y :: q)) (hy : y ≠ x) : Within x n q := by
  obtain ⟨before,after,hq,hn⟩ := h
  cases before with
  | nil =>
    cases hq
    exact absurd rfl hy
  | cons z before =>
    cases hq
    refine ⟨before,after,rfl,?_⟩
    rw [List.length_cons] at hn
    omega

theorem not_within_zero : ¬ Within x 0 q := by
  rintro ⟨_,_,_,hn⟩
  exact absurd hn (Nat.not_lt_zero _)

end Queue

/-- A callback that leaves the task at its await found nothing to wake it with. -/
theorem runCallback_awaiting {r : Route} {c : Call V E} {k : Callback V E}
    (h : (runCallback r c k).call.task = .awaiting) : c.task = .awaiting ∧
      (k = .wakeup → c.mustCancel = false ∧ c.outer.state = none) := by
  cases k with
  | wakeup =>
    simp only [runCallback,wakeup] at h
    split at h
    case h_1 hw =>
      refine ⟨h,fun _ => ?_⟩
      cases hm : c.mustCancel with
      | true => simp [hm] at hw
      | false => simpa [hm] using hw
    case h_2 => cases h
    case h_3 => split at h <;> cases h
    case h_4 => cases r <;> cases h
  | settle o =>
    simp only [runCallback,settle] at h
    split at h <;> exact ⟨h,by simp⟩
  | retrieve => exact ⟨h,by simp⟩
  | innerDone =>
    simp only [runCallback,innerDone] at h
    split at h <;> exact ⟨h,by simp⟩
  | outerDone =>
    simp only [runCallback,outerDone] at h
    split at h <;> exact ⟨h,by simp⟩
  | handOver =>
    simp only [runCallback,handOver] at h
    split at h <;> exact ⟨h,by simp⟩

theorem endTheCall_not_awaiting {r : Route} {c : Call V E} {e : Effect V E}
    (he : endTheCall r c = some e) : e.call.task ≠ .awaiting := by
  unfold endTheCall at he
  split at he
  · cases he
    simp
  · cases he
    simp
  · split at he <;> cases he <;> simp
  · cases he
    simp
  · cases he
    unfold discardOnResult
    split <;> simp
  · cases he

def LoopAction.isRun {ι X : Type*} : LoopAction ι X V E → Bool
  | .run => true
  | _ => false

namespace Loop
open Runs
variable {ι X : Type*} [DecidableEq ι] {route : ι → Route} {l l' l1 : Loop ι X V E}
  {a : LoopAction ι X V E} {i : ι} {c : Call V E} {n : ℕ}

/-- A task that was cancelled has ended or is about to: its wakeup is among the next `n`. -/
def Due (l : Loop ι X V E) (i : ι) (n : ℕ) : Prop :=
  ∃ c, l.calls i = some c ∧ c.interrupted ∧
    (c.task = .awaiting → Within (.inl (i,.wakeup)) n l.ready)

theorem after_waiting {j : ι} {d : Call V E} {e : Effect V E} (hc : l.calls i = some c)
    (hd : l.calls j = some d) (ht : e.call.task = .awaiting → d.task = .awaiting) :
    ∃ c', (l.after j e).calls i = some c' ∧ (c'.task = .awaiting → c.task = .awaiting) := by
  by_cases hj : i = j
  · subst hj
    rw [hd] at hc
    cases hc
    exact ⟨e.call,after_calls_self l i e,ht⟩
  · exact ⟨c,(after_calls_of_ne l e hj).trans hc,id⟩

/-- What a step does to a call, and to the queue when it takes nothing from it. -/
theorem step_adds (he : step route l a = some l') (ha : a.isRun = false)
    (hc : l.calls i = some c) : (∃ c', l'.calls i = some c' ∧
      (c'.task = .awaiting → c.task = .awaiting)) ∧ ∃ ks, l'.ready = l.ready ++ ks := by
  cases step_move he with
  | @start j hb hj =>
    have hne : i ≠ j := by
      rintro rfl
      rw [hc] at hj
      cases hj
    exact ⟨⟨c,by simp [hne,hc],id⟩,[],(List.append_nil _).symm⟩
  | thread hf hd ht =>
    exact ⟨after_waiting hc hd fun h => by rwa [threadStep_task ht] at h,_,rfl⟩
  | cancelTask hb hd ht =>
    exact ⟨after_waiting hc hd fun h => by rwa [cancelTask_task ht] at h,_,rfl⟩
  | run => cases ha
  | other => cases ha
  | endStep hb hd ht =>
    exact ⟨after_waiting hc hd fun h => absurd h (endTheCall_not_awaiting ht),_,rfl⟩
  | soon => exact ⟨⟨c,hc,id⟩,_,rfl⟩

theorem step_takes (he : step route l a = some l') (ha : a.isRun = true)
    (hc : l.calls i = some c) : ∃ c' x ks ls, l'.calls i = some c' ∧ l.ready = x :: ks ∧
      l'.ready = ks ++ ls ∧ (c'.task = .awaiting → c.task = .awaiting ∧
        (x = .inl (i,.wakeup) → c.mustCancel = false ∧ c.outer.state = none)) := by
  cases step_move he with
  | @run j k ks d hb hr hd =>
    by_cases hj : i = j
    · subst hj
      rw [hd] at hc
      cases hc
      refine ⟨_,_,ks,_,after_calls_self _ i _,hr,rfl,?_⟩
      intro ht
      obtain ⟨hw,hk⟩ := runCallback_awaiting ht
      refine ⟨hw,fun hx => hk ?_⟩
      cases hx
      rfl
    · refine ⟨c,_,ks,_,(after_calls_of_ne _ _ hj).trans hc,hr,rfl,?_⟩
      intro ht
      refine ⟨ht,fun hx => ?_⟩
      cases hx
      exact absurd rfl hj
  | @other x ks hb hr =>
    exact ⟨c,_,ks,[],hc,hr,(List.append_nil ks).symm,fun ht => ⟨ht,by simp⟩⟩
  | start => cases ha
  | thread => cases ha
  | cancelTask => cases ha
  | endStep => cases ha
  | soon => cases ha

/-- A callback that is run brings the wakeup nearer, and nothing puts it off. -/
theorem step_due (hl : Reachable (step route) free init l) (he : step route l a = some l')
    (hd : Due l i n) : Due l' i (if a.isRun then n - 1 else n) := by
  obtain ⟨c,hc,hx,hw⟩ := hd
  obtain ⟨c1,hc1,hx1⟩ := step_interrupted hl he hc hx
  refine ⟨c1,hc1,hx1,?_⟩
  intro ht
  cases ha : a.isRun with
  | false =>
    obtain ⟨⟨c2,hc2,hback⟩,ks,hr⟩ := step_adds he ha hc
    rw [hc1] at hc2
    cases hc2
    rw [hr]
    exact (hw (hback ht)).append
  | true =>
    obtain ⟨c2,x,ks,ls,hc2,hr,hr',hback⟩ := step_takes he ha hc
    rw [hc1] at hc2
    cases hc2
    obtain ⟨hawait,hnone⟩ := hback ht
    have hin := hw hawait
    rw [hr] at hin
    have hne : x ≠ .inl (i,.wakeup) := by
      intro hxw
      obtain ⟨hm,ho⟩ := hnone hxw
      rw [Call.interrupted,hawait] at hx
      simp [hm,ho] at hx
    cases n with
    | zero => exact absurd hin not_within_zero
    | succ n =>
      rw [hr']
      exact (hin.tail hne).append

theorem run_due {as : List (LoopAction ι X V E)} (hl : Reachable (step route) free init l)
    (hr : Run (step route) free l as l') (hd : Due l i n) :
    Due l' i (n - as.countP LoopAction.isRun) := by
  induction hr generalizing n with
  | refl l => exact hd
  | @step s u v a as hok he hr ih =>
    have hu := step_due hl he hd
    have hv := ih (hl.tail hok he) hu
    cases ha : a.isRun with
    | false =>
      rw [ha] at hv
      rw [List.countP_cons_of_neg (by simp [ha])]
      exact hv
    | true =>
      rw [ha] at hv
      rw [List.countP_cons_of_pos ha,Nat.add_comm,← Nat.sub_sub]
      exact hv

theorem mem_of_own {k : Callback V E} {ks : List (Entry ι X V E)}
    (h : k ∈ own i ks) : .inl (i,k) ∈ ks := by
  obtain ⟨x,hx,hk⟩ := List.mem_filterMap.mp (mem_view.mp h)
  cases x with
  | inl y =>
    cases hk
    exact hx
  | inr y => cases hk

/-- The wakeup of a task that was just cancelled is queued. -/
theorem due_of_cancelled (hl : Reachable (step route) free init l)
    (he : step route l (.cancelTask i) = some l1) : Due l1 i l1.ready.length := by
  cases step_move he with
  | @cancelTask _ c e hb hc ht =>
    have hq := reachable_queueValid (reachable_call (hl.tail trivial he)
      (after_calls_self l i e))
    have hx := cancelTask_interrupted ht
    refine ⟨e.call,after_calls_self l i e,hx,?_⟩
    intro hw
    have ho : e.call.outer.state ≠ none := by
      intro ho
      have hm : e.call.mustCancel = false := (hq.outer_pending ho).2.2.1
      rw [Call.interrupted,hw] at hx
      simp [hm,ho] at hx
    have hk : queued .wakeup (own i (l.after i e).ready) = [.wakeup] := hq.woken hw ho
    have hin : .wakeup ∈ queued .wakeup (own i (l.after i e).ready) := by
      rw [hk]
      exact List.mem_singleton.mpr rfl
    exact .of_mem (mem_of_own (List.mem_of_mem_filter hin))

/-- Whatever the threads have done by then, once the loop has run as many callbacks as were queued
when the task was cancelled, the task has ended cancelled, or the loop is in its `_end_the_call`. -/
theorem cancelled_promptly {as : List (LoopAction ι X V E)}
    (hl : Reachable (step route) free init l) (he : step route l (.cancelTask i) = some l1)
    (hr : Run (step route) free l1 as l') (hn : l1.ready.length ≤ as.countP LoopAction.isRun) :
    ∃ c, l'.calls i = some c ∧ (c.task = .cancelled ∨ l'.busy = some i) := by
  have h1 := hl.tail trivial he
  obtain ⟨c,hc,hx,hw⟩ := run_due h1 hr (due_of_cancelled hl he)
  obtain ⟨bs,hb⟩ := h1
  have hv := reachable_valid ⟨bs ++ as,hb.trans hr⟩
  refine ⟨c,hc,?_⟩
  rw [Nat.sub_eq_zero_of_le hn] at hw
  cases ht : c.task with
  | awaiting => exact absurd (hw ht) not_within_zero
  | ending x => exact .inr ((hv.ending i c hc).mp (by rw [ht]; rfl))
  | returned v =>
    rw [Call.interrupted,ht] at hx
    exact hx.elim
  | raised e =>
    rw [Call.interrupted,ht] at hx
    exact hx.elim
  | cancelled => exact .inl rfl

/-- The thread of the call has not begun. -/
def threadAsleep : List (LoopAction ℕ Empty Unit Empty) :=
  [.run,.run,.endStep,.endStep,.endStep,.endStep]

theorem cancelled_promptly_threadAsleep : ∃ l l1 l' : Loop ℕ Empty Unit Empty,
    exec (step fun _ => .blocking true) init [.start 0] = some l ∧
    step (fun _ => .blocking true) l (.cancelTask 0) = some l1 ∧
    exec (step fun _ => .blocking true) l1 threadAsleep = some l' ∧ l'.busy = none ∧
    ∃ c, l'.calls 0 = some c ∧ (c.task = .cancelled ∨ l'.busy = some 0) := by
  obtain ⟨l,l1,l',hl,h1,hr,hb,hn⟩ : ∃ l l1 l' : Loop ℕ Empty Unit Empty,
      exec (step fun _ => .blocking true) init [.start 0] = some l ∧
      step (fun _ => .blocking true) l (.cancelTask 0) = some l1 ∧
      exec (step fun _ => .blocking true) l1 threadAsleep = some l' ∧ l'.busy = none ∧
      l1.ready.length = 2 := ⟨_,_,_,rfl,rfl,rfl,rfl,rfl⟩
  refine ⟨l,l1,l',hl,h1,hr,hb,?_⟩
  exact cancelled_promptly (.of_exec _ hl) h1 (.of_exec hr) (by rw [hn]; decide)

end Loop
end MaculaPy.Blocking
