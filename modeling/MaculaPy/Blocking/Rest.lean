import MaculaPy.Blocking.Waits
import MaculaPy.Foundation.Amortized
import Mathlib.Algebra.BigOperators.Group.Finset.Basic
import Mathlib.Algebra.Order.BigOperators.Group.Finset

/-! # Every call comes to rest

A potential pays for what the worker, the loop and the discard thread of a call have still to do.
Cancelling the task moves it about and adds nothing to it, so over any run each call takes at most
the steps it started with, and when no step is left nothing of any call is.
-/
namespace MaculaPy.Blocking
open Asyncio History
variable {V E : Type*}

/-- A callback pays for itself and for what it may start: `_end_the_call` after a wakeup, and a
discard after `hand_over`. -/
def Callback.weight : Callback V E → ℕ
  | .wakeup => 8
  | .handOver => 2
  | _ => 1

def weigh (ks : List (Callback V E)) : ℕ := Runs.total Callback.weight ks

/-- The steps of the worker, and the callback it posts. -/
def Worker.rank : Worker V E → ℕ
  | .spawned => 10
  | .created _ => 9
  | .appended _ => 8
  | .flagged _ => 7
  | .ready _ => 6
  | .calling _ => 5
  | .returned _ _ => 4
  | .freeing _ _ => 3
  | .finished _ => 2
  | .posted _ => 0

/-- The lines of `_end_the_call`, and the `hand_over` it adds. -/
def Task.rank : Task V E → ℕ
  | .ending .checkDone => 7
  | .ending .setFlag => 6
  | .ending .readToken => 5
  | .ending (.cancelToken _) => 4
  | .ending .addDiscard => 3
  | _ => 0

def Call.cost (c : Call V E) : ℕ :=
  c.worker.rank + c.task.rank + weigh c.future.callbacks + weigh c.outer.callbacks +
    c.discards.length

def State.cost (s : State V E) : ℕ := s.call.cost + weigh s.ready

@[simp] theorem weigh_nil : weigh ([] : List (Callback V E)) = 0 := rfl
@[simp] theorem weigh_cons (k : Callback V E) (ks : List (Callback V E)) :
    weigh (k :: ks) = k.weight + weigh ks := rfl
@[simp] theorem weigh_append (ks ls : List (Callback V E)) :
    weigh (ks ++ ls) = weigh ks + weigh ls := by
  induction ks with
  | nil => simp
  | cons k ks ih =>
    rw [List.cons_append,weigh_cons,weigh_cons,ih]
    omega

theorem weigh_filter_le (p : Callback V E → Bool) (ks : List (Callback V E)) :
    weigh (ks.filter p) ≤ weigh ks := by
  induction ks with
  | nil => simp
  | cons k ks ih =>
    by_cases hp : p k = true
    · simpa [hp] using ih
    · simp only [hp,List.filter_cons,weigh_cons]
      simp only [Bool.false_eq_true,if_false]
      omega

theorem finish_weigh (f : Future (Callback V E) V (Raised E)) (o : Outcome V (Raised E)) :
    weigh (f.finish o).1.callbacks + weigh (f.finish o).2 = weigh f.callbacks := by
  cases hs : f.state with
  | none => simp [Future.finish_of_pending hs]
  | some x => simp [Future.finish_of_done hs]

theorem addDoneCallback_weigh (f : Future (Callback V E) V (Raised E)) (k : Callback V E) :
    weigh (f.addDoneCallback k).1.callbacks + weigh (f.addDoneCallback k).2 =
      weigh f.callbacks + k.weight := by
  cases hs : f.state with
  | none => simp [Future.addDoneCallback_of_pending hs]
  | some x => simp [Future.addDoneCallback_of_done hs]

/-- What a call has to spend after a step, with what the step puts on the queue. -/
def Effect.cost (e : Effect V E) : ℕ := e.call.cost + weigh e.posts

theorem threadStep_cost {r : Route} {c : Call V E} {a : ThreadAction V E} {e : Effect V E}
    (he : threadStep r c a = some e) : e.cost + 1 ≤ c.cost := by
  cases a with
  | newToken h =>
    simp only [threadStep] at he
    split at he
    case h_1 hw =>
      cases he
      simp only [Effect.cost,Call.cost,hw,Worker.rank,weigh_nil]
      omega
    case h_2 => cases he
  | work =>
    simp only [threadStep,work] at he
    split at he
    case h_1 hw =>
      split at he
      case h_1 =>
        cases he
        simp only [Effect.cost,Call.cost,hw,Worker.rank,weigh_nil]
        omega
      case h_2 => cases he
    case h_3 hw =>
      cases he
      simp only [Effect.cost,Call.cost,hw]
      split <;> simp only [Worker.rank,weigh_nil] <;> omega
    all_goals
      next hw =>
        cases he <;>
          simp only [Effect.cost,Call.cost,hw,Worker.rank,weigh_nil,weigh_cons,
            Callback.weight] <;> omega
  | callReturns o =>
    simp only [threadStep] at he
    split at he
    case h_1 hw =>
      cases he
      simp only [Effect.cost,Call.cost,hw,Worker.rank,weigh_nil]
      omega
    case h_2 hw =>
      cases he
      simp only [Effect.cost,Call.cost,hw,Worker.rank,weigh_nil]
      omega
    case h_3 => cases he
  | discard =>
    simp only [threadStep] at he
    split at he
    case h_1 => cases he
    case h_2 v vs hd =>
      cases he
      simp only [Effect.cost,Call.cost,hd,List.length_cons,weigh_nil]
      omega

theorem runCallback_cost (r : Route) (c : Call V E) (k : Callback V E) :
    (runCallback r c k).cost + 1 ≤ c.cost + k.weight := by
  cases k with
  | settle o =>
    have hf := finish_weigh c.future (outcomeOf o)
    simp only [runCallback,settle]
    split
    · simp [Effect.cost,Callback.weight]
    · simp only [Effect.cost,Call.cost,Callback.weight]
      omega
  | retrieve => simp [runCallback,Effect.cost,Callback.weight]
  | innerDone =>
    simp only [runCallback,innerDone]
    split
    · simp [Effect.cost,Callback.weight]
    · next o _ _ =>
      have hf := finish_weigh c.outer o
      simp only [Effect.cost,Call.cost,Callback.weight]
      omega
    · simp [Effect.cost,Callback.weight]
  | outerDone =>
    have hf := weigh_filter_le (fun k => !Callback.is .innerDone k) c.future.callbacks
    simp only [runCallback,outerDone]
    split
    · simp [Effect.cost,Callback.weight]
    · simp only [Effect.cost,Call.cost,Callback.weight,Future.removeDoneCallback,weigh_nil]
      omega
  | wakeup =>
    simp only [runCallback,wakeup]
    split
    · simp only [Effect.cost,Callback.weight,weigh_nil]
      omega
    · simp only [Effect.cost,Call.cost,Callback.weight,Task.rank,weigh_nil]
      omega
    · split <;> simp only [Effect.cost,Call.cost,Callback.weight,Task.rank,weigh_nil] <;> omega
    · cases r <;>
        simp only [interrupt,Effect.cost,Call.cost,Callback.weight,Task.rank,weigh_nil] <;> omega
  | handOver =>
    simp only [runCallback,handOver]
    split
    · simp only [Effect.cost,Call.cost,Callback.weight,List.length_append,List.length_singleton,
        weigh_nil]
      omega
    · simp [Effect.cost,Callback.weight]

theorem endTheCall_cost {r : Route} {c : Call V E} {e : Effect V E}
    (he : endTheCall r c = some e) : e.cost + 1 ≤ c.cost := by
  unfold endTheCall at he
  split at he
  · next hl =>
    cases he
    simp only [Effect.cost,Call.cost,hl]
    split <;> simp only [Task.rank,weigh_nil] <;> omega
  · next hl =>
    cases he
    simp only [Effect.cost,Call.cost,hl,Task.rank,weigh_nil]
    omega
  · next hl =>
    split at he <;> cases he <;>
      simp only [Effect.cost,Call.cost,hl,Task.rank,weigh_nil] <;> omega
  · next hl =>
    cases he
    simp only [Effect.cost,Call.cost,hl,Task.rank,weigh_nil]
    omega
  · next hl =>
    cases he
    have hf := addDoneCallback_weigh c.future .handOver
    simp only [Callback.weight] at hf
    unfold discardOnResult
    split <;> simp only [Effect.cost,Call.cost,hl,Task.rank,weigh_nil] <;> omega
  · cases he

/-- Cancelling the task costs nothing and starts nothing that was not paid for. -/
theorem cancelTask_cost {c : Call V E} {e : Effect V E} (he : cancelTask c = some e) :
    e.cost = c.cost := by
  unfold cancelTask at he
  split at he
  · split at he
    · cases he
      have hf := finish_weigh c.outer .cancelled
      simp only [Effect.cost,Call.cost]
      omega
    · cases he
      rfl
  · cases he

/-- The threads and the loop take a step by themselves. -/
def LoopAction.spends {ι X : Type*} : LoopAction ι X V E → ℕ
  | .thread _ _ => 1
  | .run => 1
  | .endStep => 1
  | _ => 0

/-- A new call, and a callback of other code, bring in the steps that they take. -/
def LoopAction.earns {ι X : Type*} : LoopAction ι X V E → ℕ
  | .start _ => 21
  | .soon _ => 1
  | _ => 0

namespace Loop
open Runs
variable {ι X : Type*} [DecidableEq ι] {route : ι → Route} {l l' l0 : Loop ι X V E}
  {a : LoopAction ι X V E} {i : ι} {c : Call V E} {e : Effect V E} {n d : ℕ}

/-- What a started call has still to spend. -/
def cost (l : Loop ι X V E) (i : ι) : ℕ := ((l.at? i).map State.cost).getD 0

omit [DecidableEq ι] in
theorem foreign_length_cons (x : X) (ks : List (Entry ι X V E)) :
    (foreign (.inr x :: ks)).length = (foreign ks).length + 1 := by
  simp

theorem cost_of_calls (hc : l.calls i = some c) :
    l.cost i = c.cost + weigh (own i l.ready) := by
  simp [cost,at_of_calls hc,State.cost,callState]

theorem after_cost_self : (l.after i e).cost i = e.cost + weigh (own i l.ready) := by
  rw [cost_of_calls (after_calls_self l i e)]
  simp only [after,own_append,own_posts,weigh_append,Effect.cost]
  omega

/-- A call sees no other part of the queue than its own. -/
theorem at_of_own {ks : List (Entry ι X V E)} (h : own i ks = own i l.ready) :
    ({l with ready := ks} : Loop ι X V E).at? i = l.at? i := by
  have hs : ({l with ready := ks} : Loop ι X V E).callState i = l.callState i := by
    funext d
    simp [callState,h]
  rw [at?,at?,hs]

/-- All that the calls may still spend, and the callbacks of other code. -/
def Account (l : Loop ι X V E) (n : ℕ) : Prop :=
  l.Valid ∧ ∃ F : Finset ι, (∀ i, i ∈ F ↔ l.calls i ≠ none) ∧
    n = ∑ i ∈ F, l.cost i + (foreign l.ready).length

theorem init_account : Account (init : Loop ι X V E) 0 :=
  ⟨init_valid,∅,by simp [init],by simp [init]⟩

/-- A step of one call, which pays for it. -/
theorem Account.after (h : Account l n) (hv : (l0.after i e).Valid) (hc : l.calls i = some c)
    (hcalls : l0.calls = l.calls) (hf : foreign l0.ready = foreign l.ready)
    (hother : ∀ j, j ≠ i → l0.at? j = l.at? j)
    (hcost : e.cost + weigh (own i l0.ready) + d ≤ c.cost + weigh (own i l.ready)) :
    ∃ m, Account (l0.after i e) m ∧ m + d ≤ n := by
  obtain ⟨-,F,hF,rfl⟩ := h
  have hi : i ∈ F := (hF i).mpr (by simp [hc])
  refine ⟨_,⟨hv,F,?_,rfl⟩,?_⟩
  · intro j
    rw [hF j]
    by_cases hj : j = i
    · subst hj
      simp [hc]
    · rw [after_calls_of_ne l0 e hj,hcalls]
  · have hsame : ∑ j ∈ F.erase i, (l0.after i e).cost j = ∑ j ∈ F.erase i, l.cost j := by
      refine Finset.sum_congr rfl ?_
      intro j hj
      have hne := Finset.ne_of_mem_erase hj
      rw [cost,cost,after_at_of_ne l0 e hne,hother j hne]
    rw [← Finset.add_sum_erase F _ hi,← Finset.add_sum_erase F _ hi,hsame,after_cost_self,
      cost_of_calls hc,foreign_after,hf]
    omega

theorem amortized (route : ι → Route) :
    Amortized (step (X := X) (V := V) (E := E) route) LoopAction.spends LoopAction.earns
      Account where
  paid l a l' n hn he := by
    have hv := step_valid hn.1 he
    cases step_move he with
    | @start i hb hc =>
      obtain ⟨hl,F,hF,rfl⟩ := hn
      have hi : i ∉ F := fun h => (hF i).mp h hc
      refine ⟨_,⟨hv,insert i F,?_,rfl⟩,?_⟩
      · intro j
        by_cases hj : j = i
        · subst hj
          simp
        · simp [hj,hF j]
      · have hsame : ∑ j ∈ F, ({l with calls := Function.update l.calls i (some Blocking.start)} :
            Loop ι X V E).cost j = ∑ j ∈ F, l.cost j := by
          refine Finset.sum_congr rfl ?_
          intro j hj
          have hne : j ≠ i := fun h => hi (h ▸ hj)
          simp only [cost,at?,Function.update_of_ne hne]
          rfl
        have hnew : ({l with calls := Function.update l.calls i (some Blocking.start)} :
            Loop ι X V E).cost i = 21 := by
          rw [cost_of_calls (c := Blocking.start) (by simp),(hl.unstarted i hc).1]
          rfl
        rw [Finset.sum_insert hi,hsame,hnew]
        simp only [LoopAction.spends,LoopAction.earns]
        omega
    | @thread i a c e hf hc ht =>
      have hcost := threadStep_cost ht
      exact hn.after hv hc rfl rfl (fun _ _ => rfl) (by simp only [LoopAction.spends]; omega)
    | @cancelTask i c e hb hc ht =>
      have hcost := cancelTask_cost ht
      exact hn.after hv hc rfl rfl (fun _ _ => rfl) (by simp only [LoopAction.spends]; omega)
    | @run i k ks c hb hr hc =>
      have hcost := runCallback_cost (route i) c k
      refine hn.after hv hc rfl ?_ ?_ ?_
      · rw [hr]
        rfl
      · intro j hj
        refine at_of_own ?_
        rw [hr,own_cons_inl,if_neg (Ne.symm hj)]
      · rw [hr,own_cons_inl,if_pos rfl,weigh_cons]
        simp only [LoopAction.spends]
        omega
    | @other x ks hb hr =>
      obtain ⟨-,F,hF,rfl⟩ := hn
      have hsame : ∑ j ∈ F, ({l with ready := ks} : Loop ι X V E).cost j =
          ∑ j ∈ F, l.cost j := by
        refine Finset.sum_congr rfl ?_
        intro j _
        have hj : ({l with ready := ks} : Loop ι X V E).at? j = l.at? j :=
          at_of_own (by rw [hr]; rfl)
        rw [cost,cost,hj]
      refine ⟨_,⟨hv,F,hF,rfl⟩,?_⟩
      rw [hsame,hr,foreign_length_cons]
      simp only [LoopAction.spends,LoopAction.earns]
      omega
    | @endStep i c e hb hc ht =>
      have hcost := endTheCall_cost ht
      exact hn.after hv hc rfl rfl (fun _ _ => rfl) (by simp only [LoopAction.spends]; omega)
    | @soon x =>
      obtain ⟨-,F,hF,rfl⟩ := hn
      have hsame : ∑ j ∈ F, ({l with ready := l.ready ++ [.inr x]} : Loop ι X V E).cost j =
          ∑ j ∈ F, l.cost j := by
        refine Finset.sum_congr rfl ?_
        intro j _
        have hj : ({l with ready := l.ready ++ [.inr x]} : Loop ι X V E).at? j = l.at? j :=
          at_of_own (by simp)
        rw [cost,cost,hj]
      refine ⟨_,⟨hv,F,hF,rfl⟩,?_⟩
      rw [hsame,foreign_append]
      simp [LoopAction.spends,LoopAction.earns,add_assoc]

/-- Nothing of any call is left: its outcome was posted, its task has ended, and no result waits
to be discarded. -/
structure AtRest (l : Loop ι X V E) : Prop where
  ready : l.ready = []
  busy : l.busy = none
  calls : ∀ i c, l.calls i = some c →
    (∃ o, c.worker.posted? = some o) ∧ c.task.ended = true ∧ c.discards = []

theorem AtRest.stuck (h : l.AtRest) (ha : a.spends ≠ 0) : step route l a = none := by
  cases a with
  | start i => exact absurd rfl ha
  | cancelTask i => exact absurd rfl ha
  | soon x => exact absurd rfl ha
  | run => simp [step,h.busy,h.ready]
  | endStep => simp [step,h.busy]
  | thread i a =>
    cases hc : l.calls i with
    | none => simp [step,hc]
    | some c =>
      obtain ⟨⟨o,ho⟩,-,hd⟩ := h.calls i c hc
      simp [step,hc,threadStep_of_posted ho hd]

theorem atRest_of_stuck (hl : Reachable (step route) free init l)
    (hs : ∀ a : LoopAction ι X V E, a.spends ≠ 0 → step route l a = none) : l.AtRest := by
  have hv := reachable_valid hl
  have hb : l.busy = none := by
    cases hb : l.busy with
    | none => rfl
    | some i =>
      obtain ⟨c,hc⟩ := Option.ne_none_iff_exists'.mp (fun h => (hv.unstarted i h).2.2 hb)
      obtain ⟨x,hx⟩ := isEnding_eq_true.mp ((hv.ending i c hc).mpr hb)
      obtain ⟨e,he⟩ := endTheCall_of_ending (r := route i) hx
      have hstep := hs .endStep (by simp [LoopAction.spends])
      simp [step,hb,hc,he] at hstep
  have hr : l.ready = [] := by
    cases hr : l.ready with
    | nil => rfl
    | cons x ks =>
      have hstep := hs .run (by simp [LoopAction.spends])
      obtain ⟨i,k⟩ | x := x
      · obtain ⟨c,hc⟩ := Option.ne_none_iff_exists'.mp (fun h => by
          simpa [hr,own_cons_inl] using (hv.unstarted i h).1)
        simp [step,hb,hr,hc] at hstep
      · simp [step,hb,hr] at hstep
  refine ⟨hr,hb,?_⟩
  intro i c hc
  have hthread (x : ThreadAction V E) (hf : x.fresh l.live = true) :
      threadStep (route i) c x = none := by
    have hstep := hs (.thread i x) (by simp [LoopAction.spends])
    simpa [step,hf,hc] using hstep
  have ho : ∃ o, c.worker.posted? = some o := by
    refine Option.ne_none_iff_exists'.mp ?_
    intro hn
    obtain ⟨t,ht⟩ := Infinite.exists_notMem_finset l.live.toFinset
    obtain ⟨b,e,hb,he⟩ := thread_of_unposted (r := route i) hn t (.error (.maculaError ""))
    have hf : b.fresh l.live = true := by
      rcases hb with rfl | rfl | rfl
      · rfl
      · simpa [ThreadAction.fresh] using ht
      · rfl
    rw [hthread b hf] at he
    cases he
  refine ⟨ho,?_,?_⟩
  · obtain ⟨o,ho⟩ := ho
    have ha := (reachable_queueValid (reachable_call hl hc)).not_awaiting ho
      (by simp [callState,hr])
    have hne := hv.not_ending hb hc
    cases hk : c.task with
    | awaiting => exact absurd hk ha
    | ending x => simp [hk,Task.isEnding] at hne
    | returned v => rfl
    | raised e => rfl
    | cancelled => rfl
  · cases hd : c.discards with
    | nil => rfl
    | cons v vs =>
      have hx := hthread .discard rfl
      simp [threadStep,hd] at hx

theorem reachable_account {as : List (LoopAction ι X V E)} (hr : Run (step route) free init as l) :
    ∃ n, Account l n ∧ n + total LoopAction.spends as ≤ total LoopAction.earns as := by
  obtain ⟨n,hn,hle⟩ := (amortized route).run hr init_account
  exact ⟨n,hn,by omega⟩

/-- From where nothing more is started the steps that the calls take by themselves lead to rest. -/
theorem exists_rest (hl : Reachable (step route) free init l) :
    ∃ as l', exec (step route) l as = some l' ∧ (∀ a ∈ as, a.spends ≠ 0) ∧ l'.AtRest := by
  obtain ⟨as,hr⟩ := hl
  obtain ⟨n,hn,-⟩ := reachable_account hr
  have hl : Reachable (step route) free init l := ⟨as,hr⟩
  clear hr
  induction n using Nat.strong_induction_on generalizing l with
  | _ n ih =>
    by_cases hs : ∀ a : LoopAction ι X V E, a.spends ≠ 0 → step route l a = none
    · exact ⟨[],l,rfl,by simp,atRest_of_stuck hl hs⟩
    · simp only [not_forall] at hs
      obtain ⟨a,ha,he⟩ := hs
      obtain ⟨u,hu⟩ := Option.ne_none_iff_exists'.mp he
      obtain ⟨m,hm,hle⟩ := (amortized route).paid l a u n hn hu
      have hearns : a.earns = 0 := by
        cases a with
        | start i => exact absurd rfl ha
        | soon x => exact absurd rfl ha
        | _ => rfl
      obtain ⟨bs,l',hb,hbs,hrest⟩ := ih m (by omega) hm (hl.tail trivial hu)
      refine ⟨a :: bs,l',by simp [exec,hu,hb],?_,hrest⟩
      intro b hmem
      rcases List.mem_cons.mp hmem with rfl | hmem
      · exact ha
      · exact hbs b hmem

/-- Two calls, one cancelled while its thread has a token and has not entered its call. -/
def cancelledEarly : List (LoopAction ℕ Empty Unit Empty) :=
  [.start 0,.start 1,.thread 0 (.newToken 7),.thread 0 .work,.cancelTask 0,.run,.run,.endStep,
    .endStep]

end Loop
end MaculaPy.Blocking
