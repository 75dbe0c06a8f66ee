import MaculaPy.Blocking.Call
import MaculaPy.Foundation.History
import Mathlib.Logic.Function.Basic

/-! # Many calls on one event loop

Any number of native calls share the loop thread, its ready queue and the native
side's cancel tokens, which may take a number again once it is freed. The queue also
carries callbacks of other code. Seen from one call, every step is a step of that call
or none at all.
-/
namespace MaculaPy.Blocking
open Asyncio History
variable {ι X V E : Type*}

/-- An entry of the ready queue: a callback of one of the calls, or of other code. -/
abbrev Entry (ι X V E : Type*) := (ι × Callback V E) ⊕ X

/-- The calls started so far, the loop thread's queue and the call whose `_end_the_call`
it is in, the tokens the native side holds, and what happened, newest first. -/
structure Loop (ι X V E : Type*) where
  calls : ι → Option (Call V E)
  ready : List (Entry ι X V E)
  busy : Option ι
  live : List ℕ
  trace : List (ι × Event V E)

inductive LoopAction (ι X V E : Type*)
  | start (i : ι)
  | thread (i : ι) (a : ThreadAction V E)
  | cancelTask (i : ι)
  | run
  | endStep
  | soon (x : X)

/-- The native side's tokens after an event. -/
def liveAfter (live : List ℕ) : Event V E → List ℕ
  | .created h => h :: live
  | .freed h => live.filter (· ≠ h)
  | _ => live

/-- The native side gives out a token number it does not hold. -/
def ThreadAction.fresh (live : List ℕ) : ThreadAction V E → Bool
  | .newToken h => h ∉ live
  | _ => true

namespace Loop

def init : Loop ι X V E := ⟨fun _ => none,[],none,[],[]⟩

variable [DecidableEq ι]

def after (l : Loop ι X V E) (i : ι) (e : Effect V E) : Loop ι X V E where
  calls := Function.update l.calls i (some e.call)
  ready := l.ready ++ e.posts.map (fun k => .inl (i,k))
  busy := if e.call.task.isEnding then some i else l.busy.filter (· ≠ i)
  live := e.events.foldl liveAfter l.live
  trace := e.events.map (Prod.mk i) ++ l.trace

/-- One step of a worker, of a discard thread or of the loop thread, which runs the next
callback only when it is not inside `_end_the_call`. -/
def step (route : ι → Route) (l : Loop ι X V E) : LoopAction ι X V E → Option (Loop ι X V E)
  | .start i =>
    match l.busy,l.calls i with
    | none,none => some {l with calls := Function.update l.calls i (some Blocking.start)}
    | _,_ => none
  | .thread i a =>
    if a.fresh l.live then (l.calls i).bind fun c => (threadStep (route i) c a).map (l.after i)
    else none
  | .cancelTask i =>
    match l.busy with
    | some _ => none
    | none => (l.calls i).bind fun c => (Blocking.cancelTask c).map (l.after i)
  | .run =>
    match l.busy,l.ready with
    | none,.inl (i,k) :: ks =>
      (l.calls i).map fun c => {l with ready := ks}.after i (runCallback (route i) c k)
    | none,.inr _ :: ks => some {l with ready := ks}
    | _,_ => none
  | .endStep => l.busy.bind fun i =>
    (l.calls i).bind fun c => (endTheCall (route i) c).map (l.after i)
  | .soon x => some {l with ready := l.ready ++ [.inr x]}

/-- What a step can be, and what it leaves. -/
inductive Move (route : ι → Route) (l : Loop ι X V E) : LoopAction ι X V E → Loop ι X V E → Prop
  | start {i : ι} (hb : l.busy = none) (hc : l.calls i = none) :
    Move route l (.start i) {l with calls := Function.update l.calls i (some Blocking.start)}
  | thread {i : ι} {a : ThreadAction V E} {c : Call V E} {e : Effect V E}
    (hf : a.fresh l.live = true) (hc : l.calls i = some c)
    (he : threadStep (route i) c a = some e) : Move route l (.thread i a) (l.after i e)
  | cancelTask {i : ι} {c : Call V E} {e : Effect V E} (hb : l.busy = none)
    (hc : l.calls i = some c) (he : Blocking.cancelTask c = some e) :
    Move route l (.cancelTask i) (l.after i e)
  | run {i : ι} {k : Callback V E} {ks : List (Entry ι X V E)} {c : Call V E} (hb : l.busy = none)
    (hr : l.ready = .inl (i,k) :: ks) (hc : l.calls i = some c) :
    Move route l .run ({l with ready := ks}.after i (runCallback (route i) c k))
  | other {x : X} {ks : List (Entry ι X V E)} (hb : l.busy = none) (hr : l.ready = .inr x :: ks) :
    Move route l .run {l with ready := ks}
  | endStep {i : ι} {c : Call V E} {e : Effect V E} (hb : l.busy = some i)
    (hc : l.calls i = some c) (he : endTheCall (route i) c = some e) :
    Move route l .endStep (l.after i e)
  | soon {x : X} : Move route l (.soon x) {l with ready := l.ready ++ [.inr x]}

theorem step_move {route : ι → Route} {l l' : Loop ι X V E} {a : LoopAction ι X V E}
    (he : step route l a = some l') : Move route l a l' := by
  cases a with
  | start i =>
    simp only [step] at he
    split at he
    · next hb hc =>
      cases he
      exact .start hb hc
    · cases he
  | thread i a =>
    simp only [step] at he
    split at he
    · next hf =>
      obtain ⟨c,hc,he⟩ := Option.bind_eq_some_iff.mp he
      obtain ⟨e,hx,rfl⟩ := Option.map_eq_some_iff.mp he
      exact .thread hf hc hx
    · cases he
  | cancelTask i =>
    simp only [step] at he
    split at he
    · cases he
    · next hb =>
      obtain ⟨c,hc,he⟩ := Option.bind_eq_some_iff.mp he
      obtain ⟨e,hx,rfl⟩ := Option.map_eq_some_iff.mp he
      exact .cancelTask hb hc hx
  | run =>
    simp only [step] at he
    split at he
    · next hb hr =>
      obtain ⟨c,hc,rfl⟩ := Option.map_eq_some_iff.mp he
      exact .run hb hr hc
    · next hb hr =>
      cases he
      exact .other hb hr
    · cases he
  | endStep =>
    obtain ⟨i,hb,he⟩ := Option.bind_eq_some_iff.mp he
    obtain ⟨c,hc,he⟩ := Option.bind_eq_some_iff.mp he
    obtain ⟨e,hx,rfl⟩ := Option.map_eq_some_iff.mp he
    exact .endStep hb hc hx
  | soon x =>
    cases he
    exact .soon

/-- The callbacks of one call, in queue order. -/
def own (i : ι) (ks : List (Entry ι X V E)) : List (Callback V E) :=
  view i (ks.filterMap Sum.getLeft?)

@[simp] theorem own_nil (i : ι) : own i ([] : List (Entry ι X V E)) = [] := rfl
@[simp] theorem own_append (i : ι) (ks ls : List (Entry ι X V E)) :
    own i (ks ++ ls) = own i ks ++ own i ls := by simp [own]
theorem own_cons_inl (i j : ι) (k : Callback V E) (ks : List (Entry ι X V E)) :
    own i (.inl (j,k) :: ks) = if j = i then k :: own i ks else own i ks := by
  simp [own,view_cons]
@[simp] theorem own_cons_inr (i : ι) (x : X) (ks : List (Entry ι X V E)) :
    own i (.inr x :: ks) = own i ks := rfl

@[simp] theorem own_posts (i : ι) (ks : List (Callback V E)) :
    own i (ks.map (fun k => .inl (i,k)) : List (Entry ι X V E)) = ks := by
  induction ks with
  | nil => rfl
  | cons k ks ih => simp [own_cons_inl,ih]

theorem own_posts_of_ne {i j : ι} (h : j ≠ i) (ks : List (Callback V E)) :
    own i (ks.map (fun k => .inl (j,k)) : List (Entry ι X V E)) = [] := by
  induction ks with
  | nil => rfl
  | cons k ks ih => simp [own_cons_inl,h,ih]

/-- One call with its part of the queue and of the trace. -/
def callState (l : Loop ι X V E) (i : ι) (c : Call V E) : State V E :=
  ⟨c,own i l.ready,view i l.trace⟩

/-- The loop as one of its calls sees it. -/
def at? (l : Loop ι X V E) (i : ι) : Option (State V E) := (l.calls i).map (l.callState i)

theorem at_of_calls {l : Loop ι X V E} {i : ι} {c : Call V E} (h : l.calls i = some c) :
    l.at? i = some (l.callState i c) := by simp [at?,h]

theorem at_eq_some {l : Loop ι X V E} {i : ι} {s : State V E} (h : l.at? i = some s) :
    ∃ c, l.calls i = some c ∧ s = l.callState i c := by
  obtain ⟨c,hc,hs⟩ := Option.map_eq_some_iff.mp h
  exact ⟨c,hc,hs.symm⟩

@[simp] theorem after_calls_self (l : Loop ι X V E) (i : ι) (e : Effect V E) :
    (l.after i e).calls i = some e.call := by simp [after]
theorem after_calls_of_ne (l : Loop ι X V E) {i j : ι} (e : Effect V E) (h : j ≠ i) :
    (l.after i e).calls j = l.calls j := by simp [after,h]

theorem after_at_self (l : Loop ι X V E) (i : ι) (e : Effect V E) (c : Call V E) :
    (l.after i e).at? i = some ((l.callState i c).after e) := by
  simp [at?,callState,after,State.after]

theorem after_at_of_ne (l : Loop ι X V E) {i j : ι} (e : Effect V E) (h : j ≠ i) :
    (l.after i e).at? j = l.at? j := by
  have hs : (l.after i e).callState j = l.callState j := by
    funext c
    simp [callState,after,own_posts_of_ne (Ne.symm h),view_tag_of_ne (Ne.symm h)]
  rw [at?,at?,after_calls_of_ne l e h,hs]

/-- A call that has not started left no trace, and the loop thread is inside
`_end_the_call` of the call whose task is. -/
structure Valid (l : Loop ι X V E) : Prop where
  unstarted : ∀ i, l.calls i = none → own i l.ready = [] ∧ view i l.trace = [] ∧ l.busy ≠ some i
  ending : ∀ i c, l.calls i = some c → (c.task.isEnding = true ↔ l.busy = some i)

theorem init_valid : Valid (init : Loop ι X V E) where
  unstarted _ _ := ⟨rfl,rfl,by simp [init]⟩
  ending _ _ h := by simp [init] at h

theorem Valid.after {l : Loop ι X V E} (hv : l.Valid) {i : ι} {c : Call V E}
    (hc : l.calls i = some c) (e : Effect V E)
    (hb : e.call.task.isEnding = true → l.busy = none ∨ l.busy = some i) :
    (l.after i e).Valid := by
  have hbusy : ∀ j, j ≠ i → ((l.after i e).busy = some j ↔ l.busy = some j) := by
    intro j hj
    by_cases he : e.call.task.isEnding = true
    · rcases hb he with h | h <;> simp [Loop.after,he,h,Ne.symm hj]
    · cases hl : l.busy with
      | none => simp [Loop.after,he,hl]
      | some k =>
        by_cases hk : k = i
        · simp [Loop.after,he,hl,hk,Option.filter,Ne.symm hj]
        · simp [Loop.after,he,hl,hk,Option.filter]
  constructor
  · intro j hj
    have hne : j ≠ i := by
      rintro rfl
      simp at hj
    rw [after_calls_of_ne l e hne] at hj
    obtain ⟨hr,ht,hbj⟩ := hv.unstarted j hj
    rw [Ne,hbusy j hne]
    exact ⟨by simp [Loop.after,hr,own_posts_of_ne (Ne.symm hne)],
      by simp [Loop.after,ht,view_tag_of_ne (Ne.symm hne)],hbj⟩
  · intro j d hj
    by_cases hne : j = i
    · subst hne
      rw [after_calls_self] at hj
      cases hj
      by_cases he : e.call.task.isEnding = true
      · simp [Loop.after,he]
      · cases hl : l.busy with
        | none => simp [Loop.after,he,hl]
        | some k => by_cases hk : k = j <;> simp [Loop.after,he,hl,hk,Option.filter]
    · rw [after_calls_of_ne l e hne] at hj
      rw [hbusy j hne]
      exact hv.ending j d hj

/-- The loop action `a` is the action `b` of call `i`. -/
inductive Acts (l : Loop ι X V E) (i : ι) : LoopAction ι X V E → Action V E → Prop
  | thread {a : ThreadAction V E} (hf : a.fresh l.live = true) : Acts l i (.thread i a) (.thread a)
  | cancelTask : Acts l i (.cancelTask i) .cancel
  | run : Acts l i .run .loop
  | endStep (hb : l.busy = some i) : Acts l i .endStep .endCall

theorem Valid.ready {l : Loop ι X V E} (hv : l.Valid) {x : Entry ι X V E} {ks : List (Entry ι X V E)}
    (hr : l.ready = x :: ks) : Valid {l with ready := ks} where
  unstarted i hi := by
    obtain ⟨ho,ht⟩ := hv.unstarted i hi
    refine ⟨?_,ht⟩
    rw [hr] at ho
    cases x with
    | inl x =>
      rw [own_cons_inl] at ho
      split at ho
      · cases ho
      · exact ho
    | inr x => exact ho
  ending := hv.ending

theorem Valid.not_ending {l : Loop ι X V E} (hv : l.Valid) (hb : l.busy = none) {i : ι}
    {c : Call V E} (hc : l.calls i = some c) : c.task.isEnding = false := by
  by_contra h
  have := (hv.ending i c hc).mp (by simpa using h)
  simp [hb] at this

theorem step_valid {route : ι → Route} {l l' : Loop ι X V E} {a : LoopAction ι X V E}
    (hv : l.Valid) (he : step route l a = some l') : l'.Valid := by
  cases step_move he with
  | @start i hb hc =>
    constructor
    · intro j hj
      apply hv.unstarted j
      by_cases h : j = i
      · simp [h] at hj
      · simpa [h] using hj
    · intro j c hj
      by_cases h : j = i
      · subst h
        obtain rfl : Blocking.start = c := by simpa using hj
        simp [Blocking.start,Task.isEnding,hb]
      · exact hv.ending j c (by simpa [h] using hj)
  | thread hf hc ht =>
    refine hv.after hc _ (fun h => Or.inr ((hv.ending _ _ hc).mp ?_))
    rwa [threadStep_task ht] at h
  | cancelTask hb hc ht => exact hv.after hc _ (fun _ => Or.inl hb)
  | run hb hr hc => exact (hv.ready hr).after hc _ (fun _ => Or.inl hb)
  | other hb hr => exact hv.ready hr
  | endStep hb hc ht => exact hv.after hc _ (fun _ => Or.inr hb)
  | soon =>
    refine ⟨?_,hv.ending⟩
    intro i hi
    simpa using hv.unstarted i hi

theorem reachable_valid {route : ι → Route} {ok : Loop ι X V E → LoopAction ι X V E → Prop}
    {l : Loop ι X V E} (hl : Runs.Reachable (step route) ok init l) : l.Valid :=
  hl.induct init_valid (fun _ _ _ _ hv _ he => step_valid hv he)

/-- Seen from one call, a step of the loop is its start, a step of its own, or nothing. -/
theorem step_at {route : ι → Route} {l l' : Loop ι X V E} {a : LoopAction ι X V E} (hv : l.Valid)
    (he : step route l a = some l') (i : ι) : l'.at? i = l.at? i ∨
      (l.at? i = none ∧ l'.at? i = some Blocking.init) ∨
      ∃ s b t, l.at? i = some s ∧ Acts l i a b ∧ Blocking.step (route i) s b = some t ∧
        l'.at? i = some t := by
  cases step_move he with
  | @start j hb hc =>
    by_cases h : i = j
    · subst h
      refine Or.inr (Or.inl ⟨by simp [at?,hc],?_⟩)
      obtain ⟨hr,ht,_⟩ := hv.unstarted i hc
      simp [at?,callState,hr,ht,Blocking.init]
    · apply Or.inl
      simp only [at?,Function.update_of_ne h]
      rfl
  | @thread j a c e hf hc ht =>
    by_cases h : i = j
    · subst h
      exact Or.inr (Or.inr ⟨_,_,_,at_of_calls hc,.thread hf,by simp [Blocking.step,callState,ht],
        after_at_self l i e c⟩)
    · exact Or.inl (after_at_of_ne l e h)
  | @cancelTask j c e hb hc ht =>
    by_cases h : i = j
    · subst h
      exact Or.inr (Or.inr ⟨_,_,_,at_of_calls hc,.cancelTask,
        by simp [Blocking.step,callState,hv.not_ending hb hc,ht],after_at_self l i e c⟩)
    · exact Or.inl (after_at_of_ne l e h)
  | @run j k ks c hb hr hc =>
    by_cases h : i = j
    · subst h
      refine Or.inr (Or.inr ⟨_,_,_,at_of_calls hc,.run,?_,after_at_self {l with ready := ks} i _ c⟩)
      simp [Blocking.step,callState,hv.not_ending hb hc,hr,own_cons_inl]
    · refine Or.inl ((after_at_of_ne {l with ready := ks} _ h).trans ?_)
      have hs : ({l with ready := ks} : Loop ι X V E).callState i = l.callState i := by
        funext d
        simp [callState,hr,own_cons_inl,Ne.symm h]
      rw [at?,at?,hs]
  | @other x ks hb hr =>
    apply Or.inl
    have hs : ({l with ready := ks} : Loop ι X V E).callState i = l.callState i := by
      funext d
      simp [callState,hr]
    rw [at?,at?,hs]
  | @endStep j c e hb hc ht =>
    by_cases h : i = j
    · subst h
      exact Or.inr (Or.inr ⟨_,_,_,at_of_calls hc,.endStep hb,by simp [Blocking.step,callState,ht],
        after_at_self l i e c⟩)
    · exact Or.inl (after_at_of_ne l e h)
  | @soon x =>
    apply Or.inl
    have hs : ({l with ready := l.ready ++ [.inr x]} : Loop ι X V E).callState i = l.callState i := by
      funext d
      simp [callState]
    rw [at?,at?,hs]

/-- Each call of a reachable loop is reachable on its own, under what the guard of the
loop admits of its actions. -/
theorem reachable_at {route : ι → Route} {ok : Loop ι X V E → LoopAction ι X V E → Prop} {i : ι}
    {ok' : State V E → Action V E → Prop}
    (hok : ∀ l a s b, ok l a → l.at? i = some s → Acts l i a b → ok' s b)
    {l : Loop ι X V E} (hl : Runs.Reachable (step route) ok init l) :
    ∀ s, l.at? i = some s → Runs.Reachable (Blocking.step (route i)) ok' Blocking.init s := by
  refine hl.induct (P := fun l => ∀ s, l.at? i = some s →
    Runs.Reachable (Blocking.step (route i)) ok' Blocking.init s) ?_ ?_
  · intro s hs
    cases hs
  · intro l a l' hl ih ha he s hs
    rcases step_at (reachable_valid hl) he i with h | ⟨_,h⟩ | ⟨s',b,t,hs',hb,hst,ht⟩
    · exact ih s (h ▸ hs)
    · rw [h] at hs
      cases hs
      exact .refl _
    · rw [ht] at hs
      cases hs
      exact (ih s' hs').tail (hok l a s' b ha hs' hb) hst

theorem reachable_call {route : ι → Route} {ok : Loop ι X V E → LoopAction ι X V E → Prop}
    {l : Loop ι X V E} (hl : Runs.Reachable (step route) ok init l) {i : ι} {c : Call V E}
    (hc : l.calls i = some c) :
    Runs.Reachable (Blocking.step (route i)) Runs.free Blocking.init (l.callState i c) :=
  reachable_at (fun _ _ _ _ _ _ _ => trivial) hl _ (at_of_calls hc)

end Loop
end MaculaPy.Blocking
