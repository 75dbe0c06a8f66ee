import MaculaPy.Blocking.Handshake
import MaculaPy.Blocking.Loop

/-! # Taking items from an inbox

One task takes items from a native inbox, one `run_blocking` after another; a wait that
was cancelled may still be handed an item. The items the completed waits return are, in
order, the items the inbox handed to those waits, and the calls return what these decode
to.
-/
namespace MaculaPy.Blocking
open Asyncio History
variable {V T E : Type*}

def Task.isAwaiting : Task V E → Bool
  | .awaiting => true
  | _ => false

def Task.isReturned : Task V E → Bool
  | .returned _ => true
  | _ => false

/-- The item a native wait came back with: no item when it ran out of time, or the
source ended. -/
def Event.handedOut? (e : Event (Option T) E) : Option T :=
  e.outcome?.bind fun o => match o with
    | .ok x => x
    | .error _ => none

/-- The item an awaiter got. -/
def Event.taken? (e : Event (Option T) E) : Option T := e.delivered?.bind id

theorem filterMap_handedOut (t : List (Event (Option T) E)) :
    t.filterMap Event.handedOut? = (returns t).filterMap fun o => match o with
      | .ok x => x
      | .error _ => none := by
  rw [returns,List.filterMap_filterMap]
  rfl

theorem filterMap_taken (t : List (Event (Option T) E)) :
    t.filterMap Event.taken? = (delivered t).filterMap id := by
  rw [delivered,List.filterMap_filterMap]
  rfl

namespace Loop
variable {X : Type*}

/-- Each wait starts when the one before it is over. -/
def sequential (l : Loop ℕ X (Option T) E) : LoopAction ℕ X (Option T) E → Bool
  | .start i => (List.range i).all (fun j => (l.calls j).any (fun c => c.task.ended))
  | _ => true

/-- The items the inbox handed out, with the wait each one went to, newest first. -/
def handedOut (l : Loop ℕ X (Option T) E) : List (ℕ × T) := tagged Event.handedOut? l.trace

/-- The items the waits returned, with the wait, newest first. -/
def taken (l : Loop ℕ X (Option T) E) : List (ℕ × T) := tagged Event.taken? l.trace

def awaits (l : Loop ℕ X (Option T) E) (i : ℕ) : Bool :=
  (l.calls i).any (fun c => c.task.isAwaiting)

/-- The wait came to an end with what the native side returned. -/
def completed (l : Loop ℕ X (Option T) E) (i : ℕ) : Bool :=
  (l.calls i).any (fun c => c.task.isReturned)

/-- What was handed to a wait not cancelled was taken from it, but for the current one. -/
structure InboxValid (l : Loop ℕ X (Option T) E) : Prop where
  order : ∀ i j, i < j → l.calls j ≠ none → ∃ c, l.calls i = some c ∧ c.task.ended = true
  items : l.handedOut.filter (fun x => l.awaits x.1 || l.completed x.1) =
    l.handedOut.filter (fun x => l.awaits x.1) ++ l.taken
  done : ∀ x ∈ l.taken, l.completed x.1 = true

theorem init_inboxValid : InboxValid (init : Loop ℕ X (Option T) E) where
  order _ _ _ h := absurd rfl h
  items := rfl
  done _ h := by simp [taken,init,tagged] at h

section Steps
variable {route : ℕ → Route} {l : Loop ℕ X (Option T) E}

/-- At most one wait is not over. -/
theorem InboxValid.current (hi : l.InboxValid) {i j : ℕ} {c d : Call (Option T) E}
    (hc : l.calls i = some c) (hd : l.calls j = some d) (hci : c.task.ended = false)
    (hdj : d.task.ended = false) : i = j := by
  rcases Nat.lt_trichotomy i j with h | h | h
  · obtain ⟨c',hc',he⟩ := hi.order i j h (by simp [hd])
    rw [hc] at hc'
    cases hc'
    rw [he] at hci
    cases hci
  · exact h
  · obtain ⟨d',hd',he⟩ := hi.order j i h (by simp [hc])
    rw [hd] at hd'
    cases hd'
    rw [he] at hdj
    cases hdj

@[simp] theorem after_handedOut (i : ℕ) (e : Effect (Option T) E) : (l.after i e).handedOut =
    (e.events.filterMap Event.handedOut?).map (Prod.mk i) ++ l.handedOut := by
  simp [handedOut,after,tagged_tag]

@[simp] theorem after_taken (i : ℕ) (e : Effect (Option T) E) : (l.after i e).taken =
    (e.events.filterMap Event.taken?).map (Prod.mk i) ++ l.taken := by
  simp [taken,after,tagged_tag]

theorem after_awaits (i j : ℕ) (e : Effect (Option T) E) :
    (l.after i e).awaits j = if j = i then e.call.task.isAwaiting else l.awaits j := by
  by_cases h : j = i
  · simp [h,awaits]
  · simp [h,awaits,after_calls_of_ne l e h]

theorem after_completed (i j : ℕ) (e : Effect (Option T) E) :
    (l.after i e).completed j = if j = i then e.call.task.isReturned else l.completed j := by
  by_cases h : j = i
  · simp [h,completed]
  · simp [h,completed,after_calls_of_ne l e h]

theorem not_awaits_of_ended {c : Call (Option T) E} {i : ℕ} (hc : l.calls i = some c)
    (he : c.task.ended = true) : l.awaits i = false := by
  cases hk : c.task <;> simp_all [awaits,Task.ended,Task.isAwaiting]

theorem not_completed_of_awaits {i : ℕ} (h : l.awaits i = true) : l.completed i = false := by
  cases hc : l.calls i with
  | none => simp [completed,hc]
  | some c => cases hk : c.task <;> simp_all [awaits,completed,Task.isAwaiting,Task.isReturned]

/-- Nothing else is awaited while the task of one wait is not over. -/
theorem InboxValid.awaits_eq_false (hi : l.InboxValid) {i j : ℕ} {c : Call (Option T) E}
    (hc : l.calls i = some c) (hci : c.task.ended = false) (hj : j ≠ i) : l.awaits j = false := by
  cases hd : l.calls j with
  | none => simp [awaits,hd]
  | some d =>
    cases he : d.task.ended with
    | true => exact not_awaits_of_ended hd he
    | false => exact absurd (hi.current hd hc he hci) hj

/-- The waits that completed returned what was handed to them, in the same order. -/
theorem InboxValid.taken_eq (hi : l.InboxValid) :
    l.taken = l.handedOut.filter (fun x => l.completed x.1) := by
  have hf := congrArg (List.filter (fun x => l.completed x.1)) hi.items
  rw [List.filter_append,List.filter_filter,List.filter_filter] at hf
  have hl : (fun x : ℕ × T => l.completed x.1 && (l.awaits x.1 || l.completed x.1)) =
      fun x => l.completed x.1 := by
    funext x
    cases l.completed x.1 <;> simp
  have hr : (fun x : ℕ × T => l.completed x.1 && l.awaits x.1) = fun _ => false := by
    funext x
    cases ha : l.awaits x.1 with
    | true => simp [not_completed_of_awaits ha]
    | false => simp
  rw [hl,hr,List.filter_false,List.nil_append] at hf
  rw [hf]
  exact (List.filter_eq_self.mpr hi.done).symm

/-- Only a wait's own end changes which waits are over. -/
theorem InboxValid.order_after (hi : l.InboxValid) {i : ℕ} {c : Call (Option T) E}
    (hc : l.calls i = some c) {e : Effect (Option T) E}
    (he : c.task.ended = true → e.call.task.ended = true) :
    ∀ j k, j < k → (l.after i e).calls k ≠ none →
      ∃ d, (l.after i e).calls j = some d ∧ d.task.ended = true := by
  intro j k hjk hk
  have hk' : l.calls k ≠ none := by
    by_cases h : k = i
    · simp [h,hc]
    · rwa [after_calls_of_ne l e h] at hk
  obtain ⟨d,hd,hde⟩ := hi.order j k hjk hk'
  by_cases h : j = i
  · subst h
    rw [hc] at hd
    cases hd
    exact ⟨e.call,after_calls_self l j e,he hde⟩
  · exact ⟨d,by rw [after_calls_of_ne l e h,hd],hde⟩

theorem InboxValid.after_same (hi : l.InboxValid) {i : ℕ} {c : Call (Option T) E}
    (hc : l.calls i = some c) {e : Effect (Option T) E} (ht : e.call.task = c.task)
    (hd : delivered e.events = [])
    (ho : e.events.filterMap Event.handedOut? = [] ∨ c.task.isReturned = false) :
    (l.after i e).InboxValid := by
  have ha : (l.after i e).awaits = l.awaits := by
    funext j
    rw [after_awaits]
    split
    · next h => simp [h,awaits,hc,ht]
    · rfl
  have hp : (l.after i e).completed = l.completed := by
    funext j
    rw [after_completed]
    split
    · next h => simp [h,completed,hc,ht]
    · rfl
  have hk : (l.after i e).taken = l.taken := by
    rw [after_taken,filterMap_taken,hd]
    rfl
  refine ⟨hi.order_after hc (by rw [ht]; exact id),?_,?_⟩
  · rw [ha,hp,hk,after_handedOut,List.filter_append,List.filter_append,hi.items,List.append_assoc]
    congr 1
    rcases ho with ho | ho
    · rw [ho]
      rfl
    · apply List.filter_congr
      intro x hx
      obtain ⟨y,_,rfl⟩ := List.mem_map.mp hx
      have hn : l.completed i = false := by simp [completed,hc,ho]
      simp [hn]
  · rw [hk,hp]
    exact hi.done

/-- The end of the current wait with a result: that result is what the inbox handed it. -/
theorem InboxValid.after_delivers (hi : l.InboxValid) {i : ℕ} {c : Call (Option T) E}
    (hc : l.calls i = some c) {e : Effect (Option T) E} {v : Option T} (ht : c.task = .awaiting)
    (hn : e.call.task = .returned v) (hd : delivered e.events = [v])
    (ho : e.events.filterMap Event.handedOut? = [])
    (hx : l.handedOut.filter (fun x => x.1 = i) = v.toList.map (Prod.mk i)) :
    (l.after i e).InboxValid := by
  have hne : c.task.ended = false := by simp [ht,Task.ended]
  have hai : l.awaits i = true := by simp [awaits,hc,ht,Task.isAwaiting]
  have ha : ∀ j, (l.after i e).awaits j = false := by
    intro j
    rw [after_awaits]
    split
    · simp [hn,Task.isAwaiting]
    · next h => exact hi.awaits_eq_false hc hne h
  have hp : ∀ j, (l.after i e).completed j = (l.awaits j || l.completed j) := by
    intro j
    rw [after_completed]
    split
    · next h => simp [h,hn,hai,Task.isReturned]
    · next h => simp [hi.awaits_eq_false hc hne h]
  have hk : (l.after i e).taken = v.toList.map (Prod.mk i) ++ l.taken := by
    rw [after_taken,filterMap_taken,hd]
    cases v <;> rfl
  have hcur : l.handedOut.filter (fun x => l.awaits x.1) = v.toList.map (Prod.mk i) := by
    rw [← hx]
    apply List.filter_congr
    intro x _
    by_cases h : x.1 = i
    · simp [h,hai]
    · simp [h,hi.awaits_eq_false hc hne h]
  refine ⟨hi.order_after hc (by simp [hne]),?_,?_⟩
  · rw [after_handedOut,ho,hk]
    simp only [ha,hp,Bool.false_or,List.map_nil,List.nil_append,List.filter_false]
    rw [hi.items,hcur]
  · intro x hx
    rw [hp]
    rcases List.mem_append.mp (hk ▸ hx) with h | h
    · obtain ⟨y,_,rfl⟩ := List.mem_map.mp h
      simp [hai]
    · simp [hi.done x h]

/-- The end of the current wait without a result: what it was handed is nobody's. -/
theorem InboxValid.after_leaves (hi : l.InboxValid) {i : ℕ} {c : Call (Option T) E}
    (hc : l.calls i = some c) {e : Effect (Option T) E}
    (ht : c.task = .awaiting ∨ c.task.isEnding = true) (hn : e.call.task ≠ .awaiting)
    (hv : e.call.task.value? = none) (hd : delivered e.events = [])
    (ho : e.events.filterMap Event.handedOut? = []) : (l.after i e).InboxValid := by
  have hne : c.task.ended = false := by
    cases hk : c.task <;> simp_all [Task.ended,Task.isEnding]
  have hci : l.completed i = false := by
    cases hk : c.task <;> simp_all [completed,Task.isReturned,Task.isEnding]
  have hei : e.call.task.isAwaiting = false ∧ e.call.task.isReturned = false := by
    cases hk : e.call.task <;> simp_all [Task.isAwaiting,Task.isReturned,Task.value?]
  have ha : ∀ j, (l.after i e).awaits j = false := by
    intro j
    rw [after_awaits]
    split
    · exact hei.1
    · next h => exact hi.awaits_eq_false hc hne h
  have hp : (l.after i e).completed = l.completed := by
    funext j
    rw [after_completed]
    split
    · next h => rw [hei.2,h,hci]
    · rfl
  have hk : (l.after i e).taken = l.taken := by
    rw [after_taken,filterMap_taken,hd]
    rfl
  refine ⟨hi.order_after hc (by simp [hne]),?_,?_⟩
  · rw [after_handedOut,ho,hk,hp]
    simp only [ha,Bool.false_or,List.map_nil,List.nil_append,List.filter_false]
    exact hi.taken_eq.symm
  · rw [hk,hp]
    exact hi.done

theorem InboxValid.after (hi : l.InboxValid) {i : ℕ} {c : Call (Option T) E}
    (hc : l.calls i = some c) {e : Effect (Option T) E} (hx : TaskChange c e)
    (ho : returns e.events = [])
    (hv : ∀ v, c.future.state = some (.result v) →
      l.handedOut.filter (fun x => x.1 = i) = v.toList.map (Prod.mk i)) :
    (l.after i e).InboxValid := by
  have ho : e.events.filterMap Event.handedOut? = [] := by
    rw [filterMap_handedOut,ho]
    rfl
  cases hx with
  | same ht hd => exact hi.after_same hc ht hd (Or.inl ho)
  | delivers v ht hf hn hd => exact hi.after_delivers hc ht hn hd ho (hv v hf)
  | leaves ht hn hx hd => exact hi.after_leaves hc ht hn hx hd ho

/-- What the future of a wait was settled with is what the inbox handed that wait. -/
theorem handedOut_of_settled
    (hl : Runs.Reachable (step route) (fun l a => sequential l a = true) init l) {i : ℕ}
    {c : Call (Option T) E} (hc : l.calls i = some c) {v : Option T}
    (hf : c.future.state = some (.result v)) :
    l.handedOut.filter (fun x => x.1 = i) = v.toList.map (Prod.mk i) := by
  have hs := reachable_call hl hc
  obtain ⟨o,ho,he⟩ := (reachable_queueValid hs).future_done _ hf
  obtain ⟨o',b,hr,hb⟩ := (reachable_handoverValid hs).returned o (Worker.outcome_of_posted ho)
  have hov : o = .ok v := by
    cases o <;> simp_all [outcomeOf]
  have ho' : o' = .ok v := by
    cases o' with
    | ok w => rw [← hov,hb,translate_ok]
    | error x =>
      obtain ⟨x',hx⟩ := translate_error (V := Option T) b x
      rw [hov,hx] at hb
      cases hb
  have hret : returns (view i l.trace) = [.ok v] := by rw [← ho']; exact hr
  rw [handedOut,filter_tagged,filterMap_handedOut,hret]
  cases v <;> rfl

theorem step_inboxValid {l' : Loop ℕ X (Option T) E} {a : LoopAction ℕ X (Option T) E}
    (hl : Runs.Reachable (step route) (fun l a => sequential l a = true) init l)
    (hi : l.InboxValid) (hg : sequential l a = true) (he : step route l a = some l') :
    l'.InboxValid := by
  have hr : ∀ ks : List (Entry ℕ X (Option T) E), InboxValid {l with ready := ks} :=
    fun ks => {hi with}
  cases step_move he with
  | @start i hb hc =>
    have hown : ∀ x ∈ l.handedOut, x.1 ≠ i := by
      rintro ⟨j,x⟩ hx rfl
      obtain ⟨y,hy,_⟩ := mem_tagged.mp hx
      have hy := mem_view.mpr hy
      rw [((reachable_valid hl).unstarted j hc).2.1] at hy
      cases hy
    have hpast : ∀ j, j < i → ∃ d, l.calls j = some d ∧ d.task.ended = true := by
      intro j hj
      exact (Option.any_eq_true _ _).mp (List.all_eq_true.mp hg j (List.mem_range.mpr hj))
    have hne : ∀ x ∈ l.handedOut,
        Function.update l.calls i (some Blocking.start) x.1 = l.calls x.1 :=
      fun x hx => Function.update_of_ne (hown x hx) _ _
    refine ⟨?_,?_,?_⟩
    · intro j k hjk hk
      by_cases h : k = i
      · subst h
        obtain ⟨d,hd,hde⟩ := hpast j hjk
        exact ⟨d,by simpa [Nat.ne_of_lt hjk] using hd,hde⟩
      · obtain ⟨d,hd,hde⟩ := hi.order j k hjk (by simpa [h] using hk)
        have hj : j ≠ i := by
          rintro rfl
          rw [hc] at hd
          cases hd
        exact ⟨d,by simpa [hj] using hd,hde⟩
    · refine Eq.trans (List.filter_congr ?_) (hi.items.trans (congrArg (· ++ l.taken)
        (List.filter_congr ?_)))
      · intro x hx
        simp only [awaits,completed,hne x hx]
      · intro x hx
        simp only [awaits,hne x hx]
    · intro x hx
      have hd := hi.done x hx
      have hj : x.1 ≠ i := by
        intro h
        simp [completed,h,hc] at hd
      simpa [completed,hj] using hd
  | @thread i a c e hf hc ht =>
    obtain ⟨hd,hret⟩ := threadStep_returns ht
    apply hi.after_same hc (threadStep_task ht) hd
    rcases hret with ho | ho
    · exact Or.inl (by rw [filterMap_handedOut,ho]; rfl)
    · obtain ⟨_,_,ho⟩ := ho
      apply Or.inr
      have hs := reachable_call hl hc
      have hp : c.worker.posted? = none := by
        cases hw : c.worker <;> simp_all [Worker.outcome?,Worker.posted?]
      have hn := (reachable_queueValid hs).future_pending_of_unposted hp
      cases hk : c.task with
      | returned v =>
        exact absurd (((reachable_handoverValid hs).value v hk).symm.trans hn) (by simp)
      | _ => rfl
  | @cancelTask i c e hb hc ht =>
    have he := cancelTask_events ht
    exact hi.after hc (.same (cancelTask_task ht) (by rw [he]; rfl)) (by rw [he]; rfl)
      (fun v => handedOut_of_settled hl hc)
  | @run i k ks c hb hr' hc =>
    have hown : (l.callState i c).ready = k :: own i ks := by simp [callState,hr',own_cons_inl]
    obtain ⟨hx,ho⟩ := runCallback_taskChange (reachable_queueValid (reachable_call hl hc)) hown
    exact (hr ks).after hc hx ho (fun v => handedOut_of_settled hl hc)
  | other hb hr' => exact hr _
  | @endStep i c e hb hc ht =>
    obtain ⟨hx,ho⟩ := endTheCall_taskChange ht
    exact hi.after hc hx ho (fun v => handedOut_of_settled hl hc)
  | soon => exact hr _

theorem reachable_inboxValid
    (hl : Runs.Reachable (step route) (fun l a => sequential l a = true) init l) : l.InboxValid :=
  hl.induct init_inboxValid (fun _ _ _ hl hi hg he => step_inboxValid hl hi hg he)

end Steps

section Received
variable {R D : Type*} (read : T → Except D (Option R))

/-- What `next()`, `next_event()` or `recv()` returns for the text its wait returned: `read`
decodes it, and a text that does not decode is raised instead. -/
def itemOf (x : ℕ × T) : Option (ℕ × R) :=
  match read x.2 with
  | .ok r => r.map (Prod.mk x.1)
  | .error _ => none

/-- The items the calls returned, with the call, newest first. -/
def received (l : Loop ℕ X (Option T) E) : List (ℕ × R) := l.taken.filterMap (itemOf read)

theorem itemOf_of_ok {i : ℕ} {x : T} {r : R} (hr : read x = .ok (some r)) :
    itemOf read (i,x) = some (i,r) := by simp [itemOf,hr]

theorem itemOf_fst {x : ℕ × T} {y : ℕ × R} (hx : itemOf read x = some y) : x.1 = y.1 := by
  unfold itemOf at hx
  split at hx
  · obtain ⟨r,_,rfl⟩ := Option.map_eq_some_iff.mp hx
    rfl
  · cases hx

/-- A wait's item was taken exactly if the wait completed with it. -/
theorem InboxValid.mem_taken {l : Loop ℕ X (Option T) E} (hi : l.InboxValid) {i : ℕ} {x : T}
    (hx : (i,x) ∈ l.handedOut) : (i,x) ∈ l.taken ↔ l.completed i = true := by
  rw [hi.taken_eq,List.mem_filter]
  exact and_iff_right hx

/-- When nothing is left of a wait that was handed an item, it completed unless it was
cancelled. -/
theorem completed_iff {route : ℕ → Route} {l : Loop ℕ X (Option T) E}
    (hl : Runs.Reachable (step route) (fun l a => sequential l a = true) init l) {i : ℕ}
    {c : Call (Option T) E} {x : T} (hc : l.calls i = some c)
    (hq : Quiescent (route i) (l.callState i c)) (hx : (i,x) ∈ l.handedOut) :
    l.completed i = true ↔ (i,.cancelTask) ∉ l.trace := by
  have hs := reachable_call hl hc
  have hi := (reachable_handshakeValid hs).interrupted
  obtain ⟨y,hy,hyx⟩ := mem_tagged.mp hx
  have hret : .returned (.ok (some x)) ∈ (l.callState i c).trace := by
    apply mem_view.mpr
    cases y with
    | returned o =>
      cases o with
      | ok w =>
        obtain rfl : w = some x := hyx
        exact hy
      | error e => cases hyx
    | _ => cases hyx
  have hcm : (i,Event.cancelTask) ∈ l.trace ↔ c.interrupted := mem_view.symm.trans hi
  rcases hq.result hs hret with ⟨ht,_⟩ | ⟨ht,_⟩
  · have ht : c.task = .returned (some x) := ht
    simp [hcm,completed,hc,ht,Task.isReturned,Call.interrupted]
  · have ht : c.task = .cancelled := ht
    simp [hcm,completed,hc,ht,Task.isReturned,Call.interrupted]

/-- The calls return the items that the inbox handed to the waits which completed, in the
order in which it handed them out. With nothing of a wait left to run, the item it was
handed, if its text decodes, was returned exactly when the call was not cancelled: what is
handed to a cancelled call is dropped. -/
theorem received_eq_handedOut_of_completed {l : Loop ℕ X (Option T) E}
    (hl : Runs.Reachable (step (fun _ => .blocking false)) (fun l a => sequential l a = true)
      init l) :
    l.received read = (l.handedOut.filter (fun x => l.completed x.1)).filterMap (itemOf read) ∧
      ∀ i c x r, l.calls i = some c → Quiescent (.blocking false) (l.callState i c) →
        (i,x) ∈ l.handedOut → read x = .ok (some r) →
        ((i,r) ∈ l.received read ↔ (i,.cancelTask) ∉ l.trace) := by
  have hi := reachable_inboxValid hl
  refine ⟨congrArg (List.filterMap (itemOf read)) hi.taken_eq,?_⟩
  intro i c x r hc hq hx hr
  rw [← completed_iff hl hc hq hx]
  constructor
  · intro hm
    obtain ⟨y,hy,hyr⟩ := List.mem_filterMap.mp hm
    have hd := hi.done y hy
    rwa [itemOf_fst read hyr] at hd
  · intro hd
    exact List.mem_filterMap.mpr ⟨(i,x),(hi.mem_taken hx).mpr hd,itemOf_of_ok read hr⟩

end Received

/-- The first wait is cancelled with an item already handed to it; the second one gets the
next item. -/
def droppedItem : List (LoopAction ℕ Empty (Option ℕ) Empty) :=
  [.start 0,.thread 0 (.newToken 1),.thread 0 .work,.thread 0 .work,.thread 0 .work,
    .thread 0 (.callReturns (.ok (some 10))),.cancelTask 0,.run,.run,
    .endStep,.endStep,.endStep,.endStep,.endStep,.thread 0 .work,.thread 0 .work,.thread 0 .work,
    .run,.run,.start 1,.thread 1 (.newToken 1),.thread 1 .work,.thread 1 .work,.thread 1 .work,
    .thread 1 (.callReturns (.ok (some 11))),.thread 1 .work,.thread 1 .work,.thread 1 .work,
    .run,.run,.run,.run,.run]

/-- A text that is its own item. -/
def asIs (x : ℕ) : Except Empty (Option ℕ) := .ok (some x)

theorem received_eq_handedOut_of_completed_droppedItem :
    ∃ l : Loop ℕ Empty (Option ℕ) Empty,
      Runs.exec (Runs.guarded (step (fun _ => .blocking false)) sequential) init droppedItem =
        some l ∧
      ((1,11) ∈ l.received asIs ↔ (1,.cancelTask) ∉ l.trace) := by
  refine ⟨_,rfl,?_⟩
  refine (received_eq_handedOut_of_completed asIs (.of_guarded droppedItem rfl)).2 1 _ 11 11 rfl ?_
    (List.mem_of_getElem? (i := 0) rfl) rfl
  exact quiescent_iff.mpr ⟨⟨_,rfl⟩,rfl,rfl,rfl⟩

theorem received_ne_handedOut_droppedItem : ∃ l : Loop ℕ Empty (Option ℕ) Empty,
    Runs.exec (Runs.guarded (step (fun _ => .blocking false)) sequential) init droppedItem =
        some l ∧
      l.handedOut = [(1,11),(0,10)] ∧ l.received asIs = [(1,11)] ∧
      (l.received asIs).map Prod.snd ≠ l.handedOut.map Prod.snd :=
  ⟨_,rfl,rfl,rfl,show [11] ≠ [11,10] by decide⟩

end Loop
end MaculaPy.Blocking
