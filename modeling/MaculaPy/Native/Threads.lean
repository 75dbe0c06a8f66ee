import MaculaPy.Blocking.Native
import MaculaPy.Native.Refines

/-! # The native call of a thread

To the event loop a thread is in its native call until that returns an outcome. Here the thread
enters the library, is lent memory, copies and frees it, one step after another while the other
threads and the loop go on. Seen without the memory this is the loop as it was.
-/
namespace MaculaPy.Native
open Runs Blocking
variable {X V E : Type*}

/-- The loop with its threads, and the memory they share. -/
structure Threads (X V E : Type*) where
  loop : Loop ℕ X V E
  memory : Memory

inductive ThreadsAction (X V E : Type*)
  | loop (a : LoopAction ℕ X V E)
  | native (i : ℕ) (r : Returned)
  | turn (i : ℕ)

def isReturn : LoopAction ℕ X V E → Bool
  | .thread _ (.callReturns _) => true
  | _ => false

/-- The thread is in its native call. -/
def isCalling (l : Loop ℕ X V E) (i : ℕ) : Bool :=
  match (l.calls i).map Call.worker with
  | some (.calling _) => true
  | _ => false

/-- The thread that enters its native call by this step. -/
def enters (l l' : Loop ℕ X V E) : LoopAction ℕ X V E → Option ℕ
  | .thread i _ => if isCalling l i = false ∧ isCalling l' i = true then some i else none
  | _ => none

namespace Threads

def init : Threads X V E := ⟨.init,.init⟩

variable (route : ℕ → Route) (site : ℕ → Site)
  (convert : Site → Outcome → Except (Raised E) V)

/-- What the thread hands over when its call has ended: its last entry of the log. -/
def handedOver (m : Memory) : Option (Except (Raised E) V) :=
  m.done.getLast?.map fun x => convert x.2.1 x.2.2

/-- A thread that enters calls the function of its site; when it is back from the library for
good, its call returns. -/
def step (w : Threads X V E) : ThreadsAction X V E → Option (Threads X V E)
  | .loop a =>
    if isReturn a then none
    else (Loop.step route w.loop a).bind fun l =>
      match enters w.loop l a with
      | none => some ⟨l,w.memory⟩
      | some i => (w.memory.step (.start i (site i))).map fun m => ⟨l,m⟩
  | .native i r => (w.memory.step (.native i r)).map fun m => ⟨w.loop,m⟩
  | .turn i => (w.memory.step (.turn i)).bind fun m =>
    if m.phase i = .idle then (handedOver convert m).bind fun o =>
      (Loop.step route w.loop (.thread i (.callReturns o))).map fun l => ⟨l,m⟩
    else some ⟨w.loop,m⟩

def contract (w : Threads X V E) : ThreadsAction X V E → Prop
  | .native i r => Memory.contract w.memory (.native i r)
  | _ => True

/-- The step of the loop that a step with the memory is; most of those in the library are none. -/
def label (w : Threads X V E) : ThreadsAction X V E → List (LoopAction ℕ X V E)
  | .loop a => [a]
  | .native _ _ => []
  | .turn i =>
    match w.memory.step (.turn i) with
    | some m =>
      if m.phase i = .idle then
        (handedOver convert m).toList.map fun o => .thread i (.callReturns o)
      else []
    | none => []

end Threads

/-- What the native calls returned, newest first, each with its thread. -/
def returnsOf (t : List (ℕ × Event V E)) : List (ℕ × Except (Raised E) V) :=
  t.filterMap fun x => x.2.outcome?.map fun o => (x.1,o)

theorem returnsOf_tag (i : ℕ) (es : List (Event V E)) (t : List (ℕ × Event V E)) :
    returnsOf (es.map (Prod.mk i) ++ t) = (returns es).map (Prod.mk i) ++ returnsOf t := by
  rw [returnsOf,List.filterMap_append]
  congr 1
  induction es with
  | nil => rfl
  | cons x es ih =>
    cases hx : x.outcome? with
    | none => simpa [hx,returns] using ih
    | some o => simpa [hx,returns] using ih

section Steps
variable {route : ℕ → Route} {l l' : Loop ℕ X V E} {a : LoopAction ℕ X V E} {i j : ℕ}

/-- Only the return of a native call adds to what the calls returned. -/
theorem step_returnsOf (he : Loop.step route l a = some l') (ha : isReturn a = false) :
    returnsOf l'.trace = returnsOf l.trace := by
  cases Loop.step_move he with
  | start => rfl
  | @thread i a c e hf hc ht =>
    rcases (threadStep_returns ht).2 with hr | ⟨o,rfl,-⟩
    · rw [Loop.after,returnsOf_tag,hr]
      rfl
    · cases ha
  | cancelTask hb hc ht =>
    rw [Loop.after,returnsOf_tag,cancelTask_events ht]
    rfl
  | @run i k ks c hb hr hc =>
    have hn : returns (runCallback (route i) c k).events = [] := by
      refine List.filterMap_eq_nil_iff.mpr ?_
      intro x hx
      have hk := (runCallback_worker (route i) c k).2 x hx
      cases x <;> simp_all [Event.ofCallback,Event.outcome?]
    rw [Loop.after,returnsOf_tag,hn]
    rfl
  | other => rfl
  | endStep hb hc ht =>
    rw [Loop.after,returnsOf_tag,(endTheCall_taskChange ht).2]
    rfl
  | soon => rfl

theorem isCalling_iff : isCalling l i = true ↔
    ∃ c h, l.calls i = some c ∧ c.worker = .calling h := by
  unfold isCalling
  constructor
  · intro h
    split at h
    case h_1 k hk =>
      obtain ⟨c,hc,hw⟩ := Option.map_eq_some_iff.mp hk
      exact ⟨c,k,hc,hw⟩
    case h_2 => cases h
  · rintro ⟨c,h,hc,hw⟩
    rw [hc,Option.map_some,hw]

theorem isCalling_congr (h : (l'.calls i).map Call.worker = (l.calls i).map Call.worker) :
    isCalling l' i = isCalling l i := by
  rw [isCalling,isCalling,h]

/-- A thread leaves its native call by the return alone. -/
theorem threadStep_calling {r : Route} {c : Call V E} {x : ThreadAction V E} {e : Effect V E}
    {h : Option ℕ} (he : threadStep r c x = some e) (hw : c.worker = .calling h)
    (hx : ∀ o, x ≠ .callReturns o) : e.call.worker = .calling h := by
  cases x with
  | newToken k => simp [threadStep,hw] at he
  | work => simp [threadStep,work,hw] at he
  | callReturns o => exact absurd rfl (hx o)
  | discard =>
    simp only [threadStep] at he
    split at he
    case h_1 => cases he
    case h_2 =>
      cases he
      exact hw

theorem step_calling (he : Loop.step route l a = some l') (ha : isReturn a = false)
    (hj : isCalling l j = true) : isCalling l' j = true := by
  obtain ⟨c,h,hc,hw⟩ := isCalling_iff.mp hj
  obtain ⟨c',hc'⟩ := Loop.step_started he hc
  refine isCalling_iff.mpr ⟨c',h,hc',?_⟩
  rcases Loop.step_worker he hc' with rfl | ⟨x,rfl⟩ | ⟨d,hd,hw'⟩
  · cases Loop.step_move he with
    | start hb hn =>
      rw [hc] at hn
      cases hn
  · cases Loop.step_move he with
    | @thread _ _ d e hf hd ht =>
      rw [hc] at hd
      cases hd
      rw [Loop.after_calls_self] at hc'
      cases hc'
      refine threadStep_calling ht hw ?_
      rintro o rfl
      cases ha
  · rw [hc] at hd
    cases hd
    rw [hw',hw]

theorem step_enters (he : Loop.step route l a = some l') (hj : isCalling l j = false)
    (hj' : isCalling l' j = true) : enters l l' a = some j := by
  obtain ⟨c',h,hc',hw⟩ := isCalling_iff.mp hj'
  rcases Loop.step_worker he hc' with rfl | ⟨x,rfl⟩ | ⟨d,hd,hw'⟩
  · cases Loop.step_move he with
    | start hb hn =>
      have hs : some Blocking.start = some c' := by simpa using hc'
      cases hs
      cases hw
  · simp [enters,hj,hj']
  · have hcalling := isCalling_iff.mpr ⟨d,h,hd,hw'.symm.trans hw⟩
    rw [hj] at hcalling
    cases hcalling

theorem enters_eq_some (h : enters l l' a = some j) :
    isCalling l j = false ∧ isCalling l' j = true := by
  cases a with
  | thread i x =>
    rw [enters] at h
    split at h
    case isTrue hc =>
      cases h
      exact hc
    case isFalse => cases h
  | _ => cases h

/-- A native call can return whenever it is under way, and its thread is out of it then. -/
theorem step_return (route : ℕ → Route) (hi : isCalling l i = true) (o : Except (Raised E) V) :
    ∃ l', Loop.step route l (.thread i (.callReturns o)) = some l' ∧ isCalling l' i = false ∧
      (∀ j, j ≠ i → isCalling l' j = isCalling l j) ∧
      returnsOf l'.trace = (i,o) :: returnsOf l.trace := by
  obtain ⟨c,h,hc,hw⟩ := isCalling_iff.mp hi
  obtain ⟨e,ht,hout⟩ : ∃ e, threadStep (route i) c (.callReturns o) = some e ∧
      ∀ k, e.call.worker ≠ .calling k := by
    cases h with
    | none => exact ⟨_,by simp only [threadStep,hw]; rfl,by simp⟩
    | some k => exact ⟨_,by simp only [threadStep,hw]; rfl,by simp⟩
  refine ⟨l.after i e,by simp [Loop.step,ThreadAction.fresh,hc,ht],?_,?_,?_⟩
  · cases hcall : isCalling (l.after i e) i with
    | false => rfl
    | true =>
      obtain ⟨d,k,hd,hk⟩ := isCalling_iff.mp hcall
      rw [Loop.after_calls_self] at hd
      cases hd
      exact absurd hk (hout k)
  · intro j hj
    exact isCalling_congr (by rw [Loop.after_calls_of_ne l e hj])
  · rw [Loop.after,returnsOf_tag,(callReturns_events ht).2]
    rfl

end Steps

section Memory
variable {s s' : Memory} {i j : ℕ} {c : Site} {r : Returned}

theorem start_phase (he : s.step (.start i c) = some s') : s'.phase i = .called c ∧
    (∀ j, j ≠ i → s'.phase j = s.phase j) ∧ s'.done = s.done ∧ s'.answered = s.answered := by
  rw [Memory.step] at he
  split at he
  case isFalse => cases he
  case isTrue =>
    cases he
    refine ⟨Function.update_self _ _ _,?_,rfl,rfl⟩
    intro j hj
    exact Function.update_of_ne hj _ _

theorem native_phase (he : s.step (.native i r) = some s') :
    ∃ c, s.phase i = .called c ∧ (∃ p n e, s'.phase i = .returned c p n e) ∧
      (∀ j, j ≠ i → s'.phase j = s.phase j) ∧ s'.done = s.done ∧
      s'.answered = s.answered ++ [(i,c,r)] := by
  rw [Memory.step] at he
  split at he
  case h_2 => cases he
  case h_1 c hi =>
    obtain ⟨m1,h1,he⟩ := Option.bind_eq_some_iff.mp he
    obtain ⟨m2,h2,he⟩ := Option.map_eq_some_iff.mp he
    cases he
    refine ⟨c,hi,⟨_,_,_,Function.update_self _ _ _⟩,?_,rfl,rfl⟩
    intro j hj
    exact Function.update_of_ne hj _ _

/-- What a turn can be. -/
theorem turn_cases (he : s.turn i = some s') : s.phase i ≠ .idle ∧
    (∀ c, s.phase i ≠ .called c) ∧ (s' = s.crash ∨
      (∃ p, p ≠ .idle ∧ (∀ c, p ≠ .called c) ∧ s' = s.moveTo i p) ∨
      ∃ m c o, s' = { s with heap := m }.finish i c o) := by
  cases hp : s.phase i with
  | idle => simp [Memory.turn,hp] at he
  | called => simp [Memory.turn,hp] at he
  | returned c result length err =>
    refine ⟨by simp,by simp,?_⟩
    simp only [Memory.turn,hp] at he
    split at he
    · split at he
      · exact .inl (Option.some.inj he).symm
      · exact .inr (.inl ⟨_,by simp,by simp,(Option.some.inj he).symm⟩)
    · split at he
      · exact .inr (.inr ⟨s.heap,_,_,(Option.some.inj he).symm⟩)
      · split at he
        · exact .inr (.inr ⟨s.heap,_,_,(Option.some.inj he).symm⟩)
        · split at he
          · exact .inl (Option.some.inj he).symm
          · exact .inr (.inl ⟨_,by simp,by simp,(Option.some.inj he).symm⟩)
  | raising c err text =>
    refine ⟨by simp,by simp,?_⟩
    simp only [Memory.turn,hp] at he
    split at he
    · exact .inl (Option.some.inj he).symm
    · exact .inr (.inr ⟨_,_,_,(Option.some.inj he).symm⟩)
  | taking c k a bs =>
    refine ⟨by simp,by simp,?_⟩
    simp only [Memory.turn,hp] at he
    split at he
    · exact .inl (Option.some.inj he).symm
    · exact .inr (.inr ⟨_,_,_,(Option.some.inj he).symm⟩)

/-- A turn leaves a thread in its call, or ends the call with one entry in the log. -/
theorem turn_phase (he : s.step (.turn i) = some s') : s.phase i ≠ .idle ∧
    (∀ c, s'.phase i ≠ .called c) ∧ (∀ j, j ≠ i → s'.phase j = s.phase j) ∧
    s'.answered = s.answered ∧ ((s'.phase i ≠ .idle ∧ s'.done = s.done) ∨
      s'.phase i = .idle ∧ ∃ c o, s'.done = s.done ++ [(i,c,o)]) := by
  obtain ⟨hp,hc,rfl | ⟨p,hn,hnc,rfl⟩ | ⟨m,c,o,rfl⟩⟩ := turn_cases he
  · exact ⟨hp,hc,fun _ _ => rfl,rfl,.inl ⟨hp,rfl⟩⟩
  · have hi : (s.moveTo i p).phase i = p := Function.update_self _ _ _
    rw [hi]
    exact ⟨hp,hnc,fun j hj => Function.update_of_ne hj _ _,rfl,.inl ⟨hn,rfl⟩⟩
  · have hi : ({ s with heap := m }.finish i c o).phase i = .idle := Function.update_self _ _ _
    rw [hi]
    exact ⟨hp,by simp,fun j hj => Function.update_of_ne hj _ _,rfl,.inr ⟨rfl,c,o,rfl⟩⟩

end Memory

section Composed
variable {route : ℕ → Route} {site : ℕ → Site} {convert : Site → Outcome → Except (Raised E) V}

/-- The threads that are in their native calls are those that the memory has in one, each calls
the function of its site, and what these have ended with is what the calls have returned. -/
structure InStep (site : ℕ → Site) (convert : Site → Outcome → Except (Raised E) V)
    (w : Threads X V E) : Prop where
  memory : Reachable Memory.step Memory.contract .init w.memory
  calling : ∀ i, isCalling w.loop i = true ↔ w.memory.phase i ≠ .idle
  called : ∀ i c, w.memory.phase i = .called c → c = site i
  sited : ∀ x ∈ w.memory.answered, x.2.1 = site x.1
  returned : returnsOf w.loop.trace =
    (w.memory.done.map fun x => (x.1,convert x.2.1 x.2.2)).reverse

theorem init_inStep : InStep site convert (Threads.init : Threads X V E) where
  memory := .refl _
  calling i := by simp [Threads.init,Loop.init,Memory.init,isCalling]
  called i c h := by cases h
  sited x h := by cases h
  returned := rfl

section Matched
variable {w w' : Threads X V E} {a : LoopAction ℕ X V E} {i : ℕ} {r : Returned}

theorem loop_inStep (hw : InStep site convert w)
    (he : w.step route site convert (.loop a) = some w') :
    exec (Loop.step route) w.loop [a] = some w'.loop ∧ InStep site convert w' := by
  rw [Threads.step] at he
  split at he
  case isTrue => cases he
  case isFalse ha =>
    rw [Bool.not_eq_true] at ha
    obtain ⟨l',hl,he⟩ := Option.bind_eq_some_iff.mp he
    have hexec : exec (Loop.step route) w.loop [a] = some l' := by
      rw [exec,hl]
      rfl
    have hnew : ∀ j, isCalling l' j = true → isCalling w.loop j = true ∨
        enters w.loop l' a = some j := by
      intro j hj
      cases hn : isCalling w.loop j with
      | true => exact .inl rfl
      | false => exact .inr (step_enters hl hn hj)
    cases hen : enters w.loop l' a with
    | none =>
      rw [hen] at he
      cases he
      refine ⟨hexec,hw.memory,?_,hw.called,hw.sited,(step_returnsOf hl ha).trans hw.returned⟩
      intro i
      rw [← hw.calling i]
      constructor
      · intro hi
        rcases hnew i hi with h | h
        · exact h
        · rw [h] at hen
          cases hen
      · exact step_calling hl ha
    | some j =>
      rw [hen] at he
      obtain ⟨m,hm,he⟩ := Option.map_eq_some_iff.mp he
      cases he
      obtain ⟨hpj,hother,hdone,hans⟩ := start_phase hm
      refine ⟨hexec,?_,?_,?_,?_,?_⟩
      · exact hw.memory.tail (show Memory.contract w.memory (.start j (site j)) from trivial) hm
      · intro i
        by_cases hi : i = j
        · subst hi
          simp [hpj,(enters_eq_some hen).2]
        · dsimp only
          rw [hother i hi,← hw.calling i]
          constructor
          · intro hc
            rcases hnew i hc with h | h
            · exact h
            · exact absurd (Option.some.inj (h.symm.trans hen)) hi
          · exact step_calling hl ha
      · intro i c hc
        by_cases hi : i = j
        · subst hi
          rw [hpj] at hc
          cases hc
          rfl
        · exact hw.called i c ((hother i hi).symm.trans hc)
      · rw [hans]
        exact hw.sited
      · dsimp only
        rw [step_returnsOf hl ha,hdone]
        exact hw.returned

theorem native_inStep (hw : InStep site convert w) (hok : Memory.contract w.memory (.native i r))
    (he : w.step route site convert (.native i r) = some w') :
    w'.loop = w.loop ∧ InStep site convert w' := by
  obtain ⟨m,hm,he⟩ := Option.map_eq_some_iff.mp he
  cases he
  obtain ⟨c,hp,⟨p,n,e,hp'⟩,hother,hdone,hans⟩ := native_phase hm
  refine ⟨rfl,hw.memory.tail hok hm,?_,?_,?_,?_⟩
  · intro j
    by_cases hj : j = i
    · subst hj
      rw [hw.calling j,hp,hp']
      simp
    · dsimp only
      rw [hother j hj]
      exact hw.calling j
  · intro j d hd
    by_cases hj : j = i
    · subst hj
      rw [hp'] at hd
      cases hd
    · exact hw.called j d ((hother j hj).symm.trans hd)
  · rw [hans]
    intro x hx
    rcases List.mem_append.mp hx with hx | hx
    · exact hw.sited x hx
    · cases List.mem_singleton.mp hx
      exact hw.called i c hp
  · dsimp only
    rw [hdone]
    exact hw.returned

theorem turn_inStep (hw : InStep site convert w)
    (he : w.step route site convert (.turn i) = some w') :
    exec (Loop.step route) w.loop (w.label convert (.turn i)) = some w'.loop ∧
      InStep site convert w' := by
  obtain ⟨m,hm,he⟩ := Option.bind_eq_some_iff.mp he
  obtain ⟨hp,hnc,hother,hans,hcase⟩ := turn_phase hm
  have hcalling := (hw.calling i).mpr hp
  have hmem := hw.memory.tail (show Memory.contract w.memory (.turn i) from trivial) hm
  have hcalled : ∀ j c, m.phase j = .called c → c = site j := by
    intro j c hc
    by_cases hj : j = i
    · subst hj
      exact absurd hc (hnc c)
    · exact hw.called j c ((hother j hj).symm.trans hc)
  have hsited : ∀ x ∈ m.answered, x.2.1 = site x.1 := by
    rw [hans]
    exact hw.sited
  rcases hcase with ⟨hp',hdone⟩ | ⟨hp',c,o,hdone⟩
  · rw [if_neg hp'] at he
    cases he
    refine ⟨by simp [Threads.label,hm,hp',exec],hmem,?_,hcalled,hsited,?_⟩
    · intro j
      by_cases hj : j = i
      · subst hj
        exact iff_of_true hcalling hp'
      · dsimp only
        rw [hother j hj]
        exact hw.calling j
    · dsimp only
      rw [hdone]
      exact hw.returned
  · have hh : Threads.handedOver convert m = some (convert c o) := by
      simp [Threads.handedOver,hdone]
    rw [if_pos hp',hh,Option.bind_some] at he
    obtain ⟨l',hl,he⟩ := Option.map_eq_some_iff.mp he
    cases he
    obtain ⟨l2,hl2,hout,hsame,hret⟩ := step_return route hcalling (convert c o)
    rw [hl] at hl2
    cases hl2
    refine ⟨by simp [Threads.label,hm,hp',hh,exec,hl],hmem,?_,hcalled,hsited,?_⟩
    · intro j
      by_cases hj : j = i
      · subst hj
        simp [hout,hp']
      · dsimp only
        rw [hsame j hj,hother j hj]
        exact hw.calling j
    · dsimp only
      rw [hret,hdone,hw.returned]
      simp

end Matched

theorem Threads.simulation (route : ℕ → Route) (site : ℕ → Site)
    (convert : Site → Outcome → Except (Raised E) V) :
    Simulation (Threads.step (X := X) route site convert) Threads.contract (Loop.step route)
      (Threads.label convert) fun w l => l = w.loop ∧ InStep site convert w where
  matched w a w' l h hok he := by
    obtain ⟨rfl,hw⟩ := h
    cases a with
    | loop a =>
      obtain ⟨hl,hw'⟩ := loop_inStep hw he
      exact ⟨_,hl,rfl,hw'⟩
    | native i r =>
      obtain ⟨hl,hw'⟩ := native_inStep hw hok he
      exact ⟨_,rfl,hl.symm,hw'⟩
    | turn i =>
      obtain ⟨hl,hw'⟩ := turn_inStep hw he
      exact ⟨_,hl,rfl,hw'⟩

theorem Threads.reachable_inStep {w : Threads X V E}
    (h : Reachable (Threads.step route site convert) Threads.contract .init w) :
    Reachable (Loop.step route) Runs.free .init w.loop ∧ InStep site convert w := by
  obtain ⟨l,hl,rfl,hw⟩ := (Threads.simulation route site convert).reachable h ⟨rfl,init_inStep⟩
  exact ⟨hl,hw⟩

/-- What a call has ended with is made of what it was replied. -/
theorem replied_of_done {s : Memory} (h : Reachable Memory.step Memory.contract .init s)
    {i : ℕ} {c : Site} {o : Outcome} (hd : (i,c,o) ∈ s.done) :
    ∃ r, (i,c,r) ∈ s.answered ∧ o = r.reply.outcome c := by
  obtain ⟨t,ht,hv⟩ := reachable_valid h
  have ho := Calls.reachable_ordered ht i
  rw [hv.replies,hv.done] at ho
  have hm : (c,o) ∈ (s.done.filter (·.1 = i)).map Prod.snd :=
    List.mem_map.mpr ⟨(i,c,o),by simp [hd],rfl⟩
  have ha : (c,o) ∈ (s.answered.filter (·.1 = i)).map
      fun x => (x.2.1,x.2.2.reply.outcome x.2.1) := by
    rw [ho]
    exact List.mem_append_left _ hm
  obtain ⟨⟨j,d,r⟩,hx,hr⟩ := List.mem_map.mp ha
  obtain ⟨hmem,hj⟩ := List.mem_filter.mp hx
  obtain ⟨rfl,rfl⟩ := Prod.mk.inj hr
  obtain rfl : j = i := of_decide_eq_true hj
  exact ⟨r,hmem,rfl⟩

theorem mem_returnsOf {t : List (ℕ × Event V E)} {i : ℕ} {o : Except (Raised E) V} :
    (i,o) ∈ returnsOf t ↔ (i,Event.returned o) ∈ t := by
  rw [returnsOf,List.mem_filterMap]
  constructor
  · rintro ⟨⟨j,x⟩,hx,hm⟩
    obtain ⟨p,hp,he⟩ := Option.map_eq_some_iff.mp hm
    cases he
    cases x <;> cases hp
    exact hx
  · intro h
    exact ⟨_,h,rfl⟩

/-- With the library below it and any number of threads in it the loop does nothing that it does
not do alone, no memory is read or freed that is not lent, and what a native call returns is made
of what the library replied to this call. -/
theorem Threads.loop_above_memory {w : Threads X V E}
    (h : Reachable (Threads.step route site convert) Threads.contract .init w) :
    Reachable (Loop.step route) Runs.free .init w.loop ∧ w.memory.crashed = false ∧
      ∀ i o, (i,Event.returned o) ∈ w.loop.trace →
        ∃ r, (i,site i,r) ∈ w.memory.answered ∧ o = convert (site i) (r.reply.outcome (site i)) := by
  obtain ⟨hl,hw⟩ := Threads.reachable_inStep h
  obtain ⟨t,-,hv⟩ := reachable_valid hw.memory
  refine ⟨hl,hv.safe,?_⟩
  intro i o ho
  have hr := mem_returnsOf.mpr ho
  rw [hw.returned,List.mem_reverse] at hr
  obtain ⟨⟨j,c,p⟩,hd,he⟩ := List.mem_map.mp hr
  obtain ⟨rfl,rfl⟩ := Prod.mk.inj he
  obtain ⟨r,ha,rfl⟩ := replied_of_done hw.memory hd
  obtain rfl : c = site j := hw.sited _ ha
  exact ⟨r,ha,rfl⟩

/-- Two calls on the loop. The second is lent the address that the first gave back, and the first
is cancelled before its result is settled. -/
def twoCalls : List (ThreadsAction Unit Outcome Unit) :=
  [.loop (.start 0),.loop (.start 1),.loop (.thread 0 .work),.loop (.thread 1 (.newToken 5)),
    .native 0 ⟨0,some (8,[112,113,0]),0,none⟩,.loop (.cancelTask 0),.turn 0,.turn 0,
    .loop (.thread 1 .work),.loop (.thread 1 .work),.loop (.thread 1 .work),
    .native 1 ⟨0,some (8,[114,0]),0,none⟩,.turn 1,.loop (.thread 0 .work),.turn 1]

def twoRoutes (i : ℕ) : Route := if i = 0 then .native else .blocking true

def profileSite : Site := ⟨"NodeKey.profile","macula_key_profile",.string⟩

theorem twoCalls_reachable {w : Threads Unit Outcome Unit} (h : exec (Threads.step twoRoutes
    (fun _ => profileSite) fun _ o => .ok o) .init twoCalls = some w) : Reachable
      (Threads.step twoRoutes (fun _ => profileSite) fun _ o => .ok o) Threads.contract .init w := by
  refine .of_exec_of_forall twoCalls h ?_
  intro a ha u
  simp only [twoCalls,List.mem_cons,List.not_mem_nil,or_false] at ha
  rcases ha with rfl | rfl | rfl | rfl | rfl | rfl | rfl | rfl | rfl | rfl | rfl | rfl | rfl |
    rfl | rfl <;> simp [Threads.contract,Memory.contract,Memory.Keeps]

theorem Threads.loop_above_memory_twoCalls : ∃ w : Threads Unit Outcome Unit,
    exec (Threads.step twoRoutes (fun _ => profileSite) fun _ o => .ok o) .init twoCalls = some w ∧
      w.memory.crashed = false ∧ ∃ r, (1,profileSite,r) ∈ w.memory.answered ∧
        Except.ok (.text [114]) = (Except.ok (r.reply.outcome profileSite) :
          Except (Raised Unit) Outcome) := by
  refine ⟨_,rfl,?_⟩
  have h := Threads.loop_above_memory (twoCalls_reachable rfl)
  exact ⟨h.2.1,h.2.2 1 (.ok (.text [114])) (.head _)⟩

end Composed
end MaculaPy.Native
