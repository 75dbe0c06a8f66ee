import MaculaPy.Peers.Network

/-! # No call is left hanging

What becomes of a call that was handed over, once nothing of it is left to do: `release` has given
it back, or its handler's end has reached the caller.
-/
namespace MaculaPy.Serving
open Blocking History
variable {J R D E : Type*} {decode : J → Except D (Option R)} {s : Served J R D E}

/-- `release` is called for what a wait was handed. -/
theorem Served.ServeValid.of_release (hv : ServeValid decode s) {i h : ℕ}
    (hr : h ∈ s.releases i) : ∃ text, (i,Event.returned (.ok (.item h text))) ∈ s.loop.trace := by
  obtain ⟨v,hd,hh⟩ := List.mem_filterMap.mp hr
  obtain ⟨x,hx,-⟩ := List.mem_filterMap.mp hd
  obtain ⟨c,hc⟩ := hv.called_of_view hx
  have hm := returned_of_discarded (Loop.reachable_call hv.loop hc) hd
  cases v with
  | nothing closed => cases hh
  | item g text =>
    cases hh
    exact ⟨text,mem_view.mp hm⟩

variable {carries : Answer → Bool} {t : Session}

theorem AnswerValid.outcome_of_over (hv : AnswerValid carries t) (ho : t.over = true) :
    ∃ o, t.outcome = some o := by
  cases hp : t.phase with
  | running => simp [Session.over,hp] at ho
  | answering a c =>
    obtain ⟨-,⟨o,h,-⟩,-⟩ := hv.answering a c hp
    exact ⟨o,h⟩
  | ended =>
    obtain ⟨o,h,-⟩ := hv.ended hp
    exact ⟨o,h⟩

/-- An answer that was submitted and is carried was accepted, unless the native side had ended the
call. -/
theorem AnswerValid.accepted_of_log (hv : AnswerValid carries t) {a : Answer} {v : Verdict}
    (hl : t.log = [(a,v)]) (ha : carries a = true) :
    t.pending = .ended ∨ t.accepted? = some a := by
  obtain ⟨a',v',hl',hok⟩ := hv.log.resolve_left (by simp [hl])
  rw [hl] at hl'
  cases hl'
  cases v with
  | accepted => exact .inr (by simp [Session.accepted?,hl])
  | refused => exact absurd (hok.1.symm.trans ha) (by decide)
  | alreadyAnswered => exact .inl hok
  | invalidHandle => exact .inl hok

end MaculaPy.Serving

namespace MaculaPy.Peers.Network
open Wire Serving Blocking Runs
variable {E : Type*}

section Done
variable (num : Numbers) (floatText : Binary64 → Numeral) (repr : Json → PyStr)
  (carries : Answer → Bool) (mesh : ℕ → Mesh num)

/-- Nothing is left to do of what a wait was handed: its thread, its task and the loop are past it,
the task of its handler has ended and no answer of it is on its way. -/
structure Done (w : Network E) (i : ℕ) : Prop where
  wait : ∀ c, w.served.loop.calls i = some c → Quiescent (route i) (w.served.loop.callState i c)
  handler : ∀ k, w.served.handlers i = some k →
    (w.sessions i).over = true ∧ (w.sessions i).inFlight = false
  returns : step num floatText repr carries mesh w (.returns i) = none

end Done

variable {num : Numbers} {floatText : Binary64 → Numeral} {repr : Json → PyStr}
  {carries : Answer → Bool} {mesh : ℕ → Mesh num} {w : Network E} {i : ℕ} {k : Handler PyVal}

theorem Done.returned (hd : Done num floatText repr carries mesh w i)
    (hk : w.served.handlers i = some k) {a : Answer} (ha : (w.sessions i).accepted? = some a) :
    ∃ e, w.ended k.handle = some e := by
  refine Option.ne_none_iff_exists'.mp fun hn => ?_
  have h := hd.returns
  simp only [step,hk,ha,hn] at h
  cases h

/-- A call with a handler whose answer is carried ends with what the handler ended with, unless the
native side has ended it. -/
theorem Linked.answered (hf : ReadsFloats num floatText) (hc : ∀ a, carries a = true)
    (hw : Linked num floatText repr carries mesh w) (hk : w.served.handlers i = some k)
    (hd : Done num floatText repr carries mesh w i) : (w.sessions i).pending = .ended ∨
      ∃ o, (w.sessions i).outcome = some o ∧ w.ended k.handle = some (handled o) := by
  obtain ⟨hover,hflight⟩ := hd.handler k hk
  have hv := reachable_answerValid (hw.sessions i)
  obtain ⟨o,ho⟩ := hv.outcome_of_over hover
  obtain ⟨a,ha,-⟩ := received_answer repr hf (mesh k.handle) (hw.sound i o ho)
  rcases log_of_over (hw.sessions i) ho hover hflight with ⟨hn,-⟩ | ⟨b,v,hb,hl⟩
  · rw [ha] at hn
    cases hn
  · refine (hv.accepted_of_log hl (hc b)).imp_right fun hacc => ?_
    obtain ⟨e,he⟩ := hd.returned hk hacc
    obtain ⟨j,l,o',hl',hh,ho',rfl⟩ := hw.ends hf he
    obtain ⟨t,ht,-⟩ := hw.serveValid.handed hk
    obtain rfl : j = i := hw.handler_once hl' (hh ▸ ht)
    exact ⟨o',ho',he⟩

/-- What `Done` asks of the wait and of the handler, as a check. -/
def atRest (w : Network E) (i : ℕ) : Bool :=
  ((w.served.loop.calls i).all fun c =>
    let s := w.served.loop.callState i c
    s.call.worker.posted?.isSome && s.ready.isEmpty && !s.call.task.isEnding &&
      s.call.discards.isEmpty) &&
  (w.served.handlers i).all fun _ => (w.sessions i).over && !(w.sessions i).inFlight

theorem Done.of_atRest (h : atRest w i = true)
    (hr : step num floatText repr carries mesh w (.returns i) = none) :
    Done num floatText repr carries mesh w i := by
  simp only [atRest,Bool.and_eq_true] at h
  refine ⟨fun c hc => ?_,fun k hk => ?_,hr⟩
  · have hx := h.1
    rw [hc,Option.all_some] at hx
    simp only [Bool.and_eq_true,Option.isSome_iff_exists,List.isEmpty_iff,Bool.not_eq_true'] at hx
    obtain ⟨⟨⟨hp,hready⟩,hend⟩,hdis⟩ := hx
    exact quiescent_iff.mpr ⟨hp,hready,hend,hdis⟩
  · have hx := h.2
    rw [hk,Option.all_some] at hx
    simpa using hx

/-- A wait was handed the call. -/
def hands (w : Network E) (i c : ℕ) : Bool :=
  w.served.loop.trace.any fun x => x.1 = i &&
    match x.2 with
    | .returned (.ok (.item h _)) => h = c
    | _ => false

theorem returned_of_hands {c : ℕ} (h : hands w i c = true) :
    ∃ text, (i,Event.returned (.ok (.item c text))) ∈ w.served.loop.trace := by
  obtain ⟨⟨j,e⟩,hm,hx⟩ := List.any_eq_true.mp h
  simp only [Bool.and_eq_true,decide_eq_true_eq] at hx
  obtain ⟨rfl,hx⟩ := hx
  split at hx
  · next g text =>
    obtain rfl : g = c := of_decide_eq_true hx
    exact ⟨text,hm⟩
  · cases hx

/-- The contract of a run whose payloads are ints and whose handlers are cancelled. -/
def admits (w : Network Unit) : NetworkAction Unit → Bool
  | .call _ (.int i) => int64Min ≤ i && i ≤ int64Max
  | .call _ _ => false
  | .serve (.thread _ (.callReturns (.ok (.item h text)))) =>
    (h ∉ w.served.handedOver) && (w.asked h).any fun p =>
      match encodeText bitsText p with
      | .ok s => text = spacing.request s
      | .error _ => false
  | .answer _ (.handlerEnds (.cancelled _) _) => true
  | .answer _ (.handlerEnds _ _) => false
  | _ => true

theorem contract_of_admits {w : Network Unit} {a : NetworkAction Unit} (ha : w.admits a = true) :
    spacingContract w a := by
  unfold admits at ha
  split at ha
  · simp only [Bool.and_eq_true,decide_eq_true_eq] at ha
    exact ⟨ha,trivial⟩
  · cases ha
  · next i h text =>
    simp only [Bool.and_eq_true,decide_eq_true_eq,Option.any_eq_true] at ha
    obtain ⟨hn,p,hp,hx⟩ := ha
    split at hx
    · next s hs => exact ⟨hn,p,s,hp,hs,of_decide_eq_true hx⟩
    · cases hx
  · trivial
  · cases ha
  · next h1 h2 h3 h4 h5 =>
    unfold spacingContract contract
    split <;> first | trivial | simp_all

def handsOver (i h : ℕ) (s : PyStr) : NetworkAction Unit :=
  .serve (.thread i (.callReturns (.ok (.item h (spacing.request s)))))

/-- `stop()` cancels the wait that then takes the other call, and withdraws the handler. -/
def cancels : List (NetworkAction Unit) :=
  [.serve (.stop none),.serve (.withdrawn (.ok ())),.serve .run,.serve .run] ++
    List.replicate 5 (.serve .endStep)

def releases : List (NetworkAction Unit) :=
  List.replicate 3 (.serve (.thread 1 .work)) ++ List.replicate 5 (.serve .run) ++
    [.serve (.thread 1 .discard),.answer 0 (.handlerEnds (.cancelled [.str withdrawn]) false),
      .returns 0]

def withdrawnEarly : List (NetworkAction Unit) :=
  [.call 7 (.int 7),.call 9 (.int 8),.serve .run] ++ untilReturn 0 ++
    handsOver 0 9 (.ofCodes [56]) :: afterReturn 0 ++ untilReturn 1 ++ cancels ++
    handsOver 1 7 (.ofCodes [55]) :: releases

end MaculaPy.Peers.Network
