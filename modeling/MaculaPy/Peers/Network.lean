import MaculaPy.Peers.Call
import MaculaPy.Serving.SelfStop

/-! # Many remote calls

Any number of calls of one served procedure, each with a mesh of its own between its caller and the
provider. The provider's binding serves them on its loop, each in a handler task with its answer,
and every step may come between any two others.
-/
namespace MaculaPy.Serving
open Blocking History
variable {J R D E : Type*} {decode : J → Except D (Option R)} {s t : Served J R D E}

namespace Served

theorem mem_step_trace {a : ServedAction J E} (he : step decode s a = some t)
    {x : ℕ × Event (Taken J) E} (hx : x ∈ s.loop.trace) : x ∈ t.loop.trace := by
  have hcancel : ∀ {u : Served J R D E}, x ∈ u.loop.trace → x ∈ u.cancelServe.loop.trace := by
    intro u hu
    unfold Served.cancelServe
    split
    · exact hu
    · split
      · next hl => exact Loop.mem_step_trace hl hu
      · exact hu
    · exact hu
  cases step_move decode he with
  | thread hl => exact Loop.mem_step_trace hl hx
  | callback hl _ =>
    rw [resume_leaves.1]
    exact Loop.mem_step_trace hl hx
  | task _ _ =>
    rw [(runTask_leaves _).1]
    exact hx
  | endStep hl =>
    rw [resume_leaves.1]
    exact Loop.mem_step_trace hl hx
  | withdrawn _ _ =>
    unfold Served.joinLoop
    dsimp only
    split <;> exact hcancel hx
  | cancelLoop _ _ => exact hcancel hx
  | _ => exact hx

/-- The handles that the waits were handed. -/
def handedOver (s : Served J R D E) : List ℕ :=
  s.loop.trace.filterMap fun x => x.2.outcome?.bind fun o =>
    match o with
    | .ok (.item h _) => some h
    | _ => none

theorem mem_handedOver {i h : ℕ} {text : J}
    (hm : (i,Event.returned (.ok (.item h text))) ∈ s.loop.trace) : h ∈ s.handedOver :=
  List.mem_filterMap.mpr ⟨_,hm,rfl⟩

/-- A wait of which something was seen was called. -/
theorem ServeValid.called_of_view (hv : ServeValid decode s) {i : ℕ} {x : Event (Taken J) E}
    (hx : x ∈ view i s.loop.trace) : ∃ c, s.loop.calls i = some c := by
  refine Option.ne_none_iff_exists'.mp fun hn => ?_
  rw [((Loop.reachable_valid hv.loop).unstarted i hn).2.1] at hx
  cases hx

/-- A wait is handed one thing. -/
theorem ServeValid.returned_unique (hv : ServeValid decode s) {i : ℕ}
    {o o' : Except (Raised E) (Taken J)} (h : (i,Event.returned o) ∈ s.loop.trace)
    (h' : (i,Event.returned o') ∈ s.loop.trace) : o = o' := by
  rw [← mem_view] at h h'
  obtain ⟨c,hc⟩ := hv.called_of_view h
  exact Blocking.returned_unique (Loop.reachable_call hv.loop hc) h h'

/-- A handler has the handle that its wait was handed, and the item that came with it. -/
theorem ServeValid.handed (hv : ServeValid decode s) {i : ℕ} {k : Handler R}
    (hk : s.handlers i = some k) : ∃ text,
      (i,Event.returned (.ok (.item k.handle text))) ∈ s.loop.trace ∧
      decode text = .ok (some k.item) := by
  obtain ⟨text,⟨c,hc,ht⟩,hx⟩ := hv.handled i k hk
  exact ⟨text,mem_view.mp (returned_of_task (Loop.reachable_call hv.loop hc) ht),hx⟩

theorem handler_stays {a : ServedAction J E} (hv : ServeValid decode s)
    (he : step decode s a = some t) {i : ℕ} {k : Handler R} (hk : s.handlers i = some k) :
    ∃ k', t.handlers i = some k' ∧ k'.handle = k.handle := by
  obtain ⟨k',hk'⟩ : ∃ k', t.handlers i = some k' := by
    refine Option.ne_none_iff_exists'.mp fun hn => ?_
    rw [step_keeps he i hn] at hk
    cases hk
  obtain ⟨text,hm,-⟩ := hv.handed hk
  obtain ⟨text',hm',-⟩ := (step_serveValid hv he).handed hk'
  have h := (step_serveValid hv he).returned_unique hm' (mem_step_trace he hm)
  exact ⟨k',hk',(Taken.item.inj (Except.ok.inj h)).1⟩

end Served

/-- The answer that the native side has accepted. -/
def Session.accepted? (s : Session) : Option Answer :=
  (s.log.find? fun x => x.2 = .accepted).map Prod.fst

theorem Session.mem_of_accepted {s : Session} {a : Answer} (h : s.accepted? = some a) :
    (a,.accepted) ∈ s.log := by
  obtain ⟨⟨b,v⟩,hx,rfl⟩ := Option.map_eq_some_iff.mp h
  obtain rfl : v = .accepted := by simpa using List.find?_some hx
  exact List.mem_of_find?_eq_some hx

section Sessions
variable {carries : Answer → Bool} {s t : Session} {b : AnswerAction}

theorem step_log_mono (he : step carries s b = some t) {x : Answer × Verdict} (hx : x ∈ s.log) :
    x ∈ t.log := by
  cases b with
  | handlerEnds o gone =>
    simp only [step] at he
    split at he
    · split at he
      all_goals
        cases he
        simp [Session.submit,hx]
    · cases he
  | call b =>
    simp only [step] at he
    split at he
    · cases he
    · obtain ⟨c,-,rfl⟩ := Option.map_eq_some_iff.mp he
      exact hx
    · cases he
  | nativeAnswers gone =>
    simp only [step] at he
    split at he
    · obtain ⟨c,-,rfl⟩ := Option.map_eq_some_iff.mp he
      simp [Session.submit,hx]
    · cases he
  | nativeEnds =>
    simp only [step] at he
    split at he
    · cases he
      exact hx
    · cases he

/-- How the handler ended is settled by its end alone. -/
theorem step_outcome (he : step carries s b = some t) {o : HandlerEnd} (ho : t.outcome = some o) :
    s.outcome = some o ∨ ∃ gone, b = .handlerEnds o gone := by
  cases b with
  | handlerEnds o' gone =>
    simp only [step] at he
    split at he
    · split at he
      all_goals
        cases he
        simp only [Session.submit,Option.some.injEq] at ho
        exact .inr ⟨gone,by rw [ho]⟩
    · cases he
  | call b =>
    simp only [step] at he
    split at he
    · cases he
    · obtain ⟨c,-,rfl⟩ := Option.map_eq_some_iff.mp he
      exact .inl ho
    · cases he
  | nativeAnswers gone =>
    simp only [step] at he
    split at he
    · obtain ⟨c,-,rfl⟩ := Option.map_eq_some_iff.mp he
      exact .inl ho
    · cases he
  | nativeEnds =>
    simp only [step] at he
    split at he
    · cases he
      exact .inl ho
    · cases he

/-- An answer in the log is the one the handler's end makes. -/
theorem AnswerValid.answer_of_log (hv : AnswerValid carries s) {a : Answer} {v : Verdict}
    (hl : (a,v) ∈ s.log) : ∃ o, s.outcome = some o ∧ answerOf o = some a := by
  have hne : s.log ≠ [] := List.ne_nil_of_mem hl
  cases hp : s.phase with
  | running => exact absurd (hv.running hp) hne
  | answering a' c =>
    obtain ⟨-,⟨o,ho,ha⟩,hempty,hlog⟩ := hv.answering a' c hp
    obtain ⟨v',hl'⟩ := hlog fun h => hne (hempty h)
    rw [hl',List.mem_singleton] at hl
    exact ⟨o,ho,by rw [ha,(Prod.mk.inj hl).1]⟩
  | ended =>
    obtain ⟨o,ho,⟨-,h⟩ | ⟨a',v',ha,hl'⟩⟩ := hv.ended hp
    · exact absurd h hne
    · rw [hl',List.mem_singleton] at hl
      exact ⟨o,ho,by rw [ha,(Prod.mk.inj hl).1]⟩

end Sessions
end MaculaPy.Serving

namespace MaculaPy.Peers
open Wire Serving Blocking Runs
variable {E : Type*}

/-- `decode_payload` of an item, with no item for a JSON null; an error that is none of the hook's
is a `JSONDecodeError`. -/
def itemOf (num : Numbers) (s : PyStr) : Except (Option PyError) (Option PyVal) :=
  match decodeText num s with
  | none => .error none
  | some (.error e) => .error (some e)
  | some (.ok .none) => .ok none
  | some (.ok v) => .ok (some v)

theorem itemOf_eq {num : Numbers} {s : PyStr} {v : PyVal}
    (h : decodeText num s = some (.ok v)) (hv : v ≠ .none) : itemOf num s = .ok (some v) := by
  cases v with
  | none => exact absurd rfl hv
  | _ => simp only [itemOf,h]

/-- The provider's binding, with the answer of each handler task, and the callers: the payload each
call was made with, by the handle it has at the provider, and how it ended. -/
structure Network (E : Type*) where
  served : Served PyStr PyVal (Option PyError) E
  sessions : ℕ → Session
  asked : ℕ → Option PyVal
  ended : ℕ → Option CallEnd

inductive NetworkAction (E : Type*)
  | call (h : ℕ) (payload : PyVal)
  | serve (a : ServedAction PyStr E)
  | answer (i : ℕ) (b : AnswerAction)
  | returns (i : ℕ)

namespace Network

def init (handle : ℕ) : Network E :=
  ⟨.init handle,fun _ => .init,fun _ => none,fun _ => none⟩

/-- The task of a handler is still in `_answer_call`. -/
def unfinished (w : Network E) : ServedAction PyStr E → Bool
  | .handlerEnds i =>
    match w.served.handlers i with
    | some k => (requestFrom k.item).isOk && !(w.sessions i).over
    | none => false
  | _ => false

section Step
variable (num : Numbers) (floatText : Binary64 → Numeral) (repr : Json → PyStr)
  (carries : Answer → Bool) (mesh : ℕ → Mesh num)

def step (w : Network E) : NetworkAction E → Option (Network E)
  | .call h p =>
    match w.asked h with
    | none => some {w with asked := Function.update w.asked h (some p)}
    | some _ => none
  | .serve a =>
    if w.unfinished a then none
    else (Served.step (itemOf num) w.served a).map fun s => {w with served := s}
  | .answer i b =>
    match w.served.handlers i with
    | some k =>
      if k.begun && (requestFrom k.item).isOk then
        (Serving.step carries (w.sessions i) b).map fun t =>
          {w with sessions := Function.update w.sessions i t}
      else none
    | none => none
  | .returns i =>
    match w.served.handlers i,(w.sessions i).accepted? with
    | some k,some a =>
      let e := (mesh k.handle).received floatText repr a
      match w.ended k.handle with
      | none => some {w with ended := Function.update w.ended k.handle (some e)}
      | some _ => none
    | _,_ => none

/-- Callers send payloads, the library hands every call over once, in the text that its mesh makes
of what was sent, and handlers end soundly. -/
def contract (w : Network E) : NetworkAction E → Prop
  | .call _ p => p.Payload ∧ p.NoTag
  | .serve (.thread _ (.callReturns (.ok (.item h text)))) =>
    h ∉ w.served.handedOver ∧
      ∃ p s, w.asked h = some p ∧ encodeText floatText p = .ok s ∧ text = (mesh h).request s
  | .answer _ (.handlerEnds o _) => Sound o
  | _ => True

/-- What the provider has is what the callers sent, and what these have is what it answered. -/
structure Linked (w : Network E) : Prop where
  served : ∃ handle, Reachable (Served.step (itemOf num)) free (Served.init handle) w.served
  sessions : ∀ i, Reachable (Serving.step carries) free .init (w.sessions i)
  sound : ∀ i o, (w.sessions i).outcome = some o → Sound o
  asked : ∀ h p, w.asked h = some p → p.Payload ∧ p.NoTag
  taken : ∀ i h text, (i,Event.returned (.ok (.item h text))) ∈ w.served.loop.trace →
    ∃ p s, w.asked h = some p ∧ encodeText floatText p = .ok s ∧ text = (mesh h).request s
  once : ∀ i j h t u, (i,Event.returned (.ok (.item h t))) ∈ w.served.loop.trace →
    (j,Event.returned (.ok (.item h u))) ∈ w.served.loop.trace → i = j
  ended : ∀ h e, w.ended h = some e → ∃ i k a, w.served.handlers i = some k ∧ k.handle = h ∧
    (a,.accepted) ∈ (w.sessions i).log ∧ e = (mesh h).received floatText repr a

end Step

variable {num : Numbers} {floatText : Binary64 → Numeral} {repr : Json → PyStr}
  {carries : Answer → Bool} {mesh : ℕ → Mesh num} {w w' : Network E}

theorem init_linked (handle : ℕ) :
    Linked num floatText repr carries mesh (init handle : Network E) where
  served := ⟨handle,.refl _⟩
  sessions _ := .refl _
  sound i o h := by cases h
  asked h p hp := by cases hp
  taken i h text hm := by cases hm
  once i j h t u hm := by cases hm
  ended h e he := by cases he

theorem Linked.serveValid (hw : Linked num floatText repr carries mesh w) :
    Served.ServeValid (itemOf num) w.served := by
  obtain ⟨handle,h⟩ := hw.served
  exact Served.reachable_serveValid h

theorem call_linked {h : ℕ} {p : PyVal} (hw : Linked num floatText repr carries mesh w)
    (hp : p.Payload ∧ p.NoTag)
    (he : step num floatText repr carries mesh w (.call h p) = some w') :
    Linked num floatText repr carries mesh w' := by
  simp only [step] at he
  split at he
  case h_2 => cases he
  case h_1 hn =>
    cases he
    have hkeep : ∀ k q, w.asked k = some q → Function.update w.asked h (some p) k = some q := by
      intro k q hq
      rw [Function.update_of_ne _ _ _]
      · exact hq
      · rintro rfl
        rw [hn] at hq
        cases hq
    refine ⟨hw.served,hw.sessions,hw.sound,?_,?_,hw.once,hw.ended⟩
    · intro k q hq
      dsimp only at hq
      by_cases hk : k = h
      · subst hk
        rw [Function.update_self] at hq
        cases hq
        exact hp
      · rw [Function.update_of_ne hk] at hq
        exact hw.asked k q hq
    · intro i k text hm
      obtain ⟨q,s,hq,hs,ht⟩ := hw.taken i k text hm
      exact ⟨q,s,hkeep k q hq,hs,ht⟩

theorem serve_linked {a : ServedAction PyStr E} (hw : Linked num floatText repr carries mesh w)
    (hok : contract num floatText mesh w (.serve a))
    (he : step num floatText repr carries mesh w (.serve a) = some w') :
    Linked num floatText repr carries mesh w' := by
  simp only [step] at he
  split at he
  · cases he
  · obtain ⟨s,hs,rfl⟩ := Option.map_eq_some_iff.mp he
    have hv := hw.serveValid
    have hnew : ∀ i h text, (i,Event.returned (.ok (.item h text))) ∈ s.loop.trace →
        (i,Event.returned (.ok (.item h text))) ∈ w.served.loop.trace ∨
          a = .thread i (.callReturns (.ok (.item h text))) := by
      intro i h text hm
      exact (Served.step_returned hv hs (History.mem_view.mpr hm)).imp_left History.mem_view.mp
    refine ⟨?_,hw.sessions,hw.sound,hw.asked,?_,?_,?_⟩
    · obtain ⟨handle,hr⟩ := hw.served
      exact ⟨handle,hr.tail trivial hs⟩
    · intro i h text hm
      rcases hnew i h text hm with hold | rfl
      · exact hw.taken i h text hold
      · exact hok.2
    · intro i j h t u ht hu
      rcases hnew i h t ht with hti | rfl
      · rcases hnew j h u hu with huj | rfl
        · exact hw.once i j h t u hti huj
        · exact absurd (Served.mem_handedOver hti) hok.1
      · rcases hnew j h u hu with huj | hj
        · exact absurd (Served.mem_handedOver huj) hok.1
        · cases hj
          rfl
    · intro h e hhe
      obtain ⟨i,k,x,hk,hh,hlog,hx⟩ := hw.ended h e hhe
      obtain ⟨k',hk',hh'⟩ := Served.handler_stays hv hs hk
      exact ⟨i,k',x,hk',hh'.trans hh,hlog,hx⟩

theorem answer_linked {i : ℕ} {b : AnswerAction} (hw : Linked num floatText repr carries mesh w)
    (hok : contract num floatText mesh w (.answer i b))
    (he : step num floatText repr carries mesh w (.answer i b) = some w') :
    Linked num floatText repr carries mesh w' := by
  simp only [step] at he
  split at he
  case h_2 => cases he
  case h_1 k hk =>
    split at he
    case isFalse => cases he
    case isTrue hbegun =>
      obtain ⟨t,ht,rfl⟩ := Option.map_eq_some_iff.mp he
      refine ⟨hw.served,?_,?_,hw.asked,hw.taken,hw.once,?_⟩
      · intro j
        by_cases hj : j = i
        · subst hj
          dsimp only
          rw [Function.update_self]
          exact (hw.sessions j).tail trivial ht
        · dsimp only
          rw [Function.update_of_ne hj]
          exact hw.sessions j
      · intro j o ho
        by_cases hj : j = i
        · subst hj
          dsimp only at ho
          rw [Function.update_self] at ho
          rcases step_outcome ht ho with hold | ⟨gone,rfl⟩
          · exact hw.sound j o hold
          · exact hok
        · dsimp only at ho
          rw [Function.update_of_ne hj] at ho
          exact hw.sound j o ho
      · intro h e hhe
        obtain ⟨j,l,x,hl,hh,hlog,hx⟩ := hw.ended h e hhe
        refine ⟨j,l,x,hl,hh,?_,hx⟩
        by_cases hj : j = i
        · subst hj
          dsimp only
          rw [Function.update_self]
          exact step_log_mono ht hlog
        · dsimp only
          rw [Function.update_of_ne hj]
          exact hlog

theorem returns_linked {i : ℕ} (hw : Linked num floatText repr carries mesh w)
    (he : step num floatText repr carries mesh w (.returns i) = some w') :
    Linked num floatText repr carries mesh w' := by
  simp only [step] at he
  split at he
  case h_2 => cases he
  case h_1 k a hk ha =>
    split at he
    case h_2 => cases he
    case h_1 hn =>
      cases he
      refine ⟨hw.served,hw.sessions,hw.sound,hw.asked,hw.taken,hw.once,?_⟩
      intro h e hhe
      by_cases hh : h = k.handle
      · subst hh
        dsimp only at hhe
        rw [Function.update_self] at hhe
        cases hhe
        exact ⟨i,k,a,hk,rfl,Session.mem_of_accepted ha,rfl⟩
      · dsimp only at hhe
        rw [Function.update_of_ne hh] at hhe
        exact hw.ended h e hhe

theorem reachable_linked {handle : ℕ} (h : Reachable (step num floatText repr carries mesh)
    (contract num floatText mesh) (init handle) w) : Linked num floatText repr carries mesh w := by
  refine h.induct (init_linked handle) ?_
  intro s a t _ hs hok he
  cases a with
  | call h p => exact call_linked hs hok he
  | serve a => exact serve_linked hs hok he
  | answer i b => exact answer_linked hs hok he
  | returns i => exact returns_linked hs he

/-- An item that was handed over is decoded to the request of the call with its handle. -/
theorem Linked.item (hf : ReadsFloats num floatText)
    (hw : Linked num floatText repr carries mesh w) {i h : ℕ} {text : PyStr}
    (hm : (i,Event.returned (.ok (.item h text))) ∈ w.served.loop.trace) : ∃ p item,
      w.asked h = some p ∧ itemOf num text = .ok (some item) ∧
        requestFrom item = .ok ((mesh h).exchange.request p.normal) := by
  obtain ⟨p,s,hp,hs,rfl⟩ := hw.taken i h text hm
  obtain ⟨hpay,htag⟩ := hw.asked _ p hp
  obtain ⟨item,hitem,hread⟩ := requestFrom_asked hf (mesh h) hpay htag hs
  refine ⟨p,item,hp,itemOf_eq hitem ?_,hread⟩
  rintro rfl
  have hnone : requestFrom .none = .error (.typeError "NoneType") := rfl
  rw [hnone] at hread
  cases hread

/-- A handler task was given the request of the call that it answers. -/
theorem Linked.given (hf : ReadsFloats num floatText)
    (hw : Linked num floatText repr carries mesh w) {i : ℕ} {k : Handler PyVal}
    (hk : w.served.handlers i = some k) : ∃ p, w.asked k.handle = some p ∧
      requestFrom k.item = .ok ((mesh k.handle).exchange.request p.normal) := by
  obtain ⟨text,hm,hx⟩ := hw.serveValid.handed hk
  obtain ⟨p,item,hp,hitem,hread⟩ := hw.item hf hm
  rw [hitem] at hx
  cases hx
  exact ⟨p,hp,hread⟩

/-- A handler task has the only wait that was handed its call. -/
theorem Linked.handler_once (hw : Linked num floatText repr carries mesh w) {i j : ℕ}
    {k : Handler PyVal} (hk : w.served.handlers i = some k) {text : PyStr}
    (hm : (j,Event.returned (.ok (.item k.handle text))) ∈ w.served.loop.trace) : i = j := by
  obtain ⟨u,hu,-⟩ := hw.serveValid.handed hk
  exact hw.once i j k.handle u text hu hm

/-- A call ends with what its own handler ended with. -/
theorem Linked.ends (hf : ReadsFloats num floatText)
    (hw : Linked num floatText repr carries mesh w) {c : ℕ} {e : CallEnd}
    (he : w.ended c = some e) : ∃ i k o, w.served.handlers i = some k ∧ k.handle = c ∧
      (w.sessions i).outcome = some o ∧ e = handled o := by
  obtain ⟨i,k,a,hk,hh,hlog,rfl⟩ := hw.ended c e he
  obtain ⟨o,ho,ha⟩ := (reachable_answerValid (hw.sessions i)).answer_of_log hlog
  obtain ⟨b,hb,hend⟩ := received_answer repr hf (mesh c) (hw.sound i o ho)
  rw [ha] at hb
  cases hb
  exact ⟨i,k,o,hk,hh,ho,hend⟩

/-- The steps of a wait up to the return of its native call, and those after it. -/
def untilReturn (i : ℕ) : List (NetworkAction Unit) :=
  [.serve (.thread i (.newToken i)),.serve (.thread i .work),.serve (.thread i .work),
    .serve (.thread i .work)]

def afterReturn (i : ℕ) : List (NetworkAction Unit) :=
  [.serve (.thread i .work),.serve (.thread i .work),.serve (.thread i .work),.serve .run,
    .serve .run,.serve .run,.serve .run,.serve .run,.serve .run]

/-- The handler of a wait ends, and its answer is submitted on a thread and reaches the caller. -/
def answers (i : ℕ) (o : HandlerEnd) : List (NetworkAction Unit) :=
  [.answer i (.handlerEnds o false),.answer i (.call (.thread .work)),
    .answer i (.nativeAnswers false),.returns i]

def seven : PyVal := .tuple [.int 7]

abbrev spacingStep : Network Unit → NetworkAction Unit → Option (Network Unit) :=
  step bitsNumbers bitsText (fun _ => []) (fun _ => true) fun _ => spacing

abbrev spacingContract : Network Unit → NetworkAction Unit → Prop :=
  contract bitsNumbers bitsText fun _ => spacing

def toNine : List (NetworkAction Unit) :=
  [.call 7 seven,.call 9 (.int 8),.serve .run] ++ untilReturn 0

def toSeven : List (NetworkAction Unit) := afterReturn 0 ++ untilReturn 1

def toEnd : List (NetworkAction Unit) :=
  afterReturn 1 ++ answers 1 (withBytes (anExchange.request seven.normal)) ++
    answers 0 (.raised (.ofCodes [110]))

theorem seven_fits : int64Min ≤ 7 ∧ 7 ≤ int64Max := by decide

theorem toNine_reachable {w w' : Network Unit} (h : exec spacingStep w toNine = some w') :
    Reachable spacingStep spacingContract w w' := by
  refine .of_exec_of_forall toNine h ?_
  intro a ha u
  simp only [toNine,untilReturn,List.mem_append,List.mem_cons,List.not_mem_nil,or_false] at ha
  rcases ha with (rfl | rfl | rfl) | rfl | rfl | rfl | rfl
  · exact ⟨⟨seven_fits,trivial⟩,trivial,trivial⟩
  · exact ⟨(by decide : int64Min ≤ 8 ∧ 8 ≤ int64Max),trivial⟩
  all_goals trivial

theorem toSeven_reachable {w w' : Network Unit} (h : exec spacingStep w toSeven = some w') :
    Reachable spacingStep spacingContract w w' := by
  refine .of_exec_of_forall toSeven h ?_
  intro a ha u
  simp only [toSeven,afterReturn,untilReturn,List.mem_append,List.mem_cons,List.not_mem_nil,
    or_false] at ha
  rcases ha with (rfl | rfl | rfl | rfl | rfl | rfl | rfl | rfl | rfl) | rfl | rfl | rfl | rfl
  all_goals trivial

theorem toEnd_reachable {w w' : Network Unit} (h : exec spacingStep w toEnd = some w') :
    Reachable spacingStep spacingContract w w' := by
  refine .of_exec_of_forall toEnd h ?_
  intro a ha u
  simp only [toEnd,afterReturn,answers,List.mem_append,List.mem_cons,List.not_mem_nil,or_false] at ha
  rcases ha with ((rfl | rfl | rfl | rfl | rfl | rfl | rfl | rfl | rfl) |
    rfl | rfl | rfl | rfl) | rfl | rfl | rfl | rfl
  case inl.inr.inl =>
    exact fun _ => ⟨⟨⟨seven_fits,trivial⟩,trivial,trivial⟩,⟨⟨trivial,trivial⟩,trivial,trivial⟩⟩
  case inr.inl => exact (by decide : PyStr.scalar (.ofCodes [110]) = true)
  all_goals trivial

theorem handOver_reachable {w w' : Network Unit} (i : ℕ) {h : ℕ} {p : PyVal} {s : PyStr}
    (hn : h ∉ w.served.handedOver) (ha : w.asked h = some p) (hs : encodeText bitsText p = .ok s)
    (he : spacingStep w (.serve (.thread i (.callReturns (.ok (.item h (spacing.request s)))))) =
      some w') : Reachable spacingStep spacingContract w w' := by
  refine (Reachable.refl w).tail ?_ he
  exact ⟨hn,p,s,ha,hs,rfl⟩

end Network
end MaculaPy.Peers
