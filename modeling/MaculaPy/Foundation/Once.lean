import Mathlib.Logic.Function.Basic
import MaculaPy.Foundation.Runs

/-! # A value made once under a lock

Any number of threads ask for a value. Under a lock each looks for the value, makes it when there
is none yet, and reads it. An attempt to make it may fail: then its thread has the error, and the
next that comes makes another. No attempt follows one that gave a value, which every thread has
from then on.
-/
namespace MaculaPy.Once
open Runs
variable {ι V E : Type*}

inductive Phase (V E : Type*)
  | outside
  | waiting
  | testing
  | making
  | reading
  | leaving (r : Except E (Option V))

def Phase.inside : Phase V E → Bool
  | .outside => false
  | .waiting => false
  | _ => true

structure State (ι V E : Type*) where
  value : Option V
  lock : Option ι
  phase : ι → Phase V E
  made : List (Except E V)
  given : List (ι × Except E (Option V))

def init : State ι V E := ⟨none,none,fun _ => .outside,[],[]⟩

inductive Action (ι V E : Type*)
  | enter (i : ι)
  | acquire (i : ι)
  | test (i : ι)
  | make (i : ι) (r : Except E V)
  | read (i : ι)
  | leave (i : ι)

namespace State

/-- What the thread inside has, and leaves with. -/
def pending (s : State ι V E) : List (ι × Except E (Option V)) :=
  match s.lock with
  | none => []
  | some i =>
    match s.phase i with
    | .leaving r => [(i,r)]
    | _ => []

variable [DecidableEq ι]

def moveTo (s : State ι V E) (i : ι) (p : Phase V E) : State ι V E :=
  { s with phase := Function.update s.phase i p }

def step (s : State ι V E) : Action ι V E → Option (State ι V E)
  | .enter i =>
    match s.phase i with
    | .outside => some (s.moveTo i .waiting)
    | _ => none
  | .acquire i =>
    match s.phase i,s.lock with
    | .waiting,none => some { s.moveTo i .testing with lock := some i }
    | _,_ => none
  | .test i =>
    match s.phase i with
    | .testing => some (s.moveTo i (if s.value.isSome then .reading else .making))
    | _ => none
  | .make i r =>
    match s.phase i with
    | .making =>
      match r with
      | .ok v => some { s.moveTo i .reading with value := some v, made := s.made ++ [.ok v] }
      | .error e =>
        some { s.moveTo i (.leaving (.error e)) with made := s.made ++ [.error e] }
    | _ => none
  | .read i =>
    match s.phase i with
    | .reading => some (s.moveTo i (.leaving (.ok s.value)))
    | _ => none
  | .leave i =>
    match s.phase i with
    | .leaving r => some { s.moveTo i .outside with lock := none, given := s.given ++ [(i,r)] }
    | _ => none

end State

/-- First come the attempts that failed, each the error of its own thread, then the value of the
one that did not, for all. -/
def Recorded (value : Option V) (made : List (Except E V))
    (given : List (ι × Except E (Option V))) : Prop :=
  ∃ fs : List (ι × E), ∃ is : List ι,
    given = fs.map (fun x => (x.1,.error x.2)) ++ is.map (fun i => (i,.ok value)) ∧
    made = fs.map (fun x => .error x.2) ++ value.toList.map .ok ∧
    (value = none → is = [])

structure Valid (s : State ι V E) : Prop where
  holder : ∀ i, (s.phase i).inside = true ↔ s.lock = some i
  making : ∀ i, s.phase i = .making → s.value = none
  reading : ∀ i, s.phase i = .reading → s.value ≠ none
  recorded : Recorded s.value s.made (s.given ++ s.pending)

theorem init_valid : Valid (init : State ι V E) where
  holder i := by simp [init,Phase.inside]
  making _ h := by cases h
  reading _ h := by cases h
  recorded := ⟨[],[],rfl,rfl,fun _ => rfl⟩

variable {s t : State ι V E} {i : ι} {p : Phase V E} {lock : Option ι} {v : V} {e : E}
  {made : List (Except E V)} {given : List (ι × Except E (Option V))}

theorem Recorded.fail (h : Recorded none made given) :
    Recorded (none : Option V) (made ++ [.error e]) (given ++ [(i,.error e)]) := by
  obtain ⟨fs,is,hg,hm,hn⟩ := h
  refine ⟨fs ++ [(i,e)],[],?_,?_,fun _ => rfl⟩
  · simp [hg,hn rfl]
  · simp [hm]

theorem Recorded.make (h : Recorded none made given) :
    Recorded (some v) (made ++ [.ok v]) given := by
  obtain ⟨fs,is,hg,hm,hn⟩ := h
  refine ⟨fs,[],?_,?_,fun _ => rfl⟩
  · simp [hg,hn rfl]
  · simp [hm]

theorem Recorded.give (h : Recorded (some v) made given) :
    Recorded (some v) made (given ++ [(i,.ok (some v))]) := by
  obtain ⟨fs,is,hg,hm,-⟩ := h
  refine ⟨fs,is ++ [i],?_,hm,fun hn => nomatch hn⟩
  simp [hg]

theorem Valid.pending_eq (h : Valid s) (hp : (s.phase i).inside = true) :
    s.pending = match s.phase i with
      | .leaving r => [(i,r)]
      | _ => [] := by
  simp only [State.pending,(h.holder i).mp hp]

/-- What a thread has been given: the value that there is, or the error of an attempt. -/
theorem Valid.gives (h : Valid s) {x : ι × Except E (Option V)} (hx : x ∈ s.given) :
    (∃ v, s.value = some v ∧ .ok v ∈ s.made ∧ x.2 = .ok (some v)) ∨
      ∃ e, .error e ∈ s.made ∧ x.2 = .error e := by
  obtain ⟨fs,is,hg,hm,hn⟩ := h.recorded
  have hmem : x ∈ s.given ++ s.pending := List.mem_append_left _ hx
  rw [hg] at hmem
  rcases List.mem_append.mp hmem with hf | hi
  · obtain ⟨y,hy,rfl⟩ := List.mem_map.mp hf
    refine .inr ⟨y.2,?_,rfl⟩
    rw [hm]
    exact List.mem_append_left _ (List.mem_map.mpr ⟨y,hy,rfl⟩)
  · obtain ⟨j,hj,rfl⟩ := List.mem_map.mp hi
    cases hv : s.value with
    | none =>
      rw [hn hv] at hj
      cases hj
    | some v =>
      refine .inl ⟨v,rfl,?_,rfl⟩
      rw [hm,hv]
      simp

variable [DecidableEq ι] {a : Action ι V E}

/-- A step of one thread, which others do not see but by the lock and by the value. -/
theorem Valid.move (h : Valid s) {value : Option V} (hp : p.inside = true ↔ lock = some i)
    (hl : ∀ j, j ≠ i → (lock = some j ↔ s.lock = some j))
    (hv : value = s.value ∨ s.lock = some i) (hm : p = .making → value = none)
    (hr : p = .reading → value ≠ none)
    (hrec : Recorded value made
      (given ++ State.pending ⟨value,lock,Function.update s.phase i p,made,given⟩)) :
    Valid ⟨value,lock,Function.update s.phase i p,made,given⟩ := by
  have hother (j : ι) (hj : j ≠ i) : Function.update s.phase i p j = s.phase j :=
    Function.update_of_ne hj p s.phase
  -- While a thread is inside, the value is changed by no other.
  have hsame (j : ι) (hj : j ≠ i) (hin : (s.phase j).inside = true) : value = s.value := by
    refine hv.resolve_right ?_
    intro hi
    rw [(h.holder j).mp hin] at hi
    exact hj (Option.some.inj hi)
  constructor
  · intro j
    by_cases hj : j = i
    · subst hj
      simpa using hp
    · dsimp only
      rw [hother j hj,h.holder j,hl j hj]
  · intro j hmj
    dsimp only at hmj ⊢
    by_cases hj : j = i
    · subst hj
      exact hm (by simpa using hmj)
    · rw [hother j hj] at hmj
      rw [hsame j hj (by rw [hmj]; rfl)]
      exact h.making j hmj
  · intro j hrj
    dsimp only at hrj ⊢
    by_cases hj : j = i
    · subst hj
      exact hr (by simpa using hrj)
    · rw [hother j hj] at hrj
      rw [hsame j hj (by rw [hrj]; rfl)]
      exact h.reading j hrj
  · exact hrec

theorem pending_other {value : Option V} (hi : lock ≠ some i) :
    State.pending ⟨value,lock,Function.update s.phase i p,made,given⟩ =
      State.pending ⟨value,lock,s.phase,made,given⟩ := by
  cases lock with
  | none => rfl
  | some j =>
    have hj : j ≠ i := fun he => hi (congrArg some he)
    simp only [State.pending,Function.update_of_ne hj]

theorem pending_self {value : Option V} :
    State.pending ⟨value,some i,Function.update s.phase i p,made,given⟩ = match p with
      | .leaving r => [(i,r)]
      | _ => [] := by
  simp only [State.pending,Function.update_self]

theorem step_valid (h : Valid s) (he : s.step a = some t) : Valid t := by
  have hrec := h.recorded
  cases a with
  | enter i =>
    rw [State.step] at he
    split at he
    case h_2 => cases he
    case h_1 hi =>
      cases he
      have hn : s.lock ≠ some i := by
        intro hl
        have hin := (h.holder i).mpr hl
        rw [hi] at hin
        cases hin
      refine h.move (by simp [Phase.inside,hn]) (fun _ _ => Iff.rfl) (.inl rfl)
        (fun h => nomatch h) (fun h => nomatch h) ?_
      rw [pending_other hn]
      exact hrec
  | acquire i =>
    rw [State.step] at he
    split at he
    case h_2 => cases he
    case h_1 hi hl =>
      cases he
      refine h.move (by simp [Phase.inside]) ?_ (.inl rfl) (fun h => nomatch h)
        (fun h => nomatch h) ?_
      · intro j hj
        simp [hl,hj.symm]
      · rw [pending_self]
        simpa [State.pending,State.moveTo,hl] using hrec
  | test i =>
    rw [State.step] at he
    split at he
    case h_2 => cases he
    case h_1 hi =>
      cases he
      have hl : s.lock = some i := (h.holder i).mp (by rw [hi]; rfl)
      rw [h.pending_eq (by rw [hi]; rfl),hi] at hrec
      cases hv : s.value with
      | none =>
        rw [hv] at hrec
        refine h.move (by simp [Phase.inside,hl]) (fun _ _ => Iff.rfl) (.inl rfl)
          (fun _ => hv) (by simp) ?_
        rw [hl,hv,pending_self]
        simpa using hrec
      | some v =>
        rw [hv] at hrec
        refine h.move (by simp [Phase.inside,hl]) (fun _ _ => Iff.rfl) (.inl rfl)
          (by simp) (by simp [hv]) ?_
        rw [hl,hv,pending_self]
        simpa using hrec
  | make i r =>
    have hmaking (hi : s.phase i = .making) : s.lock = some i ∧ Recorded none s.made s.given := by
      refine ⟨(h.holder i).mp (by rw [hi]; rfl),?_⟩
      rw [h.pending_eq (by rw [hi]; rfl),hi,h.making i hi,List.append_nil] at hrec
      exact hrec
    cases r with
    | ok v =>
      rw [State.step] at he
      split at he
      case h_2 => cases he
      case h_1 hi =>
        cases he
        dsimp only [State.moveTo]
        obtain ⟨hl,hrec⟩ := hmaking hi
        refine h.move (by simp [Phase.inside,hl]) (fun _ _ => Iff.rfl) (.inr hl)
          (fun h => nomatch h) (by simp) ?_
        rw [hl,pending_self,List.append_nil]
        exact hrec.make
    | error e =>
      rw [State.step] at he
      split at he
      case h_2 => cases he
      case h_1 hi =>
        cases he
        dsimp only [State.moveTo]
        obtain ⟨hl,hrec⟩ := hmaking hi
        refine h.move (by simp [Phase.inside,hl]) (fun _ _ => Iff.rfl) (.inl rfl)
          (fun h => nomatch h) (fun h => nomatch h) ?_
        rw [hl,pending_self,h.making i hi]
        exact hrec.fail
  | read i =>
    rw [State.step] at he
    split at he
    case h_2 => cases he
    case h_1 hi =>
      cases he
      have hl : s.lock = some i := (h.holder i).mp (by rw [hi]; rfl)
      rw [h.pending_eq (by rw [hi]; rfl),hi,List.append_nil] at hrec
      obtain ⟨v,hv⟩ := Option.ne_none_iff_exists'.mp (h.reading i hi)
      rw [hv] at hrec
      refine h.move (by simp [Phase.inside,hl]) (fun _ _ => Iff.rfl) (.inl rfl)
        (fun h => nomatch h) (fun h => nomatch h) ?_
      rw [hl,pending_self,hv]
      exact hrec.give
  | leave i =>
    rw [State.step] at he
    split at he
    case h_2 => cases he
    case h_1 r hi =>
      cases he
      have hl : s.lock = some i := (h.holder i).mp (by rw [hi]; rfl)
      rw [h.pending_eq (by rw [hi]; rfl),hi] at hrec
      refine h.move (by simp [Phase.inside]) ?_ (.inl rfl) (fun h => nomatch h)
        (fun h => nomatch h) ?_
      · intro j hj
        simp [hl,hj.symm]
      · simpa [State.pending,State.moveTo] using hrec

variable {ok : State ι V E → Action ι V E → Prop}

theorem reachable_valid (h : Reachable State.step ok init s) : Valid s := by
  refine h.induct init_valid ?_
  intro s a t _ hs _ he
  exact step_valid hs he

/-- What the guard says of every attempt holds of those that were made. -/
theorem reachable_made {Q : Except E V → Prop} (hok : ∀ s i r, ok s (.make i r) → Q r)
    (h : Reachable State.step ok init s) : ∀ r ∈ s.made, Q r := by
  refine Reachable.induct (P := fun s => ∀ r ∈ s.made, Q r) ?_ ?_ h
  · intro r hr
    cases hr
  · intro s a t _ hs ha he
    cases a with
    | make i r =>
      have hmade : t.made = s.made ++ [r] := by
        cases r with
        | ok v =>
          rw [State.step] at he
          split at he
          case h_1 => cases he; rfl
          case h_2 => cases he
        | error e =>
          rw [State.step] at he
          split at he
          case h_1 => cases he; rfl
          case h_2 => cases he
      intro x hx
      rw [hmade] at hx
      rcases List.mem_append.mp hx with hx | hx
      · exact hs x hx
      · rw [List.mem_singleton.mp hx]
        exact hok s i r ha
    | _ =>
      have hmade : t.made = s.made := by
        rw [State.step] at he
        split at he
        case h_1 => cases he; rfl
        case h_2 => cases he
      rw [hmade]
      exact hs

/-- By its own steps alone, with `r` for its attempt, the thread gives the lock back. -/
def ComesOut (s : State ι V E) (i : ι) (r : Except E V) : Prop :=
  ∃ as t, exec State.step s as = some t ∧ t.lock = none ∧
    ∀ a ∈ as, a ∈ [.test i,.make i r,.read i,.leave i]

variable {r : Except E V}

theorem ComesOut.cons (h : ComesOut t i r) (he : s.step a = some t)
    (ha : a ∈ [.test i,.make i r,.read i,.leave i]) : ComesOut s i r := by
  obtain ⟨as,u,hu,hl,hi⟩ := h
  refine ⟨a :: as,u,?_,hl,?_⟩
  · rw [exec,he]
    exact hu
  · intro b hb
    rcases List.mem_cons.mp hb with rfl | hb
    · exact ha
    · exact hi b hb

theorem comesOut_leaving {x : Except E (Option V)} (hp : s.phase i = .leaving x) :
    ComesOut s i r := by
  have he : exec State.step s [.leave i] = some { s.moveTo i .outside with
      lock := none, given := s.given ++ [(i,x)] } := by
    rw [exec,State.step,hp]
    rfl
  refine ⟨[.leave i],_,he,rfl,?_⟩
  intro b hb
  simp [List.mem_singleton.mp hb]

theorem comesOut_reading (hp : s.phase i = .reading) : ComesOut s i r := by
  have he : s.step (.read i) = some (s.moveTo i (.leaving (.ok s.value))) := by
    rw [State.step,hp]
  exact (comesOut_leaving (by simp [State.moveTo]; rfl)).cons he (by simp)

theorem comesOut_making (hp : s.phase i = .making) : ComesOut s i r := by
  cases r with
  | ok v =>
    have he : s.step (.make i (.ok v)) = some { s.moveTo i .reading with
        value := some v, made := s.made ++ [.ok v] } := by
      rw [State.step,hp]
    exact (comesOut_reading (by simp [State.moveTo])).cons he (by simp)
  | error e =>
    have he : s.step (.make i (.error e)) = some { s.moveTo i (.leaving (.error e)) with
        made := s.made ++ [.error e] } := by
      rw [State.step,hp]
    exact (comesOut_leaving (by simp [State.moveTo]; rfl)).cons he (by simp)

/-- Whoever is inside comes out, however its attempt ends. -/
theorem Valid.comes_out (h : Valid s) (hl : s.lock = some i) (r : Except E V) :
    ComesOut s i r := by
  have hin := (h.holder i).mpr hl
  cases hp : s.phase i with
  | outside =>
    rw [hp] at hin
    cases hin
  | waiting =>
    rw [hp] at hin
    cases hin
  | testing =>
    have he : s.step (.test i) =
        some (s.moveTo i (if s.value.isSome then .reading else .making)) := by
      rw [State.step,hp]
    by_cases hv : s.value.isSome = true
    · rw [if_pos hv] at he
      exact (comesOut_reading (by simp [State.moveTo])).cons he (by simp)
    · rw [if_neg hv] at he
      exact (comesOut_making (by simp [State.moveTo])).cons he (by simp)
  | making => exact comesOut_making hp
  | reading => exact comesOut_reading hp
  | leaving => exact comesOut_leaving hp

end MaculaPy.Once
