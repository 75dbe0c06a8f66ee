import MaculaPy.Blocking.Native
import MaculaPy.Wire.Value

/-! # One stream session

`Stream` on the event loop: the handle it has until `free` takes it, the operations that read
the handle and invoke a native function on a thread of their own, and the runs of `free`,
each on a thread or on the caller's own. Any task may issue any of them at any time, and be
cancelled at any await of one.
-/
namespace MaculaPy.Streams
open Blocking Wire

/-- What an operation raises: a `ClosedError`, or another exception with its `str`, if it has
one. -/
inductive Fault
  | closed
  | failed (text : Option PyStr)
  deriving DecidableEq, Repr

/-- The operations that `run_native` carries, with what they encode on its thread. -/
inductive Op
  | send
  | sendValue
  | closeSend
  | reply
  | abort (code message : PyStr)
  | close
  deriving DecidableEq, Repr

/-- The native function of an operation. -/
def Op.function : Op → String
  | .send => "macula_stream_send_bytes"
  | .sendValue => "macula_stream_send_json"
  | .closeSend => "macula_stream_close_send"
  | .reply => "macula_stream_reply"
  | .abort _ _ => "macula_stream_abort"
  | .close => "macula_stream_close"

/-- The thread gets to the native function: what it encodes first has no lone surrogate. -/
def Op.encodes : Op → Bool
  | .abort code message => code.scalar && message.scalar
  | _ => true

/-- What was issued: an operation with the handle it read, `run_native(self.free)`, or `free()`
on the thread that calls it. -/
inductive Job
  | op (o : Op) (h : ℕ)
  | free
  | freeHere
  deriving DecidableEq, Repr

/-- A native function entered, with the handle it is given. -/
inductive Entered
  | op (o : Op) (h : ℕ)
  | free (h : ℕ)
  deriving DecidableEq, Repr

def Entered.free? : Entered → Option ℕ
  | .op _ _ => none
  | .free h => some h

/-- A stream with what was issued on it, numbered in the order it was issued, the handles that
runs of `free` have taken and not passed on, and what was entered, the newest first. -/
structure Stream where
  loop : Loop ℕ Empty Unit Fault
  handle : Option ℕ
  jobs : ℕ → Option Job
  next : ℕ
  taken : List (ℕ × ℕ)
  log : List (ℕ × Entered)

inductive StreamAction
  | issue (o : Op)
  | free
  | freeHere
  | freeEnters (i : ℕ)
  | thread (i : ℕ) (a : ThreadAction Unit Fault)
  | cancelTask (i : ℕ)
  | run

/-- What threads and the loop do, rather than a task of the program's. -/
def StreamAction.isOwn : StreamAction → Bool
  | .freeEnters _ => true
  | .thread _ _ => true
  | .run => true
  | _ => false

/-- Every call of a stream is one of `run_native`. -/
def route (_ : ℕ) : Route := .native

namespace Stream

def init (h : ℕ) : Stream := ⟨Loop.init,some h,fun _ => none,0,[],[]⟩

/-- The handles that `macula_stream_free` was invoked with. -/
def frees (s : Stream) : List ℕ := s.log.filterMap (fun x => x.2.free?)

def enlist (s : Stream) (j : Job) : Stream :=
  {s with jobs := Function.update s.jobs s.next (some j), next := s.next + 1}

/-- `run_native` up to its await. -/
def spawn (s : Stream) (j : Job) : Stream :=
  {s.enlist j with
    loop := {s.loop with calls := Function.update s.loop.calls s.next (some Blocking.start)}}

/-- An operation up to its await; without a handle `_live` raises instead. -/
def issue (s : Stream) (o : Op) : Stream :=
  match s.handle with
  | none => s
  | some h => s.spawn (.op o h)

/-- The test-and-clear of `free`. -/
def take (s : Stream) (i : ℕ) : Stream :=
  match s.handle with
  | none => s
  | some h => {s with handle := none, taken := (i,h) :: s.taken}

/-- The thread of a call runs what it was started for. -/
def enter (s : Stream) (i : ℕ) : Stream :=
  match s.jobs i with
  | some (.op o h) => if o.encodes then {s with log := (i,.op o h) :: s.log} else s
  | some .free => s.take i
  | _ => s

/-- The step of a thread is its first. -/
def begins (s : Stream) (i : ℕ) : ThreadAction Unit Fault → Bool
  | .work =>
    match (s.loop.calls i).map Call.worker with
    | some .spawned => true
    | _ => false
  | _ => false

/-- How the call of a thread can end: an operation in any way once its native function was
entered, and with an error of its own before; `free` when it has passed on what it took. -/
def admits (s : Stream) (i : ℕ) : ThreadAction Unit Fault → Bool
  | .callReturns o =>
    match s.jobs i,o with
    | some (.op _ _),.error (.other (.failed _)) => true
    | some (.op o' _),_ => o'.encodes
    | _,o => (s.taken.lookup i).isNone && o.toBool
  | _ => true

def step (s : Stream) : StreamAction → Option Stream
  | .issue o => some (s.issue o)
  | .free => some (s.spawn .free)
  | .freeHere => some ((s.enlist .freeHere).take s.next)
  | .freeEnters i => (s.taken.lookup i).map fun h =>
    {s with taken := s.taken.filter (fun x => x.1 ≠ i), log := (i,.free h) :: s.log}
  | .thread i a =>
    if s.admits i a then
      (Loop.step route s.loop (.thread i a)).map fun l =>
        if s.begins i a then {s with loop := l}.enter i else {s with loop := l}
    else none
  | .cancelTask i => (Loop.step route s.loop (.cancelTask i)).map fun l => {s with loop := l}
  | .run => (Loop.step route s.loop .run).map fun l => {s with loop := l}

/-- What a step can be, and what it leaves. -/
inductive Move (s : Stream) : StreamAction → Stream → Prop
  | refused {o : Op} (hh : s.handle = none) : Move s (.issue o) s
  | issue {o : Op} {h : ℕ} (hh : s.handle = some h) : Move s (.issue o) (s.spawn (.op o h))
  | free : Move s .free (s.spawn .free)
  | freeHere : Move s .freeHere ((s.enlist .freeHere).take s.next)
  | freeEnters {i h : ℕ} (ht : s.taken.lookup i = some h) : Move s (.freeEnters i)
    {s with taken := s.taken.filter (fun x => x.1 ≠ i), log := (i,.free h) :: s.log}
  | begins {i : ℕ} {c : Call Unit Fault} {l : Loop ℕ Empty Unit Fault}
    (hc : s.loop.calls i = some c) (hw : c.worker = .spawned)
    (he : Loop.step route s.loop (.thread i .work) = some l) :
    Move s (.thread i .work) ({s with loop := l}.enter i)
  | thread {i : ℕ} {a : ThreadAction Unit Fault} {c : Call Unit Fault}
    {l : Loop ℕ Empty Unit Fault} (hc : s.loop.calls i = some c)
    (hw : c.worker = .spawned → a ≠ .work)
    (he : Loop.step route s.loop (.thread i a) = some l) : Move s (.thread i a) {s with loop := l}
  | cancelTask {i : ℕ} {l : Loop ℕ Empty Unit Fault}
    (he : Loop.step route s.loop (.cancelTask i) = some l) :
    Move s (.cancelTask i) {s with loop := l}
  | run {l : Loop ℕ Empty Unit Fault} (he : Loop.step route s.loop .run = some l) :
    Move s .run {s with loop := l}

theorem begins_iff {s : Stream} {i : ℕ} {a : ThreadAction Unit Fault} {c : Call Unit Fault}
    (hc : s.loop.calls i = some c) : s.begins i a = true ↔ a = .work ∧ c.worker = .spawned := by
  cases a with
  | work => cases hw : c.worker <;> simp [begins,hc,hw]
  | _ => simp [begins]

theorem step_move {s t : Stream} {a : StreamAction} (he : s.step a = some t) : Move s a t := by
  cases a with
  | issue o =>
    obtain rfl : s.issue o = t := Option.some.inj he
    unfold issue
    split
    · next hh => exact .refused hh
    · next hh => exact .issue hh
  | free =>
    cases he
    exact .free
  | freeHere =>
    cases he
    exact .freeHere
  | freeEnters i =>
    obtain ⟨h,ht,rfl⟩ := Option.map_eq_some_iff.mp he
    exact .freeEnters ht
  | thread i a =>
    simp only [step] at he
    split at he
    · obtain ⟨l,hl,ht⟩ := Option.map_eq_some_iff.mp he
      obtain ⟨c,hc⟩ : ∃ c, s.loop.calls i = some c := by
        cases Loop.step_move hl with
        | thread _ hc _ => exact ⟨_,hc⟩
      by_cases hb : s.begins i a = true
      · rw [if_pos hb] at ht
        obtain ⟨rfl,hw⟩ := (begins_iff hc).mp hb
        exact ht ▸ .begins hc hw hl
      · rw [if_neg hb] at ht
        exact ht ▸ .thread hc (fun hw ha => hb ((begins_iff hc).mpr ⟨ha,hw⟩)) hl
    · cases he
  | cancelTask i =>
    obtain ⟨l,hl,rfl⟩ := Option.map_eq_some_iff.mp he
    exact .cancelTask hl
  | run =>
    obtain ⟨l,hl,rfl⟩ := Option.map_eq_some_iff.mp he
    exact .run hl

/-- Where the handle is: with the stream, taken by one run of `free`, or freed. -/
inductive Account (h : ℕ) (s : Stream) : Prop
  | live (hh : s.handle = some h) (ht : s.taken = []) (hf : s.frees = [])
  | taken (i : ℕ) (hh : s.handle = none) (ht : s.taken = [(i,h)]) (hf : s.frees = [])
  | freed (hh : s.handle = none) (ht : s.taken = []) (hf : s.frees = [h])

/-- Each call has its job, and once a run of `free` has begun the stream has no handle. -/
structure StreamValid (h : ℕ) (s : Stream) : Prop where
  loop : Runs.Reachable (Loop.step route) Runs.free Loop.init s.loop
  account : Account h s
  unused : ∀ i, s.next ≤ i → s.loop.calls i = none ∧ s.jobs i = none
  job : ∀ i c, s.loop.calls i = some c → (∃ o, s.jobs i = some (.op o h)) ∨ s.jobs i = some .free
  cleared : ∀ i c, s.jobs i = some .free → s.loop.calls i = some c → c.worker ≠ .spawned →
    s.handle = none
  clearedHere : ∀ i, s.jobs i = some .freeHere → s.handle = none

variable {h : ℕ} {s t : Stream}

theorem Account.of_eq (ha : Account h s) (hh : t.handle = s.handle) (ht : t.taken = s.taken)
    (hf : t.frees = s.frees) : Account h t := by
  cases ha with
  | live hh' ht' hf' => exact .live (hh.trans hh') (ht.trans ht') (hf.trans hf')
  | taken i hh' ht' hf' => exact .taken i (hh.trans hh') (ht.trans ht') (hf.trans hf')
  | freed hh' ht' hf' => exact .freed (hh.trans hh') (ht.trans ht') (hf.trans hf')

theorem init_streamValid (h : ℕ) : StreamValid h (init h) where
  loop := .refl _
  account := .live rfl rfl rfl
  unused _ _ := ⟨rfl,rfl⟩
  job _ _ hc := by simp [init,Loop.init] at hc
  cleared _ _ hj := by simp [init] at hj
  clearedHere _ hj := by simp [init] at hj

theorem StreamValid.handle_eq (hv : StreamValid h s) {k : ℕ} (hk : s.handle = some k) : k = h := by
  cases hv.account with
  | live hh _ _ => exact Option.some.inj (hk.symm.trans hh)
  | taken i hh _ _ => simp [hk] at hh
  | freed hh _ _ => simp [hk] at hh

/-- With the number of a call that was not issued before, the loop starts it. -/
theorem StreamValid.start (hv : StreamValid h s) (j : Job) :
    Loop.step route s.loop (.start s.next) = some (s.spawn j).loop := by
  have hb := Loop.not_busy (fun _ => rfl) hv.loop
  have hc := (hv.unused s.next le_rfl).1
  simp [Loop.step,hb,hc,spawn]

theorem spawn_calls_of_ne (s : Stream) (j : Job) {i : ℕ} (hi : i ≠ s.next) :
    (s.spawn j).loop.calls i = s.loop.calls i := by simp [spawn,hi]

@[simp] theorem spawn_calls_self (s : Stream) (j : Job) :
    (s.spawn j).loop.calls s.next = some Blocking.start := by simp [spawn]

@[simp] theorem enlist_jobs_self (s : Stream) (j : Job) : (s.enlist j).jobs s.next = some j := by
  simp [enlist]

theorem enlist_jobs_of_ne (s : Stream) (j : Job) {i : ℕ} (hi : i ≠ s.next) :
    (s.enlist j).jobs i = s.jobs i := by simp [enlist,hi]

theorem spawn_streamValid (hv : StreamValid h s) {j : Job} (hj : (∃ o, j = .op o h) ∨ j = .free) :
    StreamValid h (s.spawn j) where
  loop := hv.loop.tail trivial (hv.start j)
  account := hv.account.of_eq rfl rfl rfl
  unused i hi := by
    have hlt : s.next + 1 ≤ i := hi
    have hne : i ≠ s.next := by omega
    obtain ⟨hc,hx⟩ := hv.unused i (by omega)
    exact ⟨(spawn_calls_of_ne s j hne).trans hc,(enlist_jobs_of_ne s j hne).trans hx⟩
  job i c hc := by
    have hjobs : (s.spawn j).jobs i = (s.enlist j).jobs i := rfl
    rw [hjobs]
    by_cases hi : i = s.next
    · subst hi
      rw [enlist_jobs_self]
      exact hj.imp (fun ⟨o,ho⟩ => ⟨o,congrArg some ho⟩) (congrArg some)
    · rw [enlist_jobs_of_ne s j hi]
      exact hv.job i c ((spawn_calls_of_ne s j hi).symm.trans hc)
  cleared i c hx hc hw := by
    by_cases hi : i = s.next
    · subst hi
      rw [spawn_calls_self] at hc
      cases hc
      exact absurd rfl hw
    · exact hv.cleared i c ((enlist_jobs_of_ne s j hi).symm.trans hx)
        ((spawn_calls_of_ne s j hi).symm.trans hc) hw
  clearedHere i hx := by
    by_cases hi : i = s.next
    · subst hi
      have hself : j = .freeHere := Option.some.inj ((enlist_jobs_self s j).symm.trans hx)
      subst hself
      simp at hj
    · exact hv.clearedHere i ((enlist_jobs_of_ne s j hi).symm.trans hx)

@[simp] theorem take_loop (s : Stream) (i : ℕ) : (s.take i).loop = s.loop := by
  unfold take
  split <;> rfl
@[simp] theorem take_jobs (s : Stream) (i : ℕ) : (s.take i).jobs = s.jobs := by
  unfold take
  split <;> rfl
@[simp] theorem take_next (s : Stream) (i : ℕ) : (s.take i).next = s.next := by
  unfold take
  split <;> rfl
@[simp] theorem take_log (s : Stream) (i : ℕ) : (s.take i).log = s.log := by
  unfold take
  split <;> rfl
@[simp] theorem take_handle (s : Stream) (i : ℕ) : (s.take i).handle = none := by
  unfold take
  split
  · assumption
  · rfl

theorem take_account (ha : Account h s) (i : ℕ) : Account h (s.take i) := by
  cases ha with
  | live hh ht hf =>
    refine .taken i (take_handle s i) ?_ (by simpa [frees] using hf)
    simp [take,hh,ht]
  | taken j hh ht hf =>
    refine .taken j (take_handle s i) ?_ (by simpa [frees] using hf)
    simp [take,hh,ht]
  | freed hh ht hf =>
    refine .freed (take_handle s i) ?_ (by simpa [frees] using hf)
    simp [take,hh,ht]

theorem freeHere_streamValid (hv : StreamValid h s) :
    StreamValid h ((s.enlist .freeHere).take s.next) := by
  have ha : Account h (s.enlist .freeHere) := hv.account.of_eq rfl rfl rfl
  constructor
  · rw [take_loop]
    exact hv.loop
  · exact take_account ha _
  · intro i hi
    rw [take_next] at hi
    have hlt : s.next + 1 ≤ i := hi
    obtain ⟨hc,hx⟩ := hv.unused i (by omega)
    rw [take_loop,take_jobs,enlist_jobs_of_ne s _ (by omega)]
    exact ⟨hc,hx⟩
  · intro i c hc
    rw [take_loop] at hc
    have hne : i ≠ s.next := by
      rintro rfl
      exact absurd (hc.symm.trans (hv.unused s.next le_rfl).1) (by simp)
    rw [take_jobs,enlist_jobs_of_ne s _ hne]
    exact hv.job i c hc
  · intro i c _ _ _
    exact take_handle _ _
  · intro i _
    exact take_handle _ _

theorem Account.freed_of_lookup (ha : Account h s) {i k : ℕ} (ht : s.taken.lookup i = some k) :
    k = h ∧ s.handle = none ∧ s.taken = [(i,h)] ∧ s.frees = [] := by
  cases ha with
  | live _ htaken _ => simp [htaken] at ht
  | taken j hh htaken hf =>
    rw [htaken,List.lookup_cons] at ht
    split at ht
    · next hj =>
      obtain rfl : i = j := by simpa using hj
      exact ⟨(Option.some.inj ht).symm,hh,htaken,hf⟩
    · cases ht
  | freed _ htaken _ => simp [htaken] at ht

theorem freeEnters_streamValid (hv : StreamValid h s) {i k : ℕ}
    (ht : s.taken.lookup i = some k) : StreamValid h
      {s with taken := s.taken.filter (fun x => x.1 ≠ i), log := (i,.free k) :: s.log} := by
  obtain ⟨rfl,hh,htaken,hf⟩ := hv.account.freed_of_lookup ht
  refine ⟨hv.loop,.freed hh ?_ ?_,hv.unused,hv.job,hv.cleared,hv.clearedHere⟩
  · simp [htaken]
  · simpa [frees,Entered.free?] using hf

@[simp] theorem enter_loop (s : Stream) (i : ℕ) : (s.enter i).loop = s.loop := by
  unfold enter
  split
  · split <;> rfl
  · exact take_loop s i
  · rfl
@[simp] theorem enter_jobs (s : Stream) (i : ℕ) : (s.enter i).jobs = s.jobs := by
  unfold enter
  split
  · split <;> rfl
  · exact take_jobs s i
  · rfl
@[simp] theorem enter_next (s : Stream) (i : ℕ) : (s.enter i).next = s.next := by
  unfold enter
  split
  · split <;> rfl
  · exact take_next s i
  · rfl

theorem enter_account (ha : Account h s) (i : ℕ) : Account h (s.enter i) := by
  unfold enter
  split
  · split
    · exact ha.of_eq rfl rfl rfl
    · exact ha
  · exact take_account ha i
  · exact ha

theorem enter_handle_of_none (hh : s.handle = none) (i : ℕ) : (s.enter i).handle = none := by
  unfold enter
  split
  · split <;> exact hh
  · exact take_handle s i
  · exact hh

theorem enter_of_free {i : ℕ} (hj : s.jobs i = some .free) : s.enter i = s.take i := by
  simp [enter,hj]

/-- A step of the loop, with what a thread that begins does besides. -/
theorem StreamValid.loop_step (hv : StreamValid h s) {a : LoopAction ℕ Empty Unit Fault}
    {l : Loop ℕ Empty Unit Fault} (he : Loop.step route s.loop a = some l) (ha : ∀ i, a ≠ .start i)
    (hl : t.loop = l) (hj : t.jobs = s.jobs) (hn : t.next = s.next) (hacc : Account h t)
    (hh : s.handle = none → t.handle = none)
    (hc : ∀ i b c, a = .thread i b → s.jobs i = some .free → l.calls i = some c →
      c.worker ≠ .spawned → t.handle = none) : StreamValid h t := by
  constructor
  · exact hl ▸ hv.loop.tail trivial he
  · exact hacc
  · intro i hi
    rw [hl,hj]
    obtain ⟨hcall,hx⟩ := hv.unused i (hn ▸ hi)
    exact ⟨Loop.step_unstarted he hcall (ha i),hx⟩
  · intro i c hcall
    rw [hl] at hcall
    rw [hj]
    cases hold : s.loop.calls i with
    | none => simp [Loop.step_unstarted he hold (ha i)] at hcall
    | some d => exact hv.job i d hold
  · intro i c hx hcall hw
    rw [hj] at hx
    rw [hl] at hcall
    rcases Loop.step_worker he hcall with h1 | ⟨b,hb⟩ | ⟨d,hd,hwd⟩
    · exact absurd h1 (ha i)
    · exact hc i b c hb hx hcall hw
    · exact hh (hv.cleared i d hx hd (hwd ▸ hw))
  · intro i hx
    exact hh (hv.clearedHere i (hj ▸ hx))

/-- Every step keeps the facts. -/
theorem step_streamValid {a : StreamAction} (hv : StreamValid h s) (he : s.step a = some t) :
    StreamValid h t := by
  cases step_move he with
  | refused hh => exact hv
  | @issue o k hh =>
    obtain rfl := hv.handle_eq hh
    exact spawn_streamValid hv (Or.inl ⟨o,rfl⟩)
  | free => exact spawn_streamValid hv (Or.inr rfl)
  | freeHere => exact freeHere_streamValid hv
  | freeEnters ht => exact freeEnters_streamValid hv ht
  | @begins i c l hc hw hl =>
    have ha : Account h {s with loop := l} := hv.account.of_eq rfl rfl rfl
    refine hv.loop_step hl (by simp) (by simp) (by simp) (by simp) (enter_account ha i)
      (fun hh => enter_handle_of_none (s := {s with loop := l}) hh i) ?_
    rintro j b d hj hx _ _
    cases hj
    rw [enter_of_free (s := {s with loop := l}) hx]
    exact take_handle _ i
  | @thread i a c l hc hw hl =>
    have ha : Account h {s with loop := l} := hv.account.of_eq rfl rfl rfl
    refine hv.loop_step hl (by simp) rfl rfl rfl ha id ?_
    rintro j b d hj hx hd hwd
    cases hj
    refine hv.cleared i c hx hc (fun hs => hwd ?_)
    cases Loop.step_move hl with
    | thread _ hc' ht =>
      obtain rfl := Option.some.inj (hc.symm.trans hc')
      rw [Loop.after_calls_self] at hd
      cases hd
      exact threadStep_spawned hs (hw hs) ht
  | @cancelTask i l hl =>
    exact hv.loop_step hl (by simp) rfl rfl rfl (hv.account.of_eq rfl rfl rfl) id (by simp)
  | @run l hl =>
    exact hv.loop_step hl (by simp) rfl rfl rfl (hv.account.of_eq rfl rfl rfl) id (by simp)

theorem reachable_streamValid {ok : Stream → StreamAction → Prop}
    (hs : Runs.Reachable step ok (init h) s) : StreamValid h s :=
  hs.induct (init_streamValid h) (fun _ _ _ _ hv _ he => step_streamValid hv he)

/-- What was issued, entered and cancelled stays so, and a stream without a handle gets none. -/
structure Keeps (s t : Stream) : Prop where
  handle : s.handle = none → t.handle = none
  jobs : ∀ i j, s.jobs i = some j → t.jobs i = some j
  calls : ∀ i c, s.loop.calls i = some c → ∃ d, t.loop.calls i = some d
  log : s.log <:+ t.log
  trace : ∀ x ∈ s.loop.trace, x ∈ t.loop.trace

theorem enlist_jobs (hv : StreamValid h s) {i : ℕ} {j j' : Job} (hj : s.jobs i = some j') :
    (s.enlist j).jobs i = some j' := by
  have hne : i ≠ s.next := by
    rintro rfl
    exact absurd (hj.symm.trans (hv.unused s.next le_rfl).2) (by simp)
  rw [enlist_jobs_of_ne s j hne,hj]

theorem spawn_calls (hv : StreamValid h s) {i : ℕ} {j : Job} {c : Call Unit Fault}
    (hc : s.loop.calls i = some c) : (s.spawn j).loop.calls i = some c := by
  have hne : i ≠ s.next := by
    rintro rfl
    exact absurd (hc.symm.trans (hv.unused s.next le_rfl).1) (by simp)
  rw [spawn_calls_of_ne s j hne,hc]

theorem spawn_keeps (hv : StreamValid h s) (j : Job) : Keeps s (s.spawn j) where
  handle := id
  jobs _ _ hj := enlist_jobs hv hj
  calls _ c hc := ⟨c,spawn_calls hv hc⟩
  log := List.suffix_rfl
  trace _ hx := hx

theorem Keeps.of_loop (hv : StreamValid h s) {a : LoopAction ℕ Empty Unit Fault}
    {l : Loop ℕ Empty Unit Fault} (he : Loop.step route s.loop a = some l) (hl : t.loop = l)
    (hj : t.jobs = s.jobs) (hg : s.log <:+ t.log) (hh : s.handle = none → t.handle = none) :
    Keeps s t where
  handle := hh
  jobs _ _ hx := hj ▸ hx
  calls i c hc := by
    obtain ⟨d,hd,_⟩ := Loop.step_call hv.loop he hc
    exact ⟨d,hl ▸ hd⟩
  log := hg
  trace x hx := hl ▸ Loop.mem_step_trace he hx

theorem enter_log (s : Stream) (i : ℕ) : s.log <:+ (s.enter i).log := by
  unfold enter
  split
  · split
    · exact List.suffix_cons _ _
    · exact List.suffix_rfl
  · exact (take_log s i) ▸ List.suffix_rfl
  · exact List.suffix_rfl

theorem step_keeps {a : StreamAction} (hv : StreamValid h s) (he : s.step a = some t) :
    Keeps s t := by
  cases step_move he with
  | refused _ => exact ⟨id,fun _ _ hj => hj,fun _ c hc => ⟨c,hc⟩,List.suffix_rfl,fun _ hx => hx⟩
  | issue _ => exact spawn_keeps hv _
  | free => exact spawn_keeps hv _
  | freeHere =>
    refine ⟨fun _ => take_handle _ _,fun i j hj => ?_,fun i c hc => ⟨c,?_⟩,?_,fun x hx => ?_⟩
    · rw [take_jobs]
      exact enlist_jobs hv hj
    · rw [take_loop]
      exact hc
    · rw [take_log]
      exact List.suffix_rfl
    · rw [take_loop]
      exact hx
  | freeEnters _ =>
    exact ⟨id,fun _ _ hj => hj,fun _ c hc => ⟨c,hc⟩,List.suffix_cons _ _,fun _ hx => hx⟩
  | @begins i c l _ _ hl =>
    exact .of_loop hv hl (enter_loop _ i) (enter_jobs _ i) (enter_log {s with loop := l} i)
      (fun hh => enter_handle_of_none (s := {s with loop := l}) hh i)
  | thread _ _ hl => exact .of_loop hv hl rfl rfl List.suffix_rfl id
  | cancelTask hl => exact .of_loop hv hl rfl rfl List.suffix_rfl id
  | run hl => exact .of_loop hv hl rfl rfl List.suffix_rfl id

/-- No thread has a step left to take, and the loop none either. -/
def Rests (s : Stream) : Prop := ∀ a, a.isOwn = true → s.step a = none

theorem Rests.taken (hr : s.Rests) : s.taken = [] := by
  cases ht : s.taken with
  | nil => rfl
  | cons x xs =>
    have := hr (.freeEnters x.1) rfl
    simp [step,ht] at this

theorem Rests.threadStep (hr : s.Rests) {i : ℕ} {c : Call Unit Fault}
    (hc : s.loop.calls i = some c) {a : ThreadAction Unit Fault} (ha : s.admits i a = true)
    (hf : a.fresh s.loop.live = true) : threadStep .native c a = none := by
  have hs := hr (.thread i a) rfl
  simp only [step,ha,if_true,Option.map_eq_none_iff,Loop.step,hf,hc,Option.bind_some] at hs
  exact hs

/-- The native call of a thread can return, once `free` has passed on what it took. -/
theorem StreamValid.admits_return (hv : StreamValid h s) (ht : s.taken = []) {i : ℕ}
    {c : Call Unit Fault} (hc : s.loop.calls i = some c) :
    ∃ o, s.admits i (.callReturns o) = true := by
  rcases hv.job i c hc with ⟨o,hj⟩ | hj
  · exact ⟨.error (.other (.failed none)),by simp [admits,hj]⟩
  · exact ⟨.ok (),by simp [admits,hj,ht,Except.toBool]⟩

theorem Rests.posted (hv : StreamValid h s) (hr : s.Rests) {i : ℕ} {c : Call Unit Fault}
    (hc : s.loop.calls i = some c) : ∃ o, c.worker = .posted o := by
  have hb : c.worker.Bare (History.view i s.loop.trace) :=
    reachable_bare (Loop.reachable_call hv.loop hc)
  have hwork : Blocking.threadStep .native c .work = none := hr.threadStep hc rfl rfl
  cases hw : c.worker with
  | spawned => simp [Blocking.threadStep,work,hw] at hwork
  | calling k =>
    obtain ⟨o,ho⟩ := hv.admits_return hr.taken hc
    have hret := hr.threadStep hc ho rfl
    cases k <;> simp [Blocking.threadStep,hw] at hret
  | finished o => simp [Blocking.threadStep,work,hw] at hwork
  | posted o => exact ⟨o,rfl⟩
  | _ =>
    rw [hw] at hb
    cases hb

theorem Rests.ready (hv : StreamValid h s) (hr : s.Rests) : s.loop.ready = [] := by
  have hbusy := Loop.not_busy (fun _ => rfl) hv.loop
  have hrun := hr .run rfl
  cases hq : s.loop.ready with
  | nil => rfl
  | cons x ks =>
    rcases x with ⟨k,b⟩ | x
    · have hk : s.loop.calls k ≠ none := by
        intro hn
        have ho := ((Loop.reachable_valid hv.loop).unstarted k hn).1
        simp [hq,Loop.own_cons_inl] at ho
      obtain ⟨d,hd⟩ := Option.ne_none_iff_exists'.mp hk
      simp [step,Loop.step,hbusy,hq,hd] at hrun
    · exact x.elim

theorem Rests.discards (hr : s.Rests) {i : ℕ} {c : Call Unit Fault}
    (hc : s.loop.calls i = some c) : c.discards = [] := by
  have hdiscard := hr.threadStep hc (a := .discard) rfl rfl
  cases hk : c.discards with
  | nil => rfl
  | cons v vs => simp [Blocking.threadStep,hk] at hdiscard

/-- Whether anything is left to run can be read off the threads and the queue. -/
theorem rests_iff (hv : StreamValid h s) : s.Rests ↔ s.taken = [] ∧ s.loop.ready = [] ∧
    ∀ i c, s.loop.calls i = some c → (∃ o, c.worker = .posted o) ∧ c.discards = [] := by
  constructor
  · intro hr
    exact ⟨hr.taken,hr.ready hv,fun i c hc => ⟨hr.posted hv hc,hr.discards hc⟩⟩
  · rintro ⟨ht,hq,hc⟩ a ha
    cases a with
    | freeEnters i => simp [step,ht]
    | thread i a =>
      cases hi : s.loop.calls i with
      | none => simp [step,Loop.step,hi]
      | some c =>
        obtain ⟨⟨o,hw⟩,hd⟩ := hc i c hi
        have hn : Blocking.threadStep .native c a = none :=
          threadStep_of_posted (by rw [hw]; rfl) hd a
        simp [step,Loop.step,hi,route,hn]
    | run =>
      have hbusy := Loop.not_busy (fun _ => rfl) hv.loop
      simp [step,Loop.step,hbusy,hq]
    | _ => cases ha

/-- With nothing left to run, every task is past its await. -/
theorem Rests.ended (hv : StreamValid h s) (hr : s.Rests) {i : ℕ} {c : Call Unit Fault}
    (hc : s.loop.calls i = some c) : c.task.ended = true := by
  have hs : Runs.Reachable (Blocking.step .native) Runs.free Blocking.init (s.loop.callState i c) :=
    Loop.reachable_call hv.loop hc
  obtain ⟨o,ho⟩ := hr.posted hv hc
  have hn := reachable_not_ending hs
  have hq : Quiescent .native (s.loop.callState i c) := by
    refine quiescent_iff.mpr ⟨⟨o,?_⟩,?_,hn,hr.discards hc⟩
    · simp [Loop.callState,ho,Worker.posted?]
    · simp [Loop.callState,hr.ready hv]
  have ha := hq.not_awaiting (reachable_queueValid hs)
  cases hk : c.task with
  | awaiting => exact absurd hk ha
  | ending l => simp [Loop.callState,hk,Task.isEnding] at hn
  | _ => rfl

end Stream
end MaculaPy.Streams
