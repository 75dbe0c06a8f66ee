import MaculaPy.Objects.Methods
import MaculaPy.Blocking.Native

/-! # The life of an object with a handle

One `NodeKey`, `Pool`, `Subscription` or `Stream` on an event loop. Any task may call any of its
operations at any time, and be cancelled at any await of one. The handle is read by an operation
as it starts, and taken by the one release that finds it there, which owes it to the native side
from then on.
-/
namespace MaculaPy.Objects
open Wire Abi Blocking

/-- How an operation leaves the thread of its caller: with an error, with nothing to do, for a call
on that thread, or for a thread that makes its call or runs `free`. -/
inductive Outset
  | refused (e : Refusal)
  | returned
  | here
  | calls (r : Route) (texts : List PyStr)
  | free

/-- An object with what was called on it, numbered in the order it was called, the native calls
that are still to be made with a handle, and those made, the newest first. -/
structure Object (V E : Type*) where
  loop : Loop (ℕ × Route) Empty V E
  handle : Option Handle
  finalizer : Option Handle
  collected : Bool
  outset : ℕ → Option Outset
  next : ℕ
  due : ℕ → Option (Native × Handle)
  log : List (ℕ × Native × Handle)

/-- `release` is `close`, `stop` or `free`, and `exit` the `__aexit__`. -/
inductive ObjectAction (k : Kind) (V E : Type*)
  | issue (m : Method k)
  | release
  | exit
  | collect
  | enters (i : ℕ)
  | thread (x : ℕ × Route) (a : ThreadAction V E)
  | cancelTask (x : ℕ × Route)
  | run
  | endStep

section Actions
variable {k : Kind} {V E : Type*}

def ObjectAction.isRelease : ObjectAction k V E → Bool
  | .release => true
  | .exit => true
  | .collect => true
  | _ => false

/-- What threads and the loop do, rather than a task of the program's. -/
def ObjectAction.isOwn : ObjectAction k V E → Bool
  | .enters _ => true
  | .thread _ _ => true
  | .run => true
  | .endStep => true
  | _ => false

end Actions

/-- The thread makes its call next. -/
def atCall {V E : Type*} : Route → Worker V E → Bool
  | .native,.spawned => true
  | .blocking _,.ready _ => true
  | _,_ => false

namespace Object
variable {V E : Type*}

def init (k : Kind) (h : Handle) : Object V E where
  loop := Loop.init
  handle := some h
  finalizer := if k = .nodeKey then some h else none
  collected := false
  outset := fun _ => none
  next := 0
  due := fun _ => none
  log := []

/-- The handles that the release function was invoked with. -/
def released (k : Kind) (s : Object V E) : List Handle :=
  (s.log.filter (fun x => x.2.1 = k.release)).map (fun x => x.2.2)

def enlist (s : Object V E) (o : Outset) : Object V E :=
  {s with outset := Function.update s.outset s.next (some o), next := s.next + 1}

def owe (s : Object V E) (i : ℕ) (e : Native × Handle) : Object V E :=
  {s with due := Function.update s.due i (some e)}

def clear (s : Object V E) : Object V E := {s with handle := none}

/-- `run_native` or `run_blocking` up to its await. -/
def spawn (s : Object V E) (r : Route) (o : Outset) : Option (Object V E) :=
  (Loop.step Prod.snd s.loop (.start (s.next,r))).map fun l => {s.enlist o with loop := l}

/-- An operation up to its call. -/
def issue {k : Kind} (floatText : Binary64 → Numeral) (s : Object V E) (m : Method k) :
    Option (Object V E) :=
  match m.body floatText s.handle with
  | .error e => some (s.enlist (.refused e))
  | .ok ⟨n,h,.here⟩ => some ((s.owe s.next (n,h)).enlist .here)
  | .ok ⟨n,h,.thread r texts⟩ => (s.owe s.next (n,h)).spawn r (.calls r texts)

/-- `close` of a pool, `stop` of a subscription. -/
def close (k : Kind) (s : Object V E) : Option (Object V E) :=
  match s.handle with
  | none => some (s.enlist .returned)
  | some h => (s.clear.owe s.next (k.release,h)).spawn .native (.calls .native [])

/-- `free` of a stream, on the thread of its caller. -/
def freeHere (s : Object V E) : Object V E :=
  match s.handle with
  | none => s.enlist .returned
  | some h => (s.clear.owe s.next (Kind.release .stream,h)).enlist .here

/-- `free` of a key: the handle is cleared, and the finalizer runs if it has not yet. -/
def finalize (s : Object V E) : Object V E :=
  match s.finalizer with
  | none => s.clear.enlist .returned
  | some h =>
    {(s.clear.owe s.next (Kind.release .nodeKey,h)).enlist .here with finalizer := none}

def release (s : Object V E) : Kind → Option (Object V E)
  | .nodeKey => some s.finalize
  | .stream => some s.freeHere
  | k => s.close k

/-- `__aexit__`, which a key lacks. -/
def exit (s : Object V E) : Kind → Option (Object V E)
  | .nodeKey => none
  | .stream => s.spawn .native .free
  | k => s.close k

/-- `free` of a stream, on a thread of its own: the test and the clear. -/
def take (s : Object V E) (i : ℕ) : Object V E :=
  match s.handle with
  | none => s
  | some h => s.clear.owe i (Kind.release .stream,h)

/-- The call that was owed is made. -/
def pass (s : Object V E) (i : ℕ) (e : Native × Handle) : Object V E :=
  {s with due := Function.update s.due i none, log := (i,e) :: s.log}

def encodes (texts : List PyStr) : Bool := texts.all PyStr.scalar

/-- The thread of a call runs what it was started for. -/
def enter (s : Object V E) (i : ℕ) : Object V E :=
  match s.outset i,s.due i with
  | some (.calls _ texts),some e =>
    if encodes texts then s.pass i e else {s with due := Function.update s.due i none}
  | some .free,_ => s.take i
  | _,_ => s

/-- The step of a thread is the one that makes its call. -/
def begins (s : Object V E) (x : ℕ × Route) : ThreadAction V E → Bool
  | .work => (s.loop.calls x).any (fun c => atCall x.2 c.worker)
  | _ => false

/-- How a thread's call can end: in any way once its native function was entered, and with an
error of its own before; `free` when it has passed on what it took. -/
def admits (s : Object V E) (i : ℕ) : ThreadAction V E → Bool
  | .callReturns o =>
    match s.outset i with
    | some (.calls _ texts) => encodes texts || !o.toBool
    | some .free => (s.due i).isNone && o.toBool
    | _ => true
  | _ => true

/-- The calls that the thread of their operation makes, once it was issued. -/
def isHere : Option Outset → Bool
  | some .here => true
  | some .free => true
  | _ => false

def step (k : Kind) (floatText : Binary64 → Numeral) (s : Object V E) :
    ObjectAction k V E → Option (Object V E)
  | .issue m => if s.collected then none else s.issue floatText m
  | .release => if s.collected then none else s.release k
  | .exit => if s.collected then none else s.exit k
  | .collect =>
    if k = .nodeKey ∧ s.collected = false then some {s.finalize with collected := true} else none
  | .enters i => if isHere (s.outset i) then (s.due i).map (s.pass i) else none
  | .thread x a =>
    if s.admits x.1 a then
      (Loop.step Prod.snd s.loop (.thread x a)).map fun l =>
        {(if s.begins x a then s.enter x.1 else s) with loop := l}
    else none
  | .cancelTask x => (Loop.step Prod.snd s.loop (.cancelTask x)).map fun l => {s with loop := l}
  | .run => (Loop.step Prod.snd s.loop .run).map fun l => {s with loop := l}
  | .endStep => (Loop.step Prod.snd s.loop .endStep).map fun l => {s with loop := l}

/-- What the release takes the handle from. -/
def owner (k : Kind) (s : Object V E) : Option Handle :=
  match k with
  | .nodeKey => s.finalizer
  | _ => s.handle

section Moves
variable {k : Kind} (floatText : Binary64 → Numeral)

/-- What a step can be, and what it leaves. -/
inductive Move (s : Object V E) : ObjectAction k V E → Object V E → Prop
  | refused {m : Method k} {e : Refusal} (hb : m.body floatText s.handle = .error e) :
    Move s (.issue m) (s.enlist (.refused e))
  | here {m : Method k} {n : Native} {h : Handle}
    (hb : m.body floatText s.handle = .ok ⟨n,h,.here⟩) :
    Move s (.issue m) ((s.owe s.next (n,h)).enlist .here)
  | calls {m : Method k} {n : Native} {h : Handle} {r : Route} {texts : List PyStr}
    {l : Loop (ℕ × Route) Empty V E}
    (hb : m.body floatText s.handle = .ok ⟨n,h,.thread r texts⟩)
    (hl : Loop.step Prod.snd s.loop (.start (s.next,r)) = some l) :
    Move s (.issue m) {(s.owe s.next (n,h)).enlist (.calls r texts) with loop := l}
  | returned {a : ObjectAction k V E} {b : Bool} (ha : a.isRelease = true)
    (hh : s.owner k = none) : Move s a {s.enlist .returned with handle := none, collected := b}
  | takes {a : ObjectAction k V E} {h : Handle} {f : Option Handle} {b : Bool}
    (ha : a.isRelease = true) (hh : s.owner k = some h) (hf : k = .nodeKey → f = none) :
    Move s a {(s.owe s.next (k.release,h)).enlist .here with
      handle := none, finalizer := f, collected := b}
  | swaps {a : ObjectAction k V E} {h : Handle} {l : Loop (ℕ × Route) Empty V E}
    (ha : a.isRelease = true) (hk : k ≠ .nodeKey) (hh : s.handle = some h)
    (hl : Loop.step Prod.snd s.loop (.start (s.next,.native)) = some l) :
    Move s a {(s.owe s.next (k.release,h)).enlist (.calls .native []) with
      handle := none, loop := l}
  | exits {l : Loop (ℕ × Route) Empty V E} (hk : k = .stream)
    (hl : Loop.step Prod.snd s.loop (.start (s.next,.native)) = some l) :
    Move s .exit {s.enlist .free with loop := l}
  | enters {i : ℕ} {e : Native × Handle} (ho : isHere (s.outset i) = true)
    (hd : s.due i = some e) : Move s (.enters i) (s.pass i e)
  | begins {x : ℕ × Route} {c : Call V E} {l : Loop (ℕ × Route) Empty V E}
    (hc : s.loop.calls x = some c) (hw : atCall x.2 c.worker = true)
    (hl : Loop.step Prod.snd s.loop (.thread x .work) = some l) :
    Move s (.thread x .work) {s.enter x.1 with loop := l}
  | thread {x : ℕ × Route} {a : ThreadAction V E} {c : Call V E} {l : Loop (ℕ × Route) Empty V E}
    (hc : s.loop.calls x = some c) (ha : s.admits x.1 a = true)
    (hw : a = .work → atCall x.2 c.worker = false)
    (hl : Loop.step Prod.snd s.loop (.thread x a) = some l) :
    Move s (.thread x a) {s with loop := l}
  | cancelTask {x : ℕ × Route} {l : Loop (ℕ × Route) Empty V E}
    (hl : Loop.step Prod.snd s.loop (.cancelTask x) = some l) :
    Move s (.cancelTask x) {s with loop := l}
  | run {l : Loop (ℕ × Route) Empty V E} (hl : Loop.step Prod.snd s.loop .run = some l) :
    Move s .run {s with loop := l}
  | endStep {l : Loop (ℕ × Route) Empty V E} (hl : Loop.step Prod.snd s.loop .endStep = some l) :
    Move s .endStep {s with loop := l}

variable {floatText} {s t : Object V E}

theorem issue_move {m : Method k} (he : s.issue floatText m = some t) :
    Move floatText s (.issue m) t := by
  unfold issue at he
  split at he
  · next hb =>
    cases he
    exact .refused hb
  · next hb =>
    cases he
    exact .here hb
  · next hb =>
    obtain ⟨l,hl,rfl⟩ := Option.map_eq_some_iff.mp he
    exact .calls hb hl

theorem with_handle {b : Bool} (hh : s.handle = none) (hb : b = s.collected) :
    {s.enlist .returned with handle := none, collected := b} = s.enlist .returned := by
  rw [hb,← hh]
  rfl

theorem close_move {a : ObjectAction k V E} (ha : a.isRelease = true) (hk : k ≠ .nodeKey)
    (he : s.close k = some t) : Move floatText s a t := by
  have ho : s.owner k = s.handle := by cases k <;> first | rfl | exact absurd rfl hk
  unfold close at he
  split at he
  · next hh =>
    cases he
    exact with_handle hh rfl ▸ .returned ha (ho.trans hh)
  · next hh =>
    obtain ⟨l,hl,rfl⟩ := Option.map_eq_some_iff.mp he
    exact .swaps ha hk hh hl

theorem finalize_move {a : ObjectAction .nodeKey V E} (ha : a.isRelease = true) (b : Bool) :
    Move floatText s a {s.finalize with collected := b} := by
  unfold finalize
  split
  · next hf => exact .returned ha hf
  · next hf => exact .takes ha hf (fun _ => rfl)

theorem freeHere_move : Move (k := .stream) floatText s .release s.freeHere := by
  unfold freeHere
  split
  · next hh => exact with_handle hh rfl ▸ .returned rfl hh
  · next hh => exact .takes (b := s.collected) (f := s.finalizer) rfl hh (fun hk => nomatch hk)

theorem release_move (he : s.release k = some t) : Move (k := k) floatText s .release t := by
  cases k with
  | nodeKey =>
    cases he
    exact finalize_move (a := .release) rfl s.finalize.collected
  | stream =>
    cases he
    exact freeHere_move
  | _ => exact close_move rfl (by decide) he

theorem exit_move (he : s.exit k = some t) : Move (k := k) floatText s .exit t := by
  cases k with
  | nodeKey => cases he
  | stream =>
    obtain ⟨l,hl,rfl⟩ := Option.map_eq_some_iff.mp he
    exact .exits rfl hl
  | _ => exact close_move rfl (by decide) he

theorem begins_iff {x : ℕ × Route} {a : ThreadAction V E} {c : Call V E}
    (hc : s.loop.calls x = some c) :
    s.begins x a = true ↔ a = .work ∧ atCall x.2 c.worker = true := by
  cases a <;> simp [begins,hc]

theorem step_move {a : ObjectAction k V E} (he : s.step k floatText a = some t) :
    Move floatText s a t := by
  cases a with
  | issue m =>
    simp only [step] at he
    split at he
    · cases he
    · exact issue_move he
  | release =>
    simp only [step] at he
    split at he
    · cases he
    · exact release_move he
  | exit =>
    simp only [step] at he
    split at he
    · cases he
    · exact exit_move he
  | collect =>
    simp only [step] at he
    split at he
    · next hk =>
      obtain ⟨rfl,_⟩ := hk
      cases he
      exact finalize_move (a := .collect) rfl true
    · cases he
  | enters i =>
    simp only [step] at he
    split at he
    · next ho =>
      obtain ⟨e,hd,rfl⟩ := Option.map_eq_some_iff.mp he
      exact .enters ho hd
    · cases he
  | thread x a =>
    simp only [step] at he
    split at he
    · next ha =>
      obtain ⟨l,hl,ht⟩ := Option.map_eq_some_iff.mp he
      obtain ⟨c,hc⟩ : ∃ c, s.loop.calls x = some c := by
        cases Loop.step_move hl with
        | thread _ hc _ => exact ⟨_,hc⟩
      by_cases hb : s.begins x a = true
      · rw [if_pos hb] at ht
        obtain ⟨rfl,hw⟩ := (begins_iff hc).mp hb
        exact ht ▸ .begins hc hw hl
      · rw [if_neg hb] at ht
        refine ht ▸ .thread hc ha (fun hwork => ?_) hl
        exact Bool.eq_false_iff.mpr (fun hw => hb ((begins_iff hc).mpr ⟨hwork,hw⟩))
    · cases he
  | cancelTask x =>
    obtain ⟨l,hl,rfl⟩ := Option.map_eq_some_iff.mp he
    exact .cancelTask hl
  | run =>
    obtain ⟨l,hl,rfl⟩ := Option.map_eq_some_iff.mp he
    exact .run hl
  | endStep =>
    obtain ⟨l,hl,rfl⟩ := Option.map_eq_some_iff.mp he
    exact .endStep hl

/-- What the thread of a call does as it begins. -/
inductive Enters (s : Object V E) (i : ℕ) : Object V E → Prop
  | passes {r : Route} {texts : List PyStr} {e : Native × Handle}
    (ho : s.outset i = some (.calls r texts)) (hd : s.due i = some e)
    (ht : encodes texts = true) : Enters s i (s.pass i e)
  | drops {r : Route} {texts : List PyStr} (ho : s.outset i = some (.calls r texts))
    (ht : encodes texts = false) : Enters s i {s with due := Function.update s.due i none}
  | takes {h : Handle} (ho : s.outset i = some .free) (hh : s.handle = some h) :
    Enters s i (s.clear.owe i (Kind.release .stream,h))
  | idle (hc : ∀ r texts, s.outset i = some (.calls r texts) → s.due i = none)
    (hf : s.outset i = some .free → s.handle = none) : Enters s i s

theorem enter_enters (s : Object V E) (i : ℕ) : Enters s i (s.enter i) := by
  unfold enter
  split
  · next ho hd =>
    split
    · next ht => exact .passes ho hd ht
    · next ht => exact .drops ho (by simpa using ht)
  · next ho =>
    unfold take
    split
    · next hh => exact .idle (fun _ _ hc => by simp [ho] at hc) (fun _ => hh)
    · next hh => exact .takes ho hh
  · next hf hc =>
    refine .idle (fun r texts ho => ?_) (fun ho => absurd ho hf)
    cases hd : s.due i with
    | none => rfl
    | some e => exact absurd hd (hc r texts e ho)

end Moves
end Object
end MaculaPy.Objects
