import Mathlib.Logic.Function.Basic
import MaculaPy.Foundation.Ledger
import MaculaPy.Foundation.Simulation
import MaculaPy.Native.Functions

/-! # The memory the library lends

`invoke` with `take_string` and `take_bytes` over what it returns, on any number of threads. A
call of the library may lend a block of memory with its result and another with its error; each
is copied and freed, one native call at a time, while other threads do the same and the library
lends freed addresses again. Beside it, the calls as they are without memory: a reply, and what
is made of it.
-/
namespace MaculaPy.Native
open Runs Holdings

abbrev Bytes := List UInt8

/-- A C string ends before the first NUL. -/
def cString (bs : Bytes) : Bytes := bs.takeWhile (· ≠ 0)

structure Block where
  kind : Kind
  content : Bytes
  deriving DecidableEq

abbrev Heap := ℕ → Option Block

/-- What a function has returned: its result, the memory it lent with it, what it wrote to
`out_len`, and the memory that `err_out` points to. -/
structure Returned where
  value : ℕ
  lent : Option (ℕ × Bytes)
  length : ℕ
  error : Option (ℕ × Bytes)
  deriving DecidableEq

def address (b : Option (ℕ × Bytes)) : ℕ := b.elim 0 Prod.fst

/-- A function that lends memory returns its address. -/
def Returned.result (s : Site) (r : Returned) : ℕ :=
  if s.lends.isSome then address r.lent else r.value

/-- What an operation has of its call. -/
inductive Outcome
  | value (v : ℕ)
  | none
  | text (bs : Bytes)
  | data (bs : Bytes)
  | raised (text : Bytes)
  deriving DecidableEq

inductive Phase
  | idle
  | called (s : Site)
  | returned (s : Site) (result length err : ℕ)
  | raising (s : Site) (err : ℕ) (text : Bytes)
  | taking (s : Site) (k : Kind) (a : ℕ) (data : Bytes)
  deriving DecidableEq

/-- `crashed` tells that memory was read or freed that may not be. -/
structure Memory where
  heap : Heap
  phase : ℕ → Phase
  crashed : Bool
  answered : List (ℕ × Site × Returned)
  done : List (ℕ × Site × Outcome)

namespace Memory

def init : Memory where
  heap _ := none
  phase _ := .idle
  crashed := false
  answered := []
  done := []

/-- The library lends at an address that is not lent. -/
def lend (k : Kind) (b : Option (ℕ × Bytes)) (m : Heap) : Option Heap :=
  match b with
  | none => some m
  | some (a,bs) =>
    if a ≠ 0 ∧ m a = none then some (Function.update m a (some ⟨k,bs⟩)) else none

def lendResult (s : Site) (b : Option (ℕ × Bytes)) (m : Heap) : Option Heap :=
  match s.lends with
  | some k => lend k b m
  | none => if b = none then some m else none

/-- `ctypes.string_at(address)`. -/
def readString (a : ℕ) (m : Heap) : Option Bytes :=
  (m a).bind fun b => if 0 ∈ b.content then some (cString b.content) else none

/-- `ctypes.string_at(address, length)`. -/
def readBytes (a n : ℕ) (m : Heap) : Option Bytes :=
  (m a).bind fun b => if n ≤ b.content.length then some (b.content.take n) else none

/-- `macula_free_string` and `macula_free_bytes`. -/
def free (k : Kind) (a : ℕ) (m : Heap) : Option Heap :=
  (m a).bind fun b => if b.kind = k then some (Function.update m a none) else none

def read (k : Kind) (a n : ℕ) (m : Heap) : Option Bytes :=
  match k with
  | .string => readString a m
  | .bytes => readBytes a n m

/-- What `take_string` and `take_bytes` return. -/
def taken : Kind → Bytes → Outcome
  | .string,bs => .text bs
  | .bytes,bs => .data bs

/-- What they return for NULL. -/
def takenNull : Kind → Outcome
  | .string => .none
  | .bytes => .data []

variable (s : Memory) (i : ℕ)

def moveTo (p : Phase) : Memory := { s with phase := Function.update s.phase i p }

def crash : Memory := { s with crashed := true }

def finish (c : Site) (o : Outcome) : Memory :=
  { s.moveTo i .idle with done := s.done ++ [(i,c,o)] }

/-- The next step of a thread that is back from the library. -/
def turn : Option Memory :=
  match s.phase i with
  | .idle => none
  | .called _ => none
  | .returned c result length err =>
    if err ≠ 0 then
      match readString err s.heap with
      | none => some s.crash
      | some text => some (s.moveTo i (.raising c err text))
    else
      match c.taking.frees with
      | none => some (s.finish i c (.value result))
      | some k =>
        if result = 0 then some (s.finish i c (takenNull k))
        else match read k result length s.heap with
          | none => some s.crash
          | some bs => some (s.moveTo i (.taking c k result bs))
  | .raising c err text =>
    match free .string err s.heap with
    | none => some s.crash
    | some m => some ({ s with heap := m }.finish i c (.raised text))
  | .taking c k a bs =>
    match free k a s.heap with
    | none => some s.crash
    | some m => some ({ s with heap := m }.finish i c (taken k bs))

inductive Action
  | start (i : ℕ) (c : Site)
  | native (i : ℕ) (r : Returned)
  | turn (i : ℕ)

def step (s : Memory) : Action → Option Memory
  | .start i c => if s.phase i = .idle ∧ c ∈ sites then some (s.moveTo i (.called c)) else none
  | .native i r =>
    match s.phase i with
    | .called c =>
      (lendResult c r.lent s.heap).bind fun m => (lend .string r.error m).map fun m' =>
        { s.moveTo i (.returned c (r.result c) r.length (address r.error)) with
          heap := m', answered := s.answered ++ [(i,c,r)] }
    | _ => none
  | .turn i => s.turn i

/-- The contract of the library: its strings end with a NUL, and `out_len` is not more than
what it lent. -/
def Keeps (c : Site) (r : Returned) : Prop :=
  (∀ a bs, r.error = some (a,bs) → 0 ∈ bs) ∧
  (∀ a bs, r.lent = some (a,bs) → c.lends = some .string → 0 ∈ bs) ∧
  (∀ a bs, r.lent = some (a,bs) → c.lends = some .bytes → r.length ≤ bs.length)

def contract (s : Memory) : Action → Prop
  | .native i r => ∀ c, s.phase i = .called c → Keeps c r
  | _ => True

end Memory

/-! ## The calls without memory -/

structure Reply where
  value : ℕ
  lent : Option Bytes
  length : ℕ
  error : Option Bytes

def Returned.reply (r : Returned) : Reply :=
  ⟨r.value,r.lent.map Prod.snd,r.length,r.error.map Prod.snd⟩

/-- What `invoke` and the function over it make of a reply. -/
def Reply.outcome (c : Site) (r : Reply) : Outcome :=
  match r.error with
  | some text => .raised (cString text)
  | none =>
    match c.taking with
    | .plain => .value r.value
    | .string => r.lent.elim .none fun bs => .text (cString bs)
    | .bytes => .data ((r.lent.getD []).take r.length)

inductive Calls.Progress
  | idle
  | called (c : Site)
  | answered (c : Site) (r : Reply)

structure Calls where
  progress : ℕ → Calls.Progress
  answered : List (ℕ × Site × Reply)
  done : List (ℕ × Site × Outcome)

namespace Calls

def init : Calls := ⟨fun _ => .idle,[],[]⟩

inductive Action
  | start (i : ℕ) (c : Site)
  | answer (i : ℕ) (r : Reply)
  | finish (i : ℕ)

def step (t : Calls) : Action → Option Calls
  | .start i c =>
    match t.progress i with
    | .idle => some { t with progress := Function.update t.progress i (.called c) }
    | _ => none
  | .answer i r =>
    match t.progress i with
    | .called c => some { t with
        progress := Function.update t.progress i (.answered c r)
        answered := t.answered ++ [(i,c,r)] }
    | _ => none
  | .finish i =>
    match t.progress i with
    | .answered c r => some { t with
        progress := Function.update t.progress i .idle
        done := t.done ++ [(i,c,r.outcome c)] }
    | _ => none

/-- What a thread still has to end with. -/
def Progress.pending : Progress → List (Site × Outcome)
  | .answered c r => [(c,r.outcome c)]
  | _ => []

end Calls

/-! ## Memory is where the calls say it is -/

/-- The address that a thread has still to free. -/
def Phase.owes : Phase → Option ℕ
  | .returned c result _ err =>
    if err ≠ 0 then some err
    else if c.taking.frees.isSome ∧ result ≠ 0 then some result
    else none
  | .raising _ a _ => some a
  | .taking _ _ a _ => some a
  | _ => none

/-- The block a call returned and did not give up, since it returned an error as well. -/
def Lost (xs : List (ℕ × Site × Returned)) (a : ℕ) (b : Block) : Prop :=
  ∃ x ∈ xs, x.2.1.lends = some b.kind ∧ x.2.2.lent = some (a,b.content) ∧
    x.2.2.error.isSome = true

/-- The phase of a thread over the memory, and how far its call is without memory. -/
inductive Stands (m : Heap) : Phase → Calls.Progress → Prop
  | idle : Stands m .idle .idle
  | called {c : Site} (hc : c ∈ sites) : Stands m (.called c) (.called c)
  | returned {c : Site} {r : Returned} (hc : c ∈ sites) (hk : Memory.Keeps c r)
    (he : ∀ a bs, r.error = some (a,bs) → a ≠ 0 ∧ m a = some ⟨.string,bs⟩)
    (hl : r.error = none → ∀ a bs k, c.lends = some k → r.lent = some (a,bs) →
      a ≠ 0 ∧ m a = some ⟨k,bs⟩) :
    Stands m (.returned c (r.result c) r.length (address r.error)) (.answered c r.reply)
  | raising {c : Site} {r : Reply} {a : ℕ} {bs : Bytes} (hm : m a = some ⟨.string,bs⟩)
    (he : r.error = some bs) : Stands m (.raising c a (cString bs)) (.answered c r)
  | taking {c : Site} {r : Reply} {k : Kind} {a : ℕ} {bs data : Bytes}
    (hm : m a = some ⟨k,bs⟩) (ho : r.outcome c = Memory.taken k data) :
    Stands m (.taking c k a data) (.answered c r)

end MaculaPy.Native
