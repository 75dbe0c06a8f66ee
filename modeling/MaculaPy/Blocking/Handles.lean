import MaculaPy.Blocking.Handshake

/-! # Native handles and cancelled operations

The eight coroutines that make the native side create a handle. Most of them give
`run_blocking` the function that releases such a handle as `discard`; three of them go
through `run_native`, and a handle that arrives after their task was cancelled has no
owner.
-/
namespace MaculaPy.Blocking
variable {E : Type*}

inductive HandleKind
  | key
  | pool
  | subscription
  | served
  | stream
  deriving DecidableEq, Repr

inductive HandleOp
  | generate
  | loadOrCreate
  | connect
  | subscribe
  | subscribeGroup
  | serve
  | serveStream
  | openStream
  deriving DecidableEq, Repr

def HandleKind.release : HandleKind → String
  | .key => "macula_key_free"
  | .pool => "macula_pool_close"
  | .subscription => "macula_subscription_stop"
  | .served => "macula_served_stop"
  | .stream => "macula_stream_free"

namespace HandleOp

def kind : HandleOp → HandleKind
  | generate => .key
  | loadOrCreate => .key
  | connect => .pool
  | subscribe => .subscription
  | subscribeGroup => .subscription
  | serve => .served
  | serveStream => .served
  | openStream => .stream

/-- The function given to `run_blocking` as `discard`. -/
def discard : HandleOp → Option String
  | generate => some "macula_key_free"
  | loadOrCreate => some "macula_key_free"
  | connect => some "macula_pool_close"
  | subscribeGroup => some "macula_subscription_stop"
  | openStream => some "macula_stream_free"
  | _ => none

def route : HandleOp → Route
  | subscribe => .native
  | serve => .native
  | serveStream => .native
  | op => .blocking op.discard.isSome

/-- The handle is owned by the object the operation returned, or was released by the
function for its kind. -/
def Accounted (op : HandleOp) (s : State ℕ E) (h : ℕ) : Prop :=
  delivered s.trace = [h] ∨ (discarded s.trace = [h] ∧ op.discard = some op.kind.release)

theorem discard_eq_release (op : HandleOp) :
    op.discard = some op.kind.release ↔ op.route = .blocking true := by
  cases op <;> decide

/-- A handle the native call returned is owned or released, when nothing is left to run,
exactly if the operation gives a release function or its task was not cancelled. -/
theorem accounted_iff (op : HandleOp) {s : State ℕ E}
    (hs : Runs.Reachable (step op.route) Runs.free init s) (hq : Quiescent op.route s) {h : ℕ}
    (hr : .returned (.ok h) ∈ s.trace) :
    op.Accounted s h ↔ op.discard = some op.kind.release ∨ .cancelTask ∉ s.trace := by
  have hi := (reachable_handshakeValid hs).interrupted
  rcases hq.result hs hr with ⟨ht,hd,_⟩ | ⟨ht,hd,hx⟩
  · have hn : .cancelTask ∉ s.trace := by simp [hi,Call.interrupted,ht]
    simp [Accounted,hd,hn]
  · have hc : .cancelTask ∈ s.trace := by simp [hi,Call.interrupted,ht]
    rw [discard_eq_release]
    by_cases hb : op.route = .blocking true
    · simp [Accounted,hx,hb,discard_eq_release]
    · simp [Accounted,hd,hx,hb,hc]

/-- The task that awaits `serve` is cancelled; the station's acceptance arrives later. -/
def cancelledServe : List (Action ℕ Empty) :=
  [.thread .work,.cancel,.loop,.loop,.thread (.callReturns (.ok 7)),.thread .work,.loop,.loop]

theorem accounted_iff_cancelledServe : ∃ s : State ℕ Empty,
    Runs.exec (step serve.route) init cancelledServe = some s ∧
      (serve.Accounted s 7 ↔ serve.discard = some serve.kind.release ∨ .cancelTask ∉ s.trace) := by
  refine ⟨_,rfl,accounted_iff serve (.of_exec cancelledServe rfl) ?_ ?_⟩
  · exact quiescent_iff.mpr ⟨⟨_,rfl⟩,rfl,rfl,rfl⟩
  · exact mem_returns.mp (List.mem_singleton_self _)

theorem not_accounted_cancelledServe : ∃ s : State ℕ Empty,
    Runs.exec (step serve.route) init cancelledServe = some s ∧ Quiescent serve.route s ∧
      .returned (.ok 7) ∈ s.trace ∧ ¬ serve.Accounted s 7 := by
  refine ⟨_,rfl,quiescent_iff.mpr ⟨⟨_,rfl⟩,rfl,rfl,rfl⟩,mem_returns.mp (List.mem_singleton_self _),?_⟩
  rintro (h | ⟨h,_⟩) <;> cases h

end HandleOp
end MaculaPy.Blocking
