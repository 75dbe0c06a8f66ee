import Mathlib.Data.List.Basic

/-! # Futures of a single-threaded event loop

A future is pending or done, and keeps the callbacks to run when it is done. An
operation on it returns the future after it and the callbacks it hands to the
loop's ready queue, in order: all of them when the future becomes done, the added
one alone when it is done already.
-/
namespace MaculaPy.Asyncio

/-- How a done future ended. -/
inductive Outcome (V E : Type*)
  | result (value : V)
  | exception (error : E)
  | cancelled
  deriving DecidableEq, Repr

/-- A future with its done callbacks, in the order they were added. -/
structure Future (K V E : Type*) where
  state : Option (Outcome V E)
  callbacks : List K
  deriving DecidableEq, Repr

namespace Future
variable {K V E : Type*}

/-- A pending future with the callbacks already added to it. -/
def pending (callbacks : List K) : Future K V E := ⟨none,callbacks⟩

def done (f : Future K V E) : Bool := f.state.isSome

/-- `set_result`, `set_exception` or `cancel`: nothing changes once the future is done. -/
def finish (f : Future K V E) (o : Outcome V E) : Future K V E × List K :=
  match f.state with
  | some _ => (f,[])
  | none => (⟨some o,[]⟩,f.callbacks)

def addDoneCallback (f : Future K V E) (k : K) : Future K V E × List K :=
  match f.state with
  | some _ => (f,[k])
  | none => ({f with callbacks := f.callbacks ++ [k]},[])

/-- `remove_done_callback`, for the callbacks `p` recognises. -/
def removeDoneCallback (f : Future K V E) (p : K → Bool) : Future K V E :=
  {f with callbacks := f.callbacks.filter (fun k => !p k)}

variable {f : Future K V E}

@[simp] theorem pending_state (ks : List K) : (pending ks : Future K V E).state = none := rfl
@[simp] theorem pending_callbacks (ks : List K) : (pending ks : Future K V E).callbacks = ks := rfl

theorem done_eq_true : f.done = true ↔ f.state ≠ none := by
  cases h : f.state <;> simp [done,h]

theorem done_eq_false : f.done = false ↔ f.state = none := by
  cases h : f.state <;> simp [done,h]

theorem finish_of_pending (h : f.state = none) (o : Outcome V E) :
    f.finish o = (⟨some o,[]⟩,f.callbacks) := by simp [finish,h]

theorem finish_of_done {o : Outcome V E} (h : f.state = some o) (o' : Outcome V E) :
    f.finish o' = (f,[]) := by simp [finish,h]

theorem addDoneCallback_of_pending (h : f.state = none) (k : K) :
    f.addDoneCallback k = ({f with callbacks := f.callbacks ++ [k]},[]) := by
  simp [addDoneCallback,h]

theorem addDoneCallback_of_done {o : Outcome V E} (h : f.state = some o) (k : K) :
    f.addDoneCallback k = (f,[k]) := by simp [addDoneCallback,h]

@[simp] theorem addDoneCallback_state (k : K) : (f.addDoneCallback k).1.state = f.state := by
  cases h : f.state <;> simp [addDoneCallback,h]

end Future
end MaculaPy.Asyncio
