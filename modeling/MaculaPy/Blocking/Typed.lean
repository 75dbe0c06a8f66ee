import MaculaPy.Blocking.Native
import MaculaPy.Wire.NativeError

/-! # Errors of the operations without a token

An operation without a cancel token calls the native layer on a thread of `run_native`, or on
the calling thread, and raises what `native_error` makes of the error it is given. Neither way
has the handler that `run_blocking` has around its call.
-/
namespace MaculaPy.Blocking
open Asyncio Wire

/-- The public operations that call a fallible native function without a cancel token. -/
inductive Operation
  | publish
  | subscribe
  | serve
  | serveStream
  | poolNodeId
  | ownProcedure
  | status
  | dropped
  | servedStop
  | streamReport
  | send
  | sendValue
  | closeSend
  | reply
  | abort
  | close
  | load
  | save
  | keyNodeId
  | nodeIdHex
  | publicKey
  | profile
  | sign
  | verify
  | ucan
  | deviceRequestProof
  | ownershipProof
  | proofId
  | deviceRequestMessage
  | ownershipProofMessage
  deriving DecidableEq, Repr

/-- The operations that go through `run_native`; the others invoke on the calling thread. -/
def Operation.onThread : Operation → Bool
  | publish | subscribe | serve | serveStream | servedStop => true
  | send | sendValue | closeSend | reply | abort | close => true
  | _ => false

/-- A text as the `String` it is; a lone surrogate, which no `String` holds, is lost. -/
def textOf (s : PyStr) : String := String.ofList (s.map (fun c => Char.ofNat c.val))

/-- How `raise` of what `native_error` returned looks to the handlers above it. -/
def raisedOf : NativeException → Raised NativeException
  | .cancelled m => .nativeCancelled (textOf m)
  | x => .other x

/-- `invoke`, from what the native function wrote to `err_out` and what it returned; the outer
error is one that `native_error` raises itself. -/
def invoke {V : Type*} (repr : Json → PyStr) (parse : PyStr → Option Json) (err : Option PyStr)
    (result : V) : Except PyError (Except (Raised NativeException) V) :=
  match err with
  | none => .ok (.ok result)
  | some text => (nativeError repr parse text).map fun x => .error (raisedOf x)

/-- The exception is a `MaculaError`. -/
def Raised.isMacula : Raised NativeException → Bool
  | .nativeCancelled _ => false
  | .maculaError _ => true
  | .other x => x.cls.isMacula

/-- What the application may see of an operation whose native call raised. -/
inductive Sees (V : Type*) (op : Operation) (r : Raised NativeException) :
    Raised NativeException → Prop
  | thread {s : State V NativeException} {e : Raised NativeException} (ho : op.onThread = true)
    (hs : Runs.Reachable (step .native) Runs.free init s) (hr : .returned (.error r) ∈ s.trace)
    (hk : s.call.task = .raised e) : Sees V op r e
  | here (ho : op.onThread = false) : Sees V op r r

/-- An error of the contract: its kind is a text, and its failures, where it has them, a list.
The other members may be anything. -/
structure ContractError (ms : List (PyStr × Json)) : Prop where
  kind : ∃ s, member? ms "kind" = some (.str s)
  failures : ∀ x, member? ms "failures" = some x → ∃ fs, x = .arr fs

section Typed
variable {V : Type*} {op : Operation} {r e : Raised NativeException}

/-- A native call that raises, to the end of the task that awaits it. -/
def raising (r : Raised NativeException) : List (Action V NativeException) :=
  [.thread .work,.thread (.callReturns (.error r)),.thread .work,.loop,.loop,.loop,.loop,.loop]

/-- The application sees the error of the native call, and nothing else. -/
theorem sees_iff : Sees V op r e ↔ e = r := by
  constructor
  · rintro (⟨_,hs,hr,hk⟩ | _)
    · have hmem := mem_returns.mpr hr
      rw [raised_of_native hs hk,List.mem_singleton] at hmem
      injection hmem with h
      exact h.symm
    · rfl
  · rintro rfl
    cases ho : op.onThread with
    | false => exact .here ho
    | true =>
      exact .thread (s := ⟨_,_,_⟩) ho (.of_exec (raising e) rfl) (by simp) rfl

theorem raisedOf_isMacula {x : NativeException} :
    (raisedOf x).isMacula = true ↔ x.cls ≠ .nativeCancelled := by
  have hcls : ∀ c : ErrorClass, c.isMacula = true ↔ c ≠ .nativeCancelled := by
    intro c
    cases c <;> simp [ErrorClass.isMacula]
  cases x with
  | cancelled m => simp [raisedOf,Raised.isMacula,NativeException.cls]
  | failed c t => exact hcls c
  | _ => simp [raisedOf,Raised.isMacula,NativeException.cls,ErrorClass.isMacula]

theorem ContractError.errorOf {repr : Json → PyStr} {ms : List (PyStr × Json)} {k : Json}
    {m : PyStr} (hc : ContractError ms) (hk : member? ms "kind" = some k) :
    ∃ x, Wire.errorOf repr ms k m = .ok x := by
  obtain ⟨s,hs⟩ := hc.kind
  obtain rfl : k = .str s := Option.some.inj (hk.symm.trans hs)
  refine errorOf_ok_iff.mpr ⟨rfl,fun _ => Json.or_iterable.mpr ?_⟩
  rintro ⟨ht,hi⟩
  cases hf : member? ms "failures" with
  | none => simp [errorGet,hf,Json.truthy] at ht
  | some x =>
    obtain ⟨fs,rfl⟩ := hc.failures x hf
    simp [errorGet,hf,Json.iterable] at hi

/-- What the application sees of an error of the contract, from any operation without a token,
is a `MaculaError` exactly when the error's kind is not `cancelled`. -/
theorem typed_iff (V : Type*) (op : Operation) (repr : Json → PyStr) (parse : PyStr → Option Json)
    (result : V) {text : PyStr} {ms : List (PyStr × Json)} (hp : parse text = some (.obj ms))
    (hc : ContractError ms) :
    ∃ r, invoke repr parse (some text) result = .ok (.error r) ∧ (∃ e, Sees V op r e) ∧
      ((∀ e, Sees V op r e → e.isMacula = true) ↔
        member? ms "kind" ≠ some (.str (.ofString "cancelled"))) := by
  obtain ⟨s,hk⟩ := hc.kind
  obtain ⟨x,hx⟩ : ∃ x, Wire.errorOf repr ms (.str s)
      (str repr ((errorGet ms "message").or (.str s))) = .ok x := hc.errorOf hk
  have hr : nativeError repr parse text = .ok x := by
    simpa [nativeError,hp,hk] using hx
  refine ⟨raisedOf x,by simp [invoke,hr,Except.map],⟨_,sees_iff.mpr rfl⟩,?_⟩
  have hall : (∀ e, Sees V op (raisedOf x) e → e.isMacula = true) ↔
      (raisedOf x).isMacula = true := by
    simp only [sees_iff,forall_eq]
  rw [hall,raisedOf_isMacula,hk,Ne,errorOf_cancelled hx,Ne,Option.some.injEq]

end Typed

/-- An error of one kind, and what `json.loads` makes of its text. -/
def kindOnly (kind : String) : List (PyStr × Json) := [(.ofString "kind",.str (.ofString kind))]

def kindText (kind : String) : PyStr := .ofString ("\x7b\"kind\":\"" ++ kind ++ "\"\x7d")

def parseKind (kind : String) (text : PyStr) : Option Json :=
  if text = kindText kind then some (.obj (kindOnly kind)) else none

theorem typed_iff_closed : ∃ r,
    invoke (fun _ => []) (parseKind "closed") (some (kindText "closed")) () = .ok (.error r) ∧
      ∀ e, Sees Unit .publish r e → e.isMacula = true := by
  have hp : parseKind "closed" (kindText "closed") = some (.obj (kindOnly "closed")) := rfl
  obtain ⟨r,hr,_,h⟩ :=
    typed_iff Unit .publish (fun _ => []) (parseKind "closed") () hp ⟨⟨_,rfl⟩,by rintro x ⟨⟩⟩
  refine ⟨r,hr,h.mpr (fun hk => ?_)⟩
  have hs := PyStr.ofString_injective (Json.str.inj (Option.some.inj hk))
  exact absurd hs (by decide)

/-- A publish whose native call ends as cancelled raises what is not a `MaculaError`. -/
theorem not_typed_cancelled : ∃ r e,
    invoke (fun _ => []) (parseKind "cancelled") (some (kindText "cancelled")) () = .ok (.error r) ∧
      Sees Unit .publish r e ∧ e.isMacula = false :=
  ⟨_,_,rfl,sees_iff.mpr rfl,rfl⟩

end MaculaPy.Blocking
