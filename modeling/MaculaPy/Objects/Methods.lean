import MaculaPy.Abi.Operations
import MaculaPy.Blocking.Call

/-! # The operations of an object with a handle

`NodeKey`, `Pool`, `Subscription` and `Stream` up to the native call of each operation: what is
checked before the handle is read, the read through `_live`, what is checked after it, and the
thread that makes the call. Of the arguments, those that a check reads or a thread encodes.
-/
namespace MaculaPy.Objects
open Wire Abi Blocking

inductive Kind
  | nodeKey
  | pool
  | subscription
  | stream
  deriving DecidableEq, Repr

/-- The functions that are given the handle of an object alone. -/
inductive Bare
  | keyNodeId
  | keyPublicKey
  | keyProfile
  | keyFree
  | poolNodeId
  | poolStatus
  | poolClose
  | subscriptionDropped
  | subscriptionStop
  | streamReport
  | streamCloseSend
  | streamClose
  | streamFree
  deriving DecidableEq, Repr

inductive Native
  | bare (f : Bare)
  | given (f : Function)
  deriving DecidableEq, Repr

/-- The function that releases the handle. -/
def Kind.release : Kind → Native
  | .nodeKey => .bare .keyFree
  | .pool => .bare .poolClose
  | .subscription => .bare .subscriptionStop
  | .stream => .bare .streamFree

/-- The message of the `ClosedError` that `_live` raises. -/
def Kind.closedText : Kind → String
  | .nodeKey => "macula-py: this NodeKey was freed"
  | .pool => "macula-py: this pool was closed"
  | .subscription => "macula-py: this subscription was stopped"
  | .stream => "macula-py: this stream was freed"

/-- What an operation raises before its native call: a `ClosedError`, or what is wrong with its
own arguments. -/
inductive Refusal
  | closed (message : String)
  | own (e : PyError)
  deriving DecidableEq, Repr

/-- The thread that makes a call: the caller's, or one started for it, which encodes texts
first. -/
inductive Carrier
  | here
  | thread (r : Route) (texts : List PyStr)

structure Invocation where
  native : Native
  handle : Handle
  carrier : Carrier

/-- The part of an operation before its call, which sees the handle the object has. -/
abbrev Body (α : Type) := ReaderT (Option Handle) (Except Refusal) α

/-- `_live`. -/
def live (k : Kind) : Body Handle
  | none => .error (.closed k.closedText)
  | some h => .ok h

def check {α : Type} (x : Except PyError α) : Body α := fun _ => x.mapError .own

def here (n : Native) (h : Handle) : Body Invocation := pure ⟨n,h,.here⟩

/-- `run_native`, or `run_blocking`. -/
def onThread (r : Route) (n : Native) (h : Handle) (texts : List PyStr) : Body Invocation :=
  pure ⟨n,h,.thread r texts⟩

/-- `isinstance(texts, str)` is refused. -/
def sequence (refusal : String) : Texts → Except PyError Unit
  | .one _ => .error (.typeError refusal)
  | .many _ => .ok ()

/-- The public operations of an object other than its release, with `Pool.connect` as one of the
key it is given. -/
inductive Method : Kind → Type
  | save (path : PyStr) : Method .nodeKey
  | keyNodeId : Method .nodeKey
  | nodeIdHex : Method .nodeKey
  | publicKey : Method .nodeKey
  | profile : Method .nodeKey
  | sign : Method .nodeKey
  | ucan (audience : Id) (capabilities : List Capability) (o : UcanOptions) : Method .nodeKey
  | deviceRequestProof (realm : Id) (procedure : PyStr) (request : DeviceRequest) (rule : Rule) :
    Method .nodeKey
  | ownershipProof (realm : Id) (procedure : PyStr) (payload : List (PyVal × PyVal)) :
    Method .nodeKey
  | connect (seeds : List Seed) (o : ConnectOptions) : Method .nodeKey
  | nodeId : Method .pool
  | ownProcedure : Method .pool
  | status : Method .pool
  | nextEvent : Method .pool
  | call (realm : Id) (procedure : PyStr) (payload : PyVal) (o : CallOptions) : Method .pool
  | callReport (realm : Id) (procedure : PyStr) (payload : PyVal) (o : CallOptions) : Method .pool
  | providers (realm : Id) (procedure : PyStr) : Method .pool
  | publish (realm : Id) (topic : PyStr) (payload : PyVal) : Method .pool
  | subscribe (realm : Id) (topic : PyStr) : Method .pool
  | publishGroup (realm : Id) (topic : PyStr) (payload : PyVal) (group : Group) : Method .pool
  | subscribeGroup (realm : Id) (topic : PyStr) (group : Group) : Method .pool
  | serve (realm : Id) (procedure : PyStr) (policy : Option Policy)
    (confidential : Option PyStr) : Method .pool
  | serveStream (realm : Id) (procedure : PyStr) (policy : Option Policy)
    (confidential : Option PyStr) : Method .pool
  | openStream (realm : Id) (procedure : PyStr) (payload : PyVal) (o : CallOptions) : Method .pool
  | shareContent (realm : Id) (name : PyStr) : Method .pool
  | unshareContent (realm mcid : Id) : Method .pool
  | getContent (realm mcid : Id) (o : ContentOptions) : Method .pool
  | findRecord (key : Id) : Method .pool
  | findRecords (key : Id) : Method .pool
  | findRecordsByType : Method .pool
  | putRecord : Method .pool
  | next : Method .subscription
  | dropped : Method .subscription
  | report : Method .stream
  | send : Method .stream
  | sendValue (value : PyVal) : Method .stream
  | closeSend : Method .stream
  | reply (payload : PyVal) : Method .stream
  | abort (code message : PyStr) : Method .stream
  | close : Method .stream
  | recv : Method .stream

section Bodies
variable (floatText : Binary64 → Numeral)

/-- An argument that is converted on the caller's thread, where `floatText` is
`float.__repr__`. -/
def arg (g : Given) : Body CValue := check ((g.arg floatText).bind Arg.pass)

/-- `Pool._call`. -/
def poolCall (realm : Id) (procedure : PyStr) (payload : PyVal) (o : CallOptions)
    (report : Bool) : Body Invocation := do
  let h ← live .pool
  let _ ← arg floatText (.id realm "realm")
  let _ ← arg floatText (.payload payload)
  let _ ← check (sequence "macula-py: proofs is a sequence of tokens, not one token" o.proofs)
  let _ ← arg floatText (callOptions o report)
  onThread (.blocking false) (.given .poolCallOpts) h [procedure]

/-- Each operation, in the order of its source. -/
def Method.body : {k : Kind} → Method k → Body Invocation
  | _,.save path => do
    let h ← live .nodeKey
    let _ ← arg floatText (.path path)
    here (.given .keySave) h
  | _,.keyNodeId => do here (.bare .keyNodeId) (← live .nodeKey)
  | _,.nodeIdHex => do here (.bare .keyNodeId) (← live .nodeKey)
  | _,.publicKey => do here (.bare .keyPublicKey) (← live .nodeKey)
  | _,.profile => do here (.bare .keyProfile) (← live .nodeKey)
  | _,.sign => do here (.given .keySign) (← live .nodeKey)
  | _,.ucan audience capabilities o => do
    let _ ← check (sequence "macula-py: prf is a list of proof ids, not one id" o.prf)
    let _ ← arg floatText (.capabilities capabilities)
    let h ← live .nodeKey
    let _ ← arg floatText (.id audience "the audience's node_id")
    let _ ← arg floatText (ucanOptions o)
    here (.given .ucanCreate) h
  | _,.deviceRequestProof realm procedure request rule => do
    let h ← live .nodeKey
    let _ ← arg floatText (.id realm "realm")
    let _ ← arg floatText (.text procedure)
    let _ ← arg floatText (.request request rule)
    here (.given .keyDeviceRequestProof) h
  | _,.ownershipProof realm procedure payload => do
    let h ← live .nodeKey
    let _ ← arg floatText (.id realm "realm")
    let _ ← arg floatText (.text procedure)
    let _ ← arg floatText (.payload (.dict payload))
    here (.given .keyOwnershipProof) h
  | _,.connect seeds o => do
    let _ ← arg floatText (.seeds seeds)
    let _ ← arg floatText (connectOptions o)
    let h ← live .nodeKey
    onThread (.blocking true) (.given .poolConnect) h []
  | _,.nodeId => do here (.bare .poolNodeId) (← live .pool)
  | _,.ownProcedure => do here (.bare .poolNodeId) (← live .pool)
  | _,.status => do here (.bare .poolStatus) (← live .pool)
  | _,.nextEvent => do onThread (.blocking false) (.given .poolEventsNext) (← live .pool) []
  | _,.call realm procedure payload o => poolCall floatText realm procedure payload o false
  | _,.callReport realm procedure payload o => poolCall floatText realm procedure payload o true
  | _,.providers realm procedure => do
    let h ← live .pool
    let _ ← arg floatText (.id realm "realm")
    onThread (.blocking false) (.given .poolProviders) h [procedure]
  | _,.publish realm topic payload => do
    let _ ← arg floatText (.payload payload)
    let h ← live .pool
    let _ ← arg floatText (.id realm "realm")
    onThread .native (.given .poolPublish) h [topic]
  | _,.subscribe realm topic => do
    let h ← live .pool
    let _ ← arg floatText (.id realm "realm")
    onThread .native (.given .poolSubscribe) h [topic]
  | _,.publishGroup realm topic payload group => do
    let h ← live .pool
    let _ ← arg floatText (.id realm "realm")
    let _ ← arg floatText (.payload payload)
    let _ ← arg floatText (groupOptions group)
    onThread (.blocking false) (.given .poolPublishGroup) h [topic]
  | _,.subscribeGroup realm topic group => do
    let h ← live .pool
    let _ ← arg floatText (.id realm "realm")
    let _ ← arg floatText (groupOptions group)
    onThread (.blocking true) (.given .poolSubscribeGroup) h [topic]
  | _,.serve realm procedure policy confidential => do
    let h ← live .pool
    let _ ← arg floatText (.id realm "realm")
    let _ ← arg floatText (serveOptions policy confidential)
    onThread .native (.given .poolServeOpts) h [procedure]
  | _,.serveStream realm procedure policy confidential => do
    let h ← live .pool
    let _ ← arg floatText (.id realm "realm")
    let _ ← arg floatText (serveOptions policy confidential)
    onThread .native (.given .poolServeStreamOpts) h [procedure]
  | _,.openStream realm procedure payload o => do
    let h ← live .pool
    let _ ← arg floatText (.id realm "realm")
    let _ ← arg floatText (.payload payload)
    let _ ← check (sequence "macula-py: proofs is a sequence of tokens, not one token" o.proofs)
    let _ ← arg floatText (callOptions o false)
    onThread (.blocking true) (.given .poolOpenStreamOpts) h [procedure]
  | _,.shareContent realm name => do
    let h ← live .pool
    let _ ← arg floatText (.id realm "realm")
    onThread (.blocking false) (.given .poolShareContent) h [name]
  | _,.unshareContent realm mcid => do
    let h ← live .pool
    let _ ← arg floatText (.id realm "realm")
    let _ ← arg floatText (.mcid mcid)
    onThread (.blocking false) (.given .poolUnshareContent) h []
  | _,.getContent realm mcid o => do
    let h ← live .pool
    let _ ← arg floatText (.id realm "realm")
    let _ ← arg floatText (.mcid mcid)
    let _ ← arg floatText (contentOptions o)
    onThread (.blocking false) (.given .poolGetContent) h []
  | _,.findRecord key => do
    let h ← live .pool
    let _ ← arg floatText (.id key "a record key")
    onThread (.blocking false) (.given .poolFindRecord) h []
  | _,.findRecords key => do
    let h ← live .pool
    let _ ← arg floatText (.id key "a record key")
    onThread (.blocking false) (.given .poolFindRecords) h []
  | _,.findRecordsByType => do
    onThread (.blocking false) (.given .poolFindRecordsByType) (← live .pool) []
  | _,.putRecord => do onThread (.blocking false) (.given .poolPutRecord) (← live .pool) []
  | _,.next => do
    onThread (.blocking false) (.given .subscriptionNext) (← live .subscription) []
  | _,.dropped => do here (.bare .subscriptionDropped) (← live .subscription)
  | _,.report => do here (.bare .streamReport) (← live .stream)
  | _,.send => do onThread .native (.given .streamSendBytes) (← live .stream) []
  | _,.sendValue value => do
    let h ← live .stream
    let _ ← arg floatText (.payload value)
    onThread .native (.given .streamSendJson) h []
  | _,.closeSend => do onThread .native (.bare .streamCloseSend) (← live .stream) []
  | _,.reply payload => do
    let h ← live .stream
    let _ ← arg floatText (.payload payload)
    onThread .native (.given .streamReply) h []
  | _,.abort code message => do
    onThread .native (.given .streamAbort) (← live .stream) [code,message]
  | _,.close => do onThread .native (.bare .streamClose) (← live .stream) []
  | _,.recv => do onThread (.blocking false) (.given .streamRecv) (← live .stream) []

end Bodies

section Rules
variable {k : Kind} {α β : Type}

/-- Without a handle the body raises the `ClosedError` of its class, or what it raises whether or
not there is one. -/
def Guarded (k : Kind) (x : Body α) : Prop :=
  x none = .error (.closed k.closedText) ∨ ∃ e, ∀ o, x o = .error (.own e)

theorem guarded_live (f : Handle → Body β) : Guarded k (live k >>= f) := Or.inl rfl

theorem guarded_check {x : Except PyError α} {f : α → Body β} (hf : ∀ y, Guarded k (f y)) :
    Guarded k (check x >>= f) := by
  cases x with
  | error e => exact Or.inr ⟨e,fun _ => rfl⟩
  | ok y => exact hf y

/-- With the handle `h`, what the body calls is no release, and is given `h`. -/
def Passes (k : Kind) (h : Handle) (x : Body Invocation) : Prop :=
  ∀ v, x (some h) = .ok v → v.handle = h ∧ v.native ≠ k.release

theorem passes_live {h : Handle} {f : Handle → Body Invocation} (hf : Passes k h (f h)) :
    Passes k h (live k >>= f) := hf

theorem passes_check {h : Handle} {x : Except PyError α} {f : α → Body Invocation}
    (hf : ∀ y, Passes k h (f y)) : Passes k h (check x >>= f) := by
  cases x with
  | error e =>
    intro v hv
    cases hv
  | ok y => exact hf y

theorem passes_pure {h : Handle} {n : Native} {c : Carrier} (hn : n ≠ k.release) :
    Passes k h (pure ⟨n,h,c⟩) := by
  intro v hv
  cases hv
  exact ⟨rfl,hn⟩

end Rules

variable {k : Kind}

/-- Every operation reads the handle before it calls. -/
theorem Method.body_guarded (m : Method k) (floatText : Binary64 → Numeral) :
    Guarded k (m.body floatText) := by
  cases m <;> simp only [body,poolCall,arg]
  all_goals repeat' (first | exact guarded_live _ | refine guarded_check (fun _ => ?_))

/-- No operation passes anything but the handle it read, or releases it. -/
theorem Method.body_passes (m : Method k) (floatText : Binary64 → Numeral) (h : Handle) :
    Passes k h (m.body floatText) := by
  cases m <;> simp only [body,poolCall,arg]
  all_goals repeat' (first
    | refine passes_live ?_ | refine passes_check (fun _ => ?_) | exact passes_pure (by decide))

end MaculaPy.Objects
