import MaculaPy.Abi.Functions
import MaculaPy.Abi.Given

/-! # Operations and the calls they make

Every public operation that passes more than the handle of its object, with the native function
it calls. An operation either raises or makes its call, and the call carries every argument
whole exactly when each of them fits; calls that do are told apart by their arguments.
-/
namespace MaculaPy.Abi
open Wire

structure Group where
  topicPrefix : PyStr
  ucan : Option PyStr
  distributor : Option Id

/-- What `call`, `call_report` and `open_stream` take beside their payload. -/
structure CallOptions where
  provider : Option Id
  ucan : Option PyStr
  proofs : Texts
  confidential : Option PyStr

structure ConnectOptions where
  realmTrust : List (Id × RealmKey)
  replicationFactor : Option ℤ
  maxSeeds : Option ℤ
  maxDirectLinks : Option ℤ
  respawnDelayMs : Option ℤ
  timeoutMs : Option ℤ
  kemAdvertise : Bool

structure ContentOptions where
  maxBytes : Option ℤ
  maxChunks : Option ℤ
  parallel : Option ℤ
  chunkTimeoutMs : Option ℤ

structure UcanOptions where
  nbf : Option ℤ
  nnc : Option PyStr
  fct : Option (List (PyStr × Doc))
  prf : Texts

/-- A sequence as an option, which is left out when it is empty. -/
def Texts.option (refusal : String) : Texts → Option OptionValue
  | .many [] => none
  | ss => some (.texts ss refusal)

/-- `_call_options`. -/
def callOptions (o : CallOptions) (report : Bool) : Given :=
  .options false [("provider",o.provider.map (.id · "provider")),("ucan",o.ucan.map .text),
    ("proofs",o.proofs.option "macula-py: proofs is a sequence of tokens, not one token"),
    ("confidential",o.confidential.map .text),("report",if report then some (.int 1) else none)]

/-- `_group_options`. -/
def groupOptions (g : Group) : Given :=
  .options false [("prefix",some (.text g.topicPrefix)),("ucan",g.ucan.map .text),
    ("distributor",g.distributor.map (.id · "distributor"))]

/-- `_serve_options`. -/
def serveOptions (policy : Option Policy) (confidential : Option PyStr) : Given :=
  .options false [("policy",policy.map .policy),("confidential",confidential.map .text)]

def connectOptions (o : ConnectOptions) : Given :=
  .options false [("realm_trust",if o.realmTrust.isEmpty then none else some (.trust o.realmTrust)),
    ("replication_factor",o.replicationFactor.map .int),("max_seeds",o.maxSeeds.map .int),
    ("max_direct_links",o.maxDirectLinks.map .int),
    ("respawn_delay_ms",o.respawnDelayMs.map .int),("timeout_ms",o.timeoutMs.map .int),
    ("kem_advertise",some (.int (if o.kemAdvertise then 1 else 0)))]

def contentOptions (o : ContentOptions) : Given :=
  .options true [("max_bytes",o.maxBytes.map .int),("max_chunks",o.maxChunks.map .int),
    ("parallel",o.parallel.map .int),("chunk_timeout_ms",o.chunkTimeoutMs.map .int)]

def ucanOptions (o : UcanOptions) : Given :=
  .options true [("nbf",o.nbf.map .int),("nnc",o.nnc.map .text),("fct",o.fct.map .facts),
    ("prf",o.prf.option "macula-py: prf is a list of proof ids, not one id")]

/-- The operations that call a native function, of objects whose handles `h` are live; `c` is
the cancel token of the call. -/
inductive Operation : Function → Type
  | generate (profile : PyStr) (c : Handle) : Operation .keyGenerate
  | load (path profile : PyStr) : Operation .keyLoad
  | loadOrCreate (path profile : PyStr) (c : Handle) : Operation .keyLoadOrCreate
  | save (h : Handle) (path : PyStr) : Operation .keySave
  | sign (h : Handle) (data : Buffer) : Operation .keySign
  | verify (data signature publicKey : Buffer) (profile : PyStr) : Operation .verify
  | deviceRequestProof (h : Handle) (realm : Id) (procedure : PyStr) (request : DeviceRequest)
    (rule : Rule) : Operation .keyDeviceRequestProof
  | deviceRequestMessage (publicKey : Buffer) (realm : Id) (procedure : PyStr) (timestampMs : ℤ)
    (nonce : List UInt8) (request : DeviceRequest) (rule : Rule) : Operation .deviceRequestMessage
  | ownershipProof (h : Handle) (realm : Id) (procedure : PyStr) (payload : List (PyVal × PyVal)) :
    Operation .keyOwnershipProof
  | ownershipProofMessage (identity realm : Id) (procedure : PyStr) (timestampMs : ℤ)
    (nonce : List UInt8) (fields : List (PyVal × PyVal)) : Operation .ownershipProofMessage
  | ucan (h : Handle) (audience : Id) (capabilities : List Capability) (exp : ℤ)
    (o : UcanOptions) : Operation .ucanCreate
  | proofId (token : PyStr) : Operation .ucanProofId
  | connect (key : Handle) (seeds : List Seed) (o : ConnectOptions) (c : Handle) :
    Operation .poolConnect
  | nextEvent (h : Handle) (timeoutMs : ℤ) (c : Handle) : Operation .poolEventsNext
  | call (h : Handle) (realm : Id) (procedure : PyStr) (payload : PyVal) (o : CallOptions)
    (report : Bool) (timeoutMs : ℤ) (c : Handle) : Operation .poolCallOpts
  | providers (h : Handle) (realm : Id) (procedure : PyStr) (timeoutMs : ℤ) (c : Handle) :
    Operation .poolProviders
  | publish (h : Handle) (realm : Id) (topic : PyStr) (payload : PyVal) (ttlMs : ℤ) :
    Operation .poolPublish
  | subscribe (h : Handle) (realm : Id) (topic : PyStr) : Operation .poolSubscribe
  | publishGroup (h : Handle) (realm : Id) (topic : PyStr) (payload : PyVal) (group : Group)
    (ttlMs timeoutMs : ℤ) (c : Handle) : Operation .poolPublishGroup
  | subscribeGroup (h : Handle) (realm : Id) (topic : PyStr) (group : Group) (timeoutMs : ℤ)
    (c : Handle) : Operation .poolSubscribeGroup
  | subscriptionNext (h : Handle) (timeoutMs : ℤ) (c : Handle) : Operation .subscriptionNext
  | serve (h : Handle) (realm : Id) (procedure : PyStr) (policy : Option Policy)
    (confidential : Option PyStr) : Operation .poolServeOpts
  | serveStream (h : Handle) (realm : Id) (procedure : PyStr) (mode : ℤ) (policy : Option Policy)
    (confidential : Option PyStr) : Operation .poolServeStreamOpts
  | answerResult (pending : Handle) (result : PyVal) : Operation .pendingReply
  | answerError (pending : Handle) (detail : PyStr) : Operation .pendingError
  | openStream (h : Handle) (realm : Id) (procedure : PyStr) (mode : ℤ) (payload : PyVal)
    (o : CallOptions) (deadlineMs timeoutMs : ℤ) (c : Handle) : Operation .poolOpenStreamOpts
  | send (h : Handle) (chunk : Buffer) : Operation .streamSendBytes
  | sendValue (h : Handle) (value : PyVal) : Operation .streamSendJson
  | reply (h : Handle) (payload : PyVal) : Operation .streamReply
  | abort (h : Handle) (code message : PyStr) : Operation .streamAbort
  | recv (h : Handle) (timeoutMs : ℤ) (c : Handle) : Operation .streamRecv
  | shareContent (h : Handle) (realm : Id) (data : Buffer) (name : PyStr) (timeoutMs : ℤ)
    (c : Handle) : Operation .poolShareContent
  | unshareContent (h : Handle) (realm mcid : Id) (timeoutMs : ℤ) (c : Handle) :
    Operation .poolUnshareContent
  | getContent (h : Handle) (realm mcid : Id) (o : ContentOptions) (timeoutMs : ℤ) (c : Handle) :
    Operation .poolGetContent
  | findRecord (h : Handle) (key : Id) (timeoutMs : ℤ) (c : Handle) : Operation .poolFindRecord
  | findRecords (h : Handle) (key : Id) (timeoutMs : ℤ) (c : Handle) : Operation .poolFindRecords
  | findRecordsByType (h : Handle) (recordType timeoutMs : ℤ) (c : Handle) :
    Operation .poolFindRecordsByType
  | putRecord (h : Handle) (wire : Buffer) (timeoutMs : ℤ) (c : Handle) : Operation .poolPutRecord

/-- The arguments that `invoke` or `call` is handed, in the order of the parameters. -/
def Operation.given {f : Function} : Operation f → List Given
  | .generate profile c => [.text profile,.handle c]
  | .load path profile => [.path path,.text profile]
  | .loadOrCreate path profile c => [.path path,.text profile,.handle c]
  | .save h path => [.handle h,.path path]
  | .sign h data => [.handle h,.data data,.size data,.out]
  | .verify data signature publicKey profile =>
    [.data data,.size data,.data signature,.size signature,.data publicKey,.size publicKey,
      .text profile]
  | .deviceRequestProof h realm procedure request rule =>
    [.handle h,.id realm "realm",.text procedure,.request request rule,.int rule.code]
  | .deviceRequestMessage publicKey realm procedure timestampMs nonce request rule =>
    [.data publicKey,.size publicKey,.id realm "realm",.text procedure,.int timestampMs,
      .nonce "a device request" nonce,.request request rule,.int rule.code,.out]
  | .ownershipProof h realm procedure payload =>
    [.handle h,.id realm "realm",.text procedure,.payload (.dict payload)]
  | .ownershipProofMessage identity realm procedure timestampMs nonce fields =>
    [.id identity "identity",.id realm "realm",.text procedure,.int timestampMs,
      .nonce "an ownership proof" nonce,.payload (.dict fields),.out]
  | .ucan h audience capabilities exp o =>
    [.handle h,.id audience "the audience's node_id",.capabilities capabilities,.int exp,
      ucanOptions o]
  | .proofId token => [.text token]
  | .connect key seeds o c => [.handle key,.seeds seeds,connectOptions o,.handle c]
  | .nextEvent h timeoutMs c => [.handle h,.int timeoutMs,.handle c,.out]
  | .call h realm procedure payload o report timeoutMs c =>
    [.handle h,.id realm "realm",.text procedure,.payload payload,callOptions o report,
      .int timeoutMs,.handle c]
  | .providers h realm procedure timeoutMs c =>
    [.handle h,.id realm "realm",.text procedure,.int timeoutMs,.handle c]
  | .publish h realm topic payload ttlMs =>
    [.handle h,.id realm "realm",.text topic,.payload payload,.int ttlMs]
  | .subscribe h realm topic => [.handle h,.id realm "realm",.text topic]
  | .publishGroup h realm topic payload group ttlMs timeoutMs c =>
    [.handle h,.id realm "realm",.text topic,.payload payload,groupOptions group,.int ttlMs,
      .int timeoutMs,.handle c]
  | .subscribeGroup h realm topic group timeoutMs c =>
    [.handle h,.id realm "realm",.text topic,groupOptions group,.int timeoutMs,.handle c]
  | .subscriptionNext h timeoutMs c => [.handle h,.int timeoutMs,.handle c,.out]
  | .serve h realm procedure policy confidential =>
    [.handle h,.id realm "realm",.text procedure,serveOptions policy confidential]
  | .serveStream h realm procedure mode policy confidential =>
    [.handle h,.id realm "realm",.text procedure,.int mode,serveOptions policy confidential]
  | .answerResult pending result => [.handle pending,.payload result]
  | .answerError pending detail => [.handle pending,.text detail]
  | .openStream h realm procedure mode payload o deadlineMs timeoutMs c =>
    [.handle h,.id realm "realm",.text procedure,.int mode,.payload payload,callOptions o false,
      .int deadlineMs,.int timeoutMs,.handle c]
  | .send h chunk => [.handle h,.data chunk,.size chunk]
  | .sendValue h value => [.handle h,.payload value]
  | .reply h payload => [.handle h,.payload payload]
  | .abort h code message => [.handle h,.text code,.text message]
  | .recv h timeoutMs c => [.handle h,.int timeoutMs,.handle c]
  | .shareContent h realm data name timeoutMs c =>
    [.handle h,.id realm "realm",.data data,.size data,.text name,.int timeoutMs,.handle c,.out]
  | .unshareContent h realm mcid timeoutMs c =>
    [.handle h,.id realm "realm",.mcid mcid,.int timeoutMs,.handle c]
  | .getContent h realm mcid o timeoutMs c =>
    [.handle h,.id realm "realm",.mcid mcid,contentOptions o,.int timeoutMs,.handle c,.out]
  | .findRecord h key timeoutMs c =>
    [.handle h,.id key "a record key",.int timeoutMs,.handle c]
  | .findRecords h key timeoutMs c =>
    [.handle h,.id key "a record key",.int timeoutMs,.handle c]
  | .findRecordsByType h recordType timeoutMs c =>
    [.handle h,.int recordType,.int timeoutMs,.handle c]
  | .putRecord h wire timeoutMs c =>
    [.handle h,.data wire,.size wire,.int timeoutMs,.handle c]

/-- Every operation passes what its function takes. -/
theorem Operation.takes {f : Function} (op : Operation f) :
    List.Forall₂ Role.Takes f.roles op.given := by
  cases op <;> simp [Function.roles,given,Role.Takes,callOptions,groupOptions,serveOptions,
    connectOptions,contentOptions,ucanOptions,callNames,groupNames,serveNames,connectNames,
    contentNames,ucanNames]

section Calls
variable (floatText : Binary64 → Numeral) {f : Function}

/-- The call an operation makes, or the exception Python raises before it. The arguments are
converted in the order of the parameters, while the source converts some of them earlier. -/
def Operation.invoke (op : Operation f) : Except PyError (List CValue) :=
  (each (Given.arg floatText) op.given).bind passAll

/-- What the native function has of a call. -/
def received (f : Function) (vs : List CValue) : List CValue := receiveAll f.parameters vs

/-- The native function has all of every argument. -/
def Operation.Whole (op : Operation f) (vs : List CValue) : Prop :=
  List.Forall₂ (Given.Reaches floatText) op.given (received f vs)

def Operation.Fits (op : Operation f) : Prop := List.Forall₂ Given.Fits f.parameters op.given

def Operation.Same (op op' : Operation f) : Prop :=
  List.Forall₂ (Given.Same floatText) op.given op'.given

end Calls

section Whole
variable {floatText : Binary64 → Numeral} {f : Function}

theorem Operation.invoke_eq_ok {op : Operation f} {vs : List CValue}
    (h : op.invoke floatText = .ok vs) : ∃ as,
      List.Forall₂ (fun g a => g.arg floatText = .ok a) op.given as ∧ passAll as = .ok vs := by
  obtain ⟨as,has,hv⟩ := bind_eq_ok.mp h
  exact ⟨as,each_eq_ok has,hv⟩

theorem Operation.whole_iff {op : Operation f} {vs : List CValue}
    (h : op.invoke floatText = .ok vs) : op.Whole floatText vs ↔ op.Fits := by
  obtain ⟨as,ha,hv⟩ := Operation.invoke_eq_ok h
  have hiff := reaches_all_iff op.takes ha hv
  rwa [f.roles_ctype] at hiff

/-- A call that fits is read as it is passed. -/
theorem Operation.received_eq {op : Operation f} {vs : List CValue} {as : List Arg}
    (ha : List.Forall₂ (fun g a => g.arg floatText = .ok a) op.given as)
    (hv : passAll as = .ok vs) (hf : op.Fits) : received f vs = vs := by
  unfold Operation.Fits at hf
  rw [← f.roles_ctype] at hf
  have hr := (reachesAll_iff (plays_all op.takes ha) hv).mpr (fits_all ha hf)
  rw [received,← f.roles_ctype]
  exact eq_of_reachesAll hv hr

theorem Operation.same_of_received {op op' : Operation f} {vs vs' : List CValue}
    (h : op.invoke floatText = .ok vs) (h' : op'.invoke floatText = .ok vs') (hf : op.Fits)
    (hf' : op'.Fits) (he : received f vs = received f vs') : op.Same floatText op' := by
  obtain ⟨as,ha,hv⟩ := Operation.invoke_eq_ok h
  obtain ⟨as',ha',hv'⟩ := Operation.invoke_eq_ok h'
  rw [Operation.received_eq ha hv hf,Operation.received_eq ha' hv' hf'] at he
  subst he
  unfold Operation.Fits at hf hf'
  rw [← f.roles_ctype] at hf hf'
  have hsame : List.Forall₂ Arg.Same as as' :=
    sameAll f.roles_distinct (plays_all op.takes ha) (plays_all op'.takes ha')
      (fits_all ha hf) (fits_all ha' hf') hv hv'
  exact same_all ha ha' hsame hf hf'

/-- Where an operation makes its call, the native function has all of every argument exactly
when each fits, and two calls of one function that fit are the same only for the same
arguments. -/
theorem Operation.crosses_iff {op : Operation f} {vs : List CValue}
    (h : op.invoke floatText = .ok vs) : (op.Whole floatText vs ↔ op.Fits) ∧
      ∀ (op' : Operation f) (vs' : List CValue), op'.invoke floatText = .ok vs' → op.Fits →
        op'.Fits → received f vs = received f vs' → op.Same floatText op' :=
  ⟨Operation.whole_iff h,fun _ _ h' hf hf' he => Operation.same_of_received h h' hf hf' he⟩

end Whole

section Runs

/-- No argument below holds a float. -/
def noFloats (_ : Binary64) : Numeral := .ofInt 0

def realm : Id := .bytes (List.replicate 32 7)

def subscribeTo (topic : List ℕ) : Operation .poolSubscribe := .subscribe 1 realm (.ofCodes topic)

def recordsOf (recordType : ℤ) : Operation .poolFindRecordsByType :=
  .findRecordsByType 1 recordType 5000 2

theorem crosses_iff_subscribe : ∃ vs, (subscribeTo [97]).invoke noFloats = .ok vs ∧
    (subscribeTo [97]).Fits ∧ (subscribeTo [97]).Whole noFloats vs := by
  obtain ⟨vs,hvs⟩ : ∃ vs, (subscribeTo [97]).invoke noFloats = .ok vs := ⟨_,rfl⟩
  have hfits : (subscribeTo [97]).Fits := by
    simp only [Operation.Fits,Function.parameters,Operation.given,subscribeTo,
      List.forall₂_cons,Given.Fits,NoNul,true_and,List.Forall₂.nil,and_true]
    decide
  exact ⟨vs,hvs,hfits,(Operation.crosses_iff hvs).1.mpr hfits⟩

/-- A topic with a NUL subscribes to another topic, and a record type beyond 32 bits asks for
another type. -/
theorem not_crosses_nul : (∃ vs vs', (subscribeTo [97,0,98]).invoke noFloats = .ok vs ∧
      (subscribeTo [97]).invoke noFloats = .ok vs' ∧
      received .poolSubscribe vs = received .poolSubscribe vs' ∧
      ¬ (subscribeTo [97,0,98]).Whole noFloats vs ∧
      ¬ (subscribeTo [97,0,98]).Same noFloats (subscribeTo [97])) ∧
    ∃ vs vs', (recordsOf (2 ^ 32 + 6)).invoke noFloats = .ok vs ∧
      (recordsOf 6).invoke noFloats = .ok vs' ∧
      received .poolFindRecordsByType vs = received .poolFindRecordsByType vs' ∧
      ¬ (recordsOf (2 ^ 32 + 6)).Whole noFloats vs ∧
      ¬ (recordsOf (2 ^ 32 + 6)).Same noFloats (recordsOf 6) := by
  refine ⟨⟨_,_,rfl,rfl,rfl,?_,?_⟩,⟨_,_,rfl,rfl,rfl,?_,?_⟩⟩
  · rw [Operation.whole_iff rfl]
    simp only [Operation.Fits,Function.parameters,Operation.given,subscribeTo,
      List.forall₂_cons,Given.Fits,NoNul]
    exact fun h => absurd h.2.2.1 (by decide)
  · simp only [Operation.Same,Operation.given,subscribeTo,List.forall₂_cons,Given.Same]
    exact fun h => absurd h.2.2.1 (by decide)
  · rw [Operation.whole_iff rfl]
    simp [Operation.Fits,Function.parameters,Operation.given,recordsOf,Given.Fits,Int32]
  · simp [Operation.Same,Operation.given,recordsOf,Given.Same]

end Runs

end MaculaPy.Abi
