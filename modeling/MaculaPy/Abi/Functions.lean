import MaculaPy.Abi.Types

/-! # The functions of the library

`FUNCTIONS`, as far as the operations that take arguments call them: each function takes the
parameters below, then `err_out`.
-/
namespace MaculaPy.Abi
open Wire

inductive Function
  | keyGenerate
  | keyLoad
  | keyLoadOrCreate
  | keySave
  | keySign
  | verify
  | keyDeviceRequestProof
  | deviceRequestMessage
  | keyOwnershipProof
  | ownershipProofMessage
  | ucanCreate
  | ucanProofId
  | poolConnect
  | poolEventsNext
  | poolCallOpts
  | poolProviders
  | poolPublish
  | poolSubscribe
  | poolPublishGroup
  | poolSubscribeGroup
  | subscriptionNext
  | poolServeOpts
  | poolServeStreamOpts
  | pendingReply
  | pendingError
  | poolOpenStreamOpts
  | streamSendBytes
  | streamSendJson
  | streamReply
  | streamAbort
  | streamRecv
  | poolShareContent
  | poolUnshareContent
  | poolGetContent
  | poolFindRecord
  | poolFindRecords
  | poolFindRecordsByType
  | poolPutRecord
  deriving DecidableEq, Repr

/-- The parameter types in `FUNCTIONS`. -/
def Function.parameters : Function → List CType
  | .keyGenerate => [.chars,.handle]
  | .keyLoad => [.chars,.chars]
  | .keyLoadOrCreate => [.chars,.chars,.handle]
  | .keySave => [.handle,.chars]
  | .keySign => [.handle,.bytes,.size,.out]
  | .verify => [.bytes,.size,.bytes,.size,.bytes,.size,.chars]
  | .keyDeviceRequestProof => [.handle,.bytes,.chars,.chars,.int32]
  | .deviceRequestMessage => [.bytes,.size,.bytes,.chars,.int64,.bytes,.chars,.int32,.out]
  | .keyOwnershipProof => [.handle,.bytes,.chars,.chars]
  | .ownershipProofMessage => [.bytes,.bytes,.chars,.int64,.bytes,.chars,.out]
  | .ucanCreate => [.handle,.bytes,.chars,.int64,.chars]
  | .ucanProofId => [.chars]
  | .poolConnect => [.handle,.chars,.chars,.handle]
  | .poolEventsNext => [.handle,.int64,.handle,.out]
  | .poolCallOpts => [.handle,.bytes,.chars,.chars,.chars,.int64,.handle]
  | .poolProviders => [.handle,.bytes,.chars,.int64,.handle]
  | .poolPublish => [.handle,.bytes,.chars,.chars,.int64]
  | .poolSubscribe => [.handle,.bytes,.chars]
  | .poolPublishGroup => [.handle,.bytes,.chars,.chars,.chars,.int64,.int64,.handle]
  | .poolSubscribeGroup => [.handle,.bytes,.chars,.chars,.int64,.handle]
  | .subscriptionNext => [.handle,.int64,.handle,.out]
  | .poolServeOpts => [.handle,.bytes,.chars,.chars]
  | .poolServeStreamOpts => [.handle,.bytes,.chars,.int32,.chars]
  | .pendingReply => [.handle,.chars]
  | .pendingError => [.handle,.chars]
  | .poolOpenStreamOpts =>
    [.handle,.bytes,.chars,.int32,.chars,.chars,.int64,.int64,.handle]
  | .streamSendBytes => [.handle,.bytes,.size]
  | .streamSendJson => [.handle,.chars]
  | .streamReply => [.handle,.chars]
  | .streamAbort => [.handle,.chars,.chars]
  | .streamRecv => [.handle,.int64,.handle]
  | .poolShareContent => [.handle,.bytes,.bytes,.size,.chars,.int64,.handle,.out]
  | .poolUnshareContent => [.handle,.bytes,.bytes,.int64,.handle]
  | .poolGetContent => [.handle,.bytes,.bytes,.chars,.int64,.handle,.out]
  | .poolFindRecord => [.handle,.bytes,.int64,.handle]
  | .poolFindRecords => [.handle,.bytes,.int64,.handle]
  | .poolFindRecordsByType => [.handle,.int32,.int64,.handle]
  | .poolPutRecord => [.handle,.bytes,.size,.int64,.handle]

def callNames : List String := ["provider","ucan","proofs","confidential","report"]

def groupNames : List String := ["prefix","ucan","distributor"]

def serveNames : List String := ["policy","confidential"]

def contentNames : List String := ["max_bytes","max_chunks","parallel","chunk_timeout_ms"]

def ucanNames : List String := ["nbf","nnc","fct","prf"]

def connectNames : List String :=
  ["realm_trust","replication_factor","max_seeds","max_direct_links","respawn_delay_ms",
    "timeout_ms","kem_advertise"]

/-- What each parameter is for. -/
def Function.roles : Function → List Role
  | .keyGenerate => [.text,.handle]
  | .keyLoad => [.path,.text]
  | .keyLoadOrCreate => [.path,.text,.handle]
  | .keySave => [.handle,.path]
  | .keySign => [.handle,.data,.size,.out]
  | .verify => [.data,.size,.data,.size,.data,.size,.text]
  | .keyDeviceRequestProof => [.handle,.data,.text,.body,.int32]
  | .deviceRequestMessage => [.data,.size,.data,.text,.int64,.data,.body,.int32,.out]
  | .keyOwnershipProof => [.handle,.data,.text,.payload]
  | .ownershipProofMessage => [.data,.data,.text,.int64,.data,.payload,.out]
  | .ucanCreate => [.handle,.data,.list,.int64,.options true ucanNames]
  | .ucanProofId => [.text]
  | .poolConnect => [.handle,.list,.options false connectNames,.handle]
  | .poolEventsNext => [.handle,.int64,.handle,.out]
  | .poolCallOpts => [.handle,.data,.text,.payload,.options false callNames,.int64,.handle]
  | .poolProviders => [.handle,.data,.text,.int64,.handle]
  | .poolPublish => [.handle,.data,.text,.payload,.int64]
  | .poolSubscribe => [.handle,.data,.text]
  | .poolPublishGroup =>
    [.handle,.data,.text,.payload,.options false groupNames,.int64,.int64,.handle]
  | .poolSubscribeGroup => [.handle,.data,.text,.options false groupNames,.int64,.handle]
  | .subscriptionNext => [.handle,.int64,.handle,.out]
  | .poolServeOpts => [.handle,.data,.text,.options false serveNames]
  | .poolServeStreamOpts => [.handle,.data,.text,.int32,.options false serveNames]
  | .pendingReply => [.handle,.payload]
  | .pendingError => [.handle,.text]
  | .poolOpenStreamOpts =>
    [.handle,.data,.text,.int32,.payload,.options false callNames,.int64,.int64,.handle]
  | .streamSendBytes => [.handle,.data,.size]
  | .streamSendJson => [.handle,.payload]
  | .streamReply => [.handle,.payload]
  | .streamAbort => [.handle,.text,.text]
  | .streamRecv => [.handle,.int64,.handle]
  | .poolShareContent => [.handle,.data,.data,.size,.text,.int64,.handle,.out]
  | .poolUnshareContent => [.handle,.data,.data,.int64,.handle]
  | .poolGetContent => [.handle,.data,.data,.options true contentNames,.int64,.handle,.out]
  | .poolFindRecord => [.handle,.data,.int64,.handle]
  | .poolFindRecords => [.handle,.data,.int64,.handle]
  | .poolFindRecordsByType => [.handle,.int32,.int64,.handle]
  | .poolPutRecord => [.handle,.data,.size,.int64,.handle]

theorem Function.roles_ctype (f : Function) : f.roles.map Role.ctype = f.parameters := by
  cases f <;> rfl

theorem distinct_names {names : List String} (h : names.Nodup) :
    (names.map PyStr.ofString).Nodup :=
  h.map (fun _ _ => PyStr.ofString_injective)

theorem Function.roles_distinct (f : Function) : ∀ r ∈ f.roles, r.Distinct := by
  have hcall := distinct_names (show callNames.Nodup by decide)
  have hgroup := distinct_names (show groupNames.Nodup by decide)
  have hserve := distinct_names (show serveNames.Nodup by decide)
  have hcontent := distinct_names (show contentNames.Nodup by decide)
  have hucan := distinct_names (show ucanNames.Nodup by decide)
  have hconnect := distinct_names (show connectNames.Nodup by decide)
  cases f <;> simp only [roles,List.forall_mem_cons,List.not_mem_nil,false_imp_iff,implies_true,
    Role.Distinct,hcall,hgroup,hserve,hcontent,hucan,hconnect,and_true]

end MaculaPy.Abi
