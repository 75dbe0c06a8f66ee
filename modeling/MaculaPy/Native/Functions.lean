import Mathlib.Data.List.Basic

/-! # The table of the library's functions

`FUNCTIONS` whole, and every place where the binding calls one of them through `invoke`: the
operation, the function, and what is made of what it returns.
-/
namespace MaculaPy.Native

/-- The types of `_C_TYPES`. -/
inductive CType
  | void
  | int32
  | int64
  | uint64
  | size
  | handle
  | chars
  | bytes
  | constChars
  | constBytes
  | sizeOut
  | int32Out
  | handleOut
  | charsOut
  deriving DecidableEq, Repr

/-- `FUNCTIONS`. -/
def functions : List (String × CType × List CType) :=
  [("macula_abi_version",.int32,[]),
    ("macula_library_version",.constChars,[]),
    ("macula_wire_version",.constChars,[]),
    ("macula_free_string",.void,[.chars]),
    ("macula_free_bytes",.void,[.bytes]),
    ("macula_cancel_new",.handle,[]),
    ("macula_cancel",.void,[.handle]),
    ("macula_cancel_free",.void,[.handle]),
    ("macula_key_generate",.handle,[.constChars,.handle,.charsOut]),
    ("macula_key_load",.handle,[.constChars,.constChars,.charsOut]),
    ("macula_key_load_or_create",.handle,[.constChars,.constChars,.handle,.charsOut]),
    ("macula_key_save",.void,[.handle,.constChars,.charsOut]),
    ("macula_key_node_id",.void,[.handle,.bytes,.charsOut]),
    ("macula_key_public_key",.bytes,[.handle,.sizeOut,.charsOut]),
    ("macula_key_profile",.chars,[.handle,.charsOut]),
    ("macula_key_sign",.bytes,[.handle,.constBytes,.size,.sizeOut,.charsOut]),
    ("macula_verify",.int32,
      [.constBytes,.size,.constBytes,.size,.constBytes,.size,.constChars,.charsOut]),
    ("macula_key_free",.void,[.handle]),
    ("macula_key_device_request_proof",.chars,
      [.handle,.constBytes,.constChars,.constChars,.int32,.charsOut]),
    ("macula_device_request_message",.bytes,
      [.constBytes,.size,.constBytes,.constChars,.int64,.constBytes,.constChars,.int32,.sizeOut,
        .charsOut]),
    ("macula_key_ownership_proof",.chars,[.handle,.constBytes,.constChars,.constChars,.charsOut]),
    ("macula_ownership_proof_message",.bytes,
      [.constBytes,.constBytes,.constChars,.int64,.constBytes,.constChars,.sizeOut,.charsOut]),
    ("macula_ucan_create",.chars,[.handle,.constBytes,.constChars,.int64,.constChars,.charsOut]),
    ("macula_ucan_proof_id",.chars,[.constChars,.charsOut]),
    ("macula_signed_object_verify",.chars,[.constChars,.constBytes,.size,.constChars,.charsOut]),
    ("macula_pool_connect",.handle,[.handle,.constChars,.constChars,.handle,.charsOut]),
    ("macula_pool_close",.void,[.handle]),
    ("macula_pool_node_id",.void,[.handle,.bytes,.charsOut]),
    ("macula_pool_status",.chars,[.handle,.charsOut]),
    ("macula_pool_events_next",.chars,[.handle,.int64,.handle,.int32Out,.charsOut]),
    ("macula_pool_call",.chars,
      [.handle,.constBytes,.constChars,.constChars,.constBytes,.int64,.handle,.charsOut]),
    ("macula_pool_call_with",.chars,
      [.handle,.constBytes,.constChars,.constChars,.constBytes,.constChars,.constChars,.int64,
        .handle,.charsOut]),
    ("macula_pool_call_opts",.chars,
      [.handle,.constBytes,.constChars,.constChars,.constChars,.int64,.handle,.charsOut]),
    ("macula_pool_providers",.chars,[.handle,.constBytes,.constChars,.int64,.handle,.charsOut]),
    ("macula_pool_publish",.void,[.handle,.constBytes,.constChars,.constChars,.int64,.charsOut]),
    ("macula_pool_subscribe",.handle,[.handle,.constBytes,.constChars,.charsOut]),
    ("macula_pool_publish_group",.void,
      [.handle,.constBytes,.constChars,.constChars,.constChars,.int64,.int64,.handle,.charsOut]),
    ("macula_pool_subscribe_group",.handle,
      [.handle,.constBytes,.constChars,.constChars,.int64,.handle,.charsOut]),
    ("macula_subscription_next",.chars,[.handle,.int64,.handle,.int32Out,.charsOut]),
    ("macula_subscription_dropped",.uint64,[.handle,.charsOut]),
    ("macula_subscription_stop",.void,[.handle]),
    ("macula_pool_serve",.handle,[.handle,.constBytes,.constChars,.charsOut]),
    ("macula_pool_serve_stream",.handle,[.handle,.constBytes,.constChars,.int32,.charsOut]),
    ("macula_pool_serve_gated",.handle,[.handle,.constBytes,.constChars,.constChars,.charsOut]),
    ("macula_pool_serve_stream_gated",.handle,
      [.handle,.constBytes,.constChars,.int32,.constChars,.charsOut]),
    ("macula_pool_serve_opts",.handle,[.handle,.constBytes,.constChars,.constChars,.charsOut]),
    ("macula_pool_serve_stream_opts",.handle,
      [.handle,.constBytes,.constChars,.int32,.constChars,.charsOut]),
    ("macula_served_next",.chars,[.handle,.int64,.handle,.handleOut,.int32Out,.charsOut]),
    ("macula_pending_reply",.void,[.handle,.constChars,.charsOut]),
    ("macula_pending_error",.void,[.handle,.constChars,.charsOut]),
    ("macula_served_stop",.void,[.handle,.charsOut]),
    ("macula_pool_open_stream",.handle,
      [.handle,.constBytes,.constChars,.int32,.constChars,.constBytes,.int64,.int64,.handle,
        .charsOut]),
    ("macula_pool_open_stream_opts",.handle,
      [.handle,.constBytes,.constChars,.int32,.constChars,.constChars,.int64,.int64,.handle,
        .charsOut]),
    ("macula_pool_open_stream_with",.handle,
      [.handle,.constBytes,.constChars,.int32,.constChars,.constBytes,.constChars,.constChars,
        .int64,.int64,.handle,.charsOut]),
    ("macula_stream_request",.chars,[.handle,.charsOut]),
    ("macula_stream_report",.chars,[.handle,.charsOut]),
    ("macula_stream_send_bytes",.void,[.handle,.constBytes,.size,.charsOut]),
    ("macula_stream_send_json",.void,[.handle,.constChars,.charsOut]),
    ("macula_stream_close_send",.void,[.handle,.charsOut]),
    ("macula_stream_reply",.void,[.handle,.constChars,.charsOut]),
    ("macula_stream_abort",.void,[.handle,.constChars,.constChars,.charsOut]),
    ("macula_stream_close",.void,[.handle,.charsOut]),
    ("macula_stream_recv",.chars,[.handle,.int64,.handle,.charsOut]),
    ("macula_stream_free",.void,[.handle]),
    ("macula_pool_share_content",.void,
      [.handle,.constBytes,.constBytes,.size,.constChars,.int64,.handle,.bytes,.charsOut]),
    ("macula_pool_unshare_content",.void,
      [.handle,.constBytes,.constBytes,.int64,.handle,.charsOut]),
    ("macula_pool_get_content",.bytes,
      [.handle,.constBytes,.constBytes,.constChars,.int64,.handle,.sizeOut,.charsOut]),
    ("macula_pool_find_record",.chars,[.handle,.constBytes,.int64,.handle,.charsOut]),
    ("macula_pool_find_records",.chars,[.handle,.constBytes,.int64,.handle,.charsOut]),
    ("macula_pool_find_records_by_type",.chars,[.handle,.int32,.int64,.handle,.charsOut]),
    ("macula_pool_put_record",.void,[.handle,.constBytes,.size,.int64,.handle,.charsOut])]

def signature? (name : String) : Option (CType × List CType) := functions.lookup name

/-- How the library frees what it lent: by `macula_free_string` or `macula_free_bytes`. -/
inductive Kind
  | string
  | bytes
  deriving DecidableEq, Repr

/-- A function that returns such a pointer lends memory. -/
def CType.lends : CType → Option Kind
  | .chars => some .string
  | .bytes => some .bytes
  | _ => none

/-- What is made of a result: it is passed on, or given to `take_string` or `take_bytes`. -/
inductive Taking
  | plain
  | string
  | bytes
  deriving DecidableEq, Repr

/-- What `take_string` and `take_bytes` free. -/
def Taking.frees : Taking → Option Kind
  | .plain => none
  | .string => some .string
  | .bytes => some .bytes

/-- A place where the binding calls `invoke`. -/
structure Site where
  operation : String
  function : String
  taking : Taking
  deriving DecidableEq, Repr

def sites : List Site :=
  [⟨"NodeKey.generate","macula_key_generate",.plain⟩,
    ⟨"NodeKey.load","macula_key_load",.plain⟩,
    ⟨"NodeKey.load_or_create","macula_key_load_or_create",.plain⟩,
    ⟨"NodeKey.save","macula_key_save",.plain⟩,
    ⟨"NodeKey.node_id","macula_key_node_id",.plain⟩,
    ⟨"NodeKey.public_key","macula_key_public_key",.bytes⟩,
    ⟨"NodeKey.profile","macula_key_profile",.string⟩,
    ⟨"NodeKey.sign","macula_key_sign",.bytes⟩,
    ⟨"NodeKey.verify","macula_verify",.plain⟩,
    ⟨"NodeKey.ucan","macula_ucan_create",.string⟩,
    ⟨"NodeKey.device_request_proof","macula_key_device_request_proof",.string⟩,
    ⟨"NodeKey.ownership_proof","macula_key_ownership_proof",.string⟩,
    ⟨"device_request_message","macula_device_request_message",.bytes⟩,
    ⟨"ownership_proof_message","macula_ownership_proof_message",.bytes⟩,
    ⟨"proof_id","macula_ucan_proof_id",.string⟩,
    ⟨"Pool.connect","macula_pool_connect",.plain⟩,
    ⟨"Pool.node_id","macula_pool_node_id",.plain⟩,
    ⟨"Pool.status","macula_pool_status",.string⟩,
    ⟨"Pool.next_event","macula_pool_events_next",.string⟩,
    ⟨"Pool._call","macula_pool_call_opts",.string⟩,
    ⟨"Pool.providers","macula_pool_providers",.string⟩,
    ⟨"Pool.publish","macula_pool_publish",.plain⟩,
    ⟨"Pool.subscribe","macula_pool_subscribe",.plain⟩,
    ⟨"Pool.publish_group","macula_pool_publish_group",.plain⟩,
    ⟨"Pool.subscribe_group","macula_pool_subscribe_group",.plain⟩,
    ⟨"Pool.serve","macula_pool_serve_opts",.plain⟩,
    ⟨"Pool.serve.release","macula_pending_error",.plain⟩,
    ⟨"Pool.serve_stream","macula_pool_serve_stream_opts",.plain⟩,
    ⟨"Pool.open_stream","macula_pool_open_stream_opts",.plain⟩,
    ⟨"Pool.share_content","macula_pool_share_content",.plain⟩,
    ⟨"Pool.unshare_content","macula_pool_unshare_content",.plain⟩,
    ⟨"Pool.get_content","macula_pool_get_content",.bytes⟩,
    ⟨"Pool.find_record","macula_pool_find_record",.string⟩,
    ⟨"Pool.find_records","macula_pool_find_records",.string⟩,
    ⟨"Pool.find_records_by_type","macula_pool_find_records_by_type",.string⟩,
    ⟨"Pool.put_record","macula_pool_put_record",.plain⟩,
    ⟨"Subscription.next","macula_subscription_next",.string⟩,
    ⟨"Subscription.dropped","macula_subscription_dropped",.plain⟩,
    ⟨"Served._serve","macula_served_next",.string⟩,
    ⟨"Served.stop","macula_served_stop",.plain⟩,
    ⟨"_answer_call","macula_pending_reply",.plain⟩,
    ⟨"_answer_call","macula_pending_error",.plain⟩,
    ⟨"Stream.report","macula_stream_report",.string⟩,
    ⟨"Stream.send","macula_stream_send_bytes",.plain⟩,
    ⟨"Stream.send_value","macula_stream_send_json",.plain⟩,
    ⟨"Stream.close_send","macula_stream_close_send",.plain⟩,
    ⟨"Stream.reply","macula_stream_reply",.plain⟩,
    ⟨"Stream.abort","macula_stream_abort",.plain⟩,
    ⟨"Stream.close","macula_stream_close",.plain⟩,
    ⟨"Stream.recv","macula_stream_recv",.string⟩]

/-- What the function of a site lends with its result. -/
def Site.lends (s : Site) : Option Kind := (signature? s.function).bind fun g => g.1.lends

/-- Each site's function is in the table and takes `err_out` last, and what it lends is what
is freed. -/
theorem sites_match : ∀ s ∈ sites, s.lends = s.taking.frees ∧
    ((signature? s.function).bind fun g => g.2.getLast?) = some .charsOut := by
  decide +kernel

end MaculaPy.Native
