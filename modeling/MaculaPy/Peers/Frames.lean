import MaculaPy.Peers.Call
import MaculaPy.Streams.Stream

/-! # Frames of a stream

What the operations of a stream send, and what `recv` at the other end makes of it. The native
layers and the mesh between the two hand on what a text denotes.
-/
namespace MaculaPy.Peers
open Wire Streams

/-- What an operation sends, with its payload as the program, the native layer or JSON has it. -/
inductive Sent (P : Type)
  | chunk (bs : List UInt8)
  | value (p : P)
  | closeSend
  | reply (p : P)
  | abort (code message : PyStr)
  | close

namespace Sent
variable {P : Type}

def op : Sent P → Op
  | .chunk _ => .send
  | .value _ => .sendValue
  | .closeSend => .closeSend
  | .reply _ => .reply
  | .abort code message => .abort code message
  | .close => .close

/-- The payload can be encoded and comes back as payloads do. -/
def Fair : Sent PyVal → Prop
  | .value v => v.Payload ∧ v.NoTag
  | .reply v => v.Payload ∧ v.NoTag
  | _ => True

/-- What the native function is given; `encode_payload` may refuse the payload. -/
def wired (floatText : Binary64 → Numeral) : Sent PyVal → Except PyError (Sent PyStr)
  | .chunk bs => .ok (.chunk bs)
  | .value v => (encodeText floatText v).map .value
  | .closeSend => .ok .closeSend
  | .reply v => (encodeText floatText v).map .reply
  | .abort code message => .ok (.abort code message)
  | .close => .ok .close

/-- What the native function is given denotes the frame, in texts that UTF-8 can carry. -/
inductive Denotes (num : Numbers) : Sent PyStr → Sent Json → Prop
  | chunk (bs : List UInt8) : Denotes num (.chunk bs) (.chunk bs)
  | value {s : PyStr} {j : Json} (hs : s.scalar = true) (hj : j.Payload)
    (hl : loadsText num s = some j) : Denotes num (.value s) (.value j)
  | closeSend : Denotes num .closeSend .closeSend
  | reply {s : PyStr} {j : Json} (hs : s.scalar = true) (hj : j.Payload)
    (hl : loadsText num s = some j) : Denotes num (.reply s) (.reply j)
  | abort {code message : PyStr} (hc : code.scalar = true) (hm : message.scalar = true) :
    Denotes num (.abort code message) (.abort code message)
  | close : Denotes num .close .close

end Sent

/-- The texts that frames come with beside what was sent. -/
structure Labels where
  raw : PyStr
  encoded : PyStr
  role : PyStr

def bytesJson (bs : List UInt8) : Json := .obj [(bytesKey,.str (b64encode bs))]

/-- The members of a frame, as `macula_stream_recv` gives them. -/
def Labels.members (t : Labels) : Sent Json → List (PyStr × Json)
  | .chunk bs => [(.ofString "kind",.str (.ofString "data")),(.ofString "encoding",.str t.raw),
      (.ofString "body",bytesJson bs)]
  | .value j => [(.ofString "kind",.str (.ofString "data")),(.ofString "encoding",.str t.encoded),
      (.ofString "body",j)]
  | .closeSend => [(.ofString "kind",.str (.ofString "end")),(.ofString "role",.str t.role)]
  | .reply j => [(.ofString "kind",.str (.ofString "reply")),(.ofString "payload",j)]
  | .abort code message => [(.ofString "kind",.str (.ofString "error")),
      (.ofString "code",.str code),(.ofString "message",.str message),(.ofString "relay",.int 0)]
  | .close => [(.ofString "kind",.str (.ofString "eof"))]

/-- What lies between the ends of a stream: for what an operation gave the native layer at one
end, the text that `macula_stream_recv` gives at the other. -/
structure StreamMesh (num : Numbers) where
  labels : Labels
  text : Sent PyStr → PyStr
  carries : ∀ x y, Sent.Denotes num x y → loadsText num (text x) = some (.obj (labels.members y))

/-- What `recv` raises past its wait: the text is no JSON, its bytes are no base64, or the frame is
an error. -/
inductive RecvError
  | unread
  | refused (e : PyError)
  | frame (e : FrameError)

/-- `recv` past its wait. -/
def recvText (num : Numbers) (repr : PyVal → PyStr) (s : PyStr) : Except RecvError StreamFrame :=
  match decodeText num s with
  | none => .error .unread
  | some (.error e) => .error (.refused e)
  | some (.ok v) => (frame repr v).mapError .frame

/-- What the other end is to receive. -/
def Labels.received (t : Labels) : Sent PyVal → Except RecvError StreamFrame
  | .chunk bs => .ok (.data (.bytes .bytes bs) (.str t.raw))
  | .value v => .ok (.data v.normal (.str t.encoded))
  | .closeSend => .ok (.ended (.str t.role))
  | .reply v => .ok (.reply v.normal)
  | .abort code message => .error (.frame (.stream code message false))
  | .close => .ok .eof

section Receive
variable {num : Numbers} {floatText : Binary64 → Numeral} {repr : PyVal → PyStr}

theorem textOr_str (s : PyStr) : textOr repr (.str s) = s := by
  cases s <;> rfl

theorem recvText_members {s : PyStr} {ms : List (PyStr × Json)} {d : List (PyStr × PyVal)}
    (hl : loadsText num s = some (.obj ms)) (hd : decodeMap ms = .ok d)
    (hn : (ms.map Prod.fst).Nodup) (hk : ms.map Prod.fst ≠ [bytesKey]) :
    recvText num repr s = (frame repr (strDict d)).mapError .frame := by
  simp only [recvText,decodeText_members hl hd hn hk]

/-- A chunk or a value is received as what its body decodes to. -/
theorem recvText_data {s : PyStr} {encoding : PyStr} {j : Json} {v : PyVal}
    (hl : loadsText num s = some (.obj [(.ofString "kind",.str (.ofString "data")),
      (.ofString "encoding",.str encoding),(.ofString "body",j)])) (hd : decodePayload j = .ok v) :
    recvText num repr s = .ok (.data v (.str encoding)) := by
  rw [recvText_members (d := [(.ofString "kind",.str (.ofString "data")),
    (.ofString "encoding",.str encoding),(.ofString "body",v)]) hl]
  · rfl
  · simp [decodeMap,decodePayload,hd,Except.bind,Except.map]
  · change [PyStr.ofString "kind",.ofString "encoding",.ofString "body"].Nodup
    decide
  · simp

theorem recvText_reply {s : PyStr} {j : Json} {v : PyVal}
    (hl : loadsText num s = some (.obj [(.ofString "kind",.str (.ofString "reply")),
      (.ofString "payload",j)])) (hd : decodePayload j = .ok v) :
    recvText num repr s = .ok (.reply v) := by
  rw [recvText_members (d := [(.ofString "kind",.str (.ofString "reply")),
    (.ofString "payload",v)]) hl]
  · rfl
  · simp [decodeMap,decodePayload,hd,Except.bind,Except.map]
  · change [PyStr.ofString "kind",.ofString "payload"].Nodup
    decide
  · simp

/-- What the native layer is given of a fair payload denotes the payload's JSON. -/
theorem encodeText_denotes (hf : ReadsFloats num floatText) {v : PyVal} (hv : v.Payload)
    (ht : v.NoTag) : ∃ s j, encodeText floatText v = .ok s ∧ s.scalar = true ∧ j.Payload ∧
      loadsText num s = some j ∧ decodePayload j = .ok v.normal := by
  obtain ⟨j,hj,hpay,hd⟩ := encodePayload_payload hv ht
  refine ⟨dumpsText floatText true j,j,?_,scalar_dumpsText j,hpay,loadsText_payload hf hv hj,hd⟩
  rw [encodeText,hj]
  rfl

/-- What an operation sent is received at the other end, its payload as payloads come back. -/
theorem recvText_text (hf : ReadsFloats num floatText) (m : StreamMesh num) {x : Sent PyVal}
    (hx : x.Fair) (he : x.op.encodes = true) {y : Sent PyStr} (hy : x.wired floatText = .ok y) :
    recvText num repr (m.text y) = m.labels.received x := by
  cases x with
  | chunk bs =>
    cases hy
    obtain ⟨j,hj,-,hd⟩ := encodePayload_payload (v := .bytes .bytes bs) trivial trivial
    cases hj
    exact recvText_data (m.carries _ _ (.chunk bs)) hd
  | value v =>
    obtain ⟨s,j,hs,hscalar,hpay,hl,hd⟩ := encodeText_denotes hf hx.1 hx.2
    rw [Sent.wired,hs] at hy
    cases hy
    exact recvText_data (m.carries _ _ (.value hscalar hpay hl)) hd
  | closeSend =>
    cases hy
    rw [recvText_members (d := [(.ofString "kind",.str (.ofString "end")),
      (.ofString "role",.str m.labels.role)]) (m.carries _ _ .closeSend)]
    · rfl
    · rfl
    · change [PyStr.ofString "kind",.ofString "role"].Nodup
      decide
    · simp [Labels.members]
  | reply v =>
    obtain ⟨s,j,hs,hscalar,hpay,hl,hd⟩ := encodeText_denotes hf hx.1 hx.2
    rw [Sent.wired,hs] at hy
    cases hy
    exact recvText_reply (m.carries _ _ (.reply hscalar hpay hl)) hd
  | abort code message =>
    cases hy
    obtain ⟨hc,hm⟩ := Bool.and_eq_true_iff.mp he
    rw [recvText_members (d := [(.ofString "kind",.str (.ofString "error")),
      (.ofString "code",.str code),(.ofString "message",.str message),(.ofString "relay",.int 0)])
      (m.carries _ _ (.abort hc hm))]
    · have hframe : frame repr (strDict [(.ofString "kind",.str (.ofString "error")),
          (.ofString "code",.str code),(.ofString "message",.str message),
          (.ofString "relay",.int 0)]) =
          .error (.stream (textOr repr (.str code)) (textOr repr (.str message)) false) := rfl
      rw [hframe,textOr_str,textOr_str]
      rfl
    · rfl
    · change [PyStr.ofString "kind",.ofString "code",.ofString "message",.ofString "relay"].Nodup
      decide
    · simp [Labels.members]
  | close =>
    cases hy
    rw [recvText_members (d := [(.ofString "kind",.str (.ofString "eof"))])
      (m.carries _ _ .close)]
    · rfl
    · rfl
    · simp [Labels.members]
    · change [PyStr.ofString "kind"] ≠ [bytesKey]
      decide

end Receive

def Sent.read (num : Numbers) : Sent PyStr → Option (Sent Json)
  | .chunk bs => some (.chunk bs)
  | .value s => (loadsText num s).map .value
  | .closeSend => some .closeSend
  | .reply s => (loadsText num s).map .reply
  | .abort code message => some (.abort code message)
  | .close => some .close

theorem Sent.Denotes.read_eq {num : Numbers} {x : Sent PyStr} {y : Sent Json}
    (h : Sent.Denotes num x y) : x.read num = some y := by
  cases h with
  | value _ _ hl => rw [Sent.read,hl,Option.map_some]
  | reply _ _ hl => rw [Sent.read,hl,Option.map_some]
  | _ => rfl

def someLabels : Labels := ⟨.ofCodes [114],.ofCodes [109],.ofCodes [112]⟩

theorem writable_bytesJson (bs : List UInt8) : Writable (bytesJson bs) := by
  refine writable_members fun m hm => ?_
  obtain rfl := List.mem_singleton.mp hm
  exact ⟨PyStr.scalar_ofCodes (by decide),writable_str (PyStr.scalar_ofCodes (Base64.encode_lt bs))⟩

/-- A mesh that writes every frame anew, with spaces. -/
def rewriting : StreamMesh bitsNumbers where
  labels := someLabels
  text x := (x.read bitsNumbers).elim [] fun y =>
    dumpsText bitsText false (.obj (someLabels.members y))
  carries x y h := by
    have hwrite : ∀ m ∈ someLabels.members y, m.1.scalar = true ∧ Writable m.2 := by
      have hraw : Writable (.str someLabels.raw) := writable_str (by decide)
      have hencoded : Writable (.str someLabels.encoded) := writable_str (by decide)
      have hrole : Writable (.str someLabels.role) := writable_str (by decide)
      cases h with
      | chunk bs =>
        simp [Labels.members,PyStr.scalar_ofString,writable_label,hraw,writable_bytesJson]
      | value hs hj hl =>
        simp [Labels.members,PyStr.scalar_ofString,writable_label,hencoded,
          writable_payload hs hj hl]
      | closeSend => simp [Labels.members,PyStr.scalar_ofString,writable_label,hrole]
      | reply hs hj hl =>
        simp [Labels.members,PyStr.scalar_ofString,writable_label,writable_payload hs hj hl]
      | abort hc hm =>
        have hzero : Writable (.int 0) := writable_int (by decide)
        simp [Labels.members,PyStr.scalar_ofString,writable_label,writable_str hc,writable_str hm,
          hzero]
      | close => simp [Labels.members,PyStr.scalar_ofString,writable_label]
    rw [h.read_eq,Option.elim_some]
    exact (writable_members hwrite).read_back

end MaculaPy.Peers
