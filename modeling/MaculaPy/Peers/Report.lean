import MaculaPy.Peers.Call

/-! # A call with its seal report

`Pool.call_report`, which asks the native layer for the seal report beside the result. It ends as
`Pool.call` does, with the report where that returns.
-/
namespace MaculaPy.Peers
open Wire Serving

def resultKey : PyStr := .ofString "result"

def providerKey : PyStr := .ofString "provider"

def sealKeyIdKey : PyStr := .ofString "seal_key_id"

/-- What lies between a caller and a provider, and what a seal report says beside whether the
exchange was sealed. -/
structure ReportMesh (num : Numbers) extends Mesh num where
  provider : PyStr
  keyId : PyStr
  report : PyStr → PyStr
  reports : ∀ s j, s.scalar = true → j.Payload → loadsText num s = some j →
    loadsText num (report s) = some (.obj ([(resultKey,j),
      (sealedKey,.int (if exchange.sealed then 1 else 0)),(providerKey,.str provider)] ++
        if exchange.sealed then [(sealKeyIdKey,.str keyId)] else []))

/-- How `call_report` ends: it returns the result with the report, or ends as a call without
one. -/
inductive ReportEnd
  | returned (v : PyVal) (report : SealReport)
  | ended (e : CallEnd)

/-- `Reported(reply["result"], seal_report(reply))`. -/
def reportedFrom (reply : PyVal) : Except ReadError (PyVal × SealReport) := do
  let result ← reply.field resultKey
  let report ← sealReport reply
  return (result,report)

def CallEnd.withReport (r : SealReport) : CallEnd → ReportEnd
  | .returned v => .returned v r
  | e => .ended e

namespace ReportMesh
variable {num : Numbers} (floatText : Binary64 → Numeral) (repr : Json → PyStr)
  (m : ReportMesh num)

def sealReport : SealReport :=
  ⟨m.exchange.sealed,.str m.provider,if m.exchange.sealed then .str m.keyId else .none⟩

/-- What `call_report` makes of what the native layer gives for an answer. -/
def received : Answer → ReportEnd
  | .reply j =>
    match decodeText num (m.report (dumpsText floatText true j)) with
    | some (.ok v) =>
      match reportedFrom v with
      | .ok (result,report) => .returned result report
      | .error _ => .ended .unread
    | _ => .ended .unread
  | .error detail => .ended (m.toMesh.received floatText repr (.error detail))

/-- `call_report` over the mesh. -/
def callReport (handler : Request → HandlerEnd) (payload : PyVal) : ReportEnd :=
  match encodeText floatText payload with
  | .error e => .ended (.refused e)
  | .ok s => (answered num handler (m.request s)).elim (.ended .unanswered)
      (m.received floatText repr)

variable {floatText repr m}

/-- The text of a reply is read as the result with the report. -/
theorem reportedFrom_reply {s : PyStr} {j : Json} {v : PyVal} (hs : s.scalar = true)
    (hj : j.Payload) (hl : loadsText num s = some j) (hd : decodePayload j = .ok v) :
    ∃ item, decodeText num (m.report s) = some (.ok item) ∧
      reportedFrom item = .ok (v,m.sealReport) := by
  have hr := m.reports s j hs hj hl
  cases hx : m.exchange.sealed with
  | false =>
    have hmap : decodeMap [(resultKey,j),(sealedKey,.int 0),(providerKey,.str m.provider)] =
        .ok [(resultKey,v),(sealedKey,.int 0),(providerKey,.str m.provider)] := by
      simp [decodeMap,decodePayload,hd,Except.bind,Except.map]
    have hn : [resultKey,sealedKey,providerKey].Nodup := by decide
    simp only [hx,Bool.false_eq_true,if_false,List.append_nil] at hr
    refine ⟨_,decodeText_members hr hmap hn (by simp),?_⟩
    simp only [ReportMesh.sealReport,hx]
    rfl
  | true =>
    have hmap : decodeMap [(resultKey,j),(sealedKey,.int 1),(providerKey,.str m.provider),
        (sealKeyIdKey,.str m.keyId)] = .ok [(resultKey,v),(sealedKey,.int 1),
          (providerKey,.str m.provider),(sealKeyIdKey,.str m.keyId)] := by
      simp [decodeMap,decodePayload,hd,Except.bind,Except.map]
    have hn : [resultKey,sealedKey,providerKey,sealKeyIdKey].Nodup := by decide
    simp only [hx,if_true,List.cons_append,List.nil_append] at hr
    refine ⟨_,decodeText_members hr hmap hn (by simp),?_⟩
    simp only [ReportMesh.sealReport,hx]
    rfl

theorem withReport_error (r : SealReport) (detail : PyStr) :
    (m.toMesh.received floatText repr (.error detail)).withReport r =
      .ended (m.toMesh.received floatText repr (.error detail)) := by
  simp only [Mesh.received]
  split <;> rfl

theorem returned_of_reply {o : HandlerEnd} {j : Json} (h : answerOf o = some (.reply j)) :
    ∃ r, o = .returned r ∧ encodePayload r = .ok j := by
  cases o with
  | returned r =>
    cases hr : encodePayload r with
    | ok j' =>
      simp only [answerOf,hr,Option.some.injEq,Answer.reply.injEq] at h
      exact ⟨r,rfl,h ▸ hr⟩
    | error e => simp [answerOf,hr,errorAnswer,e.scalar_text] at h
  | raised text =>
    simp only [answerOf,errorAnswer] at h
    split at h <;> cases h
  | cancelled args => cases h

/-- `call_report` makes of an answer what `call` makes of it, with the report. -/
theorem received_withReport (repr : Json → PyStr) (hf : ReadsFloats num floatText) {o : HandlerEnd}
    (ho : Sound o) : ∃ a, answerOf o = some a ∧
      m.received floatText repr a = (handled o).withReport m.sealReport := by
  obtain ⟨a,ha,hend⟩ := received_answer repr hf m.toMesh ho
  refine ⟨a,ha,?_⟩
  cases a with
  | error detail => rw [received,← hend,withReport_error]
  | reply j =>
    obtain ⟨r,rfl,hr⟩ := returned_of_reply ha
    obtain ⟨hp,ht⟩ := ho ⟨j,hr⟩
    obtain ⟨j',hj',hpay,hd⟩ := encodePayload_payload hp ht
    obtain rfl := Except.ok.inj (hr.symm.trans hj')
    obtain ⟨item,hitem,hread⟩ :=
      reportedFrom_reply (m := m) (scalar_dumpsText j) hpay (loadsText_payload hf hp hr) hd
    simp only [received,hitem,hread,handled,hr,CallEnd.withReport]

/-- A mesh that writes every text anew, with spaces. -/
def reporting : ReportMesh bitsNumbers where
  toMesh := spacing
  provider := .ofCodes [100]
  keyId := .ofCodes [101]
  report s := (loadsText bitsNumbers s).elim [] fun j => dumpsText bitsText false
    (.obj [(resultKey,j),(sealedKey,.int 1),(providerKey,.str (.ofCodes [100])),
      (sealKeyIdKey,.str (.ofCodes [101]))])
  reports s j hs hj hl := by
    have hkeys : ∀ t ∈ [resultKey,sealedKey,providerKey,sealKeyIdKey,.ofCodes [100],.ofCodes [101]],
        t.scalar = true := by decide
    simp only [List.forall_mem_cons,List.not_mem_nil,false_implies,implies_true,and_true] at hkeys
    have hone : Writable (.int 1) := writable_int (by decide)
    rw [hl,Option.elim_some]
    refine (writable_members ?_).read_back
    simp [hkeys,hone,writable_str,writable_payload hs hj hl]

end ReportMesh
end MaculaPy.Peers
