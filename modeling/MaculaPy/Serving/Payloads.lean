import MaculaPy.Serving.Dispatch
import MaculaPy.Wire.Request

/-! # Serving what remote callers send

The serving task decodes each item after its handle was taken. As long as the payloads
decode it goes on until it is stopped or the source ends, and every handle reaches a
handler or `release`; one that does not decode ends it, and its handle is lost.
-/
namespace MaculaPy.Serving
open Blocking Wire History
variable {E : Type*} {deep : Json → Bool}

/-- The native layer hands over requests whose payload decodes. -/
def Carried (deep : Json → Bool) (_ : Served Json PyVal ItemError E) (a : ServedAction Json E) :
    Prop :=
  ∀ i h text, a = .thread i (.callReturns (.ok (.item h text))) → ∃ q : WireRequest,
    text = q.render ∧ q.payload.Valid ∧ deep text = false ∧ q.payload.TagsDecode

namespace Served

/-- A wait reported the source closed, or failed. -/
def SourceEnded {J R D : Type*} (s : Served J R D E) : ServeEnd D E → Prop
  | .closed => ∃ i c, s.loop.calls i = some c ∧ c.task = .returned (.nothing true)
  | .failed (.wait e) => ∃ i c, s.loop.calls i = some c ∧ c.task = .raised e
  | _ => False

theorem decodes_of_carried {handle : ℕ} {s : Served Json PyVal ItemError E}
    (hs : Runs.Reachable (step (decodeItem deep)) (Carried deep) (init handle) s) :
    Runs.Reachable (step (decodeItem deep)) (Decodes (decodeItem deep)) (init handle) s := by
  apply hs.mono
  intro s a ha i h text he
  obtain ⟨q,rfl,hq,hdeep,ht⟩ := ha i h text he
  exact (decodeItem_render_iff deep q hq).mpr ⟨hdeep,ht⟩

/-- While every payload decodes, serving ends only after `stop()` was called or the source
ended, and with nothing of a wait left to run the handle it was handed was given to one
handler or to `release`. -/
theorem serves_on_of_carried {handle : ℕ} {s : Served Json PyVal ItemError E}
    (hs : Runs.Reachable (step (decodeItem deep)) (Carried deep) (init handle) s) :
    (∀ how, s.serve = .ended how → s.handle = none ∨ s.SourceEnded how) ∧
      ∀ i c h text, s.loop.calls i = some c →
        .returned (.ok (.item h text)) ∈ view i s.loop.trace →
        Quiescent (route i) (s.loop.callState i c) → s.dispatches i ++ s.releases i = [h] := by
  have hv := reachable_serveValid hs
  have hd := decodes_of_carried hs
  constructor
  · intro how he
    have hb := hv.why how he
    cases how with
    | closed => exact Or.inr hb
    | assertion => exact Or.inl hb
    | cancelled => exact Or.inl hb
    | failed e =>
      cases e with
      | wait e => exact Or.inr hb
      | decode e =>
        obtain ⟨i,h,text,⟨c,hc,hk⟩,hx⟩ := hb
        have hm := returned_of_task (Loop.reachable_call hv.loop hc) hk
        obtain ⟨item,hi⟩ := reachable_decodes hd hm
        rw [hx] at hi
        cases hi
  · intro i c h text hc hm hq
    obtain ⟨item,hx⟩ := reachable_decodes hd hm
    exact hv.accounted hc hq hm hx

/-- A request from a caller, with this payload. -/
def request (payload : WireValue) : WireRequest :=
  ⟨.ofCodes [97],.ofCodes [98],.ofCodes [99],payload,1000,false⟩

/-- The first wait takes one item, with handle 7. -/
def oneItem (payload : WireValue) : List (ServedAction Json Empty) :=
  [.run,.thread 0 (.newToken 1),.thread 0 .work,.thread 0 .work,.thread 0 .work,
    .thread 0 (.callReturns (.ok (.item 7 (request payload).render))),
    .thread 0 .work,.thread 0 .work,.thread 0 .work,.run,.run,.run,.run,.run]

theorem carried_oneItem (deep : Json → Bool) (payload : WireValue) (hv : payload.Valid)
    (ht : payload.TagsDecode) (hdeep : deep (request payload).render = false)
    {s : Served Json PyVal ItemError Empty}
    (he : Runs.exec (step (decodeItem deep)) (init 1) (oneItem payload) = some s) :
    Runs.Reachable (step (decodeItem deep)) (Carried deep) (init 1) s := by
  apply Runs.Reachable.of_exec_of_forall (oneItem payload) he
  intro a ha u i h text hcall
  subst hcall
  obtain ⟨rfl,rfl,rfl⟩ : i = 0 ∧ h = 7 ∧ text = (request payload).render := by
    simpa [oneItem] using ha
  exact ⟨request payload,rfl,hv,hdeep,ht⟩

theorem serves_on_of_carried_null : ∃ s : Served Json PyVal ItemError Empty,
    Runs.exec (step (decodeItem fun _ => false)) (init 1) (oneItem .null) = some s ∧
      s.dispatches 0 ++ s.releases 0 = [7] := by
  refine ⟨_,rfl,?_⟩
  have hs := carried_oneItem (fun _ => false) .null trivial trivial rfl rfl
  refine (serves_on_of_carried hs).2 0 _ 7 (request .null).render rfl ?_ ?_
  · exact List.mem_of_getElem? (i := 3) rfl
  · exact quiescent_iff.mpr ⟨⟨_,rfl⟩,rfl,rfl,rfl⟩

/-- The map with the text `!`, which is no base64, under `$bytes`. -/
def badTag : WireValue := .map [(bytesKey,.text (.ofCodes [33]))]

/-- Serving ends, though nobody stopped it and the source did not end, and the handle reaches
neither a handler nor `release`. -/
theorem not_serves_on_badTag : badTag.Valid ∧ ∃ s : Served Json PyVal ItemError Empty,
    Runs.exec (step (decodeItem fun _ => false)) (init 1) (oneItem badTag) = some s ∧
      (∃ e, s.serve = .ended (.failed (.decode e))) ∧ s.handle = some 1 ∧
      (∃ c, s.loop.calls 0 = some c ∧ Quiescent (route 0) (s.loop.callState 0 c)) ∧
      s.dispatches 0 = [] ∧ s.releases 0 = [] := by
  refine ⟨⟨by simp,rfl,rfl,trivial⟩,_,rfl,⟨_,rfl⟩,rfl,⟨_,rfl,?_⟩,rfl,rfl⟩
  exact quiescent_iff.mpr ⟨⟨_,rfl⟩,rfl,rfl,rfl⟩

end Served
end MaculaPy.Serving
