import MaculaPy.Native.Memory

/-! # What a call gives is what the library replied

Over any run of any threads the machine with the memory does what the calls without memory do.
No address is read or freed that is not lent, whichever the library lends again in between, and
what is left when all have ended is what calls returned beside an error.
-/
namespace MaculaPy.Native
open Runs Holdings
namespace Memory
variable {k : Kind} {b : Option (ℕ × Bytes)} {m m' : Heap} {a n : ℕ} {bs : Bytes}
  {c : Site} {r : Returned} {i : ℕ} {o : Option ℕ} {lost lost' : ℕ → Block → Prop}

theorem lend_eq_some (h : lend k b m = some m') : b = none ∧ m' = m ∨
    ∃ a bs, b = some (a,bs) ∧ a ≠ 0 ∧ m a = none ∧ m' = Function.update m a (some ⟨k,bs⟩) := by
  rcases b with _ | ⟨a,bs⟩
  · exact .inl ⟨rfl,(Option.some.inj h).symm⟩
  · rw [lend] at h
    split at h
    · next ha => exact .inr ⟨a,bs,rfl,ha.1,ha.2,(Option.some.inj h).symm⟩
    · cases h

theorem lend_at (h : lend k (some (a,bs)) m = some m') : a ≠ 0 ∧ m' a = some ⟨k,bs⟩ := by
  rcases lend_eq_some h with ⟨hb,-⟩ | ⟨a',bs',hb,ha,-,rfl⟩
  · cases hb
  · cases hb
    exact ⟨ha,Function.update_self _ _ _⟩

theorem lend_shift (h : lend k b m = some m') (hm : ∀ a, o = some a → m a ≠ none)
    (hl : ∀ c d, lost' c d ↔ lost c d ∨ b.isSome = true ∧ o = some c ∧ m c = some d) :
    Shift m m' o ((b.map Prod.fst).or o) lost lost' := by
  rcases lend_eq_some h with ⟨rfl,rfl⟩ | ⟨a,bs,rfl,-,hn,rfl⟩
  · have he : lost' = lost := by
      funext c d
      simpa using hl c d
    rw [he]
    exact .keep hm
  · exact .acquire hn fun c d => by simpa using hl c d

theorem lendResult_shift (h : lendResult c b m = some m') :
    Shift m m' none (if c.lends.isSome then b.map Prod.fst else none) lost lost := by
  rw [lendResult] at h
  split at h
  · next k hk =>
    have hs : Shift m m' none ((b.map Prod.fst).or none) lost lost :=
      lend_shift h (by simp) (by simp)
    simpa [hk] using hs
  · next hk =>
    split at h
    · cases h
      rw [hk]
      exact .keep (by simp)
    · cases h

theorem lendResult_at (h : lendResult c (some (a,bs)) m = some m') :
    ∃ k, c.lends = some k ∧ a ≠ 0 ∧ m' a = some ⟨k,bs⟩ := by
  rw [lendResult] at h
  split at h
  · next k hk => exact ⟨k,hk,lend_at h⟩
  · simp at h

theorem readString_eq (hm : m a = some ⟨k,bs⟩) (hz : 0 ∈ bs) :
    readString a m = some (cString bs) := by
  simp [readString,hm,hz]

theorem readBytes_eq (hm : m a = some ⟨k,bs⟩) (hn : n ≤ bs.length) :
    readBytes a n m = some (bs.take n) := by
  simp [readBytes,hm,hn]

theorem free_eq (hm : m a = some ⟨k,bs⟩) : free k a m = some (Function.update m a none) := by
  simp [free,hm]

/-- What is copied of a block. -/
def copied : Kind → ℕ → Bytes → Bytes
  | .string,_,bs => cString bs
  | .bytes,n,bs => bs.take n

theorem read_eq (hc : c.lends = some k) (hk : Keeps c r) (hl : r.lent = some (a,bs))
    (hm : m a = some ⟨k,bs⟩) : read k a r.length m = some (copied k r.length bs) := by
  cases k with
  | string => exact readString_eq hm (hk.2.1 a bs hl hc)
  | bytes => exact readBytes_eq hm (hk.2.2 a bs hl hc)

end Memory

theorem Site.lends_eq {c : Site} (hc : c ∈ sites) : c.lends = c.taking.frees :=
  (sites_match c hc).1

theorem Taking.frees_eq_some {k : Kind} {g : Taking} (h : g.frees = some k) :
    g = match k with
      | .string => .string
      | .bytes => .bytes := by
  cases g <;> cases h <;> rfl

theorem Taking.frees_eq_none {g : Taking} (h : g.frees = none) : g = .plain := by
  cases g with
  | plain => rfl
  | string => cases h
  | bytes => cases h

section Outcomes
variable {c : Site} {r : Returned} {k : Kind}

theorem outcome_plain (h : r.error = none) (hc : c.taking.frees = none) :
    r.reply.outcome c = .value r.value := by
  simp [Reply.outcome,Returned.reply,h,Taking.frees_eq_none hc]

theorem outcome_null (h : r.error = none) (hc : c.taking.frees = some k) (hl : r.lent = none) :
    r.reply.outcome c = Memory.takenNull k := by
  rw [Reply.outcome,Returned.reply,h,Taking.frees_eq_some hc,hl]
  cases k <;> simp [Memory.takenNull]

theorem outcome_taken {a : ℕ} {bs : Bytes} (h : r.error = none)
    (hc : c.taking.frees = some k) (hl : r.lent = some (a,bs)) :
    r.reply.outcome c = Memory.taken k (Memory.copied k r.length bs) := by
  rw [Reply.outcome,Returned.reply,h,Taking.frees_eq_some hc,hl]
  cases k <;> rfl

end Outcomes

section Stands
variable {m m' : Heap} {p : Phase} {q : Calls.Progress} {c : Site} {r : Returned}

theorem Stands.mono (h : Stands m p q) (hm : ∀ a, p.owes = some a → m' a = m a) :
    Stands m' p q := by
  cases h with
  | idle => exact .idle
  | called hc => exact .called hc
  | @returned c r hc hk he hl =>
    refine .returned hc hk ?_ ?_
    · intro a bs hr
      obtain ⟨ha,hb⟩ := he a bs hr
      refine ⟨ha,(hm a ?_).trans hb⟩
      simp [Phase.owes,address,hr,ha]
    · intro hn a bs k hk hr
      obtain ⟨ha,hb⟩ := hl hn a bs k hk hr
      refine ⟨ha,(hm a ?_).trans hb⟩
      simp [Phase.owes,address,Returned.result,hn,hr,ha,hk,← Site.lends_eq hc]
  | raising hb he => exact .raising ((hm _ rfl).trans hb) he
  | taking hb ho => exact .taking ((hm _ rfl).trans hb) ho

/-- What a thread that is back from the library owes: the error, else what it was lent. -/
theorem owes_returned (hc : c ∈ sites)
    (he : ∀ a bs, r.error = some (a,bs) → a ≠ 0)
    (hl : ∀ a bs, c.lends.isSome = true → r.lent = some (a,bs) → a ≠ 0) :
    (Phase.returned c (r.result c) r.length (address r.error)).owes =
      (r.error.map Prod.fst).or (if c.lends.isSome then r.lent.map Prod.fst else none) := by
  rw [Phase.owes,← Site.lends_eq hc]
  rcases hr : r.error with _ | ⟨a,bs⟩
  · by_cases hs : c.lends.isSome = true
    · rcases hb : r.lent with _ | ⟨a,bs⟩
      · simp [address,Returned.result,hb,hs]
      · have ha := hl a bs hs hb
        simp [address,Returned.result,hb,hs,ha]
    · simp [address,hs]
  · have ha := he a bs hr
    simp [address,ha]

theorem lost_append {xs : List (ℕ × Site × Returned)} {i a : ℕ} {b : Block} :
    Lost (xs ++ [(i,c,r)]) a b ↔ Lost xs a b ∨
      c.lends = some b.kind ∧ r.lent = some (a,b.content) ∧ r.error.isSome = true := by
  simp [Lost,or_and_right,exists_or]

end Stands

/-- The memory and the calls without memory are at the same point of every call. -/
structure Valid (s : Memory) (t : Calls) : Prop where
  safe : s.crashed = false
  answered : t.answered = s.answered.map fun x => (x.1,x.2.1,x.2.2.reply)
  done : t.done = s.done
  stands : ∀ i, Stands s.heap (s.phase i) (t.progress i)
  ledger : Ledger s.heap (fun i => (s.phase i).owes) (Lost s.answered)

theorem init_valid : Valid .init .init where
  safe := rfl
  answered := rfl
  done := rfl
  stands _ := .idle
  ledger := by
    have he : Lost [] = fun _ _ => False := by
      funext a b
      simp [Lost]
    have h : Ledger (fun _ : ℕ => (none : Option Block)) (fun _ : ℕ => none) (Lost []) := by
      rw [he]
      exact .init
    exact h

namespace Valid
variable {s : Memory} {t : Calls} {i : ℕ} {m : Heap} {p : Phase} {q : Calls.Progress}
  {xs : List (ℕ × Site × Returned)}

/-- A thread moves on: it stands where its call does, and has done its part of the ledger. -/
theorem shift (h : Valid s t) (hs : Shift s.heap m (s.phase i).owes p.owes (Lost s.answered)
    (Lost xs)) (hp : Stands m p q) (ds : List (ℕ × Site × Outcome)) :
    Valid ⟨m,Function.update s.phase i p,s.crashed,xs,ds⟩
      ⟨Function.update t.progress i q,xs.map fun x => (x.1,x.2.1,x.2.2.reply),ds⟩ where
  safe := h.safe
  answered := rfl
  done := rfl
  stands j := by
    dsimp only
    by_cases hj : j = i
    · subst hj
      rw [Function.update_self,Function.update_self]
      exact hp
    · rw [Function.update_of_ne hj,Function.update_of_ne hj]
      exact (h.stands j).mono fun a ha => h.ledger.frame hs hj ha
  ledger := by
    have he : (fun j => (Function.update s.phase i p j).owes) =
        Function.update (fun j => (s.phase j).owes) i p.owes := by
      funext j
      exact Function.apply_update (fun _ => Phase.owes) s.phase i p j
    have hl := h.ledger.move hs
    rw [← he] at hl
    exact hl

/-- A thread moves on and leaves the memory as it is. -/
theorem turn (h : Valid s t) (hp : Stands s.heap p q) (ho : p.owes = (s.phase i).owes)
    (ds : List (ℕ × Site × Outcome)) :
    Valid ⟨s.heap,Function.update s.phase i p,s.crashed,s.answered,ds⟩
      ⟨Function.update t.progress i q,t.answered,ds⟩ := by
  have hs : Shift s.heap s.heap (s.phase i).owes p.owes (Lost s.answered) (Lost s.answered) := by
    rw [ho]
    exact .keep (h.ledger.mapped i)
  rw [h.answered]
  exact h.shift hs hp ds

/-- A thread frees what it owes. -/
theorem freed (h : Valid s t) {a : ℕ} (ho : (s.phase i).owes = some a)
    (ds : List (ℕ × Site × Outcome)) :
    Valid ⟨Function.update s.heap a none,Function.update s.phase i .idle,s.crashed,s.answered,ds⟩
      ⟨Function.update t.progress i .idle,t.answered,ds⟩ := by
  have hs : Shift s.heap (Function.update s.heap a none) (s.phase i).owes Phase.idle.owes
      (Lost s.answered) (Lost s.answered) := by
    rw [ho]
    exact .release
  rw [h.answered]
  exact h.shift hs .idle ds

end Valid

/-- The step of the calls that a step over the memory is; most turns are none. -/
def label (s : Memory) : Memory.Action → List Calls.Action
  | .start i c => [.start i c]
  | .native i r => [.answer i r.reply]
  | .turn i => if (s.turn i).map (fun u => u.phase i) = some .idle then [.finish i] else []

section Steps
variable {s s' : Memory} {t : Calls} {i : ℕ} {c : Site} {r : Returned}

theorem start_matched (h : Valid s t) (he : s.step (.start i c) = some s') :
    ∃ t', exec Calls.step t [.start i c] = some t' ∧ Valid s' t' := by
  rw [Memory.step] at he
  split at he
  case isFalse => cases he
  case isTrue hi =>
    cases he
    have hp := h.stands i
    rw [hi.1] at hp
    have ht : t.progress i = .idle := by
      generalize t.progress i = q at hp
      cases hp
      rfl
    have ho : (Phase.called c).owes = (s.phase i).owes := by rw [hi.1]; rfl
    refine ⟨_,by simp only [exec,Calls.step,ht]; rfl,?_⟩
    rw [h.done]
    exact h.turn (.called hi.2) ho s.done

theorem native_matched (h : Valid s t) (hk : Memory.contract s (.native i r))
    (he : s.step (.native i r) = some s') :
    ∃ t', exec Calls.step t [.answer i r.reply] = some t' ∧ Valid s' t' := by
  rw [Memory.step] at he
  split at he
  case h_2 => cases he
  case h_1 c hi =>
    obtain ⟨m1,h1,he⟩ := Option.bind_eq_some_iff.mp he
    obtain ⟨m2,h2,he⟩ := Option.map_eq_some_iff.mp he
    cases he
    have hp := h.stands i
    rw [hi] at hp
    obtain ⟨ht,hc⟩ : t.progress i = .called c ∧ c ∈ sites := by
      generalize t.progress i = q at hp
      cases hp with
      | called hc => exact ⟨rfl,hc⟩
    have hlent {a : ℕ} {bs : Bytes} (hr : r.lent = some (a,bs)) :
        ∃ k, c.lends = some k ∧ a ≠ 0 ∧ m1 a = some ⟨k,bs⟩ := Memory.lendResult_at (hr ▸ h1)
    have herr {a : ℕ} {bs : Bytes} (hr : r.error = some (a,bs)) :
        a ≠ 0 ∧ m2 a = some ⟨.string,bs⟩ := Memory.lend_at (hr ▸ h2)
    -- First it is lent the result, then the error, for which it gives up the result.
    have hs1 : Shift s.heap m1 none _ (Lost s.answered) (Lost s.answered) :=
      Memory.lendResult_shift h1
    have hlost (a : ℕ) (d : Block) : Lost (s.answered ++ [(i,c,r)]) a d ↔ Lost s.answered a d ∨
        r.error.isSome = true ∧
          (if c.lends.isSome then r.lent.map Prod.fst else none) = some a ∧ m1 a = some d := by
      rw [lost_append]
      refine or_congr Iff.rfl ?_
      constructor
      · rintro ⟨hd,hr,hb⟩
        obtain ⟨k,hk',-,hm⟩ := hlent hr
        rw [hd] at hk'
        cases hk'
        exact ⟨hb,by simp [hd,hr],hm⟩
      · rintro ⟨hb,ho,hm⟩
        split at ho
        · obtain ⟨⟨a',bs⟩,hr,rfl⟩ := Option.map_eq_some_iff.mp ho
          obtain ⟨k,hk',-,hm'⟩ := hlent hr
          rw [hm'] at hm
          cases hm
          exact ⟨hk',hr,hb⟩
        · cases ho
    have hs := hs1.trans (Memory.lend_shift h2 hs1.mapped hlost)
    rw [← owes_returned hc (fun a bs hr => (herr hr).1) (fun a bs _ hr => by
      obtain ⟨k,-,ha,-⟩ := hlent hr
      exact ha)] at hs
    have ho : (s.phase i).owes = none := by rw [hi]; rfl
    rw [← ho] at hs
    refine ⟨_,by simp only [exec,Calls.step,ht]; rfl,?_⟩
    have hv := h.shift hs (q := .answered c r.reply) (.returned hc (hk c hi) ?_ ?_) s.done
    · rw [List.map_append,← h.answered] at hv
      rw [h.done]
      exact hv
    · intro a bs hr
      exact herr hr
    · intro hn a bs k hk' hr
      obtain ⟨k',hk'',ha,hm⟩ := hlent hr
      rw [hk'] at hk''
      cases hk''
      rcases Memory.lend_eq_some h2 with ⟨-,rfl⟩ | ⟨_,_,hb,-⟩
      · exact ⟨ha,hm⟩
      · rw [hn] at hb
        cases hb

/-- A turn that leaves a thread in its call. -/
theorem label_stays {p : Phase} (he : s.turn i = some (s.moveTo i p)) (hp : p ≠ .idle) :
    label s (.turn i) = [] := by
  simp [label,he,Memory.moveTo,hp]

theorem label_finish {m : Heap} {o : Outcome}
    (he : s.turn i = some ({ s with heap := m }.finish i c o)) :
    label s (.turn i) = [.finish i] := by
  simp [label,he,Memory.finish,Memory.moveTo]

/-- The last turn of a call ends it with what the calls without memory end it with. -/
theorem finish_exec {r : Reply} {o : Outcome} (ht : t.progress i = .answered c r)
    (ho : r.outcome c = o) : exec Calls.step t [.finish i] =
      some ⟨Function.update t.progress i .idle,t.answered,t.done ++ [(i,c,o)]⟩ := by
  simp only [exec,Calls.step,ht,ho,Option.bind_some]

theorem turn_matched (h : Valid s t) (he : s.step (.turn i) = some s') :
    ∃ t', exec Calls.step t (label s (.turn i)) = some t' ∧ Valid s' t' := by
  have ht : s.turn i = some s' := he
  have hp := h.stands i
  generalize hphase : s.phase i = p at hp
  generalize hprogress : t.progress i = q at hp
  -- A call that ends frees nothing, or what it owes.
  have hfinish {c : Site} {r : Reply} {m : Heap} {o : Outcome}
      (hq : t.progress i = .answered c r) (ho : r.outcome c = o)
      (hs : s.turn i = some ({ s with heap := m }.finish i c o))
      (hv : Valid ⟨m,Function.update s.phase i .idle,s.crashed,s.answered,s.done ++ [(i,c,o)]⟩
        ⟨Function.update t.progress i .idle,t.answered,s.done ++ [(i,c,o)]⟩) :
      ∃ t', exec Calls.step t (label s (.turn i)) = some t' ∧ Valid s' t' := by
    rw [label_finish hs,finish_exec hq ho,h.done]
    rw [hs] at ht
    cases ht
    exact ⟨_,rfl,hv⟩
  have hstays {p' : Phase} (hs : s.turn i = some (s.moveTo i p')) (hn : p' ≠ .idle)
      (hp' : Stands s.heap p' (t.progress i)) (ho : p'.owes = (s.phase i).owes) :
      ∃ t', exec Calls.step t (label s (.turn i)) = some t' ∧ Valid s' t' := by
    rw [label_stays hs hn]
    rw [hs] at ht
    cases ht
    have hv := h.turn hp' ho s.done
    rw [Function.update_eq_self] at hv
    have hv' : Valid (s.moveTo i p') ⟨t.progress,t.answered,s.done⟩ := hv
    rw [← h.done] at hv'
    exact ⟨t,rfl,hv'⟩
  cases hp with
  | idle => simp [Memory.turn,hphase] at ht
  | called => simp [Memory.turn,hphase] at ht
  | @returned c r hc hk herr hlent =>
    rcases hr : r.error with _ | ⟨a,bs⟩
    · have haddr : address r.error = 0 := by rw [hr]; rfl
      rw [haddr] at hphase
      rcases hg : c.taking.frees with _ | k
      · have hres : r.result c = r.value := by simp [Returned.result,Site.lends_eq hc,hg]
        have hs : s.turn i = some (s.finish i c (.value r.value)) := by
          simp [Memory.turn,hphase,hg,hres]
        exact hfinish hprogress (outcome_plain hr hg) hs
          (h.turn .idle (by rw [hphase]; simp [Phase.owes,hg]) _)
      · have hres : r.result c = address r.lent := by simp [Returned.result,Site.lends_eq hc,hg]
        rw [hres] at hphase
        rcases hl : r.lent with _ | ⟨a,bs⟩
        · have hnull : address r.lent = 0 := by rw [hl]; rfl
          rw [hnull] at hphase
          have hs : s.turn i = some (s.finish i c (Memory.takenNull k)) := by
            simp [Memory.turn,hphase,hg]
          exact hfinish hprogress (outcome_null hr hg hl) hs
            (h.turn .idle (by rw [hphase]; simp [Phase.owes]) _)
        · have hk' : c.lends = some k := (Site.lends_eq hc).trans hg
          obtain ⟨ha,hm⟩ := hlent hr a bs k hk' hl
          have hlent : address r.lent = a := by rw [hl]; rfl
          rw [hlent] at hphase
          have hs : s.turn i = some (s.moveTo i
              (.taking c k a (Memory.copied k r.length bs))) := by
            simp [Memory.turn,hphase,hg,ha,Memory.read_eq hk' hk hl hm]
          refine hstays hs (by simp) ?_ ?_
          · rw [hprogress]
            exact .taking hm (outcome_taken hr hg hl)
          · rw [hphase]
            simp [Phase.owes,hg,ha]
    · obtain ⟨ha,hm⟩ := herr a bs hr
      have haddr : address r.error = a := by rw [hr]; rfl
      rw [haddr] at hphase
      have hs : s.turn i = some (s.moveTo i (.raising c a (cString bs))) := by
        simp [Memory.turn,hphase,ha,Memory.readString_eq hm (hk.1 a bs hr)]
      refine hstays hs (by simp) ?_ ?_
      · rw [hprogress]
        exact .raising hm (by rw [Returned.reply,hr]; rfl)
      · rw [hphase]
        simp [Phase.owes,ha]
  | @raising c r a bs hm hr =>
    have hs : s.turn i = some ({ s with heap := Function.update s.heap a none }.finish i c
        (.raised (cString bs))) := by
      simp only [Memory.turn,hphase,Memory.free_eq hm]
    refine hfinish hprogress ?_ hs (h.freed (by rw [hphase]; rfl) _)
    rw [Reply.outcome,hr]
  | @taking c r k a bs data hm ho =>
    have hs : s.turn i = some ({ s with heap := Function.update s.heap a none }.finish i c
        (Memory.taken k data)) := by
      simp only [Memory.turn,hphase,Memory.free_eq hm]
    exact hfinish hprogress ho hs (h.freed (by rw [hphase]; rfl) _)

end Steps

theorem simulation : Simulation Memory.step Memory.contract Calls.step label Valid where
  matched s a s' t h hk he := by
    cases a with
    | start i c => exact start_matched h he
    | native i r => exact native_matched h hk he
    | turn i => exact turn_matched h he

/-- Each thread's calls end in their order, each with what is made of its own reply. -/
def Calls.Ordered (t : Calls) : Prop :=
  ∀ i, (t.answered.filter (·.1 = i)).map (fun x => (x.2.1,x.2.2.outcome x.2.1)) =
    (t.done.filter (·.1 = i)).map Prod.snd ++ (t.progress i).pending

theorem Calls.step_ordered {t t' : Calls} {a : Calls.Action} (h : t.Ordered)
    (he : t.step a = some t') : t'.Ordered := by
  intro j
  have hj := h j
  cases a with
  | start i c =>
    rw [Calls.step] at he
    split at he
    case h_2 => cases he
    case h_1 hi =>
      cases he
      by_cases hij : j = i
      · subst hij
        simpa [hi,Calls.Progress.pending] using hj
      · simpa [hij] using hj
  | answer i r =>
    rw [Calls.step] at he
    split at he
    case h_2 => cases he
    case h_1 c hi =>
      cases he
      by_cases hij : j = i
      · subst hij
        rw [hi] at hj
        simp [hj,Calls.Progress.pending]
      · simpa [hij,Ne.symm hij] using hj
  | finish i =>
    rw [Calls.step] at he
    split at he
    case h_2 => cases he
    case h_1 c r hi =>
      cases he
      by_cases hij : j = i
      · subst hij
        rw [hi] at hj
        simpa [Calls.Progress.pending] using hj
      · simpa [hij,Ne.symm hij] using hj

theorem Calls.reachable_ordered {t : Calls} (h : Reachable Calls.step Runs.free .init t) :
    t.Ordered := by
  refine h.induct ?_ ?_
  · intro i
    rfl
  · intro s a u _ hs _ he
    exact Calls.step_ordered hs he

theorem reachable_valid {s : Memory} (h : Reachable Memory.step Memory.contract .init s) :
    ∃ t, Reachable Calls.step Runs.free .init t ∧ Valid s t :=
  simulation.reachable h init_valid

theorem Valid.replies {s : Memory} {t : Calls} (h : Valid s t) (i : ℕ) :
    (t.answered.filter (·.1 = i)).map (fun x => (x.2.1,x.2.2.outcome x.2.1)) =
      (s.answered.filter (·.1 = i)).map fun x => (x.2.1,x.2.2.reply.outcome x.2.1) := by
  rw [h.answered,List.filter_map,List.map_map]
  rfl

/-- In a library that keeps its contract, no thread reads or frees memory that is not lent to
it, and what its calls give is, in their order, made of what they were replied. -/
theorem outcomes_of_replies {s : Memory} (h : Reachable Memory.step Memory.contract .init s) :
    s.crashed = false ∧ ∀ i, ((s.done.filter (·.1 = i)).map Prod.snd) <+:
      ((s.answered.filter (·.1 = i)).map fun x => (x.2.1,x.2.2.reply.outcome x.2.1)) ∧
      (s.phase i = .idle → (s.done.filter (·.1 = i)).map Prod.snd =
        (s.answered.filter (·.1 = i)).map fun x => (x.2.1,x.2.2.reply.outcome x.2.1)) := by
  obtain ⟨t,ht,hv⟩ := reachable_valid h
  refine ⟨hv.safe,?_⟩
  intro i
  have ho := Calls.reachable_ordered ht i
  rw [hv.replies,hv.done] at ho
  rw [ho]
  refine ⟨List.prefix_append _ _,?_⟩
  intro hi
  have hp := hv.stands i
  rw [hi] at hp
  have ht : (t.progress i).pending = [] := by
    generalize t.progress i = q at hp
    cases hp
    rfl
  rw [ht,List.append_nil]

/-- Two threads, of which one is lent the address that the other gave back, and an error beside a
result. -/
def overlap : List Memory.Action :=
  [.start 0 ⟨"NodeKey.profile","macula_key_profile",.string⟩,
    .start 1 ⟨"NodeKey.sign","macula_key_sign",.bytes⟩,
    .native 0 ⟨0,some (8,[112,113,0]),0,none⟩,.turn 0,.turn 0,
    .native 1 ⟨0,some (8,[7,0,9]),3,none⟩,
    .start 0 ⟨"NodeKey.profile","macula_key_profile",.string⟩,
    .native 0 ⟨0,some (16,[112,0]),0,some (24,[123,125,0])⟩,
    .turn 0,.turn 1,.turn 0,.turn 1]

theorem overlap_reachable {s : Memory} (h : exec Memory.step .init overlap = some s) :
    Reachable Memory.step Memory.contract .init s := by
  refine .of_exec_of_forall overlap h ?_
  intro a ha u
  simp only [overlap,List.mem_cons,List.not_mem_nil,or_false] at ha
  rcases ha with rfl | rfl | rfl | rfl | rfl | rfl | rfl | rfl | rfl | rfl | rfl | rfl <;>
    simp [Memory.contract,Memory.Keeps]

theorem outcomes_of_replies_overlap : ∃ s, exec Memory.step .init overlap = some s ∧
    s.crashed = false ∧ (s.done.filter (·.1 = 0)).map Prod.snd =
      (s.answered.filter (·.1 = 0)).map fun x => (x.2.1,x.2.2.reply.outcome x.2.1) := by
  refine ⟨_,rfl,?_⟩
  have h := outcomes_of_replies (overlap_reachable rfl)
  exact ⟨h.1,(h.2 0).2 rfl⟩

/-- When no call is under way, what the library has lent and not got back is the results of the
calls that returned an error with them. -/
theorem left_over {s : Memory} (h : Reachable Memory.step Memory.contract .init s)
    (hr : ∀ i, s.phase i = .idle) (a : ℕ) (b : Block) :
    s.heap a = some b ↔ Lost s.answered a b := by
  obtain ⟨t,-,hv⟩ := reachable_valid h
  refine hv.ledger.rest ?_ a b
  intro i
  rw [hr i]
  rfl

theorem left_over_overlap : ∃ s, exec Memory.step .init overlap = some s ∧
    ∀ a b, s.heap a = some b ↔ Lost s.answered a b := by
  refine ⟨_,rfl,left_over (overlap_reachable rfl) ?_⟩
  intro i
  rcases i with _ | _ | i <;> rfl

end MaculaPy.Native
