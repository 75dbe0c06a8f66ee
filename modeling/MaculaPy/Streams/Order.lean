import MaculaPy.Streams.Stream

/-! # The order of one task's operations

One task issues every operation and every `free` on a stream, each when the await of the one
before is over, by its end or by a cancellation. What is entered for the stream is compared
with what was issued.
-/
namespace MaculaPy.Streams
open Blocking History

namespace Stream
variable {h : ℕ} {s t : Stream}

/-- Every await of what was issued is over. -/
def allOver (s : Stream) : Bool :=
  (List.range s.next).all fun i => (s.loop.calls i).all fun c => c.task.ended

/-- Each operation and each `free` is issued when every await before it is over. -/
def sequential (s : Stream) : StreamAction → Bool
  | .issue _ => s.allOver
  | .free => s.allOver
  | .freeHere => s.allOver
  | _ => true

/-- The await of what was issued as `i` was cancelled. -/
def cancelled (s : Stream) (i : ℕ) : Prop := (i,.cancelTask) ∈ s.loop.trace

/-- Whatever is entered was issued after all that was entered before it, and after no `free`. -/
def InOrder (s : Stream) : Prop :=
  Lawful (fun v x => ∀ y ∈ v, y.1 < x.1 ∧ y.2.free? = none) s.log

/-- Where a call's thread is after a step: it was just started, it begins, or it is where it
was. -/
inductive Began (s : Stream) (a : StreamAction) (i : ℕ) (d' : Call Unit Fault) : Prop
  | started (hi : i = s.next) (hw : d'.worker = .spawned)
  | begins {d : Call Unit Fault} (hd : s.loop.calls i = some d) (ha : a = .thread i .work)
    (hw : d.worker = .spawned) (hw' : d'.worker ≠ .spawned)
  | same {d : Call Unit Fault} (hd : s.loop.calls i = some d)
    (hn : a = .thread i .work → d.worker ≠ .spawned)
    (hw : d'.worker = .spawned ↔ d.worker = .spawned)

theorem spawn_began {a : StreamAction} {i : ℕ} {d' : Call Unit Fault} (j : Job)
    (ha : a ≠ .thread i .work) (hd : (s.spawn j).loop.calls i = some d') : Began s a i d' := by
  by_cases hi : i = s.next
  · subst hi
    rw [spawn_calls_self] at hd
    cases hd
    exact .started rfl rfl
  · rw [spawn_calls_of_ne s j hi] at hd
    exact .same hd (fun h => absurd h ha) Iff.rfl

/-- A step of the loop other than a thread's first. -/
theorem loop_began {a : StreamAction} {b : LoopAction ℕ Empty Unit Fault}
    {l : Loop ℕ Empty Unit Fault} (hl : Loop.step route s.loop b = some l) (hb : ∀ j, b ≠ .start j)
    {i : ℕ} {d' : Call Unit Fault} (hd : l.calls i = some d')
    (ha : a = .thread i .work → b = .thread i .work)
    (hn : ∀ c x, b = .thread i x → s.loop.calls i = some c → c.worker = .spawned → x ≠ .work) :
    Began s a i d' := by
  have hold : ∀ d, s.loop.calls i = some d → a = .thread i .work → d.worker ≠ .spawned :=
    fun d hd h hw => hn d .work (ha h) hd hw rfl
  rcases Loop.step_worker hl hd with h | ⟨x,rfl⟩ | ⟨d,hd,hw⟩
  · exact absurd h (hb i)
  · cases Loop.step_move hl with
    | @thread _ _ c e _ hc ht =>
      rw [Loop.after_calls_self] at hd
      cases hd
      refine .same hc (hold c hc) ⟨fun hw => ?_,fun hw => ?_⟩
      · by_contra hc'
        exact threadStep_begun hc' ht hw
      · exact threadStep_spawned hw (hn c x rfl hc hw) ht
  · exact .same hd (hold d hd) (by rw [hw])

theorem step_began {a : StreamAction} (he : s.step a = some t) {i : ℕ}
    {d' : Call Unit Fault} (hd' : t.loop.calls i = some d') : Began s a i d' := by
  cases step_move he with
  | refused _ => exact .same hd' (by simp) Iff.rfl
  | issue _ => exact spawn_began _ (by simp) hd'
  | free => exact spawn_began _ (by simp) hd'
  | freeHere =>
    rw [take_loop] at hd'
    exact .same hd' (by simp) Iff.rfl
  | freeEnters _ => exact .same hd' (by simp) Iff.rfl
  | @begins j c l hc hw hl =>
    rw [enter_loop] at hd'
    by_cases hi : i = j
    · subst hi
      cases Loop.step_move hl with
      | thread _ hc' ht =>
        obtain rfl := Option.some.inj (hc.symm.trans hc')
        replace hd' := (Loop.after_calls_self _ _ _).symm.trans hd'
        cases hd'
        exact .begins hc rfl hw (threadStep_begins hw ht)
    · exact loop_began hl (by simp) hd' (fun h => by cases h; rfl)
        (fun _ _ h => by cases h; exact absurd rfl hi)
  | @thread j b c l hc hw hl =>
    refine loop_began hl (by simp) hd' (fun h => by cases h; rfl) (fun d x hb hd hs => ?_)
    cases hb
    obtain rfl := Option.some.inj (hc.symm.trans hd)
    exact hw hs
  | cancelTask hl => exact loop_began hl (by simp) hd' (by simp) (by simp)
  | run hl => exact loop_began hl (by simp) hd' (by simp) (by simp)

/-- What a step adds to the log. -/
inductive Logs (s t : Stream) (a : StreamAction) : Prop
  | nothing (hl : t.log = s.log)
  | op {i k : ℕ} {o : Op} {c : Call Unit Fault} (ha : a = .thread i .work)
    (hc : s.loop.calls i = some c) (hw : c.worker = .spawned) (hj : s.jobs i = some (.op o k))
    (ho : o.encodes = true) (hl : t.log = (i,.op o k) :: s.log)
  | free {i k : ℕ} (ha : a = .freeEnters i) (ht : s.taken.lookup i = some k)
    (hl : t.log = (i,.free k) :: s.log)

theorem step_logs {a : StreamAction} (he : s.step a = some t) : Logs s t a := by
  cases step_move he with
  | freeHere => exact .nothing (take_log _ _)
  | freeEnters ht => exact .free rfl ht rfl
  | @begins i c l hc hw hl =>
    unfold enter
    split
    · next hj =>
      split
      · next ho => exact .op rfl hc hw hj ho rfl
      · exact .nothing rfl
    · exact .nothing (take_log _ _)
    · exact .nothing rfl
  | _ => exact .nothing rfl

/-- What a step issues: at most one job, which has its call unless it is a `free` in place. -/
inductive Issues (s t : Stream) : Prop
  | nothing (hn : t.next = s.next) (hj : t.jobs = s.jobs)
  | job (j : Job) (hn : t.next = s.next + 1) (hj : t.jobs = (s.enlist j).jobs)
    (hc : j = .freeHere ∨ ∃ c, t.loop.calls s.next = some c)

theorem step_issues {a : StreamAction} (he : s.step a = some t) : Issues s t := by
  cases step_move he with
  | issue _ => exact .job _ rfl rfl (Or.inr ⟨_,spawn_calls_self s _⟩)
  | free => exact .job _ rfl rfl (Or.inr ⟨_,spawn_calls_self s _⟩)
  | freeHere => exact .job .freeHere (take_next _ _) (take_jobs _ _) (Or.inl rfl)
  | begins _ _ _ => exact .nothing (enter_next _ _) (enter_jobs _ _)
  | _ => exact .nothing rfl rfl

/-- What a step lets a run of `free` take. -/
theorem step_taken {a : StreamAction} (he : s.step a = some t) {x : ℕ × ℕ} (hx : x ∈ t.taken) :
    x ∈ s.taken ∨ (s.handle = some x.2 ∧
      (t.jobs x.1 = some .freeHere ∨ s.jobs x.1 = some .free)) := by
  have htake : ∀ {u : Stream} {i : ℕ}, x ∈ (u.take i).taken →
      x ∈ u.taken ∨ (u.handle = some x.2 ∧ x.1 = i) := by
    intro u i hx
    unfold take at hx
    split at hx
    · exact Or.inl hx
    · next k hh =>
      rcases List.mem_cons.mp hx with rfl | hx
      · exact Or.inr ⟨hh,rfl⟩
      · exact Or.inl hx
  cases step_move he with
  | freeHere =>
    rcases htake hx with hx | ⟨hh,hi⟩
    · exact Or.inl hx
    · rw [take_jobs,hi]
      exact Or.inr ⟨hh,Or.inl (enlist_jobs_self s _)⟩
  | freeEnters _ => exact Or.inl (List.mem_of_mem_filter hx)
  | @begins i c l hc hw hl =>
    unfold enter at hx
    split at hx
    · split at hx <;> exact Or.inl hx
    · next hj =>
      rcases htake hx with hx | ⟨hh,hi⟩
      · exact Or.inl hx
      · exact Or.inr ⟨hh,Or.inr (hi ▸ hj)⟩
    · exact Or.inl hx
  | _ => exact Or.inl hx

theorem mem_frees {i k : ℕ} (hx : (i,.free k) ∈ s.log) : k ∈ s.frees :=
  List.mem_filterMap.mpr ⟨_,hx,rfl⟩

theorem StreamValid.ne_next (hv : StreamValid h s) {i : ℕ} {c : Call Unit Fault}
    (hc : s.loop.calls i = some c) : i ≠ s.next := by
  rintro rfl
  simp [(hv.unused s.next le_rfl).1] at hc

/-- The log holds what the threads that have begun were started for, once each. -/
structure LogValid (s : Stream) : Prop where
  numbered : ∀ i, i < s.next → s.jobs i ≠ none
  called : ∀ i j, s.jobs i = some j → j = .freeHere ∨ ∃ c, s.loop.calls i = some c
  entered : ∀ i o k c, s.jobs i = some (.op o k) → s.loop.calls i = some c →
    c.worker ≠ .spawned → o.encodes = true → (i,.op o k) ∈ s.log
  logged : ∀ i o k, (i,.op o k) ∈ s.log → s.jobs i = some (.op o k) ∧ o.encodes = true ∧
    ∀ c, s.loop.calls i = some c → c.worker ≠ .spawned
  isFree : ∀ i k, (i,k) ∈ s.taken ∨ (i,.free k) ∈ s.log →
    s.jobs i = some .free ∨ s.jobs i = some .freeHere
  nodup : s.log.Nodup

theorem init_logValid (h : ℕ) : LogValid (init h) where
  numbered i hi := absurd hi (Nat.not_lt_zero i)
  called i j hj := by cases hj
  entered i o k c hj := by cases hj
  logged i o k hx := by cases hx
  isFree i k hx := by rcases hx with hx | hx <;> cases hx
  nodup := List.nodup_nil

/-- Every step keeps the facts. -/
theorem step_logValid {a : StreamAction} (hv : StreamValid h s) (hl : LogValid s)
    (he : s.step a = some t) : LogValid t := by
  have hk := step_keeps hv he
  have hold : ∀ i j, t.jobs i = some j → i ≠ s.next → s.jobs i = some j := by
    intro i j hj hi
    cases step_issues he with
    | nothing _ hjobs => exact hjobs ▸ hj
    | job j' _ hjobs _ => rwa [hjobs,enlist_jobs_of_ne s j' hi] at hj
  constructor
  · intro i hi
    cases step_issues he with
    | nothing hn hjobs => exact hjobs ▸ hl.numbered i (hn ▸ hi)
    | job j hn hjobs _ =>
      rw [hjobs]
      by_cases hnext : i = s.next
      · rw [hnext,enlist_jobs_self]
        simp
      · rw [enlist_jobs_of_ne s j hnext]
        exact hl.numbered i (by omega)
  · intro i j hj
    cases step_issues he with
    | nothing _ hjobs =>
      apply (hl.called i j (hjobs ▸ hj)).imp id
      rintro ⟨c,hc⟩
      exact hk.calls i c hc
    | job j' _ hjobs hc =>
      by_cases hnext : i = s.next
      · subst hnext
        rw [hjobs,enlist_jobs_self] at hj
        cases hj
        exact hc
      · apply (hl.called i j (hold i j hj hnext)).imp id
        rintro ⟨c,hc⟩
        exact hk.calls i c hc
  · intro i o k d' hj hd hw ho
    cases step_began he hd with
    | started _ hs => exact absurd hs hw
    | @begins d hcall ha hs _ =>
      subst ha
      have hjob := hold i _ hj (hv.ne_next hcall)
      cases step_move he with
      | @begins _ c l _ _ _ => simp [enter,hjob,ho]
      | thread hc hn _ =>
        obtain rfl := Option.some.inj (hcall.symm.trans hc)
        exact absurd rfl (hn hs)
    | @same d hcall _ hiff =>
      have hjob := hold i _ hj (hv.ne_next hcall)
      exact hk.log.subset (hl.entered i o k d hjob hcall (fun h => hw (hiff.mpr h)) ho)
  · have hlogged : ∀ i o k, (i,.op o k) ∈ s.log → t.jobs i = some (.op o k) ∧ o.encodes = true ∧
        ∀ c, t.loop.calls i = some c → c.worker ≠ .spawned := by
      intro i o k hx
      obtain ⟨hj,ho,hw⟩ := hl.logged i o k hx
      refine ⟨hk.jobs i _ hj,ho,fun c hc => ?_⟩
      cases step_began he hc with
      | started hi _ => simp [hi,(hv.unused s.next le_rfl).2] at hj
      | begins _ _ _ hw' => exact hw'
      | @same d hd _ hiff => exact fun h => hw d hd (hiff.mp h)
    intro i o k hx
    cases step_logs he with
    | nothing hlog => exact hlogged i o k (hlog ▸ hx)
    | @op i' k' o' c ha hc hw hj ho hlog =>
      rw [hlog] at hx
      rcases List.mem_cons.mp hx with heq | hx
      · obtain ⟨rfl,rfl,rfl⟩ : i = i' ∧ o = o' ∧ k = k' := by simpa using heq
        refine ⟨hk.jobs i _ hj,ho,fun d' hd => ?_⟩
        cases step_began he hd with
        | started hi _ => exact absurd hi (hv.ne_next hc)
        | begins _ _ _ hw' => exact hw'
        | @same d hd hn _ =>
          obtain rfl := Option.some.inj (hc.symm.trans hd)
          exact absurd hw (hn ha)
      · exact hlogged i o k hx
    | free _ _ hlog =>
      rw [hlog] at hx
      exact hlogged i o k (by simpa using hx)
  · have hfree : ∀ i k, (i,k) ∈ s.taken ∨ (i,.free k) ∈ s.log →
        t.jobs i = some .free ∨ t.jobs i = some .freeHere :=
      fun i k hx => (hl.isFree i k hx).imp (hk.jobs i _) (hk.jobs i _)
    rintro i k (hx | hx)
    · rcases step_taken he hx with hx | ⟨_,hj | hj⟩
      · exact hfree i k (Or.inl hx)
      · exact Or.inr hj
      · exact Or.inl (hk.jobs i _ hj)
    · cases step_logs he with
      | nothing hlog => exact hfree i k (Or.inr (hlog ▸ hx))
      | op _ _ _ _ _ hlog =>
        rw [hlog] at hx
        exact hfree i k (Or.inr (by simpa using hx))
      | @free i' k' _ ht hlog =>
        obtain ⟨rfl,_,htaken,_⟩ := hv.account.freed_of_lookup ht
        rw [hlog] at hx
        rcases List.mem_cons.mp hx with heq | hx
        · obtain ⟨rfl,rfl⟩ : i = i' ∧ k = k' := by simpa using heq
          exact hfree i k (Or.inl (by simp [htaken]))
        · exact hfree i k (Or.inr hx)
  · cases step_logs he with
    | nothing hlog => exact hlog ▸ hl.nodup
    | op _ hc hw _ _ hlog =>
      rw [hlog]
      exact List.nodup_cons.mpr ⟨fun hx => (hl.logged _ _ _ hx).2.2 _ hc hw,hl.nodup⟩
    | free _ ht hlog =>
      obtain ⟨_,_,_,hf⟩ := hv.account.freed_of_lookup ht
      rw [hlog]
      exact List.nodup_cons.mpr ⟨fun hx => by simpa [hf] using mem_frees hx,hl.nodup⟩

theorem reachable_logValid {ok : Stream → StreamAction → Prop}
    (hs : Runs.Reachable step ok (init h) s) : LogValid s :=
  hs.induct (init_logValid h)
    (fun _ _ _ hs hl _ he => step_logValid (reachable_streamValid hs) hl he)

/-- What was issued as `i` is an operation, and was entered in `v` or failed before. -/
def past (s : Stream) (v : List (ℕ × Entered)) (i : ℕ) : Prop :=
  ∃ o k, s.jobs i = some (.op o k) ∧ (o.encodes = true → (i,.op o k) ∈ v)

/-- All that was issued before `j` was cancelled, or is past. -/
def Follows (s : Stream) (v : List (ℕ × Entered)) (j : ℕ) : Prop :=
  ∀ i, i < j → s.cancelled i ∨ s.past v i

/-- What was issued as `j` is a `free` that has nothing to free. -/
structure Idle (s : Stream) (j : ℕ) : Prop where
  handle : s.handle = none
  job : ∀ o k, s.jobs j ≠ some (.op o k)
  taken : ∀ k, (j,k) ∉ s.taken

theorem Follows.mono (hk : Keeps s t) {v u : List (ℕ × Entered)} (hvu : v ⊆ u) {j : ℕ}
    (hf : Follows s v j) : Follows t u j := by
  intro i hi
  apply (hf i hi).imp (fun hc => hk.trace _ hc)
  rintro ⟨o,k,hj,ho⟩
  exact ⟨o,k,hk.jobs i _ hj,fun h => hvu (ho h)⟩

/-- An await that is over was cancelled, or the thread did what it was started for. -/
theorem over_cases (hv : StreamValid h s) (hl : LogValid s) (ho : s.allOver = true) {i : ℕ}
    (hi : i < s.next) : s.cancelled i ∨ s.past s.log i ∨ s.handle = none := by
  obtain ⟨j,hj⟩ := Option.ne_none_iff_exists'.mp (hl.numbered i hi)
  rcases hl.called i j hj with rfl | ⟨c,hc⟩
  · exact Or.inr (Or.inr (hv.clearedHere i hj))
  by_cases hx : s.cancelled i
  · exact Or.inl hx
  have hend : c.task.ended = true := by
    have hall := List.all_eq_true.mp ho i (List.mem_range.mpr hi)
    simpa [hc] using hall
  have hs : Runs.Reachable (Blocking.step .native) Runs.free Blocking.init (s.loop.callState i c) :=
    Loop.reachable_call hv.loop hc
  obtain ⟨o,hposted⟩ := posted_of_uncancelled hs hend (fun hm => hx (mem_view.mp hm))
  have hw : c.worker ≠ .spawned := by
    intro hw
    simp [Loop.callState,hw,Worker.posted?] at hposted
  rcases hv.job i c hc with ⟨o,hop⟩ | hfree
  · exact Or.inr (Or.inl ⟨o,h,hop,fun he => hl.entered i o h c hop hc hw he⟩)
  · exact Or.inr (Or.inr (hv.cleared i c hfree hc hw))

/-- Whatever can still be entered follows what was issued before it, and so does all that was. -/
structure OrderValid (s : Stream) : Prop where
  issued : ∀ j, j < s.next → Follows s s.log j ∨ Idle s j
  order : Lawful (fun v x => Follows s v x.1) s.log

theorem init_orderValid (h : ℕ) : OrderValid (init h) where
  issued j hj := absurd hj (Nat.not_lt_zero j)
  order := trivial

theorem Idle.mono (hv : StreamValid h s) (hl : LogValid s) {a : StreamAction}
    (he : s.step a = some t) {j : ℕ} (hj : j < s.next) (hi : Idle s j) : Idle t j := by
  have hk := step_keeps hv he
  obtain ⟨x,hx⟩ := Option.ne_none_iff_exists'.mp (hl.numbered j hj)
  refine ⟨hk.handle hi.handle,fun o k ho => ?_,fun k hm => ?_⟩
  · rw [hk.jobs j x hx] at ho
    exact hi.job o k (hx.trans ho)
  · rcases step_taken he hm with hm | ⟨hh,_⟩
    · exact hi.taken k hm
    · simp [hi.handle] at hh

/-- A job issued when every await before it is over follows them all, or has nothing to do. -/
theorem issued_in_order (hv : StreamValid h s) (hl : LogValid s) {a : StreamAction}
    (ha : s.sequential a = true) (he : s.step a = some t) (hn : t.next ≠ s.next) :
    Follows t t.log s.next ∨ Idle t s.next := by
  have hk := step_keeps hv he
  have ho : s.allOver = true := by
    cases step_move he with
    | issue _ => exact ha
    | free => exact ha
    | freeHere => exact ha
    | begins _ _ _ => exact absurd (enter_next _ _) hn
    | _ => exact absurd rfl hn
  by_cases hh : s.handle = none
  · refine Or.inr ⟨hk.handle hh,fun o k hj => ?_,fun k hm => ?_⟩
    · cases step_move he with
      | issue hsome => simp [hh] at hsome
      | free => simp [spawn] at hj
      | freeHere => simp at hj
      | begins _ _ _ => exact hn (enter_next _ _)
      | _ => exact hn rfl
    · rcases step_taken he hm with hm | ⟨hsome,_⟩
      · have hnone := (hv.unused s.next le_rfl).2
        simpa [hnone] using hl.isFree s.next k (Or.inl hm)
      · simp [hh] at hsome
  · refine Or.inl (Follows.mono hk hk.log.subset (fun i hi => ?_))
    exact (over_cases hv hl ho hi).imp id (fun h => h.resolve_right hh)

/-- Every step of one task keeps the order. -/
theorem step_orderValid {a : StreamAction} (hv : StreamValid h s) (hl : LogValid s)
    (hx : OrderValid s) (ha : s.sequential a = true) (he : s.step a = some t) : OrderValid t := by
  have hk := step_keeps hv he
  have hlawful : Lawful (fun v x => Follows t v x.1) s.log := by
    rw [lawful_iff]
    intro u x v hlog
    exact (lawful_iff.mp hx.order u x v hlog).mono hk (List.Subset.refl v)
  constructor
  · intro j hj
    by_cases hlt : j < s.next
    · exact (hx.issued j hlt).imp (fun hf => hf.mono hk hk.log.subset)
        (fun hi => hi.mono hv hl he hlt)
    · cases step_issues he with
      | nothing hn _ => exact absurd (hn ▸ hj) hlt
      | job _ hn _ _ =>
        obtain rfl : j = s.next := by omega
        exact issued_in_order hv hl ha he (by omega)
  · cases step_logs he with
    | nothing hlog => exact hlog ▸ hlawful
    | @op i k o c _ hc _ hj _ hlog =>
      rw [hlog]
      refine ⟨?_,hlawful⟩
      have hi : i < s.next := by
        by_contra hge
        simp [(hv.unused i (by omega)).1] at hc
      rcases hx.issued i hi with hf | hidle
      · exact hf.mono hk (List.Subset.refl _)
      · exact absurd hj (hidle.job o k)
    | @free i k _ ht hlog =>
      rw [hlog]
      refine ⟨?_,hlawful⟩
      obtain ⟨rfl,_,htaken,_⟩ := hv.account.freed_of_lookup ht
      have hm : (i,k) ∈ s.taken := by simp [htaken]
      have hi : i < s.next := by
        by_contra hge
        simpa [(hv.unused i (by omega)).2] using hl.isFree i k (Or.inl hm)
      rcases hx.issued i hi with hf | hidle
      · exact hf.mono hk (List.Subset.refl _)
      · exact absurd hm (hidle.taken k)

theorem reachable_orderValid
    (hs : Runs.Reachable step (fun s a => s.sequential a = true) (init h) s) : OrderValid s :=
  hs.induct (init_orderValid h) (fun _ _ _ hs hx ha he =>
    step_orderValid (reachable_streamValid hs) (reachable_logValid hs) hx ha he)

section Entries
variable {u v : List (ℕ × Entered)} {x y : ℕ × Entered}

theorem LogValid.not_past (hl : LogValid s) (hlog : s.log = u ++ x :: v) : ¬ s.past v x.1 := by
  rintro ⟨o,k,hj,ho⟩
  have hx : x ∈ s.log := by simp [hlog]
  have hn : x ∉ v := by
    have hd := hl.nodup
    rw [hlog] at hd
    exact (List.nodup_cons.mp (List.nodup_append.mp hd).2.1).1
  rcases x with ⟨i,o' | k'⟩
  · obtain ⟨hj',he,_⟩ := hl.logged i o' _ hx
    cases hj.symm.trans hj'
    exact hn (ho he)
  · rcases hl.isFree i k' (Or.inr hx) with hf | hf <;> simp [hf] at hj

/-- What was issued is entered once. -/
theorem LogValid.unique (hv : StreamValid h s) (hl : LogValid s) (hx : x ∈ s.log) (hy : y ∈ s.log)
    (hxy : x.1 = y.1) : x = y := by
  rcases x with ⟨i,o | k⟩ <;> rcases y with ⟨j,o' | k'⟩ <;> obtain rfl : i = j := hxy
  · have hj := (hl.logged _ _ _ hx).1.symm.trans (hl.logged _ _ _ hy).1
    cases hj
    rfl
  · rcases hl.isFree _ _ (Or.inr hy) with hf | hf <;> simp [(hl.logged _ _ _ hx).1] at hf
  · rcases hl.isFree _ _ (Or.inr hx) with hf | hf <;> simp [(hl.logged _ _ _ hy).1] at hf
  · have hfree : ∀ k, (i,.free k) ∈ s.log → k = h := by
      intro k hk
      have hm := mem_frees hk
      cases hv.account with
      | freed _ _ hf => simpa [hf] using hm
      | live _ _ hf => simp [hf] at hm
      | taken _ _ _ hf => simp [hf] at hm
    rw [hfree k hx,hfree k' hy]

end Entries

/-- The awaits of a frame and of the end of sending are cancelled, and their threads are late. -/
def lateFrame : List StreamAction :=
  [.issue .send,.cancelTask 0,.run,.run,.issue .closeSend,.cancelTask 1,.run,.run,.free,
    .thread 2 .work,.freeEnters 2,.thread 1 .work,.thread 0 .work]

/-- The await of a `free` is cancelled, and its thread is late. -/
def lateFree : List StreamAction :=
  [.free,.cancelTask 0,.run,.run,.issue .send,.thread 0 .work,.freeEnters 0,.thread 1 .work]

end Stream
end MaculaPy.Streams
