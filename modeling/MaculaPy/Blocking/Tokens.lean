import MaculaPy.Blocking.Handshake
import MaculaPy.Blocking.Loop

/-! # The life of a cancel token

A token is created, may be cancelled, and is freed after the native call returned. The
worker frees it before the loop learns that the call is over, so `_end_the_call` can find
the future pending and cancel a number that is no longer the call's own. Runs that keep
out of that window never do.
-/
namespace MaculaPy.Blocking
open Asyncio History
variable {V E : Type*}

/-- What may happen to the token of one call after the history `t` of that call. -/
def TokenLaw (t : List (Event V E)) : Event V E → Prop
  | .created _ => ∀ h, .created h ∉ t
  | .freed h => .created h ∈ t ∧ (∃ o, .returned o ∈ t) ∧ ∀ h', .freed h' ∉ t
  | .cancelToken h => .created h ∈ t ∧ .freed h ∉ t
  | _ => True

/-- The worker is past `cancels.free`. -/
def Worker.freed : Worker V E → Bool
  | .finished _ => true
  | .posted _ => true
  | _ => false

/-- The loop thread is between `future.done()` and `cancels.cancel`. -/
def Task.inWindow : Task V E → Bool
  | .ending .setFlag => true
  | .ending .readToken => true
  | .ending (.cancelToken _) => true
  | _ => false

/-- `future.done()` is not asked between the free of the token and the settling. -/
def Call.checksInTime (c : Call V E) : Bool :=
  match c.task with
  | .ending .checkDone => !c.worker.freed || c.future.done
  | _ => true

/-- The token is not freed while the loop thread is about to cancel it. -/
def Call.freesInTime (c : Call V E) : Bool :=
  match c.worker with
  | .freeing _ _ => !c.task.inWindow
  | _ => true

/-- The guard that keeps one call out of the window. -/
def timely (s : State V E) : Action V E → Bool
  | .endCall => s.call.checksInTime
  | .thread .work => s.call.freesInTime
  | _ => true

structure TokenValid (r : Route) (s : State V E) : Prop where
  law : Lawful TokenLaw s.trace
  uncreated : s.call.worker = .spawned → ∀ h, .created h ∉ s.trace
  held : ∀ h, s.call.worker.token? = some h → .created h ∈ s.trace ∧ ∀ h', .freed h' ∉ s.trace
  gone : ∀ h, .created h ∈ s.trace → s.call.worker.token? = some h ∨ .freed h ∈ s.trace
  listed : ∀ h ∈ s.call.token, .created h ∈ s.trace
  line : ∀ h, s.call.task = .ending (.cancelToken h) → .created h ∈ s.trace
  window : s.call.task.inWindow = true → s.call.worker.freed = false
  ending : s.call.task.isEnding = true → r ≠ .native
  freed : ∀ h, .freed h ∈ s.trace → s.call.worker.freed = true
  finished : r ≠ .native → s.call.worker.freed = true → ∃ h, .freed h ∈ s.trace

theorem init_tokenValid (r : Route) : TokenValid r (init : State V E) where
  law := trivial
  uncreated _ _ h := by simp [init] at h
  held _ h := by simp [init,start,Worker.token?] at h
  gone _ h := by simp [init] at h
  listed _ h := by simp [init,start] at h
  line _ h := by simp [init,start] at h
  window h := by simp [init,start,Task.inWindow] at h
  ending h := by simp [init,start,Task.isEnding] at h
  freed _ h := by simp [init] at h
  finished _ h := by simp [init,start,Worker.freed] at h

section Steps
variable {r : Route} {s : State V E} {k : List (Callback V E)}

/-- The token a cancellation names is the one the worker holds. -/
theorem TokenValid.held_of_line (hi : TokenValid r s) {h : ℕ}
    (hl : s.call.task = .ending (.cancelToken h)) : s.call.worker.token? = some h := by
  rcases hi.gone h (hi.line h hl) with hx | hx
  · exact hx
  · have hf := hi.window (by simp [hl,Task.inWindow])
    rw [hi.freed h hx] at hf
    cases hf

/-- A step that leaves the worker and its token alone. -/
theorem TokenValid.frame (hi : TokenValid r s) {e : Effect V E}
    (hw : e.call.worker = s.call.worker) (hk : e.call.token = s.call.token)
    (hc : ∀ h, .created h ∉ e.events) (hf : ∀ h, .freed h ∉ e.events)
    (hlaw : Lawful TokenLaw (s.after e).trace)
    (hl : ∀ h, e.call.task = .ending (.cancelToken h) → .created h ∈ s.trace)
    (hx : e.call.task.inWindow = true → s.call.worker.freed = false)
    (hr : e.call.task.isEnding = true → r ≠ .native) :
    TokenValid r ({s with ready := k}.after e) := by
  have hcm : ∀ h, .created h ∈ (s.after e).trace ↔ .created h ∈ s.trace :=
    fun h => mem_after.trans (or_iff_right (hc h))
  have hfm : ∀ h, .freed h ∈ (s.after e).trace ↔ .freed h ∈ s.trace :=
    fun h => mem_after.trans (or_iff_right (hf h))
  refine ⟨hlaw,?_,?_,?_,?_,?_,?_,hr,?_,?_⟩
  · intro h h'
    exact mt (hcm h').mp (hi.uncreated (hw ▸ h) h')
  · intro h hh
    rw [State.after_call,hw] at hh
    exact ⟨(hcm h).mpr (hi.held h hh).1,fun h' => mt (hfm h').mp ((hi.held h hh).2 h')⟩
  · intro h hh
    rw [State.after_call,hw]
    exact (hi.gone h ((hcm h).mp hh)).imp id (hfm h).mpr
  · intro h hh
    rw [State.after_call,hk] at hh
    exact (hcm h).mpr (hi.listed h hh)
  · exact fun h hh => (hcm h).mpr (hl h hh)
  · intro hh
    rw [State.after_call,hw]
    exact hx hh
  · intro h hh
    rw [State.after_call,hw]
    exact hi.freed h ((hfm h).mp hh)
  · intro hn hh
    rw [State.after_call,hw] at hh
    obtain ⟨h,hh⟩ := hi.finished hn hh
    exact ⟨h,(hfm h).mpr hh⟩

/-- A worker step that neither takes nor frees the token. -/
theorem TokenValid.keep (hi : TokenValid r s) {w : Worker V E} {token : List ℕ}
    {posts : List (Callback V E)} {events : List (Event V E)}
    (ht : w.token? = s.call.worker.token?) (hf : w.freed = s.call.worker.freed)
    (hn : w ≠ .spawned) (hc : ∀ h, .created h ∉ events) (hx : ∀ h, .freed h ∉ events)
    (hlaw : Lawful TokenLaw (events ++ s.trace)) (hl : ∀ h ∈ token, .created h ∈ s.trace) :
    TokenValid r (s.after
      {call := {s.call with worker := w, token := token}, posts := posts, events := events}) := by
  have hcm : ∀ h, .created h ∈ events ++ s.trace ↔ .created h ∈ s.trace :=
    fun h => List.mem_append.trans (or_iff_right (hc h))
  have hfm : ∀ h, .freed h ∈ events ++ s.trace ↔ .freed h ∈ s.trace :=
    fun h => List.mem_append.trans (or_iff_right (hx h))
  refine ⟨hlaw,fun h => absurd h hn,?_,?_,?_,?_,?_,hi.ending,?_,?_⟩
  · intro h hh
    rw [State.after_call,ht] at hh
    exact ⟨(hcm h).mpr (hi.held h hh).1,fun h' => mt (hfm h').mp ((hi.held h hh).2 h')⟩
  · intro h hh
    rw [State.after_call,ht]
    exact (hi.gone h ((hcm h).mp hh)).imp id (hfm h).mpr
  · exact fun h hh => (hcm h).mpr (hl h hh)
  · exact fun h hh => (hcm h).mpr (hi.line h hh)
  · intro hh
    rw [State.after_call,hf]
    exact hi.window hh
  · intro h hh
    rw [State.after_call,hf]
    exact hi.freed h ((hfm h).mp hh)
  · intro hr hh
    rw [State.after_call,hf] at hh
    obtain ⟨h,hh⟩ := hi.finished hr hh
    exact ⟨h,(hfm h).mpr hh⟩

theorem free_tokenValid (hd : HandoverValid r s) (hi : TokenValid r s) {h : ℕ}
    {o : Except (Raised E) V} (hw : s.call.worker = .freeing h o) (hg : s.call.freesInTime = true) :
    TokenValid r (s.after {call := {s.call with worker := .finished o}, events := [.freed h]}) := by
  obtain ⟨hc,hn⟩ := hi.held h (by simp [hw,Worker.token?])
  obtain ⟨o',_,hr,_⟩ := hd.returned o (by simp [hw,Worker.outcome?])
  have hret : .returned o' ∈ s.trace := mem_returns.mp (by simp [hr])
  refine ⟨⟨⟨hc,⟨o',hret⟩,hn⟩,hi.law⟩,by simp,by simp [Worker.token?],?_,?_,?_,?_,hi.ending,?_,?_⟩
  · intro h' hh
    rcases mem_after.mp hh with hh | hh
    · simp at hh
    · rcases hi.gone h' hh with hx | hx
      · obtain rfl : h = h' := by simpa [hw,Worker.token?] using hx
        simp
      · exact absurd hx (hn h')
  · exact fun h' hh => mem_after.mpr (Or.inr (hi.listed h' hh))
  · exact fun h' hh => mem_after.mpr (Or.inr (hi.line h' hh))
  · intro hh
    have hf : s.call.task.inWindow = false := by simpa [Call.freesInTime,hw] using hg
    exact absurd (hf.symm.trans hh) Bool.false_ne_true
  · exact fun _ _ => rfl
  · exact fun _ _ => ⟨h,by simp⟩

theorem work_tokenValid {e : Effect V E} (hd : HandoverValid r s) (hi : TokenValid r s)
    (hg : s.call.freesInTime = true) (he : work r s.call = some e) : TokenValid r (s.after e) := by
  unfold work at he
  split at he
  · next hw =>
    split at he <;> cases he
    have hc := hi.uncreated hw
    have hf : ∀ h, .freed h ∉ s.trace := by
      intro h hh
      have hx := hi.freed h hh
      simp [hw,Worker.freed] at hx
    refine ⟨⟨trivial,hi.law⟩,by simp,by simp [Worker.token?],?_,?_,?_,by simp [Worker.freed],
      hi.ending,?_,by simp [Worker.freed]⟩
    · intro h hh
      simp [hc h] at hh
    · exact fun h hh => mem_after.mpr (Or.inr (hi.listed h hh))
    · exact fun h hh => mem_after.mpr (Or.inr (hi.line h hh))
    · intro h hh
      simp [hf h] at hh
  · next h hw =>
    cases he
    have hc := (hi.held h (by simp [hw,Worker.token?])).1
    refine hi.keep (by simp [hw,Worker.token?]) (by simp [hw,Worker.freed]) (by simp) (by simp)
      (by simp) hi.law ?_
    intro h' hh
    rcases List.mem_append.mp hh with hh | hh
    · exact hi.listed h' hh
    · exact List.mem_singleton.mp hh ▸ hc
  · next h hw =>
    cases he
    by_cases hb : s.call.cancelled = true
    · rw [if_pos hb]
      exact hi.keep (by simp [hw,Worker.token?]) (by simp [hw,Worker.freed]) (by simp) (by simp)
        (by simp) hi.law hi.listed
    · rw [if_neg hb]
      exact hi.keep (by simp [hw,Worker.token?]) (by simp [hw,Worker.freed]) (by simp) (by simp)
        (by simp) hi.law hi.listed
  · next h hw =>
    cases he
    obtain ⟨hc,hn⟩ := hi.held h (by simp [hw,Worker.token?])
    exact hi.keep (by simp [hw,Worker.token?]) (by simp [hw,Worker.freed]) (by simp) (by simp)
      (by simp) ⟨⟨hc,hn h⟩,hi.law⟩ hi.listed
  · next h hw =>
    cases he
    exact hi.keep (by simp [hw,Worker.token?]) (by simp [hw,Worker.freed]) (by simp) (by simp)
      (by simp) ⟨trivial,hi.law⟩ hi.listed
  · cases he
  · next h o hw =>
    cases he
    exact hi.keep (by simp [hw,Worker.token?]) (by simp [hw,Worker.freed]) (by simp) (by simp)
      (by simp) hi.law hi.listed
  · next h o hw =>
    cases he
    exact free_tokenValid hd hi hw hg
  · next o hw =>
    cases he
    exact hi.keep (by simp [hw,Worker.token?]) (by simp [hw,Worker.freed]) (by simp) (by simp)
      (by simp) hi.law hi.listed
  · cases he

theorem Task.isEnding_of_inWindow {t : Task V E} (h : t.inWindow = true) : t.isEnding = true := by
  unfold Task.inWindow at h
  split at h <;> simp_all [Task.isEnding]

theorem threadStep_tokenValid {a : ThreadAction V E} {e : Effect V E} (hd : HandoverValid r s)
    (hh : HandshakeValid r s) (hi : TokenValid r s) (hg : timely s (.thread a) = true)
    (he : threadStep r s.call a = some e) : TokenValid r (s.after e) := by
  cases a with
  | newToken h =>
    simp only [threadStep] at he
    split at he
    · next hw =>
      cases he
      have hc := hi.uncreated hw
      have hf : ∀ h, .freed h ∉ s.trace := by
        intro h hx
        have hx := hi.freed h hx
        simp [hw,Worker.freed] at hx
      refine ⟨⟨hc,hi.law⟩,by simp,?_,?_,?_,?_,by simp [Worker.freed],hi.ending,?_,
        by simp [Worker.freed]⟩
      · intro h' hx
        obtain rfl : h = h' := by simpa [Worker.token?] using hx
        exact ⟨by simp,by simp [hf]⟩
      · intro h' hx
        obtain rfl : h' = h := by simpa [hc h'] using hx
        exact Or.inl rfl
      · exact fun h hx => mem_after.mpr (Or.inr (hi.listed h hx))
      · exact fun h hx => mem_after.mpr (Or.inr (hi.line h hx))
      · intro h hx
        simp [hf h] at hx
    · cases he
  | work => exact work_tokenValid hd hi hg he
  | callReturns o =>
    simp only [threadStep] at he
    split at he
    · next h hw =>
      cases he
      exact hi.keep (by simp [hw,Worker.token?]) (by simp [hw,Worker.freed]) (by simp) (by simp)
        (by simp) ⟨trivial,hi.law⟩ hi.listed
    · next hw =>
      cases he
      have hr := hh.tokenless hw
      have hf : ∀ h, .freed h ∉ s.trace := by
        intro h hx
        have hx := hi.freed h hx
        simp [hw,Worker.freed] at hx
      refine ⟨⟨trivial,hi.law⟩,by simp,by simp [Worker.token?],?_,?_,?_,?_,hi.ending,?_,
        fun h => absurd hr h⟩
      · intro h hx
        have hg := hi.gone h (by simpa using hx)
        simp [hw,Worker.token?,hf h] at hg
      · exact fun h hx => mem_after.mpr (Or.inr (hi.listed h hx))
      · exact fun h hx => mem_after.mpr (Or.inr (hi.line h hx))
      · exact fun hx => absurd hr (hi.ending (Task.isEnding_of_inWindow hx))
      · intro h hx
        simp [hf h] at hx
    · cases he
  | discard =>
    simp only [threadStep] at he
    split at he <;> cases he
    exact hi.frame (k := s.ready) rfl rfl (by simp) (by simp) ⟨trivial,hi.law⟩ hi.line hi.window
      hi.ending

theorem interrupt_tokenValid (hi : TokenValid r s) :
    TokenValid r ({s with ready := ks}.after (interrupt r s.call)) := by
  cases r with
  | blocking d =>
    exact hi.frame rfl rfl (by simp [interrupt]) (by simp [interrupt]) hi.law (by simp [interrupt])
      (by simp [interrupt,Task.inWindow]) (by simp)
  | native =>
    exact hi.frame rfl rfl (by simp [interrupt]) (by simp [interrupt]) ⟨trivial,hi.law⟩
      (by simp [interrupt]) (by simp [interrupt,Task.inWindow]) (by simp [interrupt,Task.isEnding])

theorem wakeup_tokenValid (hi : TokenValid r s) :
    TokenValid r ({s with ready := ks}.after (wakeup r s.call)) := by
  unfold wakeup
  split
  · exact hi.frame rfl rfl (by simp) (by simp) hi.law hi.line hi.window hi.ending
  · exact hi.frame rfl rfl (by simp) (by simp) ⟨trivial,hi.law⟩ (by simp) (by simp [Task.inWindow])
      (by simp [Task.isEnding])
  · split <;> exact hi.frame rfl rfl (by simp) (by simp) ⟨trivial,hi.law⟩ (by simp)
      (by simp [Task.inWindow]) (by simp [Task.isEnding])
  · exact interrupt_tokenValid hi

theorem runCallback_tokenValid {k : Callback V E} (hi : TokenValid r s) :
    TokenValid r ({s with ready := ks}.after (runCallback r s.call k)) := by
  cases k with
  | settle o =>
    simp only [runCallback,settle]
    split
    · exact hi.frame rfl rfl (by simp) (by simp) hi.law hi.line hi.window hi.ending
    · exact hi.frame rfl rfl (by simp) (by simp) ⟨trivial,hi.law⟩ hi.line hi.window hi.ending
  | retrieve =>
    exact hi.frame rfl rfl (by simp [runCallback]) (by simp [runCallback]) hi.law hi.line hi.window
      hi.ending
  | innerDone =>
    simp only [runCallback,innerDone]
    split <;> exact hi.frame rfl rfl (by simp) (by simp) hi.law hi.line hi.window hi.ending
  | outerDone =>
    simp only [runCallback,outerDone]
    split <;> exact hi.frame rfl rfl (by simp) (by simp) hi.law hi.line hi.window hi.ending
  | wakeup => exact wakeup_tokenValid hi
  | handOver =>
    simp only [runCallback,handOver]
    split <;> exact hi.frame rfl rfl (by simp) (by simp) hi.law hi.line hi.window hi.ending

theorem cancelTask_tokenValid {e : Effect V E} (hi : TokenValid r s)
    (he : cancelTask s.call = some e) : TokenValid r (s.after e) := by
  unfold cancelTask at he
  split at he
  · split at he <;> cases he <;>
      exact hi.frame (k := s.ready) rfl rfl (by simp) (by simp) ⟨trivial,hi.law⟩ hi.line hi.window
        hi.ending
  · cases he

theorem endTheCall_tokenValid {e : Effect V E} (hi : TokenValid r s)
    (hg : s.call.checksInTime = true)
    (he : endTheCall r s.call = some e) : TokenValid r (s.after e) := by
  unfold endTheCall at he
  split at he
  · next hl =>
    cases he
    have hr : r ≠ .native := hi.ending (by simp [hl,Task.isEnding])
    by_cases hf : s.call.future.done = true
    · rw [if_pos hf]
      exact hi.frame (k := s.ready) rfl rfl (by simp) (by simp) hi.law (by simp)
        (by simp [Task.inWindow]) (fun _ => hr)
    · rw [if_neg hf]
      refine hi.frame (k := s.ready) rfl rfl (by simp) (by simp) hi.law (by simp) ?_ (fun _ => hr)
      intro _
      simpa [Call.checksInTime,hl,hf] using hg
  · next hl =>
    cases he
    have hr : r ≠ .native := hi.ending (by simp [hl,Task.isEnding])
    have hx := hi.window (by simp [hl,Task.inWindow])
    exact hi.frame (k := s.ready) rfl rfl (by simp) (by simp) hi.law (by simp) (fun _ => hx)
      (fun _ => hr)
  · next hl =>
    have hr : r ≠ .native := hi.ending (by simp [hl,Task.isEnding])
    have hx := hi.window (by simp [hl,Task.inWindow])
    split at he
    · cases he
      exact hi.frame (k := s.ready) rfl rfl (by simp) (by simp) hi.law (by simp)
        (by simp [Task.inWindow]) (fun _ => hr)
    · next h t ht =>
      cases he
      refine hi.frame (k := s.ready) rfl rfl (by simp) (by simp) hi.law ?_ (fun _ => hx)
        (fun _ => hr)
      intro h' hh
      obtain rfl : h = h' := by simpa using hh
      exact hi.listed h (by simp [ht])
  · next h hl =>
    cases he
    have hr : r ≠ .native := hi.ending (by simp [hl,Task.isEnding])
    obtain ⟨hc,hn⟩ := hi.held h (hi.held_of_line hl)
    exact hi.frame (k := s.ready) rfl rfl (by simp) (by simp) ⟨⟨hc,hn h⟩,hi.law⟩ (by simp)
      (by simp [Task.inWindow]) (fun _ => hr)
  · next hl =>
    cases he
    unfold discardOnResult
    split <;> exact hi.frame (k := s.ready) rfl rfl (by simp) (by simp) ⟨trivial,hi.law⟩ (by simp)
      (by simp [Task.inWindow]) (by simp [Task.isEnding])
  · cases he

end Steps

theorem step_tokenValid {r : Route} {s t : State V E} {a : Action V E} (hd : HandoverValid r s)
    (hh : HandshakeValid r s) (hi : TokenValid r s) (hg : timely s a = true)
    (he : step r s a = some t) :
    TokenValid r t := by
  cases a with
  | thread a =>
    obtain ⟨e,ha,rfl⟩ := Option.map_eq_some_iff.mp he
    exact threadStep_tokenValid hd hh hi hg ha
  | endCall =>
    obtain ⟨e,ha,rfl⟩ := Option.map_eq_some_iff.mp he
    exact endTheCall_tokenValid hi hg ha
  | cancel =>
    simp only [step] at he
    split at he
    · cases he
    · obtain ⟨e,ha,rfl⟩ := Option.map_eq_some_iff.mp he
      exact cancelTask_tokenValid hi ha
  | loop =>
    simp only [step] at he
    split at he
    · cases he
    · split at he <;> cases he
      exact runCallback_tokenValid hi

theorem reachable_tokenValid {r : Route} {s : State V E}
    (hs : Runs.Reachable (step r) (fun s a => timely s a = true) init s) : TokenValid r s := by
  apply hs.induct (init_tokenValid r)
  intro s a t hs hi hg he
  have hf : Runs.Reachable (step r) Runs.free init s := hs.mono (fun _ _ _ => trivial)
  exact step_tokenValid (reachable_handoverValid hf) (reachable_handshakeValid hf) hi hg he

/-- What a step of one call does with the native side's tokens. -/
inductive TokenChange (live : List ℕ) (c : Call V E) (e : Effect V E) : Prop
  | same (hw : e.call.worker.token? = c.worker.token?)
    (he : e.events.foldl liveAfter live = live)
  | taken (h : ℕ) (hf : h ∉ live) (hn : e.call.worker.token? = some h)
    (he : e.events = [.created h])
  | given (h : ℕ) (ho : c.worker.token? = some h) (hn : e.call.worker.token? = none)
    (he : e.events = [.freed h])

theorem work_change {r : Route} {live : List ℕ} {c : Call V E} {e : Effect V E}
    (he : work r c = some e) : TokenChange live c e := by
  unfold work at he
  split at he
  · next hw =>
    split at he <;> cases he
    exact .same (by simp [hw,Worker.token?]) rfl
  · next hw =>
    cases he
    exact .same (by simp [hw,Worker.token?]) rfl
  · next hw =>
    cases he
    refine .same ?_ rfl
    by_cases hb : c.cancelled = true
    · simp [hw,hb,Worker.token?]
    · simp [hw,hb,Worker.token?]
  · next hw =>
    cases he
    exact .same (by simp [hw,Worker.token?]) rfl
  · next hw =>
    cases he
    exact .same (by simp [hw,Worker.token?]) rfl
  · cases he
  · next hw =>
    cases he
    exact .same (by simp [hw,Worker.token?]) rfl
  · next h o hw =>
    cases he
    exact .given h (by simp [hw,Worker.token?]) rfl rfl
  · next hw =>
    cases he
    exact .same (by simp [hw,Worker.token?]) rfl
  · cases he

theorem threadStep_change {r : Route} {live : List ℕ} {c : Call V E} {a : ThreadAction V E}
    {e : Effect V E} (hf : a.fresh live = true) (he : threadStep r c a = some e) :
    TokenChange live c e := by
  cases a with
  | newToken h =>
    simp only [threadStep] at he
    split at he
    · cases he
      exact .taken h (by simpa [ThreadAction.fresh] using hf) rfl rfl
    · cases he
  | work => exact work_change he
  | callReturns o =>
    simp only [threadStep] at he
    split at he
    · next hw =>
      cases he
      exact .same (by simp [hw,Worker.token?]) rfl
    · next hw =>
      cases he
      exact .same (by simp [hw,Worker.token?]) rfl
    · cases he
  | discard =>
    simp only [threadStep] at he
    split at he <;> cases he
    exact .same rfl rfl

theorem foldl_liveAfter {es : List (Event V E)} (h : ∀ x ∈ es, ∀ h, x ≠ .created h ∧ x ≠ .freed h)
    (live : List ℕ) : es.foldl liveAfter live = live := by
  induction es generalizing live with
  | nil => rfl
  | cons x es ih =>
    have hx : liveAfter live x = live := by
      cases x with
      | created h' => exact absurd rfl (h _ List.mem_cons_self h').1
      | freed h' => exact absurd rfl (h _ List.mem_cons_self h').2
      | _ => rfl
    rw [List.foldl_cons,hx]
    exact ih (fun y hy => h y (List.mem_cons_of_mem _ hy)) live

theorem work_cancels {r : Route} {c : Call V E} {e : Effect V E} (he : work r c = some e) {h : ℕ}
    (hx : .cancelToken h ∈ e.events) : c.worker.token? = some h := by
  unfold work at he
  split at he
  · split at he <;> cases he
    simp at hx
  · cases he
    simp at hx
  · cases he
    simp at hx
  · next h' hw =>
    cases he
    obtain rfl : h = h' := by simpa using hx
    simp [hw,Worker.token?]
  · cases he
    simp at hx
  · cases he
  · cases he
    simp at hx
  · cases he
    simp at hx
  · cases he
    simp at hx
  · cases he

theorem threadStep_cancels {r : Route} {c : Call V E} {a : ThreadAction V E} {e : Effect V E}
    (he : threadStep r c a = some e) {h : ℕ} (hx : .cancelToken h ∈ e.events) :
    c.worker.token? = some h := by
  cases a with
  | newToken h' =>
    simp only [threadStep] at he
    split at he <;> cases he
    simp at hx
  | work => exact work_cancels he hx
  | callReturns o =>
    simp only [threadStep] at he
    split at he <;> cases he <;> simp at hx
  | discard =>
    simp only [threadStep] at he
    split at he <;> cases he
    simp at hx

namespace Loop
variable {ι X : Type*} [DecidableEq ι]

/-- No call is in the window between the free of its token and the settling of its future
as the loop thread goes through `_end_the_call`. -/
def timely (l : Loop ι X V E) : LoopAction ι X V E → Bool
  | .endStep => l.busy.all (fun i => (l.calls i).all Call.checksInTime)
  | .thread i .work => (l.calls i).all Call.freesInTime
  | _ => true

/-- A token is cancelled only while no other call has one of its number. -/
def ExclusiveLaw (t : List (ι × Event V E)) (x : ι × Event V E) : Prop :=
  ∀ h, x.2 = .cancelToken h → ∀ j, j ≠ x.1 → (j,.created h) ∈ t → (j,.freed h) ∈ t

/-- Every token is created once, cancelled while it is the call's own and nobody else's,
and freed once, after the native call returned. -/
structure TokenLifecycle (route : ι → Route) (l : Loop ι X V E) : Prop where
  law : Lawful (fun t x => TokenLaw (view x.1 t) x.2) l.trace
  exclusive : Lawful ExclusiveLaw l.trace
  freed : ∀ i c, l.calls i = some c → route i ≠ .native → c.worker.freed = true →
    ∃ h, (i,.freed h) ∈ l.trace

/-- The native side knows the tokens in use, and no two calls use the same one. -/
structure LiveValid (l : Loop ι X V E) : Prop where
  held : ∀ i c h, l.calls i = some c → c.worker.token? = some h → h ∈ l.live
  distinct : ∀ i j c d h, l.calls i = some c → l.calls j = some d →
    c.worker.token? = some h → d.worker.token? = some h → i = j
  exclusive : Lawful ExclusiveLaw l.trace

theorem reachable_tokens {route : ι → Route} {l : Loop ι X V E}
    (hl : Runs.Reachable (step route) (fun l a => l.timely a = true) init l) {i : ι} {c : Call V E}
    (hc : l.calls i = some c) : TokenValid (route i) (l.callState i c) := by
  refine reachable_tokenValid (reachable_at ?_ hl _ (at_of_calls hc))
  rintro l a s b ha hs hb
  obtain ⟨c,hc,rfl⟩ := at_eq_some hs
  cases hb with
  | @thread a hf =>
    cases a with
    | work => simpa [timely,hc,Blocking.timely,callState] using ha
    | _ => rfl
  | cancelTask => rfl
  | run => rfl
  | endStep hb => simpa [timely,hc,hb,Blocking.timely,callState] using ha

theorem LiveValid.after {l : Loop ι X V E} (hi : l.LiveValid) {i : ι} {c : Call V E}
    (hc : l.calls i = some c) {e : Effect V E} (hx : TokenChange l.live c e)
    (hlaw : Lawful ExclusiveLaw (e.events.map (Prod.mk i) ++ l.trace)) : (l.after i e).LiveValid := by
  have hother : ∀ j d, j ≠ i → (l.after i e).calls j = some d → l.calls j = some d :=
    fun j d hj hd => by rwa [after_calls_of_ne l e hj] at hd
  have hself : ∀ d, (l.after i e).calls i = some d → d = e.call := by
    intro d hd
    simpa using hd.symm
  cases hx with
  | same hw he =>
    have hback : ∀ j d h, (l.after i e).calls j = some d → d.worker.token? = some h →
        ∃ d', l.calls j = some d' ∧ d'.worker.token? = some h := by
      intro j d h hd hh
      by_cases hj : j = i
      · subst hj
        obtain rfl := hself d hd
        exact ⟨c,hc,hw ▸ hh⟩
      · exact ⟨d,hother j d hj hd,hh⟩
    refine ⟨?_,?_,hlaw⟩
    · intro j d h hd hh
      obtain ⟨d',hd',hh'⟩ := hback j d h hd hh
      simpa [Loop.after,he] using hi.held j d' h hd' hh'
    · intro j k d d' h hd hd' hh hh'
      obtain ⟨x,hx,hxh⟩ := hback j d h hd hh
      obtain ⟨y,hy,hyh⟩ := hback k d' h hd' hh'
      exact hi.distinct j k x y h hx hy hxh hyh
  | taken h0 hf hn he =>
    have hne : ∀ j d, j ≠ i → (l.after i e).calls j = some d → d.worker.token? ≠ some h0 :=
      fun j d hj hd hh => hf (hi.held j d h0 (hother j d hj hd) hh)
    refine ⟨?_,?_,hlaw⟩
    · intro j d h hd hh
      by_cases hj : j = i
      · subst hj
        obtain rfl := hself d hd
        obtain rfl : h0 = h := by simpa [hn] using hh
        simp [Loop.after,he,liveAfter]
      · have := hi.held j d h (hother j d hj hd) hh
        simp [Loop.after,he,liveAfter,this]
    · intro j k d d' h hd hd' hh hh'
      by_cases hj : j = i
      · by_cases hk : k = i
        · exact hj.trans hk.symm
        · subst hj
          obtain rfl := hself d hd
          obtain rfl : h0 = h := by simpa [hn] using hh
          exact absurd hh' (hne k d' hk hd')
      · by_cases hk : k = i
        · subst hk
          obtain rfl := hself d' hd'
          obtain rfl : h0 = h := by simpa [hn] using hh'
          exact absurd hh (hne j d hj hd)
        · exact hi.distinct j k d d' h (hother j d hj hd) (hother k d' hk hd') hh hh'
  | given h0 ho hn he =>
    have hnone : ∀ j d h, (l.after i e).calls j = some d → d.worker.token? = some h → j ≠ i := by
      rintro j d h hd hh rfl
      obtain rfl := hself d hd
      rw [hn] at hh
      cases hh
    refine ⟨?_,?_,hlaw⟩
    · intro j d h hd hh
      have hj := hnone j d h hd hh
      have hm := hi.held j d h (hother j d hj hd) hh
      have hne : h ≠ h0 := by
        rintro rfl
        exact hj (hi.distinct j i d c h (hother j d hj hd) hc hh ho)
      simp [Loop.after,he,liveAfter,hm,hne]
    · intro j k d d' h hd hd' hh hh'
      exact hi.distinct j k d d' h (hother j d (hnone j d h hd hh) hd)
        (hother k d' (hnone k d' h hd' hh') hd') hh hh'

/-- A cancellation that names the token its call holds finds no other call using it. -/
theorem LiveValid.exclusive_after {route : ι → Route} {l : Loop ι X V E}
    (hl : Runs.Reachable (step route) (fun l a => l.timely a = true) init l) (hi : l.LiveValid)
    {i : ι} {c : Call V E}
    (hc : l.calls i = some c) {es : List (Event V E)}
    (hx : ∀ h, .cancelToken h ∈ es → c.worker.token? = some h) :
    Lawful ExclusiveLaw (es.map (Prod.mk i) ++ l.trace) := by
  apply hi.exclusive.append
  rintro u ⟨i',x⟩ v he h rfl j hj hm
  have hmem : (i',.cancelToken h) ∈ es.map (Prod.mk i) := he ▸ by simp
  obtain ⟨x,hxm,hxe⟩ := List.mem_map.mp hmem
  cases hxe
  have hv : ∀ y, (j,y) ∉ v := by
    intro y hy
    have hy : (j,y) ∈ es.map (Prod.mk i) := he ▸ List.mem_append_right u (List.mem_cons_of_mem _ hy)
    obtain ⟨z,_,hz⟩ := List.mem_map.mp hy
    cases hz
    exact hj rfl
  have ht : (j,.created h) ∈ l.trace := (List.mem_append.mp hm).resolve_left (hv _)
  have hown := mem_view.mpr ht
  apply List.mem_append_right v
  cases hd : l.calls j with
  | none =>
    rw [((reachable_valid hl).unstarted j hd).2.1] at hown
    cases hown
  | some d =>
    rcases (reachable_tokens hl hd).gone h hown with hg | hg
    · exact absurd (hi.distinct j i d c h hd hc hg (hx h hxm)) hj
    · exact mem_view.mp hg

theorem step_liveValid {route : ι → Route} {l l' : Loop ι X V E} {a : LoopAction ι X V E}
    (hl : Runs.Reachable (step route) (fun l a => l.timely a = true) init l) (hi : l.LiveValid)
    (he : step route l a = some l') : l'.LiveValid := by
  have hr : ∀ ks : List (Entry ι X V E), LiveValid {l with ready := ks} := fun ks => {hi with}
  cases step_move he with
  | @start i hb hc =>
    have hback : ∀ j d h, Function.update l.calls i (some Blocking.start) j = some d →
        d.worker.token? = some h → l.calls j = some d := by
      intro j d h hd hh
      by_cases hj : j = i
      · subst hj
        obtain rfl : Blocking.start = d := by simpa using hd
        simp [Blocking.start,Worker.token?] at hh
      · simpa [hj] using hd
    exact ⟨fun j d h hd hh => hi.held j d h (hback j d h hd hh) hh,
      fun j k d d' h hd hd' hh hh' =>
        hi.distinct j k d d' h (hback j d h hd hh) (hback k d' h hd' hh') hh hh',hi.exclusive⟩
  | thread hf hc ht =>
    exact hi.after hc (threadStep_change hf ht)
      (hi.exclusive_after hl hc (fun h => threadStep_cancels ht))
  | cancelTask hb hc ht =>
    have hev := cancelTask_events ht
    exact hi.after hc (.same (by rw [cancelTask_worker ht]) (by simp [hev,liveAfter]))
      (hi.exclusive_after hl hc (by simp [hev]))
  | @run i k ks c hb hr' hc =>
    obtain ⟨hw,hev⟩ := runCallback_worker (route i) c k
    refine (hr ks).after hc (.same (by rw [hw]) ?_) (hi.exclusive_after hl hc ?_)
    · refine foldl_liveAfter (fun x hx h => ⟨?_,?_⟩) _
      · rintro rfl
        exact Bool.false_ne_true (hev _ hx)
      · rintro rfl
        exact Bool.false_ne_true (hev _ hx)
    · exact fun h hx => absurd (hev _ hx) Bool.false_ne_true
  | other hb hr' => exact hr _
  | @endStep i c e hb hc ht =>
    obtain ⟨hw,hev⟩ := endTheCall_worker ht
    refine hi.after hc (.same (by rw [hw]) ?_) (hi.exclusive_after hl hc ?_)
    · refine foldl_liveAfter (fun x hx h => ?_) _
      rcases hev x hx with rfl | ⟨h',rfl,_⟩ <;> simp
    · intro h hx
      obtain ⟨h',he',hl'⟩ := (hev _ hx).resolve_left (by simp)
      cases he'
      exact (reachable_tokens hl hc).held_of_line hl'
  | soon => exact hr _

omit [DecidableEq ι] in
theorem init_liveValid : LiveValid (init : Loop ι X V E) where
  held _ _ _ h := by simp [init] at h
  distinct _ _ _ _ _ h := by simp [init] at h
  exclusive := trivial

theorem reachable_liveValid {route : ι → Route} {l : Loop ι X V E}
    (hl : Runs.Reachable (step route) (fun l a => l.timely a = true) init l) : l.LiveValid :=
  hl.induct init_liveValid (fun _ _ _ hl hi _ he => step_liveValid hl hi he)

/-- In a run that keeps out of the window, every token is created once, cancelled only
while its own call holds it, and freed once, after the native call returned. -/
theorem token_lifecycle_of_timely {route : ι → Route} {l : Loop ι X V E}
    (hl : Runs.Reachable (step route) (fun l a => l.timely a = true) init l) :
    l.TokenLifecycle route := by
  refine ⟨?_,(reachable_liveValid hl).exclusive,?_⟩
  · refine lawful_of_views (R := TokenLaw) (fun i => ?_)
    cases hc : l.calls i with
    | none =>
      rw [((reachable_valid hl).unstarted i hc).2.1]
      trivial
    | some c => exact (reachable_tokens hl hc).law
  · intro i c hc hr hf
    obtain ⟨h,hh⟩ := (reachable_tokens hl hc).finished hr hf
    exact ⟨h,mem_view.mp hh⟩

/-- A call runs to its end and another one is cancelled while it runs. -/
def twoCalls : List (LoopAction ℕ Empty Unit Empty) :=
  [.start 0,.thread 0 (.newToken 5),.thread 0 .work,.thread 0 .work,.thread 0 .work,
    .thread 0 (.callReturns (.ok ())),.thread 0 .work,.thread 0 .work,.thread 0 .work,
    .start 1,.thread 1 (.newToken 5),.thread 1 .work,.thread 1 .work,.thread 1 .work,
    .run,.run,.run,.run,.run,.cancelTask 1,.run,.run,.endStep,.endStep,.endStep,.endStep,.endStep]

theorem token_lifecycle_of_timely_twoCalls : ∃ l : Loop ℕ Empty Unit Empty,
    Runs.exec (Runs.guarded (step (fun _ => .blocking false)) timely) init twoCalls = some l ∧
      l.TokenLifecycle (fun _ => .blocking false) :=
  ⟨_,rfl,token_lifecycle_of_timely (.of_guarded twoCalls rfl)⟩

/-- The first call's worker has freed its token and not posted its outcome; the number
goes to a second call, and the cancellation of the first task cancels that one. -/
def reusedToken : List (LoopAction ℕ Empty Unit Empty) :=
  [.start 0,.thread 0 (.newToken 5),.thread 0 .work,.thread 0 .work,.thread 0 .work,
    .thread 0 (.callReturns (.ok ())),.thread 0 .work,.thread 0 .work,
    .start 1,.thread 1 (.newToken 5),.thread 1 .work,.thread 1 .work,.thread 1 .work,
    .cancelTask 0,.run,.run,.endStep,.endStep,.endStep,.endStep]

theorem not_token_lifecycle_reusedToken : ∃ l : Loop ℕ Empty Unit Empty,
    Runs.exec (step (fun _ => .blocking false)) init reusedToken = some l ∧
      ¬ l.TokenLifecycle (fun _ => .blocking false) := by
  refine ⟨_,rfl,fun h => ?_⟩
  have hx := h.exclusive.1 5 rfl 1 (by decide) (List.mem_of_getElem? (i := 2) rfl)
  have hn : (1,Event.freed 5) ∉ [(0,Event.cancelTask),(1,.entered),(1,.created 5),(0,.freed 5),
      (0,.returned (.ok ())),(0,.entered),(0,(.created 5 : Event Unit Empty))] := by simp
  exact hn hx

end Loop

end MaculaPy.Blocking
