/-
What epoll reports to hooked calls, over runs of the scheduler (coroutine/scheduler.cpp,
linux/io_wait.cpp).

A run is recorded together with what epoll has reported: for every task, the entries of
its present or last wait that had events.  Descriptors are opened and closed at any time.

* `State.logAfter` — how a step changes the log;
* `State.settled_ioWaitLoop` — `WaitLoop` stores what it logs, and ends the waits that
  have reports;
* `State.step_logged`, `State.reach_logged` — every step, and so every run, keeps the
  waits and the log in agreement;
* `State.hooked_waits` — the wait of a task in a hooked call.
-/
import CppFeatures.IoReferences
import CppFeatures.IoReports

/-! ### Entries without their results -/

/-- An entry as it was when the wait began. -/
def FdStruct.request (f : FdStruct) : FdStruct := { f with revent := 0 }

theorem map_request_modify_revent (fs : List FdStruct) (n : ℕ) (revent : BitVec 32) :
    (fs.modify n fun f => { f with revent := revent }).map FdStruct.request
      = fs.map FdStruct.request := by
  induction fs generalizing n with
  | nil => simp
  | cons f fs ih => cases n with
    | zero => rfl
    | succ n => simpa using ih n

/-- The entries of a hooked call have no result yet. -/
theorem Hook.start_revent {h : Hook} {fdsts : List FdStruct} {ms : ℤ} (hs : h.start = .io fdsts ms) :
    ∀ f ∈ fdsts, f.revent = 0 := by
  cases h with
  | readWrite fd event timeoutMs =>
    cases hs
    simp
  | connect fd =>
    cases hs
    simp
  | poll fds timeout =>
    rw [Hook.start] at hs
    split_ifs at hs
    cases hs
    intro f hf
    obtain ⟨p, -, rfl⟩ := List.mem_map.mp hf
    rfl
  | select nfds readfds writefds exceptfds timeoutMs =>
    rw [Hook.start] at hs
    split_ifs at hs
    cases hs
    intro f hf
    obtain ⟨i, -, hi⟩ := mem_selectFdsts.mp hf
    rw [selectFdst] at hi
    split at hi
    · cases hi
    · rw [Option.some_inj] at hi
      rw [← hi]

theorem map_request_eq_self {fs : List FdStruct} (h : ∀ f ∈ fs, f.revent = 0) :
    fs.map FdStruct.request = fs := by
  refine (List.map_congr_left fun f hf => ?_).trans (List.map_id fs)
  rw [FdStruct.request, ← h f hf]
  rfl

namespace IoState

variable {τ : Type*} {io io' : IoState τ} {tk : τ}

def requests (io : IoState τ) (t : τ) : List FdStruct := (io.task t).waitFds_.map FdStruct.request

theorem KeepsWaits.requests (h : KeepsWaits io io') : io'.requests = io.requests := by
  funext t
  rw [IoState.requests, IoState.requests, h.waitFds t]

theorem requests_register [DecidableEq τ] (h : io.kernel.Unique) (tk : τ) :
    (io.register tk).1.requests = io.requests := by
  obtain ⟨hbal, -⟩ := register_spec h tk
  have hinc : KeepsWaits io (io.incrementRef tk) := keepsWaits_modifyTask rfl rfl rfl
  rw [← hinc.requests]
  funext t
  rw [IoState.requests, IoState.requests, hbal.task t]

theorem requests_epollEvents [LinearOrder τ] (e : EpollType) (evs : List (ℤ × BitVec 32))
    (io : IoState τ) (set : List (τ × BitVec 32)) :
    (Scheduler.State.epollEvents e evs io set).1.requests = io.requests := by
  induction evs generalizing io set with
  | nil => rfl
  | cons ev evs ih =>
    rw [Scheduler.State.epollEvents, ih, epollEvent]
    split
    · rfl
    · rename_i r _
      funext t
      dsimp only
      by_cases ht : t = r.tk
      · subst ht
        simp only [IoState.requests, modifyTask, Function.update_self]
        exact map_request_modify_revent _ _ _
      · simp only [IoState.requests, modifyTask, Function.update_of_ne ht]

end IoState

namespace Scheduler

open Function IoState

variable {τ β : Type*} [LinearOrder τ] [DecidableEq β] {rep : BitVec 32 → BitVec 32 → Prop}
  {log : τ → List (ℕ × BitVec 32)}

/-! ### Waits and log agree -/

/-- Emptying the log of a task. -/
theorem update_nil_eq_nil {t : τ} (tk : τ) (h : log t = []) : update log tk [] t = [] := by
  by_cases ht : t = tk
  · rw [ht, update_self]
  · rw [update_of_ne ht]
    exact h

namespace IoView

variable {v : IoView τ} {tk : τ}

/-- Registrations and results agree with the log, and the entries of a task in a hooked
call are those of the call. -/
structure Logged (v : IoView τ) (rep : BitVec 32 → BitVec 32 → Prop)
    (log : τ → List (ℕ × BitVec 32)) : Prop where
  logged : v.io.Logged rep v.created v.ioWaitTasks_ log
  hooked : ∀ t h, v.hook t = some h →
    t ∈ v.created ∧ ∃ fdsts ms, h.start = .io fdsts ms ∧ v.io.requests t = fdsts

/-- Between two calls of `WaitLoop`, a task that waits has no report. -/
structure Settled (v : IoView τ) (rep : BitVec 32 → BitVec 32 → Prop)
    (log : τ → List (ℕ × BitVec 32)) : Prop extends v.Logged rep log where
  quiet : ∀ t ∈ v.ioWaitTasks_, log t = []

omit [LinearOrder τ] in
theorem Logged.setIo (h : v.Logged rep log) {io : IoState τ} (hk : KeepsWaits v.io io) :
    { v with io := io }.Logged rep log where
  logged := h.logged.keep hk
  hooked := by
    show ∀ t hk, v.hook t = some hk →
      t ∈ v.created ∧ ∃ fdsts ms, hk.start = .io fdsts ms ∧ io.requests t = fdsts
    rw [hk.requests]
    exact h.hooked

omit [LinearOrder τ] in
theorem Settled.setIo (h : v.Settled rep log) {io : IoState τ} (hk : KeepsWaits v.io io) :
    { v with io := io }.Settled rep log :=
  ⟨h.toLogged.setIo hk, h.quiet⟩

omit [LinearOrder τ] in
theorem Settled.setTimers (h : v.Settled rep log) (sleepMgr : CoTimerMgr τ) (timers : TimerHeap)
    (userMgr : CoTimerMgr Unit) :
    { v with sleepTimerMgr_ := sleepMgr, timers := timers, timerMgr_ := userMgr }.Settled rep log :=
  ⟨⟨h.logged, h.hooked⟩, h.quiet⟩

theorem Logged.clearFds (h : v.Logged rep log) (tk : τ) (id : BitVec 32) :
    { v with
      io := v.io.clearFds tk id
      ioWaitTasks_ := v.ioWaitTasks_.erase tk }.Logged rep log where
  logged := h.logged.clearFds tk id
  hooked := (h.setIo (keepsWaits_foldl_delFd _ _ _ v.io).1).hooked

/-- The end of a hooked call. -/
theorem Settled.unhook (h : v.Settled rep log) (tk : τ) :
    { v with hook := update v.hook tk none }.Settled rep log where
  logged := h.logged
  quiet := h.quiet
  hooked t hk ht := by
    by_cases htk : t = tk
    · subst htk
      simp at ht
    · simp only [update_of_ne htk] at ht
      exact h.hooked t hk ht

/-- A task starts a wait. -/
theorem Settled.coSwitch (h : v.Settled rep log) (hmade : tk ∈ v.created) (hno : tk ∉ v.ioWaitTasks_)
    {hk : Hook} {fdsts : List FdStruct} {ms : ℤ} (hstart : hk.start = .io fdsts ms) :
    { v with
      io := v.io.coSwitch tk fdsts ms
      hook := update v.hook tk (some hk) }.Settled rep (update log tk []) where
  logged := by
    show (v.io.coSwitch tk fdsts ms).Logged rep v.created v.ioWaitTasks_ _
    rw [IoState.coSwitch]
    refine h.logged.modifyTask hno v.created (fun t => ⟨.inr, ?_⟩) ?_
    · rintro (rfl | ht)
      · exact hmade
      · exact ht
    · exact reports_nil (hk.start_revent hstart)
  quiet t ht := update_nil_eq_nil tk (h.quiet t ht)
  hooked t hk' ht := by
    by_cases htk : t = tk
    · subst htk
      simp only [update_self] at ht
      cases ht
      refine ⟨hmade, fdsts, ms, hstart, ?_⟩
      simp only [requests, IoState.coSwitch, modifyTask, update_self]
      exact map_request_eq_self (hk.start_revent hstart)
    · simp only [update_of_ne htk] at ht
      simp only [requests, IoState.coSwitch, modifyTask, update_of_ne htk]
      exact h.hooked t hk' ht

/-- A new task. -/
theorem Settled.createTask (h : v.Settled rep log) (hnew : tk ∉ v.created) (id : BitVec 32) :
    { v with
      created := insert tk v.created
      io := v.io.modifyTask tk fun _ => { ioBlockId_ := id } }.Settled rep (update log tk []) where
  logged := by
    dsimp only
    refine h.logged.modifyTask (fun hmem => hnew (h.logged.mem_made tk hmem)) _
      (fun t => Finset.mem_insert) ?_
    exact reports_nil (by simp)
  quiet t ht := update_nil_eq_nil tk (h.quiet t ht)
  hooked t hk ht := by
    obtain ⟨hmade, fdsts, ms, hstart, hreq⟩ := h.hooked t hk ht
    have hne : t ≠ tk := by
      rintro rfl
      exact hnew hmade
    refine ⟨Finset.mem_insert_of_mem hmade, fdsts, ms, hstart, ?_⟩
    simpa only [requests, modifyTask, update_of_ne hne] using hreq

/-- A new wait, of a task without reports. -/
theorem Settled.register (h : v.Settled rep log) (hno : tk ∉ v.ioWaitTasks_) (hmade : tk ∈ v.created)
    (hempty : log tk = []) :
    { v with
      io := (v.io.register tk).1
      ioWaitTasks_ := if (v.io.register tk).2 then v.ioWaitTasks_ ++ [tk] else v.ioWaitTasks_
      }.Settled rep log where
  logged := h.logged.register hno hmade
  hooked := by
    rw [requests_register h.logged.unique]
    exact h.hooked
  quiet t ht := by
    dsimp only at ht
    split_ifs at ht
    · rcases List.mem_append.mp ht with ht | ht
      · exact h.quiet t ht
      · rwa [List.mem_singleton.mp ht]
    · exact h.quiet t ht

end IoView

namespace State

variable {s u : State τ β} {tk : τ} {U : Finset τ} {loc : τ → Option (Loc β)}

/-! ### `WaitLoop` -/

omit [DecidableEq β] in
theorem settled_cancel (h : s.ioView.Settled rep log) (tk : τ) (id : BitVec 32) :
    (s.cancel tk id).ioView.Settled rep log := by
  rcases s.cancel_cases tk id with ⟨-, -, heq⟩ | ⟨heq, -⟩
  · rw [heq]
    exact ⟨h.toLogged.clearFds tk id, fun t ht => h.quiet t (List.mem_of_mem_erase ht)⟩
  · rw [heq]
    exact h

omit [DecidableEq β] in
/-- **`Cancel` for every noted task** ends the waits that have reports. -/
theorem settled_cancelAll {set : List (τ × BitVec 32)} (h : s.ioView.Logged rep log)
    (hcurrent : ∀ st ∈ set, st.2 = (s.io.task st.1).ioBlockId_)
    (hnoted : ∀ t ∈ s.q.ioWaitTasks_, log t ≠ [] → ∃ st ∈ set, st.1 = t) :
    (s.cancelAll set).ioView.Settled rep log := by
  induction set generalizing s with
  | nil =>
    refine ⟨h, fun t ht => ?_⟩
    by_contra hne
    obtain ⟨st, hst, -⟩ := hnoted t ht hne
    cases hst
  | cons st set ih =>
    rw [List.forall_mem_cons] at hcurrent
    show ((s.cancel st.1 st.2).cancelAll set).ioView.Settled rep log
    -- what is still noted is noted in the rest of the set
    have hrest : ∀ t ∈ s.q.ioWaitTasks_, t ≠ st.1 → log t ≠ [] → ∃ st ∈ set, st.1 = t := by
      intro t ht hne hlog
      obtain ⟨st', hst', rfl⟩ := hnoted t ht hlog
      rcases List.mem_cons.mp hst' with rfl | hst'
      · exact absurd rfl hne
      · exact ⟨st', hst', rfl⟩
    rcases s.cancel_cases st.1 st.2 with ⟨-, -, heq⟩ | ⟨heq, hno⟩
    · have hio : (s.cancel st.1 st.2).io = s.io.clearFds st.1 st.2 := congrArg IoView.io heq
      have hwait : (s.cancel st.1 st.2).q.ioWaitTasks_ = s.q.ioWaitTasks_.erase st.1 :=
        congrArg IoView.ioWaitTasks_ heq
      refine ih (heq ▸ h.clearFds st.1 st.2) (fun st' hst' => ?_) fun t ht hlog => ?_
      · have hkeep : KeepsWaits s.io (s.io.clearFds st.1 st.2) := (keepsWaits_foldl_delFd _ _ _ s.io).1
        rw [hio, hkeep.ioBlockId]
        exact hcurrent.2 st' hst'
      · rw [hwait] at ht
        obtain ⟨hne, ht⟩ := h.logged.nodup.mem_erase_iff.mp ht
        exact hrest t ht hne hlog
    · rw [heq]
      refine ih h hcurrent.2 fun t ht hlog => hrest t ht ?_ hlog
      rintro rfl
      exact hno hcurrent.1.symm ht

omit [DecidableEq β] in
theorem settled_ioTimeout (h : s.ioView.Settled rep log) (timer : CoTimer (τ × BitVec 32)) :
    (s.ioTimeout timer).ioView.Settled rep log := by
  rw [ioView_ioTimeout]
  split_ifs
  · have hcancel := settled_cancel h timer.fn_.1 timer.fn_.2
    exact (hcancel.setIo (keepsWaits_decrementRef _ timer.fn_.1)).setTimers _ _ _
  · exact h

end State

/-- The events of the two calls of `epoll_wait` in a step. -/
def Act.events : Act τ β → EpollType → List (ℤ × BitVec 32)
  | .doEpoll _ readEvs _, .read => readEvs
  | .doEpoll _ _ writeEvs, .write => writeEvs
  | _, _ => []

/-- The steps that change the log. -/
def Act.logs : Act τ β → Bool
  | .enterHook _ | .doEpoll _ _ _ | .createTask _ _ => true
  | _ => false

namespace State

variable {s u : State τ β} {tk : τ} {U : Finset τ} {loc : τ → Option (Loc β)}

/-- The events of a step are for registrations, and such as `rep` allows for them. -/
def ReportsOnly (s : State τ β) (rep : BitVec 32 → BitVec 32 → Prop) (a : Act τ β) : Prop :=
  ∀ e ∈ [EpollType.read, .write], ∀ ev ∈ a.events e,
    ∃ r ∈ s.io.kernel.epoll e, r.fd = ev.1 ∧ rep ev.2 r.event

/-- What epoll may report: events that were asked for, errors and hang-ups. -/
def EpollReports (s : State τ β) (a : Act τ β) : Prop := s.ReportsOnly Reportable a

instance (s : State τ β) (a : Act τ β) : Decidable (s.EpollReports a) :=
  inferInstanceAs (Decidable (∀ e ∈ [EpollType.read, .write], ∀ ev ∈ a.events e,
    ∃ r ∈ s.io.kernel.epoll e, r.fd = ev.1 ∧ Reportable ev.2 r.event))

omit [LinearOrder τ] [DecidableEq β] in
theorem reportsOnly_of_events {a : Act τ β} (h : ∀ e, a.events e = []) : s.ReportsOnly rep a := by
  intro e _ ev hev
  rw [h] at hev
  cases hev

/-- Every event is for a registration. -/
theorem step_reportsOnly {a : Act τ β} (hst : s.step a = some u) :
    s.ReportsOnly (fun _ _ => True) a := by
  cases step_cases hst with
  | doEpoll nows readEvs writeEvs hph hread hwrite =>
    intro e _ ev hev
    cases e with
    | read =>
      obtain ⟨r, hr, hfd⟩ := hread.2 ev hev
      exact ⟨r, hr, hfd, trivial⟩
    | write =>
      obtain ⟨r, hr, hfd⟩ := hwrite.2 ev hev
      exact ⟨r, hr, hfd, trivial⟩
  | _ => exact reportsOnly_of_events fun _ => rfl

/-- The log after a step: `CoSwitch` empties that of its task, and `WaitLoop` adds what
its two calls of `epoll_wait` return. -/
def logAfter (s : State τ β) (log : τ → List (ℕ × BitVec 32)) : Act τ β → τ → List (ℕ × BitVec 32)
  | .enterHook h => match s.userTask, h.start with
    | some tk, .io _ _ => update log tk []
    | _, _ => log
  | .doEpoll _ readEvs writeEvs => fun t =>
    log t ++ reportsOf s.io.kernel .read readEvs t ++ reportsOf s.io.kernel .write writeEvs t
  | .createTask tk _ => update log tk []
  | _ => log

omit [DecidableEq β] in
/-- **`WaitLoop`** stores what it logs. -/
theorem settled_ioWaitLoop (h : s.ioView.Settled rep log) (nows : List ℤ)
    {readEvs writeEvs : List (ℤ × BitVec 32)} (hread : s.EventsOf .read readEvs)
    (hwrite : s.EventsOf .write writeEvs)
    (hok : s.ReportsOnly rep (.doEpoll nows readEvs writeEvs)) :
    (s.ioWaitLoop nows readEvs writeEvs).ioView.Settled rep
      (s.logAfter log (.doEpoll nows readEvs writeEvs)) := by
  have hcollect : KeepsWaits s.io (s.io.collectTimers nows) := keepsWaits_collectTimers nows
  have hkernel : (s.io.collectTimers nows).kernel.epoll = s.io.kernel.epoll :=
    (show SameWaits [] s.io (s.io.collectTimers nows) from collectTimers_sameWaits nows).epoll
  have hokRead := hok .read (by simp)
  have hokWrite := hok .write (by simp)
  have h₀ := (h.logged.keep hcollect).collecting h.quiet
  obtain ⟨h₁, hk₁⟩ := h₀.events hread.1 (by simp) (hkernel ▸ hokRead)
  obtain ⟨h₂, -⟩ := h₁.events (e := .write) hwrite.1 (by simp) (by rw [hk₁, hkernel]; exact hokWrite)
  have hlog : (fun t => log t ++ reportsOf (s.io.collectTimers nows).kernel .read readEvs t ++
      reportsOf (epollEvents .read readEvs (s.io.collectTimers nows) []).1.kernel .write writeEvs t)
      = s.logAfter log (.doEpoll nows readEvs writeEvs) := by
    funext t
    simp only [logAfter, reportsOf, hk₁, hkernel]
  rw [hlog] at h₂
  have hreq : (epollWait (s.io.collectTimers nows) readEvs writeEvs).1.requests = s.io.requests := by
    rw [← hcollect.requests, epollWait]
    exact (requests_epollEvents ..).trans (requests_epollEvents ..)
  have hcancelled : (({ s with io := (epollWait (s.io.collectTimers nows) readEvs writeEvs).1 } :
      State τ β).cancelAll (epollWait (s.io.collectTimers nows) readEvs writeEvs).2).ioView.Settled rep
        (s.logAfter log (.doEpoll nows readEvs writeEvs)) := by
    refine settled_cancelAll ⟨h₂.logged, ?_⟩ h₂.current h₂.noted
    show ∀ t hk, s.hook t = some hk → t ∈ s.q.created ∧ ∃ fdsts ms, hk.start = .io fdsts ms ∧
      (epollWait (s.io.collectTimers nows) readEvs writeEvs).1.requests t = fdsts
    rw [hreq]
    exact h.hooked
  rw [State.ioWaitLoop]
  dsimp only [endWaitLoop]
  generalize ({ s with io := (epollWait (s.io.collectTimers nows) readEvs writeEvs).1 } :
    State τ β).cancelAll (epollWait (s.io.collectTimers nows) readEvs writeEvs).2 = v at hcancelled
  have htimeouts : v.runTimeouts.ioView.Settled rep (s.logAfter log (.doEpoll nows readEvs writeEvs)) := by
    rw [runTimeouts]
    exact List.foldlRecOn (motive := fun v : State τ β => v.ioView.Settled rep _) v.io.timeoutList_ _
      (hcancelled.setIo (keepsWaits_of_eq rfl rfl)) fun w hw timer _ => settled_ioTimeout hw timer
  exact htimeouts.setIo (keepsWaits_of_eq rfl rfl)

/-! ### Every step -/

omit [DecidableEq β] in
/-- **`SchedulerSwitch`** of a task without reports. -/
theorem settled_ioSchedulerSwitch (h : s.ioView.Settled rep log) (hno : tk ∉ s.q.ioWaitTasks_)
    (hmade : tk ∈ s.q.created) (hempty : log tk = []) (now : ℤ) :
    (s.ioSchedulerSwitch tk now).ioView.Settled rep log := by
  have hreg := h.register hno hmade hempty
  rcases ioSchedulerSwitch_ioView hno now with heq | ⟨-, heq⟩
  · rw [heq]
    exact hreg.setIo (keepsWaits_decrementRef _ tk)
  · rw [heq]
    refine IoView.Settled.setTimers (IoView.Settled.setIo hreg ?_) _ _ _
    exact (keepsWaits_setTimer _).trans (keepsWaits_decrementRef _ tk)

/-- A task that is about to wait has no report. -/
def Fresh (s : State τ β) (log : τ → List (ℕ × BitVec 32)) : Prop :=
  ∀ tk, s.atTurn .left = some tk → s.hook tk ≠ none → log tk = []

structure LoggedAt (s : State τ β) (rep : BitVec 32 → BitVec 32 → Prop)
    (log : τ → List (ℕ × BitVec 32)) : Prop where
  settled : s.ioView.Settled rep log
  fresh : s.Fresh log

omit [DecidableEq β] in
theorem IoStep.settled {a : Act τ β} {v : IoView τ} (hv : IoStep s a v) (ha : a.logs = false)
    (hown : s.OwnedAt U loc) (hturns : s.Turns) (h : s.LoggedAt rep log) : v.Settled rep log := by
  cases hv with
  | same => exact h.settled
  | coSwitch => cases ha
  | @endWait tk => exact h.settled.unhook tk
  | @cancelTimer tk =>
    have hdec := (h.settled.setIo (keepsWaits_decrementRef s.io tk)).unhook tk
    exact hdec.setTimers _ _ _
  | @ioSwitch tk now hleft hstate =>
    obtain ⟨-, hk, hhook, -⟩ := hturns.ioBlock tk hleft hstate
    have hempty : log tk = [] := h.fresh tk hleft (by simp [Option.mem_def.mp hhook])
    exact settled_ioSchedulerSwitch h.settled (hown.notMem_ioWait hleft)
      (Queues.Owned.created hown (hown.unfinished_of_turn hleft)) hempty now
  | sleepSwitch => exact h.settled.setTimers _ _ _
  | @finish tk => exact h.settled.setIo (keepsWaits_decrementRef s.io tk)
  | doEpoll => cases ha
  | doTimer => exact h.settled.setTimers _ _ _
  | doSleep => exact h.settled.setTimers _ _ _
  | createTask => cases ha
  | expireAt => exact h.settled.setTimers _ _ _
  | openFd => exact h.settled.setIo (keepsWaits_of_eq rfl rfl)
  | closeFd => exact h.settled.setIo (keepsWaits_kernel rfl fun e => List.filter_sublist)

theorem step_settled {a : Act τ β} (hown : s.OwnedAt U loc) (hturns : s.Turns) (h : s.LoggedAt rep log)
    (hok : s.ReportsOnly rep a) (hst : s.step a = some u) : u.ioView.Settled rep (s.logAfter log a) := by
  cases step_cases hst with
  | @enterHook tk hk hcur =>
    have hturn := (userTask_eq_some hcur).1
    rw [enterHook, logAfter, hcur]
    cases hstart : hk.start with
    | direct => exact h.settled
    | sleep ms =>
      dsimp only
      rw [ioView_sleepSwitch]
      exact h.settled
    | io fdsts ms =>
      dsimp only
      rw [coSwitch, ioView_switchAs]
      exact h.settled.coSwitch (Queues.Owned.created hown (hown.unfinished_of_turn hturn))
        (hown.notMem_ioWait hturn) hstart
  | doEpoll nows readEvs writeEvs hph hread hwrite =>
    exact settled_ioWaitLoop h.settled nows hread hwrite hok
  | createTask id hnew =>
    rw [ioView_createTask]
    exact h.settled.createTask hnew id
  | _ => exact (step_io hown hst).settled rfl hown hturns h

omit [LinearOrder τ] [DecidableEq β] in
theorem Fresh.of_none (hleft : s.atTurn .left = none) : s.Fresh log := by
  intro t ht
  rw [hleft] at ht
  cases ht

omit [LinearOrder τ] [DecidableEq β] in
/-- A task leaves its turn. -/
theorem fresh_left (hcur : s.atTurn .running = some tk) (hlog : s.hook tk ≠ none → log tk = []) :
    (s.setTurn .left).Fresh log := by
  intro t ht
  rw [atTurn_setTurn hcur, if_pos rfl, Option.some_inj] at ht
  rw [(s.setTurn_frame .left).2.2, ← ht]
  exact hlog

omit [DecidableEq β] in
theorem fresh_switchAs (hcur : s.atTurn .running = some tk) (hlog : s.hook tk ≠ none → log tk = [])
    (f : Task β → Task β) : (s.switchAs tk f).Fresh log :=
  fresh_left (s := { s with q := s.q.modifyTask tk f }) hcur hlog

omit [DecidableEq β] in
theorem fresh_sleepSwitch (hcur : s.atTurn .running = some tk) (hhook : s.hook tk = none) (ms : ℤ) :
    (s.sleepSwitch tk ms).Fresh log := by
  rw [sleepSwitch]
  split_ifs
  · exact fresh_left hcur fun hne => absurd hhook hne
  · exact fresh_switchAs hcur (fun hne => absurd hhook hne) _

omit [DecidableEq β] in
theorem fresh_leaveHook {h : Hook} (hcur : s.atTurn .running = some tk) :
    (s.leaveHook tk h).Fresh log := by
  obtain ⟨v, -, -, hph, heq⟩ := s.leaveHook_cases tk h
  have hcur' : { v with hook := update v.hook tk none }.atTurn .running = some tk := by
    rw [← hcur, atTurn, atTurn, ← hph]
  rcases heq with heq | heq
  · rw [heq]
    exact .of_none (atTurn_left_of_running hcur')
  · rw [heq]
    exact fresh_sleepSwitch hcur' (by simp) _

omit [LinearOrder τ] [DecidableEq β] in
/-- A step of the others. -/
theorem Fresh.congr {log' : τ → List (ℕ × BitVec 32)} (h : s.Fresh log) (hph : u.phase = s.phase)
    (hhook : u.hook = s.hook) (hlog : ∀ t, log t = [] → log' t = []) : u.Fresh log' := by
  intro t ht hne
  rw [atTurn, hph] at ht
  rw [hhook] at hne
  exact hlog t (h t ht hne)

theorem step_fresh {a : Act τ β} (h : s.Fresh log) (hst : s.step a = some u) :
    u.Fresh (s.logAfter log a) := by
  cases step_cases hst with
  | run n hph => exact .of_none rfl
  | nextProc hph hprocs hi => exact .of_none rfl
  | endRunnable hph => exact .of_none rfl
  | @resume tk hcur =>
    refine .of_none ?_
    rw [atTurn_setTurn (s := { s with q := s.q.setState tk .runnable }) hcur]
    rfl
  | coYield hcur =>
    obtain ⟨hcur, hhook⟩ := userTask_eq_some hcur
    exact fresh_left hcur fun hne => absurd hhook hne
  | sleepSwitch ms hcur =>
    obtain ⟨hcur, hhook⟩ := userTask_eq_some hcur
    exact fresh_sleepSwitch hcur hhook ms
  | coBlockWait b hcur =>
    obtain ⟨hcur, hhook⟩ := userTask_eq_some hcur
    rw [coBlockWait]
    dsimp only
    split_ifs
    · exact h.congr rfl rfl fun _ hlog => hlog
    · exact fresh_switchAs hcur (fun hne => absurd hhook hne) _
  | userBlockWait k hcur =>
    obtain ⟨hcur, hhook⟩ := userTask_eq_some hcur
    exact fresh_switchAs hcur (fun hne => absurd hhook hne) _
  | @enterHook tk hk huser =>
    obtain ⟨hcur, hhook⟩ := userTask_eq_some huser
    rw [enterHook, logAfter, huser]
    cases hk.start with
    | direct => exact h
    | sleep ms => exact fresh_sleepSwitch hcur hhook ms
    | io fdsts ms =>
      refine fresh_switchAs (s := { s with
        io := s.io.coSwitch tk fdsts ms
        hook := update s.hook tk (some hk) }) hcur (fun _ => ?_) _
      exact update_self ..
  | leaveHook hcur hhook => exact fresh_leaveHook hcur
  | finish eptr hcur =>
    obtain ⟨hcur, hhook⟩ := userTask_eq_some hcur
    exact fresh_switchAs hcur (fun hne => absurd hhook hne) _
  | switch now hph hturn hafter => exact .of_none (atTurn_processerSwitch _ _ _ _ _ _ (by simp))
  | endPass hph hafter => exact .of_none rfl
  | doEpoll nows readEvs writeEvs hph => exact .of_none rfl
  | doTimer now hph => exact .of_none rfl
  | doSleep now hph => exact .of_none rfl
  | @createTask tk id hnew => exact h.congr rfl rfl fun t hlog => update_nil_eq_nil tk hlog
  | _ => exact h.congr rfl rfl fun _ hlog => hlog

/-- **Every step** keeps waits and log in agreement. -/
theorem step_logged {a : Act τ β} (hown : s.OwnedAt U loc) (hturns : s.Turns) (h : s.LoggedAt rep log)
    (hok : s.ReportsOnly rep a) (hst : s.step a = some u) : u.LoggedAt rep (s.logAfter log a) :=
  ⟨step_settled hown hturns h hok hst, step_fresh h.fresh hst⟩

/-! ### Every run -/

omit [LinearOrder τ] [DecidableEq β] in
theorem logged_init (h : Init s) : s.LoggedAt rep fun _ => [] where
  settled := by
    have hnone : ∀ e, ∀ r, r ∉ s.io.kernel.epoll e := fun e r => by simp [h.epoll]
    refine ⟨⟨⟨fun e => by simp [ioView, h.epoll], ?_, ?_, ?_, ?_, ?_, ?_⟩, ?_⟩, fun _ _ => rfl⟩
    · simp [ioView, h.ioWaitTasks]
    · simp [ioView, h.ioWaitTasks]
    · exact fun e r hr => absurd hr (hnone e r)
    · exact fun e r hr => absurd hr (hnone e r)
    · exact fun e r hr => absurd hr (hnone e r)
    · simp [ioView, h.created]
    · simp [ioView, h.hook]
  fresh := fun _ _ _ => rfl

/-- **Every run**, with any condition on its steps that restricts the events to `rep`. -/
theorem reach_logged {ok : State τ β → Act τ β → Prop}
    (hrep : ∀ s u a, ok s a → step s a = some u → s.ReportsOnly rep a) :
    ∀ p : State τ β × (τ → List (ℕ × BitVec 32)),
      ReachIf (fun p => Init p.1 ∧ p.2 = fun _ => []) (recorded step logAfter) (fun p => ok p.1) p →
        p.1.LoggedAt rep p.2 := by
  refine ReachIf.invariant_with (fun p => (∃ loc, p.1.OwnedAt p.1.unfinished loc) ∧ p.1.Turns)
    (fun p hp => ?_) (fun p h => ?_) fun p p' a ⟨⟨loc, hown⟩, hturns⟩ h hok hst => ?_
  · have hreach : Reach Init step p.1 :=
      ((reachIf_recorded _).mpr ⟨p.2, hp⟩).mono fun _ _ _ => trivial
    exact ⟨reach_owned _ hreach, reach_turns _ hreach⟩
  · rw [h.2]
    exact logged_init h.1
  · obtain ⟨hst, hlog⟩ := recorded_eq_some.mp hst
    rw [hlog]
    exact step_logged hown hturns h (hrep _ _ a hok hst) hst

theorem reach_epollReports (hs : ReachIf Init step EpollReports s) : ∃ log, s.LoggedAt Reportable log := by
  have hrecord : ∃ log, ReachIf (fun p => Init p.1 ∧ p.2 = fun _ => []) (recorded step logAfter)
      (fun p => p.1.EpollReports) (s, log) := (reachIf_recorded _).mp hs
  obtain ⟨log, hlog⟩ := hrecord
  exact ⟨log, reach_logged (fun _ _ _ hok _ => hok) (s, log) hlog⟩

omit [LinearOrder τ] [DecidableEq β] in
/-- The wait of a task in a hooked call. -/
theorem hooked_waits {hk : Hook} (h : s.LoggedAt rep log) (hhook : s.hook tk = some hk) :
    ∃ fdsts ms, hk.start = .io fdsts ms ∧ (s.io.task tk).waitFds_.map FdStruct.request = fdsts ∧
      Reports rep (s.io.task tk).waitFds_ (s.io.task tk).waitSuccessful_ (log tk) := by
  obtain ⟨hmade, fdsts, ms, hstart, hreq⟩ := h.settled.hooked tk hk hhook
  exact ⟨fdsts, ms, hstart, hreq, h.settled.logged.reports tk hmade⟩

end State

end Scheduler
