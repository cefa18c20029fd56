/-
What a step of the scheduler does to the data of io waits.

Most steps move tasks between queues and leave descriptors, references and timers
alone.  `IoView` is the part of a state that io waits are about, and `IoStep` lists
the changes that a step can make to it.

* `step_io` — every step of a scheduler with owned tasks is an `IoStep`.
-/
import CppFeatures.IoLedger
import CppFeatures.Ownership

/-- The timers of a list are no longer active. -/
def TimerHeap.deactivateAll {F : Type*} (h : TimerHeap) (timers : List (CoTimer F)) : TimerHeap :=
  timers.foldl (fun h timer => (h.deactivate timer.id_).1) h

namespace Scheduler

variable {τ β : Type*} [LinearOrder τ] [DecidableEq β]

/-- The part of a state that io waits and timers use. -/
structure IoView (τ : Type*) where
  created : Finset τ
  ioWaitTasks_ : List τ
  sleepTimerMgr_ : CoTimerMgr τ
  io : IoState τ
  timers : TimerHeap
  timerMgr_ : CoTimerMgr Unit
  hook : τ → Option Hook

namespace Queues

/-- The part of `IoView` that is in the queues. -/
def ioView (q : Queues τ β) : Finset τ × List τ × CoTimerMgr τ :=
  (q.created, q.ioWaitTasks_, q.sleepTimerMgr_)

omit [DecidableEq β] in
theorem ioView_addTaskRunnable (q : Queues τ β) (tk : τ) : (q.addTaskRunnable tk).ioView = q.ioView := by
  rw [addTaskRunnable]
  split
  · rw [procAddTaskRunnable]
    split_ifs <;> rfl
  · rfl

theorem ioView_wakeup (q : Queues τ β) (b : β) : (q.wakeup b).ioView = q.ioView := by
  rw [wakeup]
  dsimp only
  split
  · rfl
  · exact ioView_addTaskRunnable _ _

omit [DecidableEq β] in
theorem ioView_userBlockWakeup (q : Queues τ β) (k : WaitKey) :
    (q.userBlockWakeup k).ioView = q.ioView := by
  rw [userBlockWakeup]
  refine List.foldlRecOn (motive := fun q' : Queues τ β => q'.ioView = q.ioView) _ _ rfl ?_
  exact fun q' h tk _ => (ioView_addTaskRunnable q' tk).trans h

omit [DecidableEq β] in
theorem ioView_pickTasks (q : Queues τ β) (c p : ℕ) : (q.pickTasks c p).ioView = q.ioView := by
  have hpick : ∀ n (q : Queues τ β), (cherryPick p n q).ioView = q.ioView := by
    intro n
    induction n with
    | zero => exact fun _ => rfl
    | succ n ih =>
      intro q
      rw [cherryPick]
      split
      · rfl
      · rw [ih, procAddTaskRunnable]
        split_ifs <;> rfl
  rw [pickTasks]
  split_ifs
  · rfl
  · exact hpick _ q

theorem ioView_blockSwitch (q : Queues τ β) (p : ℕ) (tk : τ) :
    (State.blockSwitch q p tk).1.ioView = q.ioView := by
  rw [State.blockSwitch]
  split
  · dsimp only
    split_ifs <;> rfl
  · dsimp only
    split_ifs <;> rfl

end Queues

namespace State

variable {s u : State τ β} {tk : τ} {U : Finset τ} {loc : τ → Option (Loc β)}

def ioView (s : State τ β) : IoView τ :=
  ⟨s.q.created, s.q.ioWaitTasks_, s.q.sleepTimerMgr_, s.io, s.timers, s.timerMgr_, s.hook⟩

omit [LinearOrder τ] [DecidableEq β] in
theorem ioView_eq {q : Queues τ β} (h : q.ioView = s.q.ioView) (ph : Phase τ) (procs : List ℕ) :
    { s with q := q, phase := ph, runProcList_ := procs }.ioView = s.ioView := by
  simp only [Queues.ioView, Prod.mk.injEq] at h
  simp only [ioView, h]

omit [LinearOrder τ] [DecidableEq β] in
theorem ioView_setTurn (s : State τ β) (turn : Turn) : (s.setTurn turn).ioView = s.ioView := by
  rw [setTurn]
  split <;> rfl

omit [DecidableEq β] in
theorem ioView_switchAs (s : State τ β) (tk : τ) (f : Task β → Task β) :
    (s.switchAs tk f).ioView = s.ioView :=
  ioView_setTurn _ _

omit [DecidableEq β] in
theorem ioView_sleepSwitch (s : State τ β) (tk : τ) (ms : ℤ) :
    (s.sleepSwitch tk ms).ioView = s.ioView := by
  rw [sleepSwitch]
  split_ifs
  · exact ioView_setTurn _ _
  · exact ioView_switchAs _ _ _

theorem ioView_coBlockWait (s : State τ β) (tk : τ) (b : β) :
    (s.coBlockWait tk b).ioView = s.ioView := by
  rw [coBlockWait]
  dsimp only
  split_ifs
  · rfl
  · exact ioView_switchAs _ _ _

omit [DecidableEq β] in
theorem ioView_ioSchedulerSwitch (s : State τ β) (ph : Phase τ) (tk : τ) (now : ℤ) :
    ({ s with phase := ph }.ioSchedulerSwitch tk now).ioView = (s.ioSchedulerSwitch tk now).ioView := by
  rw [ioSchedulerSwitch, ioSchedulerSwitch]
  dsimp only
  split_ifs <;> rfl

omit [DecidableEq β] in
/-- A task of `wait_tasks_` is woken. -/
theorem ioView_ioWakeup (s : State τ β) (q : Queues τ β) (io : IoState τ) (tk : τ) :
    { s with q := q.ioWakeup tk, io := io }.ioView = { ({ s with q := q, io := io }).ioView with
      ioWaitTasks_ := q.ioWaitTasks_.erase tk } := by
  have hview := Queues.ioView_addTaskRunnable { q with ioWaitTasks_ := q.ioWaitTasks_.erase tk } tk
  simp only [Queues.ioView, Prod.mk.injEq] at hview
  simp only [ioView, Queues.ioWakeup, hview]

omit [DecidableEq β] in
/-- `Cancel` ends a wait, or finds none. -/
theorem cancel_cases (s : State τ β) (tk : τ) (id : BitVec 32) :
    (tk ∈ s.q.ioWaitTasks_ ∧ (s.io.task tk).ioBlockId_ = id ∧
      (s.cancel tk id).ioView = { s.ioView with
        io := s.io.clearFds tk id
        ioWaitTasks_ := s.q.ioWaitTasks_.erase tk }) ∨
    s.cancel tk id = s ∧ ((s.io.task tk).ioBlockId_ = id → tk ∉ s.q.ioWaitTasks_) := by
  rw [State.cancel]
  split_ifs with hid hmem
  · exact .inr ⟨rfl, fun h => absurd h hid⟩
  · rw [ne_eq, not_not] at hid
    exact .inl ⟨hmem, hid, ioView_ioWakeup s s.q _ tk⟩
  · exact .inr ⟨rfl, fun _ => hmem⟩

omit [DecidableEq β] in
/-- **`SchedulerSwitch`**, without and with a timer. -/
theorem ioSchedulerSwitch_ioView (hno : tk ∉ s.q.ioWaitTasks_) (now : ℤ) :
    (s.ioSchedulerSwitch tk now).ioView = { s.ioView with
      io := (s.io.register tk).1.decrementRef tk
      ioWaitTasks_ := if (s.io.register tk).2 then s.q.ioWaitTasks_ ++ [tk] else s.q.ioWaitTasks_ } ∨
    ((s.io.register tk).1.task tk).ioBlockTimeout_ ≠ -1 ∧
      (s.ioSchedulerSwitch tk now).ioView = { s.ioView with
        io := ((s.io.register tk).1.setTimer tk ⟨s.timers.sId + 1,
          (tk, ((s.io.register tk).1.task tk).ioBlockId_),
          now + ((s.io.register tk).1.task tk).ioBlockTimeout_⟩).decrementRef tk
        ioWaitTasks_ := if (s.io.register tk).2 then s.q.ioWaitTasks_ ++ [tk] else s.q.ioWaitTasks_
        timers := s.timers.new } := by
  rw [State.ioSchedulerSwitch]
  dsimp only
  cases hok : (s.io.register tk).2 with
  | false =>
    -- the task is woken at once
    have herase : (s.q.ioWaitTasks_ ++ [tk]).erase tk = s.q.ioWaitTasks_ := by
      rw [List.erase_append_right _ hno]
      simp
    refine .inl ?_
    rw [if_pos (by simp), if_pos (by simp), ioView_ioWakeup]
    simp only [herase, Bool.false_eq_true, if_false]
    rfl
  | true =>
    rw [if_neg (by simp)]
    by_cases htimeout : ((s.io.register tk).1.task tk).ioBlockTimeout_ ≠ -1
    · rw [if_pos htimeout]
      exact .inr ⟨htimeout, rfl⟩
    · rw [if_neg htimeout]
      exact .inl rfl

omit [DecidableEq β] in
theorem ioView_sleepTimeout (s : State τ β) (timer : CoTimer τ) : (s.sleepTimeout timer).ioView
    = { s.ioView with timers := (s.timers.deactivate timer.id_).1 } := by
  have hview := Queues.ioView_addTaskRunnable { s.q with
    sleepWaitTasks_ := s.q.sleepWaitTasks_.erase timer.fn_ } timer.fn_
  simp only [Queues.ioView, Prod.mk.injEq] at hview
  rw [sleepTimeout]
  dsimp only [TimerHeap.deactivate]
  split_ifs with hact
  · simp only [ioView, Queues.sleepWakeup, hview]
  · -- a timer that is not active stays so
    have hself : Function.update s.timers.active_ timer.id_ false = s.timers.active_ := by
      rw [Function.update_eq_self_iff]
      simpa using hact
    rw [hself]
    rfl

omit [DecidableEq β] in
theorem ioView_sleepWaitLoop (s : State τ β) (now : ℤ) : (s.sleepWaitLoop now).ioView
    = { s.ioView with
      sleepTimerMgr_ := (s.q.sleepTimerMgr_.getExpired now 128).2
      timers := s.timers.deactivateAll (s.q.sleepTimerMgr_.getExpired now 128).1 } := by
  have hfold : ∀ (timers : List (CoTimer τ)) (s : State τ β), (timers.foldl sleepTimeout s).ioView
      = { s.ioView with timers := s.timers.deactivateAll timers } := by
    intro timers
    induction timers with
    | nil => exact fun _ => rfl
    | cons timer timers ih =>
      intro s
      have hview := ioView_sleepTimeout s timer
      have htimers : (s.sleepTimeout timer).timers = (s.timers.deactivate timer.id_).1 :=
        congrArg IoView.timers hview
      rw [List.foldl_cons, ih, hview, htimers]
      rfl
  rw [sleepWaitLoop]
  exact hfold _ _

omit [DecidableEq β] in
theorem ioView_createTask (s : State τ β) (tk : τ) (id : BitVec 32) :
    ({ s with
      q := s.q.createTask tk
      io := s.io.modifyTask tk fun _ => { ioBlockId_ := id } } : State τ β).ioView
    = { s.ioView with
      created := insert tk s.q.created
      io := s.io.modifyTask tk fun _ => { ioBlockId_ := id } } := by
  have hview := Queues.ioView_addTaskRunnable { s.q with
    created := insert tk s.q.created
    task := Function.update s.q.task tk {}
    taskCount_ := s.q.taskCount_ + 1 } tk
  simp only [Queues.ioView, Prod.mk.injEq] at hview
  simp only [ioView, Queues.createTask, hview]

/-- **The changes of a step** to what io waits use. -/
inductive IoStep (s : State τ β) : Act τ β → IoView τ → Prop
  | same {a : Act τ β} : (∀ U, s.unfinishedAfter U a = U) → IoStep s a s.ioView
  | coSwitch {tk : τ} {h : Hook} {fdsts : List FdStruct} {ms : ℤ} :
      s.userTask = some tk → h.start = .io fdsts ms →
      IoStep s (.enterHook h) { s.ioView with
        io := s.io.coSwitch tk fdsts ms
        hook := Function.update s.hook tk (some h) }
  -- the end of a hooked call, without and with a timer to cancel
  | endWait {tk : τ} {h : Hook} : s.atTurn .running = some tk → s.hook tk = some h →
      (h.cancelsTimer → ∀ timer ∈ (s.io.task tk).ioBlockTimer_, s.timers.active_ timer.id_ = false) →
      IoStep s .leaveHook { s.ioView with hook := Function.update s.hook tk none }
  | cancelTimer {tk : τ} {h : Hook} {timer : CoTimer (τ × BitVec 32)} :
      s.atTurn .running = some tk → s.hook tk = some h →
      (s.io.task tk).ioBlockTimer_ = some timer → s.timers.active_ timer.id_ →
      IoStep s .leaveHook { s.ioView with
        io := s.io.decrementRef tk
        timers := (s.timers.deactivate timer.id_).1
        timerMgr_ := s.timerMgr_.cancel timer.id_ timer.nextTimePoint_
        hook := Function.update s.hook tk none }
  | ioSwitch {tk : τ} {now : ℤ} : s.atTurn .left = some tk → (s.q.task tk).state_ = .ioBlock →
      IoStep s (.switch now) (s.ioSchedulerSwitch tk now).ioView
  | sleepSwitch {tk : τ} {now : ℤ} : s.atTurn .left = some tk → (s.q.task tk).state_ = .sleep →
      IoStep s (.switch now) { s.ioView with
        sleepTimerMgr_ := s.q.sleepTimerMgr_.expireAt
          ⟨s.timers.sId + 1, tk, now + (s.q.task tk).sleepMs_⟩
        timers := s.timers.new }
  | finish {tk : τ} {now : ℤ} : s.finishing = some tk →
      IoStep s (.switch now) { s.ioView with io := s.io.decrementRef tk }
  | doEpoll {nows : List ℤ} {readEvs writeEvs : List (ℤ × BitVec 32)} :
      s.phase = .doEpoll → s.EventsOf .read readEvs → s.EventsOf .write writeEvs →
      IoStep s (.doEpoll nows readEvs writeEvs) (s.ioWaitLoop nows readEvs writeEvs).ioView
  | doTimer {now : ℤ} : IoStep s (.doTimer now) { s.ioView with
      timerMgr_ := (s.timerMgr_.getExpired now 128).2
      timers := s.timers.deactivateAll (s.timerMgr_.getExpired now 128).1 }
  | doSleep {now : ℤ} : IoStep s (.doSleep now) { s.ioView with
      sleepTimerMgr_ := (s.q.sleepTimerMgr_.getExpired now 128).2
      timers := s.timers.deactivateAll (s.q.sleepTimerMgr_.getExpired now 128).1 }
  | createTask {tk : τ} {id : BitVec 32} : tk ∉ s.q.created →
      IoStep s (.createTask tk id) { s.ioView with
        created := insert tk s.q.created
        io := s.io.modifyTask tk fun _ => { ioBlockId_ := id } }
  | expireAt {tp : ℤ} : IoStep s (.expireAt tp) { s.ioView with
      timerMgr_ := s.timerMgr_.expireAt ⟨s.timers.sId + 1, (), tp⟩
      timers := s.timers.new }
  | openFd {fd : ℤ} {status : FdStatus} : s.io.kernel.status fd = .closed →
      IoStep s (.openFd fd status) { s.ioView with
        io := { s.io with kernel := s.io.kernel.openFd fd status } }
  | closeFd {fd : ℤ} : IoStep s (.closeFd fd) { s.ioView with
      io := { s.io with kernel := s.io.kernel.closeFd fd } }

omit [DecidableEq β] in
theorem IoStep.of_eq {a : Act τ β} (h : u.ioView = s.ioView) (hU : ∀ U, s.unfinishedAfter U a = U) :
    IoStep s a u.ioView :=
  h ▸ .same hU

omit [DecidableEq β] in
theorem unfinishedAfter_switch (hleft : s.atTurn .left = some tk) (hd : (s.q.task tk).state_ ≠ .done)
    (now : ℤ) (U : Finset τ) : s.unfinishedAfter U (.switch now) = U := by
  have hfin : s.finishing = none := by
    rw [finishing, hleft]
    simp [hd]
  rw [unfinishedAfter, hfin]

omit [DecidableEq β] in
/-- **The end of a hooked call**, without and with a timer to cancel. -/
theorem leaveHook_ioView (s : State τ β) (tk : τ) (h : Hook) :
    ((h.cancelsTimer → ∀ timer ∈ (s.io.task tk).ioBlockTimer_, s.timers.active_ timer.id_ = false) ∧
      (s.leaveHook tk h).ioView = { s.ioView with hook := Function.update s.hook tk none }) ∨
    ∃ timer, h.cancelsTimer ∧ (s.io.task tk).ioBlockTimer_ = some timer ∧
      s.timers.active_ timer.id_ ∧ (s.leaveHook tk h).ioView = { s.ioView with
        io := s.io.decrementRef tk
        timers := (s.timers.deactivate timer.id_).1
        timerMgr_ := s.timerMgr_.cancel timer.id_ timer.nextTimePoint_
        hook := Function.update s.hook tk none } := by
  obtain ⟨v, hv, -, -, heq⟩ := s.leaveHook_cases tk h
  have hview : (s.leaveHook tk h).ioView = { v.ioView with hook := Function.update v.hook tk none } := by
    rcases heq with heq | heq
    · rw [heq]
      rfl
    · rw [heq]
      exact ioView_sleepSwitch _ _ _
  rw [hview, hv]
  by_cases hc : h.cancelsTimer = true
  · rw [if_pos hc, cancelIoTimer]
    cases htimer : (s.io.task tk).ioBlockTimer_ with
    | none =>
      refine .inl ⟨fun _ timer ht => ?_, rfl⟩
      cases ht
    | some timer =>
      dsimp only
      split_ifs with hact
      · exact .inr ⟨timer, hc, rfl, hact, rfl⟩
      · refine .inl ⟨fun _ timer' ht => ?_, rfl⟩
        rw [Option.mem_some] at ht
        rw [← ht]
        exact Bool.eq_false_iff.mpr hact
  · rw [if_neg hc]
    exact .inl ⟨fun h0 => absurd h0 hc, rfl⟩

omit [DecidableEq β] in
theorem leaveHook_io {h : Hook} (hcur : s.atTurn .running = some tk) (hhook : s.hook tk = some h) :
    IoStep s .leaveHook (s.leaveHook tk h).ioView := by
  rcases s.leaveHook_ioView tk h with ⟨hdead, heq⟩ | ⟨timer, -, htimer, hact, heq⟩
  · rw [heq]
    exact .endWait hcur hhook hdead
  · rw [heq]
    exact .cancelTimer hcur hhook htimer hact

/-- The switch of `Processer::Run`; a task of the pass has been started. -/
theorem processerSwitch_io (h : s.OwnedAt U loc) {c i : ℕ} {P : Pass τ}
    (hph : s.phase = .processer c i P) (hturn : P.turn = .left) {rest : List τ}
    (hafter : P.after = tk :: rest) (now : ℤ) :
    IoStep s (.switch now) (s.processerSwitch c i P tk rest now).ioView := by
  have hleft : s.atTurn .left = some tk := by
    rw [atTurn, hph]
    simp [hturn, hafter]
  have h' : s.q.Owned (P.before ++ tk :: rest) (some P.proc) P.doneCount (some tk) U loc := by
    rw [OwnedAt, slist, passProc, doneCount, hleft, hph] at h
    rw [← hafter]
    exact h
  have hstarted := (h'.started h'.loc_of_slist (by simp)).1
  have hU : (s.q.task tk).state_ ≠ .done → ∀ U, s.unfinishedAfter U (.switch now) = U :=
    fun hd U => unfinishedAfter_switch hleft hd now U
  rw [processerSwitch]
  cases hst : (s.q.task tk).state_ with
  | runnable => exact .same (hU (by simp [hst]))
  | ioBlock =>
    dsimp only
    rw [ioView_ioSchedulerSwitch]
    exact .ioSwitch hleft hst
  | sleep => exact .sleepSwitch hleft hst
  | sysBlock => exact .of_eq (ioView_eq (Queues.ioView_blockSwitch _ _ _) _ _) (hU (by simp [hst]))
  | userBlock => exact .of_eq (ioView_eq (Queues.ioView_blockSwitch _ _ _) _ _) (hU (by simp [hst]))
  | done =>
    have hfin : s.finishing = some tk := by
      rw [finishing, hleft]
      simp [hst]
    dsimp only
    split_ifs
    · exact .finish hfin
    · exact .finish hfin
  | init => simp [hst, TaskState.started] at hstarted
  | fatal => simp [hst, TaskState.started] at hstarted

/-- **Every step** changes what io waits use in one of these ways. -/
theorem step_io {a : Act τ β} (h : s.OwnedAt U loc) (hst : s.step a = some u) :
    IoStep s a u.ioView := by
  cases step_cases hst with
  | run n hph => exact .same fun _ => rfl
  | @nextProc c i p procs hph hprocs hi =>
    exact .of_eq (ioView_eq (q := (s.q.pickTasks c p).popAll p)
      (Queues.ioView_pickTasks s.q c p) _ _) fun _ => rfl
  | endRunnable hph => exact .same fun _ => rfl
  | resume hcur => exact .of_eq (ioView_setTurn _ _) fun _ => rfl
  | coYield hcur => exact .of_eq (ioView_setTurn _ _) fun _ => rfl
  | sleepSwitch ms hcur => exact .of_eq (ioView_sleepSwitch _ _ _) fun _ => rfl
  | coBlockWait b hcur => exact .of_eq (ioView_coBlockWait _ _ _) fun _ => rfl
  | userBlockWait k hcur => exact .of_eq (ioView_switchAs _ _ _) fun _ => rfl
  | enterHook hk hcur =>
    rw [enterHook]
    cases hstart : hk.start with
    | direct => exact .same fun _ => rfl
    | sleep ms => exact .of_eq (ioView_sleepSwitch _ _ _) fun _ => rfl
    | io fdsts ms =>
      dsimp only
      rw [coSwitch, ioView_switchAs]
      exact .coSwitch hcur hstart
  | leaveHook hcur hhook => exact leaveHook_io hcur hhook
  | finish eptr hcur => exact .of_eq (ioView_switchAs _ _ _) fun _ => rfl
  | switch now hph hturn hafter => exact processerSwitch_io h hph hturn hafter now
  | endPass hph hafter => exact .same fun _ => rfl
  | doEpoll nows readEvs writeEvs hph hread hwrite => exact .doEpoll hph hread hwrite
  | doTimer now hph => exact .doTimer
  | doSleep now hph =>
    have heq : ({ s.sleepWaitLoop now with phase := .idle } : State τ β).ioView
        = (s.sleepWaitLoop now).ioView := rfl
    rw [heq, ioView_sleepWaitLoop]
    exact .doSleep
  | @createTask tk id hnew =>
    rw [ioView_createTask]
    exact .createTask hnew
  | wakeup b => exact .of_eq (ioView_eq (Queues.ioView_wakeup s.q b) _ _) fun _ => rfl
  | tryBlockWait b => exact .same fun _ => rfl
  | userBlockWakeup k => exact .of_eq (ioView_eq (Queues.ioView_userBlockWakeup s.q k) _ _) fun _ => rfl
  | tryUserBlockWait k => exact .same fun _ => rfl
  | expireAt tp => exact .expireAt
  | openFd status hclosed => exact .openFd hclosed
  | closeFd fd => exact .closeFd

end State

end Scheduler
