/-
What hooked `poll` and `select` find when their wait is over, over runs of the scheduler
(coroutine/linux_glibc_hook.cpp).

* `State.poll_waits`, `State.select_waits` — the entries of the two calls and what epoll
  has reported for them;
* `State.pollLoop_counts` — the last assertion of `poll`;
* `State.poll_reports_iff` — `revents` and the value returned, by how the wait has ended.
-/
import CppFeatures.LoggedWaits

namespace IoState

variable {τ : Type*} {io : IoState τ} {tk : τ}

/-! ### Entries that epoll does not take -/

section Refused

variable [DecidableEq τ] {id : BitVec 32} {fs : List FdStruct}

theorem decrementRef_incrementRef (h : (io.task tk).refCount_ ≠ 0) :
    (io.incrementRef tk).decrementRef tk = io := by
  have hcount : ((io.incrementRef tk).task tk).refCount_ ≠ 1 := by
    simp only [incrementRef, modifyTask, Function.update_self]
    omega
  rw [decrementRef_eq, if_neg hcount]
  simp [incrementRef, modifyTask]

/-- Entries that epoll does not take are passed over. -/
theorem addFds_refused (href : (io.task tk).refCount_ ≠ 0)
    (hst : ∀ f ∈ fs, io.kernel.status f.fd ≠ .pollable)
    (hno : ∀ f ∈ fs, ∀ e, ∀ r ∈ io.kernel.epoll e, r.fd ≠ f.fd) (slot : ℕ) (rb : List FdStruct)
    (ok : Bool) : addFds tk id slot fs io rb ok = (io, ok) := by
  induction fs generalizing slot with
  | nil => rfl
  | cons f fs ih =>
    rw [List.forall_mem_cons] at hst hno
    have hadd : (io.incrementRef tk).kernel.epollCtlAdd (chooseEpoll f.event)
        ⟨f.fd, f.event, tk, id, slot⟩ = .error .other := by
      rw [Kernel.epollCtlAdd, if_neg, if_neg]
      · exact hst.1
      · rintro ⟨r, hr, hfd⟩
        exact hno.1 _ r hr hfd
    rw [addFds, hadd]
    dsimp only
    rw [decrementRef_incrementRef href]
    exact ih hst.2 hno.2 _

theorem foldl_delFd_absent (hno : ∀ f ∈ fs, ∀ e, ∀ r ∈ io.kernel.epoll e, r.fd ≠ f.fd) :
    fs.foldl (delFd tk id) io = io := by
  induction fs with
  | nil => rfl
  | cons f fs ih =>
    rw [List.forall_mem_cons] at hno
    have hdel : delFd tk id io f = io := by
      have hnone : (io.kernel.epoll (chooseEpoll f.event)).find? (fun r => decide (r.fd = f.fd))
          = none := by
        rw [List.find?_eq_none]
        intro r hr
        simpa using hno.1 _ r hr
      rw [delFd, Kernel.epollCtlDel, hnone]
    rw [List.foldl_cons, hdel]
    exact ih hno.2

end Refused

end IoState

namespace Scheduler

open List IoState

variable {τ β : Type*} [LinearOrder τ] [DecidableEq β] {rep : BitVec 32 → BitVec 32 → Prop}
  {log : τ → List (ℕ × BitVec 32)}

namespace State

variable {s : State τ β} {tk : τ}

/-! ### `poll` -/

variable {fds : List (ℤ × BitVec 16)} {timeout : ℤ} {revents revents' : List (BitVec 16)}
  {n : BitVec 32}

omit [LinearOrder τ] [DecidableEq β] in
/-- The wait of a `poll`: one entry for each of the array. -/
theorem poll_waits (h : s.LoggedAt rep log) (hhook : s.hook tk = some (.poll fds timeout)) :
    (s.io.task tk).waitFds_.length = fds.length ∧
    (∀ f ∈ (s.io.task tk).waitFds_, ∃ ev, f.event = pollEvent2Epoll ev) ∧
    Reports rep (s.io.task tk).waitFds_ (s.io.task tk).waitSuccessful_ (log tk) := by
  obtain ⟨fdsts, ms, hstart, hreq, hrep⟩ := hooked_waits h hhook
  rw [Hook.start] at hstart
  split_ifs at hstart
  cases hstart
  refine ⟨?_, fun f hf => ?_, hrep⟩
  · have hlen := congrArg List.length hreq
    rwa [length_map, length_map] at hlen
  · have hmem : f.request ∈ fds.map fun p => ({ fd := p.1, event := pollEvent2Epoll p.2 } : FdStruct) :=
      hreq ▸ mem_map_of_mem hf
    obtain ⟨p, -, heq⟩ := mem_map.mp hmem
    exact ⟨p.2, (congrArg FdStruct.event heq).symm⟩

omit [LinearOrder τ] [DecidableEq β] in
/-- `poll` loses none of the reports. -/
theorem countP_pollRevents (h : s.LoggedAt Reportable log) (hhook : s.hook tk = some (.poll fds timeout)) :
    (pollRevents (s.io.task tk).waitFds_).countP (fun r => decide (r ≠ 0)) = (log tk).length := by
  obtain ⟨-, hevent, hrep⟩ := poll_waits h hhook
  rw [pollRevents, countP_map, ← hrep.nonzero fun _ _ hxy => hxy.1]
  refine countP_congr fun f hf => ?_
  rw [Function.comp_apply, decide_eq_true_iff, decide_eq_true_iff]
  constructor
  · intro hne hzero
    rw [hzero] at hne
    exact hne (by decide)
  · intro hne
    obtain ⟨ev, hev⟩ := hevent f hf
    exact epollEvent2Poll_ne_zero (hev ▸ hrep.reportable f hf hne)

/-- **The assertion of `poll`**, for arrays that an `int` can count: the number of entries with
non-zero `revents` is `wait_successful_`. -/
theorem pollLoop_counts (hs : ReachIf Init step EpollReports s)
    (hhook : s.hook tk = some (.poll fds timeout)) (hfew : fds.length < 2 ^ 31)
    (hlen : revents.length = fds.length) :
    ∃ revents', pollLoop (pollEntries (s.io.task tk).waitFds_) revents 0
        = (revents', (s.io.task tk).waitSuccessful_) ∧
      (s.io.task tk).waitSuccessful_.toInt = revents'.countP fun r => decide (r ≠ 0) := by
  obtain ⟨log, h⟩ := reach_epollReports hs
  obtain ⟨hsize, -, hrep⟩ := poll_waits h hhook
  have hnonzero := countP_pollRevents h hhook
  have hcount := hrep.length_le
  rw [pollEntries_eq (by omega), pollLoop_eq (by omega), hnonzero, hrep.count]
  refine ⟨_, Prod.ext rfl (BitVec.zero_add _), ?_⟩
  rw [hnonzero, toInt_ofNat_of_lt (by omega)]

/-- One descriptor that can be polled, and `k` that are closed. -/
def manyFds (k : ℕ) : List (ℤ × BitVec 16) := (3, POLLIN) :: List.replicate k (-1, POLLIN)

/-- The entries for the closed ones. -/
def closedFds (k : ℕ) : List FdStruct :=
  (List.replicate k ((-1 : ℤ), POLLIN)).map fun p => { fd := p.1, event := pollEvent2Epoll p.2 }

theorem fd_of_closedFds {k : ℕ} {f : FdStruct} (hf : f ∈ closedFds k) : f.fd = -1 := by
  obtain ⟨p, hp, rfl⟩ := mem_map.mp hf
  rw [eq_of_mem_replicate hp]

def beforePoll : State ℕ Unit :=
  (execIf step EpollReports (start fun fd => if fd < 0 then .closed else .pollable)
    [.createTask 1 0, .run 1, .nextProc, .resume]).get rfl

/-- Task 1 polls them. -/
def manyPolled (k : ℕ) : State ℕ Unit :=
  { beforePoll with
    q := beforePoll.q.setState 1 .ioBlock
    io := beforePoll.io.coSwitch 1 (⟨3, EPOLLIN, 0⟩ :: closedFds k) (-1)
    hook := Function.update beforePoll.hook 1 (some (.poll (manyFds k) (-1)))
    phase := .processer 1 0 ⟨1, [], [1], .left, 0⟩ }

/-- The registration for the first descriptor. -/
def manyRegistered (k : ℕ) : IoState ℕ :=
  { ((manyPolled k).io.incrementRef 1).incrementRef 1 with
    kernel := { (manyPolled k).io.kernel with
      epoll := Function.update (manyPolled k).io.kernel.epoll .read [⟨3, EPOLLIN, 1, 1, 0⟩] } }

theorem fd_of_manyRegistered {k : ℕ} (e : EpollType) :
    ∀ r ∈ (manyRegistered k).kernel.epoll e, r.fd = 3 := by
  cases e with
  | read => exact forall_mem_singleton.mpr rfl
  | write => exact forall_mem_nil _

theorem register_manyPolled (k : ℕ) : (manyPolled k).io.register 1 = (manyRegistered k, true) := by
  have hrest : addFds 1 1 1 (closedFds k) (manyRegistered k) [⟨3, EPOLLIN, 0⟩] true
      = (manyRegistered k, true) := by
    refine addFds_refused ?_ (fun f hf => ?_) (fun f hf e r hr => ?_) _ _ _
    · show (1 + 1 + 1 : ℤ) ≠ 0
      omega
    · rw [fd_of_closedFds hf]
      show FdStatus.closed ≠ .pollable
      decide
    · rw [fd_of_closedFds hf, fd_of_manyRegistered e r hr]
      decide
  exact hrest

def manyWaiting (k : ℕ) : State ℕ Unit :=
  { manyPolled k with
    q := { (manyPolled k).q with ioWaitTasks_ := [1] }
    io := (manyRegistered k).decrementRef 1
    phase := .processer 1 0 ⟨1, [], [], .enter, 0⟩ }

theorem step_manyPolled (k : ℕ) : (manyPolled k).step (.switch 0) = some (manyWaiting k) := by
  show some (({ manyPolled k with phase := .processer 1 0 ⟨1, [], [], .enter, 0⟩ } :
    State ℕ Unit).ioSchedulerSwitch 1 0) = _
  rw [ioSchedulerSwitch]
  dsimp only
  rw [register_manyPolled]
  rfl

def manyAtEpoll (k : ℕ) : State ℕ Unit :=
  { manyWaiting k with
    q := { (manyWaiting k).q.pushAll 1 [] with taskCount_ := (manyWaiting k).q.taskCount_ - 0 }
    runProcList_ := [1]
    phase := .doEpoll }

/-- The first descriptor can be read. -/
def manyReported (k : ℕ) : IoState ℕ := ((manyAtEpoll k).io.epollEvent .read (3, EPOLLIN)).1

theorem clearFds_manyReported (k : ℕ) : (manyReported k).clearFds 1 1
    = delFd 1 1 (manyReported k) ⟨3, EPOLLIN, EPOLLIN⟩ := by
  show (closedFds k).foldl (delFd 1 1) (delFd 1 1 (manyReported k) ⟨3, EPOLLIN, EPOLLIN⟩) = _
  have hnone : ∀ e, (delFd 1 1 (manyReported k) ⟨3, EPOLLIN, EPOLLIN⟩).kernel.epoll e = [] := by
    intro e
    cases e <;> rfl
  refine foldl_delFd_absent fun f _ e r hr => ?_
  rw [hnone] at hr
  cases hr

def manyWoken (k : ℕ) : State ℕ Unit :=
  { manyAtEpoll k with
    q := ({ (manyAtEpoll k).q with ioWaitTasks_ := [] }.setState 1 .runnable).pushRunnable 1 1
    io := (delFd 1 1 (manyReported k) ⟨3, EPOLLIN, EPOLLIN⟩).deleteTasks
    phase := .doTimer }

theorem step_manyAtEpoll (k : ℕ) :
    (manyAtEpoll k).step (.doEpoll [] [(3, EPOLLIN)] []) = some (manyWoken k) := by
  have hcancel : ({ manyAtEpoll k with io := manyReported k } : State ℕ Unit).cancel 1 1
      = { manyAtEpoll k with
        q := (manyWoken k).q
        io := delFd 1 1 (manyReported k) ⟨3, EPOLLIN, EPOLLIN⟩ } := by
    rw [← clearFds_manyReported]
    rfl
  have hloop : (manyAtEpoll k).ioWaitLoop [] [(3, EPOLLIN)] [] = { manyAtEpoll k with
      q := (manyWoken k).q
      io := (manyWoken k).io } := by
    show ({ (({ manyAtEpoll k with io := manyReported k } : State ℕ Unit).cancel 1 1).runTimeouts with
      io := (({ manyAtEpoll k with io := manyReported k } :
        State ℕ Unit).cancel 1 1).runTimeouts.io.deleteTasks } : State ℕ Unit) = _
    rw [hcancel]
    rfl
  show some ({ (manyAtEpoll k).ioWaitLoop [] [(3, EPOLLIN)] [] with phase := .doTimer } :
    State ℕ Unit) = _
  rw [hloop]
  rfl

def manyResumed (k : ℕ) : State ℕ Unit :=
  { manyWoken k with
    q := ((manyWoken k).q.popAll 1).setState 1 .runnable
    runProcList_ := []
    phase := .processer 1 0 ⟨1, [], [1], .running, 0⟩ }

theorem reach_manyResumed (k : ℕ) : ReachIf Init step EpollReports (manyResumed k) := by
  have hbefore : ReachIf Init step EpollReports beforePoll :=
    reachIf_exec _ (.start (init_start _)) (Option.some_get _).symm
  have hpolled : ReachIf Init step EpollReports (manyPolled k) :=
    hbefore.next (a := .enterHook (.poll (manyFds k) (-1))) (reportsOnly_of_events fun _ => rfl) rfl
  have hwaiting : ReachIf Init step EpollReports (manyWaiting k) :=
    hpolled.next (reportsOnly_of_events fun _ => rfl) (step_manyPolled k)
  have hpass := hwaiting.next (a := .endPass) (reportsOnly_of_events fun _ => rfl) rfl
  have hepoll : ReachIf Init step EpollReports (manyAtEpoll k) :=
    hpass.next (a := .endRunnable) (reportsOnly_of_events fun _ => rfl) rfl
  have hwoken := hepoll.next (of_decide_eq_true rfl) (step_manyAtEpoll k)
  have htimer := hwoken.next (a := .doTimer 0) (reportsOnly_of_events fun _ => rfl) rfl
  have hsleep := htimer.next (a := .doSleep 0) (reportsOnly_of_events fun _ => rfl) rfl
  have hrun := hsleep.next (a := .run 1) (reportsOnly_of_events fun _ => rfl) rfl
  have hproc := hrun.next (a := .nextProc) (reportsOnly_of_events fun _ => rfl) rfl
  exact hproc.next (a := .resume) (reportsOnly_of_events fun _ => rfl) rfl

/-- With `2 ^ 31` entries the loop visits none of them, and the assertion fails. -/
theorem poll_assertion_fails : ∃ (s : State ℕ Unit) (fds : List (ℤ × BitVec 16)),
    ReachIf Init step EpollReports s ∧ s.atTurn .running = some 1 ∧
    s.hook 1 = some (.poll fds (-1)) ∧ fds.length = 2 ^ 31 ∧ (s.io.task 1).waitSuccessful_ = 1 ∧
    ∀ revents, pollLoop (pollEntries (s.io.task 1).waitFds_) revents 0 = (revents, 0) := by
  -- a variable, for `2 ^ 31 - 1` would be computed with
  obtain ⟨k, hk⟩ : ∃ k : ℕ, k + 1 = 2 ^ 31 := ⟨2 ^ 31 - 1, by omega⟩
  have hwait : ((manyResumed k).io.task 1).waitFds_ = ⟨3, EPOLLIN, EPOLLIN⟩ :: closedFds k := rfl
  have hsize : ((manyResumed k).io.task 1).waitFds_.length = 2 ^ 31 := by
    rw [hwait, ← hk]
    simp [closedFds]
  refine ⟨manyResumed k, manyFds k, reach_manyResumed k, rfl, rfl, ?_, rfl, fun revents => ?_⟩
  · rw [← hk]
    simp [manyFds]
  · rw [pollEntries_eq_nil hsize, pollLoop]
    simp

/-- What `poll` does with the array of its caller when its wait is over. -/
def endPoll (s : State τ β) (tk : τ) (revents : List (BitVec 16)) :
    Option (List (BitVec 16) × BitVec 32) :=
  let (s, isTimeout) := s.cancelIoTimer tk
  pollReturn (s.io.task tk) isTimeout revents

omit [DecidableEq β] in
theorem keepsWaits_cancelIoTimer (s : State τ β) (tk : τ) :
    KeepsWaits s.io (s.cancelIoTimer tk).1.io := by
  rw [cancelIoTimer]
  split
  · exact .refl s.io
  · split_ifs
    · exact keepsWaits_decrementRef s.io tk
    · exact .refl s.io

/-- The images of what epoll has reported for the entries of a `poll`. -/
def pollImages (log : List (ℕ × BitVec 32)) (nfds : ℕ) : List (BitVec 16) :=
  (List.range nfds).map fun i => epollEvent2Poll (reported log i)

omit [LinearOrder τ] [DecidableEq β] in
theorem pollRevents_eq (h : s.LoggedAt rep log) (hhook : s.hook tk = some (.poll fds timeout)) :
    pollRevents (s.io.task tk).waitFds_ = pollImages (log tk) fds.length := by
  obtain ⟨hsize, -, hrep⟩ := poll_waits h hhook
  refine ext_getElem? fun i => ?_
  rw [pollRevents, pollImages, List.getElem?_map, List.getElem?_map, ← hsize]
  cases hf : (s.io.task tk).waitFds_[i]? with
  | none =>
    have hi : (s.io.task tk).waitFds_.length ≤ i := List.getElem?_eq_none_iff.mp hf
    rw [List.getElem?_eq_none (by simpa using hi)]
    rfl
  | some f =>
    obtain ⟨hi, -⟩ := List.getElem?_eq_some_iff.mp hf
    rw [List.getElem?_range hi, Option.map_some, Option.map_some, hrep.revent i f hf]

theorem pollImages_nil (nfds : ℕ) : pollImages [] nfds = List.replicate nfds 0 := by
  refine eq_replicate_iff.mpr ⟨by simp [pollImages], fun r hr => ?_⟩
  obtain ⟨i, -, rfl⟩ := mem_map.mp hr
  rw [reported_of_notMem (by simp)]
  decide

omit [DecidableEq β] in
/-- The end of a `poll`, in terms of the log. -/
theorem endPoll_eq (h : s.LoggedAt rep log) (hhook : s.hook tk = some (.poll fds timeout))
    (hfew : fds.length < 2 ^ 31) (hlen : revents.length = fds.length) (hlog : log tk ≠ []) :
    s.endPoll tk revents = some (pollImages (log tk) fds.length,
      BitVec.ofNat 32 ((pollImages (log tk) fds.length).countP fun r => decide (r ≠ 0))) := by
  obtain ⟨hsize, -, hrep⟩ := poll_waits h hhook
  have hkeep := s.keepsWaits_cancelIoTimer tk
  have hcount := hrep.length_le
  have hpos : 0 < (log tk).length := length_pos_iff.mpr hlog
  have hne : BitVec.ofNat 32 (log tk).length ≠ 0 := by
    intro hzero
    have hint := congrArg BitVec.toInt hzero
    rw [toInt_ofNat_of_lt (by omega)] at hint
    have hzero' : (0 : BitVec 32).toInt = 0 := rfl
    omega
  have hadd : ∀ x : BitVec 32, 0 + x = x := fun x => BitVec.zero_add x
  show pollReturn ((s.cancelIoTimer tk).1.io.task tk) (s.cancelIoTimer tk).2 revents = _
  rw [pollReturn, hkeep.successful, hkeep.waitFds, hrep.count, if_neg hne, pollEntries_eq (by omega),
    pollLoop_eq (by omega), hadd, pollRevents_eq h hhook]

omit [DecidableEq β] in
/-- Without a report `poll` returns 0, and has not written to the array of its caller. -/
theorem endPoll_timeout (h : s.LoggedAt rep log) (hhook : s.hook tk = some (.poll fds timeout))
    (hlog : log tk = []) (hret : s.endPoll tk revents = some (revents', n)) :
    revents' = revents ∧ n = 0 := by
  obtain ⟨-, -, hrep⟩ := poll_waits h hhook
  change pollReturn ((s.cancelIoTimer tk).1.io.task tk) (s.cancelIoTimer tk).2 revents
    = some (revents', n) at hret
  have hzero : BitVec.ofNat 32 (log tk).length = 0 := by
    rw [hlog]
    rfl
  rw [pollReturn, (s.keepsWaits_cancelIoTimer tk).successful, hrep.count, if_pos hzero] at hret
  split_ifs at hret
  cases hret
  exact ⟨rfl, rfl⟩

/-- A state, with the log of a run that has led to it. -/
def ReachLogged (s : State τ β) (log : τ → List (ℕ × BitVec 32)) : Prop :=
  Reach (fun p => Init p.1 ∧ p.2 = fun _ => []) (recorded step logAfter) (s, log)

/-- **`poll` reports like `poll`** iff epoll has reported something, or the caller's
`revents` were all 0: after a time-out they are left as they were. -/
theorem poll_reports_iff (hs : ReachLogged s log) (hhook : s.hook tk = some (.poll fds timeout))
    (hfew : fds.length < 2 ^ 31) (hlen : revents.length = fds.length)
    (hret : s.endPoll tk revents = some (revents', n)) :
    (revents' = pollImages (log tk) fds.length ∧
      n.toInt = revents'.countP fun r => decide (r ≠ 0)) ↔
    log tk ≠ [] ∨ ∀ r ∈ revents, r = 0 := by
  have hany : ∀ (s u : State τ β) a, True → s.step a = some u → s.ReportsOnly (fun _ _ => True) a :=
    fun _ _ _ _ hst => step_reportsOnly hst
  have h : s.LoggedAt (fun _ _ => True) log := reach_logged hany (s, log) hs
  by_cases hlog : log tk = []
  · obtain ⟨rfl, rfl⟩ := endPoll_timeout h hhook hlog hret
    rw [hlog, pollImages_nil, eq_replicate_iff]
    constructor
    · rintro ⟨⟨-, hzero⟩, -⟩
      exact .inr hzero
    · intro hzero
      have hzero := hzero.resolve_left (fun hne => hne rfl)
      refine ⟨⟨hlen, hzero⟩, ?_⟩
      have hnone : revents'.countP (fun r => decide (r ≠ 0)) = 0 :=
        countP_eq_zero.mpr fun r hr => by simpa using hzero r hr
      rw [hnone]
      rfl
  · rw [endPoll_eq h hhook hfew hlen hlog] at hret
    cases hret
    refine ⟨fun _ => .inl hlog, fun _ => ⟨rfl, ?_⟩⟩
    have hle : (pollImages (log tk) fds.length).countP (fun r => decide (r ≠ 0)) ≤ fds.length := by
      refine countP_le_length.trans ?_
      simp [pollImages]
    exact toInt_ofNat_of_lt (by omega)

/-- Task 1 polls descriptors 3, -1 and 4, and is resumed after an event for 4. -/
def pollThree : List (Act ℕ Unit) :=
  [.createTask 1 0, .run 1, .nextProc, .resume,
    .enterHook (.poll [(3, POLLIN), (-1, POLLIN), (4, POLLOUT)] 10), .switch 0, .endPass,
    .endRunnable, .doEpoll [] [] [(4, EPOLLOUT ||| EPOLLHUP)], .doTimer 0, .doSleep 0, .run 1,
    .nextProc, .resume]

def polled : Option (State ℕ Unit × (ℕ → List (ℕ × BitVec 32))) :=
  exec (recorded step logAfter)
    (start fun fd => if fd < 0 then .closed else .pollable, fun _ => []) pollThree

theorem poll_reports_iff_pollThree : ∃ p revents' n, polled = some p ∧ p.2 1 ≠ [] ∧
    p.1.endPoll 1 [POLLIN, 0, 0] = some (revents', n) ∧ revents' = pollImages (p.2 1) 3 := by
  have hrun : polled = some (polled.get rfl) := rfl
  have hreach : ReachLogged (polled.get rfl).1 (polled.get rfl).2 :=
    reach_exec _ (.start ⟨init_start _, rfl⟩) hrun
  have hhook : (polled.get rfl).1.hook 1
      = some (.poll [(3, POLLIN), (-1, POLLIN), (4, POLLOUT)] 10) := rfl
  have hlog : (polled.get rfl).2 1 ≠ [] := by
    show [(2, EPOLLOUT ||| EPOLLHUP)] ≠ []
    simp
  have hret : (polled.get rfl).1.endPoll 1 [POLLIN, 0, 0] = some ([0, 0, POLLOUT ||| POLLHUP], 1) := rfl
  have hiff := poll_reports_iff hreach hhook (by decide) rfl hret
  exact ⟨_, _, _, hrun, hlog, hret, (hiff.mpr (.inl hlog)).1⟩

/-- Task 1 polls descriptor 3 with a time-out. -/
def timedPoll : State ℕ Unit × (ℕ → List (ℕ × BitVec 32)) :=
  (exec (recorded step logAfter)
    (start fun fd => if fd < 0 then .closed else .pollable, fun _ => [])
    [.createTask 1 0, .run 1, .nextProc, .resume, .enterHook (.poll [(3, POLLIN)] 10), .switch 0,
      .endPass, .endRunnable]).get rfl

/-- `WaitLoop` has collected its timer. -/
def timerExpired : State ℕ Unit :=
  { timedPoll.1 with
    io := { timedPoll.1.io with
      timerMgr_ := (timedPoll.1.io.timerMgr_.getExpired 20 128).2
      timeoutList_ := (timedPoll.1.io.timerMgr_.getExpired 20 128).1 } }

theorem step_timedPoll : timedPoll.1.step (.doEpoll [20] [] [])
    = some { timerExpired.ioWaitLoop [] [] [] with phase := .doTimer } := by
  have hone : (timedPoll.1.io.timerMgr_.getExpired 20 128).1.length = 1 := rfl
  have hcollect : timedPoll.1.io.collectTimers [20] = timerExpired.io :=
    collectTimers_first rfl (ne_nil_of_length_eq_add_one hone) []
  have hloop : timedPoll.1.ioWaitLoop [20] [] [] = timerExpired.ioWaitLoop [] [] [] := by
    rw [ioWaitLoop, hcollect]
    rfl
  show some ({ timedPoll.1.ioWaitLoop [20] [] [] with phase := .doTimer } : State ℕ Unit) = _
  rw [hloop]

/-- The task is resumed. -/
def timedOut : State ℕ Unit × (ℕ → List (ℕ × BitVec 32)) :=
  (exec (recorded step logAfter)
    ({ timerExpired.ioWaitLoop [] [] [] with phase := .doTimer },
      timedPoll.1.logAfter timedPoll.2 (.doEpoll [20] [] []))
    [.doTimer 20, .doSleep 20, .run 1, .nextProc, .resume]).get rfl

/-- `poll` returns 0, and the caller's `revents` still says that 3 can be read. -/
theorem poll_timeout_keeps_revents : ReachLogged timedOut.1 timedOut.2 ∧
    timedOut.1.atTurn .running = some 1 ∧ timedOut.1.hook 1 = some (.poll [(3, POLLIN)] 10) ∧
    timedOut.1.endPoll 1 [POLLIN] = some ([POLLIN], 0) ∧ pollImages (timedOut.2 1) 1 = [0] := by
  have hpoll : Reach (fun p => Init p.1 ∧ p.2 = fun _ => []) (recorded step logAfter) timedPoll :=
    reach_exec _ (.start ⟨init_start _, rfl⟩) (Option.some_get _).symm
  have hstep : recorded step logAfter timedPoll (.doEpoll [20] [] [])
      = some ({ timerExpired.ioWaitLoop [] [] [] with phase := .doTimer },
        timedPoll.1.logAfter timedPoll.2 (.doEpoll [20] [] [])) :=
    recorded_eq_some.mpr ⟨step_timedPoll, rfl⟩
  have hout : Reach (fun p => Init p.1 ∧ p.2 = fun _ => []) (recorded step logAfter) timedOut :=
    reach_exec _ (hpoll.next trivial hstep) (Option.some_get _).symm
  exact ⟨hout, rfl, rfl, rfl, rfl⟩

/-! ### `select` -/

variable {nfds : ℤ} {readfds writefds exceptfds : Option FdSet} {timeoutMs : Option ℤ}

/-- **The wait of a `select`**: its entries are those of its sets, and epoll has reported
for each of them what it may. -/
theorem select_waits (hs : ReachIf Init step EpollReports s)
    (hhook : s.hook tk = some (.select nfds readfds writefds exceptfds timeoutMs)) :
    (∃ rep, SelectWait nfds (selectSets readfds writefds exceptfds) rep (s.io.task tk)) ∧
      ∀ f ∈ (s.io.task tk).waitFds_, f.revent ≠ 0 → Reportable f.revent f.event := by
  obtain ⟨log, h⟩ := reach_epollReports hs
  obtain ⟨fdsts, ms, hstart, hreq, hrep⟩ := hooked_waits h hhook
  rw [Hook.start] at hstart
  split_ifs at hstart
  cases hstart
  refine ⟨⟨fun i => (((s.io.task tk).waitFds_.find? fun f => decide (f.fd.toNat = i)).map
    FdStruct.revent).getD 0, ?_, ?_⟩, hrep.reportable⟩
  · have hnodup : ((s.io.task tk).waitFds_.map fun f => f.fd.toNat).Nodup := by
      have hnodup := nodup_selectFdsts nfds (selectSets readfds writefds exceptfds)
      rwa [← hreq, map_map] at hnodup
    rw [← hreq, map_map]
    refine ((map_congr_left fun f hf => ?_).trans (map_id _)).symm
    show ({ f with revent := (((s.io.task tk).waitFds_.find? fun g =>
      decide (g.fd.toNat = f.fd.toNat)).map FdStruct.revent).getD 0 } : FdStruct) = f
    rw [find?_key hnodup hf]
    rfl
  · rw [hrep.count, hrep.nonzero fun _ _ hxy => hxy.1]

end State

end Scheduler
