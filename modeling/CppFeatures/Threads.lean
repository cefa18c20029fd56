/-
The scheduler with any number of threads (coroutine/scheduler.cpp, processer.cpp,
sleep_wait.cpp, linux/io_wait.cpp).

Every thread may call `Run`, and any of them may create and wake tasks meanwhile.  A step
is one operation on a shared queue, counter or wait structure; what a thread does between
two of them only touches what it holds: a processer, the list of its pass, a task in its
hand, the sleep timers it was given.

* `Phase` — where a thread is in `Run`;
* `UserCall` — where it is in a call that takes two steps;
* `System.advance` — the next step of a thread in the scheduler's own code;
* `System.step` — all steps, and `System.Step`, what they can do.

The reports and timeouts of `IoWait` are taken as they come: any thread may cancel the wait
of any task at any time.  `BlockWakeup` comes to the next task of its list by the hook of the
one that it has just queued, which any other thread may have moved on: what it reads there is
taken as it comes, too.  Every `swapcontext` succeeds.
-/
import CppFeatures.Pool
import CppFeatures.Scheduler

namespace Scheduler.Threads

/-- What is left to do for a task that `Processer::Run` has taken out of its list. -/
inductive Parking
  -- `timer_mgr_.ExpireAt` of `SleepWait::SchedulerSwitch`
  | timer
  -- the `epoll_ctl` calls of `IoWait::SchedulerSwitch`
  | register
  -- they failed: `AddTaskRunnable`
  | wake
  -- `AddWaitTask` returned false: `runnable_list_.push(tk)`
  | repush
  -- `tk->block_ = NULL`
  | unblock
deriving DecidableEq, Repr

/-- Where a thread is in `Run`; `c` and `i` are `proc_c` and the counter of the loop in
`DoRunnable`. -/
inductive Phase (τ : Type*)
  | idle
  -- adding processers
  | checkCount
  | tryLock
  | recheck
  | create (i : ℕ)
  | unlock
  -- `DoRunnable`
  | size
  | loop (c i : ℕ)
  | pick (c i p : ℕ)
  | average (c i p : ℕ)
  | picking (c i p ti avg : ℕ)
  | give (c i p ti avg : ℕ) (tk : τ)
  | popAll (c i p : ℕ)
  -- `Processer::Run`
  | pass (c i : ℕ) (P : Pass τ)
  | parking (c i : ℕ) (P : Pass τ) (tk : τ) (k : Parking)
  | pushList (c i : ℕ) (P : Pass τ) (raised : Bool)
  | subDone (c i p : ℕ) (doneCount : BitVec 32) (raised : Bool)
  | putBack (c i p : ℕ) (raised : Bool)
  -- `DoSleep`
  | doSleep
  | expiring (timers : List (CoTimer τ))
  | waking (tk : τ) (timers : List (CoTimer τ))

instance {τ : Type*} : Inhabited (Phase τ) := ⟨.idle⟩

/-- A call from a task, a callback or any other code, between its two steps: a task
that was created and not queued yet, or one taken out of a wait structure. -/
inductive UserCall (τ : Type*)
  | none
  | creating (tk : τ)
  -- in the loop of `BlockWakeup`, or alone
  | waking (tk : τ) (inLoop : Bool)

structure System (θ τ β : Type*) where
  q : Queues τ β
  -- the `active_` flags of the sleep timers
  timers : TimerHeap
  runProcList_ : List ℕ
  procCount : ℕ
  procInitLock_ : Bool
  -- `Processer::s_id_`
  sId : ℕ
  -- the option `processer_count`
  processerCount : ℕ
  threads : Pool θ (Phase τ)
  call : θ → UserCall τ
  -- the tasks that have been given up: finished, or deleted for want of a context
  ended : Finset τ
  -- how many were deleted, and the processers lost with them
  failed : ℕ
  lost : List ℕ
  -- an `assert` has failed
  fault : Bool

variable {θ τ β : Type*} [DecidableEq θ] [LinearOrder τ] [DecidableEq β]

namespace System

def goto (s : System θ τ β) (t : θ) (ph : Phase τ) : System θ τ β :=
  { s with threads := s.threads.set t ph }

/-- The assertions of `Processer::AddTaskRunnable` and `Task::AddIntoProcesser`. -/
def addAsserts (q : Queues τ β) (p : ℕ) (tk : τ) : Bool :=
  if (q.task tk).state_ = .init then (q.task tk).proc_.isNone else (q.task tk).proc_ == some p

/-- `Processer::AddTaskRunnable`, with a `getcontext` that succeeds. -/
def procAdd (s : System θ τ β) (p : ℕ) (tk : τ) : System θ τ β :=
  { s with q := s.q.procAddTaskRunnable p tk, fault := s.fault || !addAsserts s.q p tk }

/-- `Scheduler::AddTaskRunnable` -/
def addRunnable (s : System θ τ β) (tk : τ) : System θ τ β :=
  { s with
    q := s.q.addTaskRunnable tk
    fault := s.fault || match (s.q.task tk).proc_ with
      | some p => !addAsserts s.q p tk
      | none => false }

/-- The switch of `Processer::Run` on the task it comes back from. -/
def switch (s : System θ τ β) (t : θ) (c i : ℕ) (P : Pass τ) (tk : τ) (rest : List τ) :
    System θ τ β :=
  let keep : Pass τ := { P with before := P.before ++ [tk], after := rest, turn := .enter }
  let erase : Pass τ := { P with after := rest, turn := .enter }
  match (s.q.task tk).state_ with
  | .runnable => s.goto t (.pass c i keep)
  | .ioBlock =>
    { s.goto t (.parking c i erase tk .register) with
      q := { s.q with ioWaitTasks_ := s.q.ioWaitTasks_ ++ [tk] } }
  | .sleep =>
    { s.goto t (.parking c i erase tk .timer) with
      q := { s.q with sleepWaitTasks_ := s.q.sleepWaitTasks_ ++ [tk] } }
  | .sysBlock | .userBlock => match (s.q.task tk).block_ with
    | some b =>
      let (obj, parked) := (s.q.block b).addWaitTask tk
      { s.goto t (.parking c i erase tk (if parked then .unblock else .repush)) with
        q := { s.q with block := Function.update s.q.block b obj } }
    | none =>
      let (tbl, queued) := UserWait.switch s.q.userWaitTasks_
        ((s.q.task tk).userWaitType_, (s.q.task tk).userWaitId_) tk
      let q := { s.q with userWaitTasks_ := tbl }
      if queued then { s.goto t (.pass c i erase) with q := q }
      else { s.goto t (.pass c i keep) with q := q.setState tk .runnable }
  | .done | .init | .fatal =>
    let erase := { erase with doneCount := P.doneCount + 1 }
    { s.goto t (if (s.q.task tk).eptr_ then .pushList c i erase true else .pass c i erase) with
      q := s.q.decTaskCount P.proc
      ended := insert tk s.ended }

/-- The next step of a thread, at time `now`. -/
def advance (s : System θ τ β) (t : θ) (now : ℤ) : Option (System θ τ β) :=
  match s.threads.pc t with
  | .idle => none
  | .checkCount => some (s.goto t (if s.procCount < s.processerCount then .tryLock else .size))
  | .tryLock =>
    if s.procInitLock_ then some (s.goto t .size)
    else some { s.goto t .recheck with procInitLock_ := true }
  | .recheck =>
    some (s.goto t (if s.procCount < s.processerCount then .create s.procCount else .unlock))
  | .create i =>
    if i < s.processerCount then
      some { s.goto t (.create (i + 1)) with
        runProcList_ := s.runProcList_ ++ [s.sId + 1]
        sId := s.sId + 1 }
    else some { s.goto t .unlock with procCount := i }
  | .unlock => some { s.goto t .size with procInitLock_ := false }
  | .size => some (s.goto t (.loop s.runProcList_.length 0))
  | .loop c i =>
    if i < c then match s.runProcList_ with
      | [] => some (s.goto t .doSleep)
      | p :: procs => some { s.goto t (.pick c i p) with runProcList_ := procs }
    else some (s.goto t .doSleep)
  | .pick c i p => some (s.goto t (if s.q.runTasks_ = [] then .popAll c i p else .average c i p))
  | .average c i p => some (s.goto t (.picking c i p (s.q.proc p).taskCount_.toNat
      (Queues.average s.q.taskCount_.toNat c)))
  | .picking c i p ti avg =>
    if ti < avg then match s.q.runTasks_ with
      | [] => some (s.goto t (.popAll c i p))
      | tk :: rest =>
        some { s.goto t (.give c i p ti avg tk) with q := { s.q with runTasks_ := rest } }
    else some (s.goto t (.popAll c i p))
  | .give c i p ti avg tk => some ((s.goto t (.picking c i p (ti + 1) avg)).procAdd p tk)
  | .popAll c i p =>
    some { s.goto t (.pass c i ⟨p, [], (s.q.proc p).runnableList_, .enter, 0⟩) with
      q := s.q.popAll p }
  | .pass c i P => match P.turn, P.after with
    | .enter, [] => some (s.goto t (.pushList c i P false))
    | .enter, tk :: _ =>
      some { s.goto t (.pass c i { P with turn := .running }) with q := s.q.setState tk .runnable }
    | .left, tk :: rest => some (s.switch t c i P tk rest)
    | _, _ => none
  | .parking c i P tk k => match k with
    | .timer =>
      let T : CoTimer τ := ⟨s.timers.sId + 1, tk, now + (s.q.task tk).sleepMs_⟩
      some { s.goto t (.pass c i P) with
        q := { s.q with sleepTimerMgr_ := s.q.sleepTimerMgr_.expireAt T }
        timers := s.timers.new }
    | .register => none
    | .wake => some ((s.goto t (.pass c i P)).addRunnable tk)
    | .repush =>
      some { s.goto t (.parking c i P tk .unblock) with q := s.q.pushRunnable P.proc tk }
    | .unblock =>
      some { s.goto t (.pass c i P) with q := s.q.modifyTask tk fun T => { T with block_ := none } }
  | .pushList c i P raised =>
    some { s.goto t (.subDone c i P.proc P.doneCount raised) with
      q := s.q.pushAll P.proc (P.before ++ P.after) }
  | .subDone c i p dc raised =>
    some { s.goto t (.putBack c i p raised) with
      q := { s.q with taskCount_ := s.q.taskCount_ - dc } }
  | .putBack c i p raised =>
    -- an exception leaves `Run` here
    some { s.goto t (if raised then .idle else .loop c (i + 1)) with
      runProcList_ := s.runProcList_ ++ [p] }
  | .doSleep =>
    let (timers, mgr) := s.q.sleepTimerMgr_.getExpired now 128
    some { s.goto t (.expiring timers) with q := { s.q with sleepTimerMgr_ := mgr } }
  | .expiring [] => some (s.goto t .idle)
  | .expiring (T :: timers) =>
    let (h, active) := s.timers.deactivate T.id_
    if active then
      -- `bool ok = wait_tasks_.erase(tk); assert(ok);`
      some { s.goto t (.waking T.fn_ timers) with
        q := { s.q with sleepWaitTasks_ := s.q.sleepWaitTasks_.erase T.fn_ }
        timers := h
        fault := s.fault || !s.q.sleepWaitTasks_.contains T.fn_ }
    else some (s.goto t (.expiring timers))
  | .waking tk timers => some ((s.goto t (.expiring timers)).addRunnable tk)

/-- The task that runs on a thread, with the pass it runs in. -/
def running (s : System θ τ β) (t : θ) : Option (ℕ × ℕ × Pass τ × τ) :=
  match s.threads.pc t with
  | .pass c i P => match P.turn, P.after, s.call t with
    | .running, tk :: _, .none => some (c, i, P, tk)
    | _, _, _ => none
  | _ => none

/-- The running task marks its state and yields. -/
def leave (s : System θ τ β) (t : θ) (f : Task β → Task β) : Option (System θ τ β) :=
  (s.running t).map fun (c, i, P, tk) =>
    { s.goto t (.pass c i { P with turn := .left }) with q := s.q.modifyTask tk f }

end System

inductive Act (θ τ β : Type*)
  | setProcesserCount (n : ℕ)
  | run (t : θ)
  | advance (t : θ) (now : ℤ)
  -- `getcontext` fails in `Task::AddIntoProcesser`
  | getcontextFailed (t : θ)
  -- the `epoll_ctl` calls, and whether one of them succeeded
  | register (t : θ) (ok : Bool)
  -- the task that runs on `t`
  | coYield (t : θ)
  | sleepSwitch (t : θ) (timeoutMs : ℤ)
  | coBlockWait (t : θ) (b : β)
  | userBlockWait (t : θ) (k : WaitKey)
  | ioSwitch (t : θ)
  | finish (t : θ) (eptr : Bool)
  -- anyone
  | createTask (t : θ) (tk : τ)
  | userBlockWakeup (t : θ) (k : WaitKey)
  | ioCancel (t : θ) (tk : τ)
  -- `AddTaskRunnable`, and what `++it` then finds in the hook of the task
  | endCall (t : θ) (next : Option τ)
  | wakeup (b : β)
  | tryBlockWait (b : β)
  | tryUserBlockWait (k : WaitKey)

namespace System

/-- `BlockObject::Wakeup`; the task is queued before `lock_` is released. -/
def wakeup (s : System θ τ β) (b : β) : System θ τ β :=
  let (obj, tk, _) := (s.q.block b).wakeup
  let s := { s with q := { s.q with block := Function.update s.q.block b obj } }
  match tk with
  | none => s
  | some tk => s.addRunnable tk

def setCall (s : System θ τ β) (t : θ) (x : UserCall τ) : System θ τ β :=
  { s with call := Function.update s.call t x }

def step (s : System θ τ β) : Act θ τ β → Option (System θ τ β)
  | .setProcesserCount n => some { s with processerCount := n }
  | .run t => match s.threads.pc t with
    | .idle => some (s.goto t .checkCount)
    | _ => none
  | .advance t now => s.advance t now
  | .getcontextFailed t => match s.threads.pc t with
    | .give _ _ p _ _ tk =>
      -- `delete tk` and an exception: the processer is not put back
      some { s.goto t .idle with
        ended := insert tk s.ended
        failed := s.failed + 1
        lost := s.lost ++ [p]
        fault := s.fault || !addAsserts s.q p tk }
    | _ => none
  | .register t ok => match s.threads.pc t with
    | .parking c i P tk .register =>
      if !ok && s.q.ioWaitTasks_.contains tk then
        some { s.goto t (.parking c i P tk .wake) with
          q := { s.q with ioWaitTasks_ := s.q.ioWaitTasks_.erase tk } }
      else some (s.goto t (.pass c i P))
    | _ => none
  | .coYield t => s.leave t id
  | .sleepSwitch t ms =>
    if ms ≤ 0 then s.leave t id
    else s.leave t fun T => { T with sleepMs_ := ms, state_ := .sleep }
  | .coBlockWait t b =>
    let (obj, granted) := (s.q.block b).coBlockWait
    if granted then
      (s.running t).map fun _ => { s with q := { s.q with block := Function.update s.q.block b obj } }
    else s.leave t fun T => { T with block_ := some b, state_ := .sysBlock }
  | .userBlockWait t k => s.leave t fun T => { T with
      userWaitType_ := k.1
      userWaitId_ := k.2
      state_ := if k.1 < 0 then .sysBlock else .userBlock }
  | .ioSwitch t => s.leave t fun T => { T with state_ := .ioBlock }
  | .finish t eptr => s.leave t fun T => { T with eptr_ := eptr, state_ := .done }
  | .createTask t tk => match s.call t with
    | .none =>
      if tk ∈ s.q.created then none
      else some { s.setCall t (.creating tk) with
        q := { s.q with
          created := insert tk s.q.created
          task := Function.update s.q.task tk {}
          taskCount_ := s.q.taskCount_ + 1 } }
    | _ => none
  | .userBlockWakeup t k => match s.call t with
    | .none => match UserWait.blockWakeup s.q.userWaitTasks_ k 1 with
      | (tbl, []) => some { s with q := { s.q with userWaitTasks_ := tbl } }
      | (tbl, tk :: _) =>
        some { s.setCall t (.waking tk true) with q := { s.q with userWaitTasks_ := tbl } }
    | _ => none
  | .ioCancel t tk => match s.call t with
    | .none =>
      if s.q.ioWaitTasks_.contains tk then
        some { s.setCall t (.waking tk false) with
          q := { s.q with ioWaitTasks_ := s.q.ioWaitTasks_.erase tk } }
      else some s
    | _ => none
  | .endCall t next => match s.call t with
    | .none => none
    | .creating tk => if next.isNone then some ((s.setCall t .none).addRunnable tk) else none
    | .waking tk inLoop => match next with
      | none => some ((s.setCall t .none).addRunnable tk)
      | some tk' =>
        if inLoop then some ((s.setCall t (.waking tk' true)).addRunnable tk) else none
  | .wakeup b => some (s.wakeup b)
  | .tryBlockWait b =>
    some { s with q := { s.q with
      block := Function.update s.q.block b (s.q.block b).tryBlockWait.1 } }
  | .tryUserBlockWait k =>
    some { s with q := { s.q with
      userWaitTasks_ := (UserWait.tryBlockWait s.q.userWaitTasks_ k).1 } }

end System

end Scheduler.Threads
