/-
The scheduler (coroutine/scheduler.cpp, processer.cpp, sleep_wait.cpp, io_wait.cpp)
with one thread that calls `Run`.

The queues hold lists of tasks.  A state says where the thread is: between calls of
`Run`, in `DoRunnable` between two processers, in the loop of `Processer::Run`, in a
task, or in one of the later parts of `Run`.  A task that gives up the processor
only marks what it wants in its `state_`; the switch of `Processer::Run` acts on it
in the next step.

* `Queues` — the tasks, and the containers they are in;
* `State`, `Act` and `step` — the whole scheduler, with the hooked system calls, the
  timers and the descriptors of the process;
* `State.Step` — what one step can do, for proofs by cases.
-/
import CppFeatures.BlockObject
import CppFeatures.GlibcHook
import CppFeatures.Runs
import CppFeatures.WaitTable

namespace Scheduler

open Function

inductive TaskState
  | init
  | runnable
  | ioBlock
  | sysBlock
  | userBlock
  | sleep
  | done
  | fatal
deriving DecidableEq, Repr

/-- The members of `Task` that the scheduler uses; the `BlockObject`s are numbered by
`β`, the processers by their `id_`. -/
structure Task (β : Type*) where
  state_ : TaskState := .init
  proc_ : Option ℕ := none
  -- whether an exception is stored
  eptr_ : Bool := false
  userWaitType_ : ℤ := 0
  userWaitId_ : ℕ := 0
  block_ : Option β := none
  sleepMs_ : ℤ := 0

structure Processer (τ : Type*) where
  runnableList_ : List τ
  taskCount_ : BitVec 32

/-- The tasks and their containers. -/
structure Queues (τ β : Type*) where
  created : Finset τ
  task : τ → Task β
  taskCount_ : BitVec 32
  runTasks_ : List τ
  proc : ℕ → Processer τ
  block : β → BlockObject τ
  userWaitTasks_ : UserWait.Table τ
  -- `IoWait::wait_tasks_` and `SleepWait::wait_tasks_`
  ioWaitTasks_ : List τ
  sleepWaitTasks_ : List τ
  -- the callback of a sleep timer wakes one task
  sleepTimerMgr_ : CoTimerMgr τ

variable {τ β : Type*} [LinearOrder τ] [DecidableEq β]

namespace Queues

def modifyTask (q : Queues τ β) (tk : τ) (f : Task β → Task β) : Queues τ β :=
  { q with task := update q.task tk (f (q.task tk)) }

def setState (q : Queues τ β) (tk : τ) (state : TaskState) : Queues τ β :=
  q.modifyTask tk fun t => { t with state_ := state }

-- `runnable_list_.push(tk)`
def pushRunnable (q : Queues τ β) (p : ℕ) (tk : τ) : Queues τ β :=
  let proc := q.proc p
  { q with
    proc := update q.proc p { proc with runnableList_ := proc.runnableList_ ++ [tk] } }

/-- `Processer::AddTaskRunnable`, with a `getcontext` that succeeds. -/
def procAddTaskRunnable (q : Queues τ β) (p : ℕ) (tk : τ) : Queues τ β :=
  let q := if (q.task tk).state_ = .init then
      { q.modifyTask tk fun t => { t with proc_ := some p, state_ := .runnable } with
        proc := update q.proc p { q.proc p with taskCount_ := (q.proc p).taskCount_ + 1 } }
    else q
  (q.setState tk .runnable).pushRunnable p tk

/-- `Scheduler::AddTaskRunnable` -/
def addTaskRunnable (q : Queues τ β) (tk : τ) : Queues τ β :=
  match (q.task tk).proc_ with
  | some p => q.procAddTaskRunnable p tk
  | none => { q with runTasks_ := q.runTasks_ ++ [tk] }

def createTask (q : Queues τ β) (tk : τ) : Queues τ β :=
  addTaskRunnable { q with
    created := insert tk q.created
    task := update q.task tk {}
    taskCount_ := q.taskCount_ + 1 } tk

/-- The loop that gives tasks of `run_tasks_` to a processer, `n` at most. -/
def cherryPick (p : ℕ) : ℕ → Queues τ β → Queues τ β
  | 0, q => q
  | n + 1, q => match q.runTasks_ with
    | [] => q
    | tk :: rest => cherryPick p n ({ q with runTasks_ := rest }.procAddTaskRunnable p tk)

-- `average` in `DoRunnable`, on `uint32_t`
def average (taskC procC : ℕ) : ℕ := taskC / procC + (if taskC % procC ≠ 0 then 1 else 0)

/-- The cherry-pick of `DoRunnable`: `ti` runs from the processer's count to the
average. -/
def pickTasks (q : Queues τ β) (procC p : ℕ) : Queues τ β :=
  if q.runTasks_ = [] then q
  else cherryPick p (average q.taskCount_.toNat procC - (q.proc p).taskCount_.toNat) q

-- `runnable_list_.pop_all()` and `runnable_list_.push(slist)`
def popAll (q : Queues τ β) (p : ℕ) : Queues τ β :=
  { q with proc := update q.proc p { q.proc p with runnableList_ := [] } }

def pushAll (q : Queues τ β) (p : ℕ) (slist : List τ) : Queues τ β :=
  let proc := q.proc p
  { q with
    proc := update q.proc p { proc with runnableList_ := proc.runnableList_ ++ slist } }

-- `--task_count_` of a processer
def decTaskCount (q : Queues τ β) (p : ℕ) : Queues τ β :=
  let proc := q.proc p
  { q with proc := update q.proc p { proc with taskCount_ := proc.taskCount_ - 1 } }

/-- `BlockObject::Wakeup` -/
def wakeup (q : Queues τ β) (b : β) : Queues τ β :=
  let (obj, tk, _) := (q.block b).wakeup
  let q := { q with block := update q.block b obj }
  match tk with
  | none => q
  | some tk => q.addTaskRunnable tk

/-- `UserBlockWakeup(type, id)` with the default count 1. -/
def userBlockWakeup (q : Queues τ β) (k : WaitKey) : Queues τ β :=
  let (tbl, tasks) := UserWait.blockWakeup q.userWaitTasks_ k 1
  tasks.foldl addTaskRunnable { q with userWaitTasks_ := tbl }

-- `wait_tasks_.erase(tk)`, then `AddTaskRunnable(tk)`
def ioWakeup (q : Queues τ β) (tk : τ) : Queues τ β :=
  { q with ioWaitTasks_ := q.ioWaitTasks_.erase tk }.addTaskRunnable tk

/-- `SleepWait::Wakeup` -/
def sleepWakeup (q : Queues τ β) (tk : τ) : Queues τ β :=
  { q with sleepWaitTasks_ := q.sleepWaitTasks_.erase tk }.addTaskRunnable tk

/-- `SleepWait::SchedulerSwitch` at time `now`; the timer gets the given id. -/
def sleepSchedulerSwitch (q : Queues τ β) (tk : τ) (id : ℕ) (now : ℤ) : Queues τ β :=
  { q with
    sleepWaitTasks_ := q.sleepWaitTasks_ ++ [tk]
    sleepTimerMgr_ := q.sleepTimerMgr_.expireAt ⟨id, tk, now + (q.task tk).sleepMs_⟩ }

end Queues

/-- Where the loop of `Processer::Run` is with the task at its iterator: about to
resume it, in it, or back from it and before the switch. -/
inductive Turn
  | enter
  | running
  | left
deriving DecidableEq, Repr

/-- A call of `Processer::Run`; `slist` is `before ++ after`, the iterator stands at
the first task of `after`. -/
structure Pass (τ : Type*) where
  proc : ℕ
  before : List τ
  after : List τ
  turn : Turn
  doneCount : BitVec 32

/-- Where the thread is. -/
inductive Phase (τ : Type*)
  | idle
  | doRunnable (procC i : ℕ)
  | processer (procC i : ℕ) (P : Pass τ)
  | doEpoll
  | doTimer
  | doSleep

structure State (τ β : Type*) where
  q : Queues τ β
  io : IoState τ
  timers : TimerHeap
  -- `Scheduler::timer_mgr_`, with the user's timers
  timerMgr_ : CoTimerMgr Unit
  -- the hooked call in which a task waits for descriptors
  hook : τ → Option Hook
  runProcList_ : List ℕ
  procCount : ℕ
  phase : Phase τ

namespace State

/-- The task at the iterator of the pass, if the loop is at the given turn. -/
def atTurn (s : State τ β) (turn : Turn) : Option τ :=
  match s.phase with
  | .processer _ _ P => if P.turn = turn then P.after.head? else none
  | _ => none

def setTurn (s : State τ β) (turn : Turn) : State τ β :=
  match s.phase with
  | .processer c i P => { s with phase := .processer c i { P with turn := turn } }
  | _ => s

/-! ### What a running task does -/

/-- The running task, unless it is inside a hooked call. -/
def userTask (s : State τ β) : Option τ :=
  (s.atTurn .running).filter fun tk => (s.hook tk).isNone

/-- A task marks its state and yields. -/
def switchAs (s : State τ β) (tk : τ) (f : Task β → Task β) : State τ β :=
  { s with q := s.q.modifyTask tk f }.setTurn .left

def sleepSwitch (s : State τ β) (tk : τ) (timeoutMs : ℤ) : State τ β :=
  if timeoutMs ≤ 0 then s.setTurn .left
  else s.switchAs tk fun t => { t with sleepMs_ := timeoutMs, state_ := .sleep }

def coBlockWait (s : State τ β) (tk : τ) (b : β) : State τ β :=
  let (obj, granted) := (s.q.block b).coBlockWait
  if granted then { s with q := { s.q with block := update s.q.block b obj } }
  else s.switchAs tk fun t => { t with block_ := some b, state_ := .sysBlock }

/-- `BlockWait(type, wait_id)` -/
def blockWait (s : State τ β) (tk : τ) (k : WaitKey) : State τ β :=
  s.switchAs tk fun t => { t with
    userWaitType_ := k.1
    userWaitId_ := k.2
    state_ := if k.1 < 0 then .sysBlock else .userBlock }

/-- `IoWait::CoSwitch`, called from a hook. -/
def coSwitch (s : State τ β) (tk : τ) (h : Hook) (fdsts : List FdStruct) (timeoutMs : ℤ) :
    State τ β :=
  { s with
    io := s.io.coSwitch tk fdsts timeoutMs
    hook := update s.hook tk (some h) }.switchAs tk
      fun t => { t with state_ := .ioBlock }

def enterHook (s : State τ β) (tk : τ) (h : Hook) : State τ β :=
  match h.start with
  | .direct => s
  | .sleep ms => s.sleepSwitch tk ms
  | .io fdsts timeoutMs => s.coSwitch tk h fdsts timeoutMs

/-- `g_Scheduler.BlockCancelTimer(tk->io_block_timer_)`, and `DecrementRef` if it
returned true; the result is `is_timeout`. -/
def cancelIoTimer (s : State τ β) (tk : τ) : State τ β × Bool :=
  match (s.io.task tk).ioBlockTimer_ with
  | none => (s, false)
  | some timer =>
    if s.timers.active_ timer.id_ then
      ({ s with
        timers := (s.timers.deactivate timer.id_).1
        timerMgr_ := s.timerMgr_.cancel timer.id_ timer.nextTimePoint_
        io := s.io.decrementRef tk }, false)
    else (s, true)

/-- The end of a hooked call after its wait. -/
def leaveHook (s : State τ β) (tk : τ) (h : Hook) : State τ β :=
  let (s, isTimeout) := if h.cancelsTimer then s.cancelIoTimer tk else (s, false)
  let s := { s with hook := update s.hook tk none }
  if (s.io.task tk).waitSuccessful_ = 0 ∧ ¬isTimeout ∧ 0 < h.fallbackSleep then
    s.sleepSwitch tk h.fallbackSleep
  else s

/-! ### `IoWait` on the queues -/

/-- `IoWait::SchedulerSwitch` at time `now`. -/
def ioSchedulerSwitch (s : State τ β) (tk : τ) (now : ℤ) : State τ β :=
  let q := { s.q with ioWaitTasks_ := s.q.ioWaitTasks_ ++ [tk] }
  let (io, ok) := s.io.register tk
  if !ok then
    { s with
      q := if tk ∈ q.ioWaitTasks_ then q.ioWakeup tk else q
      io := io.decrementRef tk }
  else if (io.task tk).ioBlockTimeout_ ≠ -1 then
    let timer := ⟨s.timers.sId + 1, (tk, (io.task tk).ioBlockId_), now + (io.task tk).ioBlockTimeout_⟩
    { s with
      q := q
      io := (io.setTimer tk timer).decrementRef tk
      timers := s.timers.new }
  else { s with q := q, io := io.decrementRef tk }

/-- `IoWait::Cancel` -/
def cancel (s : State τ β) (tk : τ) (id : BitVec 32) : State τ β :=
  if (s.io.task tk).ioBlockId_ ≠ id then s
  else if tk ∈ s.q.ioWaitTasks_ then
    { s with io := s.io.clearFds tk id, q := s.q.ioWakeup tk }
  else s

/-- An expired io timer: `(*cb)()`. -/
def ioTimeout (s : State τ β) (timer : CoTimer (τ × BitVec 32)) : State τ β :=
  let (timers, active) := s.timers.deactivate timer.id_
  if active then
    let s := { s with timers := timers }.cancel timer.fn_.1 timer.fn_.2
    { s with io := s.io.decrementRef timer.fn_.1 }
  else s

/-- `epoll_wait` on one set: the events are for descriptors in it, each at most once. -/
def EventsOf (s : State τ β) (e : EpollType) (evs : List (ℤ × BitVec 32)) : Prop :=
  (evs.map Prod.fst).Nodup ∧ ∀ ev ∈ evs, ∃ r ∈ s.io.kernel.epoll e, r.fd = ev.1

instance (s : State τ β) (e : EpollType) (evs : List (ℤ × BitVec 32)) :
    Decidable (s.EventsOf e evs) := by
  unfold EventsOf
  infer_instance

/-- The events of one `epoll_wait`, and the tasks noted in `epollwait_tasks_`. -/
def epollEvents (e : EpollType) : List (ℤ × BitVec 32) → IoState τ → List (τ × BitVec 32) →
    IoState τ × List (τ × BitVec 32)
  | [], io, set => (io, set)
  | ev :: evs, io, set =>
    let (io, st) := io.epollEvent e ev
    epollEvents e evs io (match st with | none => set | some st => insertEpollWaitSt set st)

/-- Both `epoll_wait` calls of `WaitLoop`. -/
def epollWait (io : IoState τ) (readEvs writeEvs : List (ℤ × BitVec 32)) :
    IoState τ × List (τ × BitVec 32) :=
  let (io, set) := epollEvents .read readEvs io []
  epollEvents .write writeEvs io set

/-- `Cancel` for every task in `epollwait_tasks_`. -/
def cancelAll (s : State τ β) (set : List (τ × BitVec 32)) : State τ β :=
  set.foldl (fun s st => cancel s st.1 st.2) s

/-- The callbacks in `timeout_list_`. -/
def runTimeouts (s : State τ β) : State τ β :=
  s.io.timeoutList_.foldl ioTimeout { s with io := { s.io with timeoutList_ := [] } }

/-- `IoWait::WaitLoop` after its `epoll_wait` calls. -/
def endWaitLoop (s : State τ β) (set : List (τ × BitVec 32)) : State τ β :=
  let s := (s.cancelAll set).runTimeouts
  { s with io := s.io.deleteTasks }

/-- `IoWait::WaitLoop`, with the times of its `GetExpired` calls and the events of the
two `epoll_wait` calls. -/
def ioWaitLoop (s : State τ β) (nows : List ℤ) (readEvs writeEvs : List (ℤ × BitVec 32)) :
    State τ β :=
  let (io, set) := epollWait (s.io.collectTimers nows) readEvs writeEvs
  { s with io := io }.endWaitLoop set

/-! ### The scheduler's own steps -/

/-- An expired sleep timer. -/
def sleepTimeout (s : State τ β) (timer : CoTimer τ) : State τ β :=
  let (timers, active) := s.timers.deactivate timer.id_
  if active then { s with timers := timers, q := s.q.sleepWakeup timer.fn_ } else s

def sleepWaitLoop (s : State τ β) (now : ℤ) : State τ β :=
  let (timers, mgr) := s.q.sleepTimerMgr_.getExpired now 128
  timers.foldl sleepTimeout { s with q := { s.q with sleepTimerMgr_ := mgr } }

/-- `DoTimer`; what a callback does with the scheduler is a step of its own. -/
def doTimer (s : State τ β) (now : ℤ) : State τ β :=
  let (timers, mgr) := s.timerMgr_.getExpired now 128
  { s with
    timerMgr_ := mgr
    timers := timers.foldl (fun h timer => (h.deactivate timer.id_).1) s.timers }

/-- The `sys_block`/`user_block` case of the switch in `Processer::Run`; `true` when the
iterator moves on with the task left in the list. -/
def blockSwitch (q : Queues τ β) (p : ℕ) (tk : τ) : Queues τ β × Bool :=
  match (q.task tk).block_ with
  | some b =>
    let (obj, parked) := (q.block b).addWaitTask tk
    let q := { q with block := update q.block b obj }
    let q := if parked then q else q.pushRunnable p tk
    (q.modifyTask tk fun t => { t with block_ := none }, false)
  | none =>
    let k := ((q.task tk).userWaitType_, (q.task tk).userWaitId_)
    let (tbl, queued) := UserWait.switch q.userWaitTasks_ k tk
    let q := { q with userWaitTasks_ := tbl }
    if queued then (q, false) else (q.setState tk .runnable, true)

/-- The switch of `Processer::Run` on the task it comes back from. -/
def processerSwitch (s : State τ β) (c i : ℕ) (P : Pass τ) (tk : τ) (rest : List τ) (now : ℤ) :
    State τ β :=
  let keep : Pass τ := { P with before := P.before ++ [tk], after := rest, turn := .enter }
  let erase : Pass τ := { P with after := rest, turn := .enter }
  match (s.q.task tk).state_ with
  | .runnable => { s with phase := .processer c i keep }
  | .ioBlock => { s with phase := .processer c i erase }.ioSchedulerSwitch tk now
  | .sleep =>
    { s with
      q := s.q.sleepSchedulerSwitch tk (s.timers.sId + 1) now
      timers := s.timers.new
      phase := .processer c i erase }
  | .sysBlock | .userBlock =>
    let (q, kept) := blockSwitch s.q P.proc tk
    { s with q := q, phase := .processer c i (if kept then keep else erase) }
  | .done | .init | .fatal =>
    let q := s.q.decTaskCount P.proc
    let doneCount := P.doneCount + 1
    let io := s.io.decrementRef tk
    if (s.q.task tk).eptr_ then
      -- the exception leaves `Run`: `DoRunnable` puts the processer back
      { s with
        q := { q.pushAll P.proc (P.before ++ rest) with taskCount_ := q.taskCount_ - doneCount }
        io := io
        runProcList_ := s.runProcList_ ++ [P.proc]
        phase := .idle }
    else { s with q := q, io := io, phase := .processer c i { erase with doneCount := doneCount } }

end State

/-- The steps of the thread and of its tasks, and those that anyone may take. -/
inductive Act (τ β : Type*)
  -- `Run` with the option `processer_count`
  | run (processerCount : ℕ)
  | nextProc
  | endRunnable
  | resume
  -- the running task
  | coYield
  | sleepSwitch (timeoutMs : ℤ)
  | coBlockWait (b : β)
  | userBlockWait (k : WaitKey)
  | enterHook (h : Hook)
  | leaveHook
  | finish (eptr : Bool)
  -- the end of a turn, and of a pass
  | switch (now : ℤ)
  | endPass
  -- the other parts of `Run`
  | doEpoll (nows : List ℤ) (readEvs writeEvs : List (ℤ × BitVec 32))
  | doTimer (now : ℤ)
  | doSleep (now : ℤ)
  -- `io_block_id_` is not initialised
  | createTask (tk : τ) (ioBlockId : BitVec 32)
  | wakeup (b : β)
  | tryBlockWait (b : β)
  | userBlockWakeup (k : WaitKey)
  | tryUserBlockWait (k : WaitKey)
  | expireAt (timePoint : ℤ)
  | openFd (fd : ℤ) (status : FdStatus)
  | closeFd (fd : ℤ)

namespace State

def step (s : State τ β) : Act τ β → Option (State τ β)
  | .run n => match s.phase with
    | .idle =>
      let procs := s.runProcList_ ++ (List.range' (s.procCount + 1) (n - s.procCount))
      some { s with
        runProcList_ := procs
        procCount := max s.procCount n
        phase := .doRunnable procs.length 0 }
    | _ => none
  | .nextProc => match s.phase, s.runProcList_ with
    | .doRunnable c i, p :: procs =>
      if i < c then
        let q := s.q.pickTasks c p
        some { s with
          q := q.popAll p
          runProcList_ := procs
          phase := .processer c i ⟨p, [], (q.proc p).runnableList_, .enter, 0⟩ }
      else none
    | _, _ => none
  | .endRunnable => match s.phase with
    | .doRunnable c i => if i < c ∧ s.runProcList_ ≠ [] then none else some { s with phase := .doEpoll }
    | _ => none
  | .resume =>
    (s.atTurn .enter).map fun tk => { s with q := s.q.setState tk .runnable }.setTurn .running
  | .coYield => s.userTask.map fun _ => s.setTurn .left
  | .sleepSwitch ms => s.userTask.map fun tk => s.sleepSwitch tk ms
  | .coBlockWait b => s.userTask.map fun tk => s.coBlockWait tk b
  | .userBlockWait k => s.userTask.map fun tk => s.blockWait tk k
  | .enterHook h => s.userTask.map fun tk => s.enterHook tk h
  | .leaveHook => (s.atTurn .running).bind fun tk => (s.hook tk).map fun h => s.leaveHook tk h
  | .finish eptr => s.userTask.map fun tk =>
      s.switchAs tk fun t => { t with eptr_ := eptr, state_ := .done }
  | .switch now => match s.phase with
    | .processer c i P => match P.turn, P.after with
      | .left, tk :: rest => some (s.processerSwitch c i P tk rest now)
      | _, _ => none
    | _ => none
  | .endPass => match s.phase with
    | .processer c i P =>
      if P.after = [] then
        some { s with
          q := { s.q.pushAll P.proc P.before with taskCount_ := s.q.taskCount_ - P.doneCount }
          runProcList_ := s.runProcList_ ++ [P.proc]
          phase := .doRunnable c (i + 1) }
      else none
    | _ => none
  | .doEpoll nows readEvs writeEvs => match s.phase with
    | .doEpoll =>
      if s.EventsOf .read readEvs ∧ s.EventsOf .write writeEvs then
        some { s.ioWaitLoop nows readEvs writeEvs with phase := .doTimer }
      else none
    | _ => none
  | .doTimer now => match s.phase with
    | .doTimer => some { s.doTimer now with phase := .doSleep }
    | _ => none
  | .doSleep now => match s.phase with
    | .doSleep => some { s.sleepWaitLoop now with phase := .idle }
    | _ => none
  | .createTask tk id =>
    if tk ∈ s.q.created then none
    else some { s with
      q := s.q.createTask tk
      io := s.io.modifyTask tk fun _ => { ioBlockId_ := id } }
  | .wakeup b => some { s with q := s.q.wakeup b }
  | .tryBlockWait b =>
    some { s with q := { s.q with
      block := update s.q.block b (s.q.block b).tryBlockWait.1 } }
  | .userBlockWakeup k => some { s with q := s.q.userBlockWakeup k }
  | .tryUserBlockWait k =>
    some { s with q := { s.q with
      userWaitTasks_ := (UserWait.tryBlockWait s.q.userWaitTasks_ k).1 } }
  | .expireAt tp =>
    some { s with
      timerMgr_ := s.timerMgr_.expireAt ⟨s.timers.sId + 1, (), tp⟩
      timers := s.timers.new }
  | .openFd fd status =>
    if s.io.kernel.status fd = .closed then
      some { s with io := { s.io with kernel := s.io.kernel.openFd fd status } }
    else none
  | .closeFd fd => some { s with io := { s.io with kernel := s.io.kernel.closeFd fd } }

/-- What one step can do. -/
inductive Step (s : State τ β) : Act τ β → State τ β → Prop
  | run (n : ℕ) (hph : s.phase = .idle) : Step s (.run n) { s with
      runProcList_ := s.runProcList_ ++ List.range' (s.procCount + 1) (n - s.procCount)
      procCount := max s.procCount n
      phase := .doRunnable
        (s.runProcList_ ++ List.range' (s.procCount + 1) (n - s.procCount)).length 0 }
  | nextProc {c i p : ℕ} {procs : List ℕ} (hph : s.phase = .doRunnable c i)
      (hprocs : s.runProcList_ = p :: procs) (hi : i < c) : Step s .nextProc { s with
      q := (s.q.pickTasks c p).popAll p
      runProcList_ := procs
      phase := .processer c i ⟨p, [], ((s.q.pickTasks c p).proc p).runnableList_, .enter, 0⟩ }
  | endRunnable {c i : ℕ} (hph : s.phase = .doRunnable c i) :
      Step s .endRunnable { s with phase := .doEpoll }
  | resume {tk : τ} (hcur : s.atTurn .enter = some tk) :
      Step s .resume ({ s with q := s.q.setState tk .runnable }.setTurn .running)
  | coYield {tk : τ} (hcur : s.userTask = some tk) : Step s .coYield (s.setTurn .left)
  | sleepSwitch {tk : τ} (ms : ℤ) (hcur : s.userTask = some tk) :
      Step s (.sleepSwitch ms) (s.sleepSwitch tk ms)
  | coBlockWait {tk : τ} (b : β) (hcur : s.userTask = some tk) :
      Step s (.coBlockWait b) (s.coBlockWait tk b)
  | userBlockWait {tk : τ} (k : WaitKey) (hcur : s.userTask = some tk) :
      Step s (.userBlockWait k) (s.blockWait tk k)
  | enterHook {tk : τ} (h : Hook) (hcur : s.userTask = some tk) :
      Step s (.enterHook h) (s.enterHook tk h)
  | leaveHook {tk : τ} {h : Hook} (hcur : s.atTurn .running = some tk) (hhook : s.hook tk = some h) :
      Step s .leaveHook (s.leaveHook tk h)
  | finish {tk : τ} (eptr : Bool) (hcur : s.userTask = some tk) : Step s (.finish eptr)
      (s.switchAs tk fun t => { t with eptr_ := eptr, state_ := .done })
  | switch {c i : ℕ} {P : Pass τ} {tk : τ} {rest : List τ} (now : ℤ)
      (hph : s.phase = .processer c i P) (hturn : P.turn = .left) (hafter : P.after = tk :: rest) :
      Step s (.switch now) (s.processerSwitch c i P tk rest now)
  | endPass {c i : ℕ} {P : Pass τ} (hph : s.phase = .processer c i P) (hafter : P.after = []) :
      Step s .endPass { s with
        q := { s.q.pushAll P.proc P.before with taskCount_ := s.q.taskCount_ - P.doneCount }
        runProcList_ := s.runProcList_ ++ [P.proc]
        phase := .doRunnable c (i + 1) }
  | doEpoll (nows : List ℤ) (readEvs writeEvs : List (ℤ × BitVec 32)) (hph : s.phase = .doEpoll)
      (hread : s.EventsOf .read readEvs) (hwrite : s.EventsOf .write writeEvs) :
      Step s (.doEpoll nows readEvs writeEvs)
        { s.ioWaitLoop nows readEvs writeEvs with phase := .doTimer }
  | doTimer (now : ℤ) (hph : s.phase = .doTimer) :
      Step s (.doTimer now) { s.doTimer now with phase := .doSleep }
  | doSleep (now : ℤ) (hph : s.phase = .doSleep) :
      Step s (.doSleep now) { s.sleepWaitLoop now with phase := .idle }
  | createTask {tk : τ} (id : BitVec 32) (hnew : tk ∉ s.q.created) : Step s (.createTask tk id) { s with
      q := s.q.createTask tk
      io := s.io.modifyTask tk fun _ => { ioBlockId_ := id } }
  | wakeup (b : β) : Step s (.wakeup b) { s with q := s.q.wakeup b }
  | tryBlockWait (b : β) : Step s (.tryBlockWait b) { s with q := { s.q with
      block := update s.q.block b (s.q.block b).tryBlockWait.1 } }
  | userBlockWakeup (k : WaitKey) : Step s (.userBlockWakeup k) { s with q := s.q.userBlockWakeup k }
  | tryUserBlockWait (k : WaitKey) : Step s (.tryUserBlockWait k) { s with q := { s.q with
      userWaitTasks_ := (UserWait.tryBlockWait s.q.userWaitTasks_ k).1 } }
  | expireAt (tp : ℤ) : Step s (.expireAt tp) { s with
      timerMgr_ := s.timerMgr_.expireAt ⟨s.timers.sId + 1, (), tp⟩
      timers := s.timers.new }
  | openFd {fd : ℤ} (status : FdStatus) (hclosed : s.io.kernel.status fd = .closed) :
      Step s (.openFd fd status) { s with io := { s.io with kernel := s.io.kernel.openFd fd status } }
  | closeFd (fd : ℤ) :
      Step s (.closeFd fd) { s with io := { s.io with kernel := s.io.kernel.closeFd fd } }

theorem step_cases {s u : State τ β} {a : Act τ β} (hst : s.step a = some u) : Step s a u := by
  cases a with
  | run n =>
    rw [step] at hst
    cases hph : s.phase with
    | idle =>
      simp only [hph, Option.some_inj] at hst
      exact hst ▸ .run n hph
    | _ => simp [hph] at hst
  | nextProc =>
    rw [step] at hst
    cases hph : s.phase with
    | doRunnable c i =>
      cases hprocs : s.runProcList_ with
      | nil => simp [hph, hprocs] at hst
      | cons p procs =>
        simp only [hph, hprocs] at hst
        split_ifs at hst with hi
        rw [Option.some_inj] at hst
        exact hst ▸ .nextProc hph hprocs hi
    | _ => simp [hph] at hst
  | endRunnable =>
    rw [step] at hst
    cases hph : s.phase with
    | doRunnable c i =>
      simp only [hph] at hst
      split_ifs at hst
      rw [Option.some_inj] at hst
      exact hst ▸ .endRunnable hph
    | _ => simp [hph] at hst
  | resume =>
    obtain ⟨tk, hcur, rfl⟩ := Option.map_eq_some_iff.mp hst
    exact .resume hcur
  | coYield =>
    obtain ⟨tk, hcur, rfl⟩ := Option.map_eq_some_iff.mp hst
    exact .coYield hcur
  | sleepSwitch ms =>
    obtain ⟨tk, hcur, rfl⟩ := Option.map_eq_some_iff.mp hst
    exact .sleepSwitch ms hcur
  | coBlockWait b =>
    obtain ⟨tk, hcur, rfl⟩ := Option.map_eq_some_iff.mp hst
    exact .coBlockWait b hcur
  | userBlockWait k =>
    obtain ⟨tk, hcur, rfl⟩ := Option.map_eq_some_iff.mp hst
    exact .userBlockWait k hcur
  | enterHook h =>
    obtain ⟨tk, hcur, rfl⟩ := Option.map_eq_some_iff.mp hst
    exact .enterHook h hcur
  | leaveHook =>
    obtain ⟨tk, hcur, hmap⟩ := Option.bind_eq_some_iff.mp hst
    obtain ⟨h, hhook, rfl⟩ := Option.map_eq_some_iff.mp hmap
    exact .leaveHook hcur hhook
  | finish eptr =>
    obtain ⟨tk, hcur, rfl⟩ := Option.map_eq_some_iff.mp hst
    exact .finish eptr hcur
  | switch now =>
    rw [step] at hst
    cases hph : s.phase with
    | processer c i P =>
      cases hturn : P.turn with
      | left =>
        cases hafter : P.after with
        | nil => simp [hph, hturn, hafter] at hst
        | cons tk rest =>
          simp only [hph, hturn, hafter, Option.some_inj] at hst
          exact hst ▸ .switch now hph hturn hafter
      | _ => simp [hph, hturn] at hst
    | _ => simp [hph] at hst
  | endPass =>
    rw [step] at hst
    cases hph : s.phase with
    | processer c i P =>
      simp only [hph] at hst
      split_ifs at hst with hafter
      rw [Option.some_inj] at hst
      exact hst ▸ .endPass hph hafter
    | _ => simp [hph] at hst
  | doEpoll nows readEvs writeEvs =>
    rw [step] at hst
    cases hph : s.phase with
    | doEpoll =>
      simp only [hph] at hst
      split_ifs at hst with hev
      rw [Option.some_inj] at hst
      exact hst ▸ .doEpoll nows readEvs writeEvs hph hev.1 hev.2
    | _ => simp [hph] at hst
  | doTimer now =>
    rw [step] at hst
    cases hph : s.phase with
    | doTimer =>
      simp only [hph, Option.some_inj] at hst
      exact hst ▸ .doTimer now hph
    | _ => simp [hph] at hst
  | doSleep now =>
    rw [step] at hst
    cases hph : s.phase with
    | doSleep =>
      simp only [hph, Option.some_inj] at hst
      exact hst ▸ .doSleep now hph
    | _ => simp [hph] at hst
  | createTask tk id =>
    rw [step] at hst
    split_ifs at hst with hnew
    rw [Option.some_inj] at hst
    exact hst ▸ .createTask id hnew
  | wakeup b =>
    rw [step, Option.some_inj] at hst
    exact hst ▸ .wakeup b
  | tryBlockWait b =>
    rw [step, Option.some_inj] at hst
    exact hst ▸ .tryBlockWait b
  | userBlockWakeup k =>
    rw [step, Option.some_inj] at hst
    exact hst ▸ .userBlockWakeup k
  | tryUserBlockWait k =>
    rw [step, Option.some_inj] at hst
    exact hst ▸ .tryUserBlockWait k
  | expireAt tp =>
    rw [step, Option.some_inj] at hst
    exact hst ▸ .expireAt tp
  | openFd fd status =>
    rw [step] at hst
    split_ifs at hst with hclosed
    rw [Option.some_inj] at hst
    exact hst ▸ .openFd status hclosed
  | closeFd fd =>
    rw [step, Option.some_inj] at hst
    exact hst ▸ .closeFd fd

/-- No task yet; the `BlockObject`s are new and the descriptors are whatever the
process has. -/
structure Init (s : State τ β) : Prop where
  created : s.q.created = ∅
  taskCount : s.q.taskCount_ = 0
  runTasks : s.q.runTasks_ = []
  proc : ∀ p, s.q.proc p = ⟨[], 0⟩
  block : ∀ b, (s.q.block b).waitQueue_ = []
  userWaitTasks : s.q.userWaitTasks_ = ∅
  ioWaitTasks : s.q.ioWaitTasks_ = []
  sleepWaitTasks : s.q.sleepWaitTasks_ = []
  sleepTimerMgr : s.q.sleepTimerMgr_ = .new
  timerMgr : s.timerMgr_ = .new
  hook : ∀ tk, s.hook tk = none
  sDeleteList : s.io.sDeleteList = []
  deleted : s.io.deleted = []
  ioTimerMgr : s.io.timerMgr_ = .new
  timeoutList : s.io.timeoutList_ = []
  epoll : ∀ e, s.io.kernel.epoll e = []
  dels : s.io.dels = []
  runProcList : s.runProcList_ = []
  procCount : s.procCount = 0
  phase : s.phase = .idle

/-- A new scheduler in a process with the given descriptors. -/
def start (status : ℤ → FdStatus) : State τ β where
  q := ⟨∅, fun _ => {}, 0, [], fun _ => ⟨[], 0⟩, fun _ => .new 0 1, ∅, [], [], .new⟩
  io := ⟨fun _ => { ioBlockId_ := 0 }, [], [], .new, [], id, ⟨status, fun _ => []⟩, []⟩
  timers := ⟨0, fun _ => false⟩
  timerMgr_ := .new
  hook _ := none
  runProcList_ := []
  procCount := 0
  phase := .idle

omit [LinearOrder τ] [DecidableEq β] in
theorem init_start (status : ℤ → FdStatus) : Init (start status : State τ β) := by
  constructor <;> first | rfl | exact fun _ => rfl

end State

end Scheduler
