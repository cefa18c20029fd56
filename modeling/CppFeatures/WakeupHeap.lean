/-
The scheduler's task queues on the heap of hooks.

Every list of tasks in the scheduler is intrusive: `run_tasks_`, the runnable list
of each processer, the list a running processer has popped, the queues of the user
wait table and the queues of the other wait structures all thread through the
hooks of the tasks themselves.  This module embeds the operations on them with
their pointer writes.

* `WakeupHeap.Sched` and `step` — the queues and every operation that moves a task
  between them, one pass of `Processer::Run` at a time;
* `blockWakeup` — `Scheduler::BlockWakeup`, whose last loop walks the popped list
  while `AddTaskRunnable` rewrites the hooks of its elements.
-/
import CppFeatures.Runs
import CppFeatures.TsQueue
import CppFeatures.WaitTable

namespace WakeupHeap

/-- The queues of the scheduler.  `other` are the queues of `IoWait`, `SleepWait`
and of the `BlockObject`s. -/
inductive QueueId (π : Type*)
  | runTasks
  | runnable (p : π)
  | wait (k : WaitKey)
  | other (i : ℕ)
deriving DecidableEq, Repr

/-- The addresses of hooks: tasks, and the sentinel of each queue. -/
inductive Node (τ π : Type*)
  | task (t : τ)
  | sentinel (q : QueueId π)
deriving DecidableEq, Repr

/-- A call of `Processer::Run` in progress. -/
structure Pass (τ π : Type*) where
  proc : π
  slist : SList (Node τ π) (QueueId π)
  it : Option (Node τ π)

structure Sched (τ π : Type*) where
  hooks : Hooks (Node τ π) (QueueId π)
  -- `run_tasks_`, the runnable lists and the other wait structures
  queues : QueueId π → TSQueue (Node τ π)
  userWaitTasks_ : WaitTable (TSQueue (Node τ π))
  proc_ : τ → Option π
  created : τ → Bool
  pass : Option (Pass τ π)

variable {τ π : Type*}

namespace Sched

/-- The queue at an address; the table may hold none for a key. -/
def queueAt (s : Sched τ π) : QueueId π → Option (TSQueue (Node τ π))
  | .wait k => (s.userWaitTasks_.find k).map WaitPair.second
  | q => some (s.queues q)

def counter (s : Sched τ π) (k : WaitKey) : ℕ :=
  ((s.userWaitTasks_.find k).map WaitPair.first).getD 0

variable [DecidableEq τ] [DecidableEq π]

/-- `push` on a queue outside the wait table. -/
def push (s : Sched τ π) (q : QueueId π) (t : τ) : Sched τ π :=
  let (H, tsq) := TSQueue.push s.hooks q (s.queues q) (.task t)
  { s with hooks := H, queues := Function.update s.queues q tsq }

/-- `Scheduler::AddTaskRunnable`. -/
def addTaskRunnable (s : Sched τ π) (t : τ) : Sched τ π :=
  match s.proc_ t with
  | some p => s.push (.runnable p) t
  | none => s.push .runTasks t

/-- `CreateTask`: a new task has a blank hook and no processer. -/
def createTask (s : Sched τ π) (t : τ) : Sched τ π :=
  { s with
    hooks := s.hooks.reset (.task t)
    proc_ := Function.update s.proc_ t none
    created := Function.update s.created t true }.addTaskRunnable t

/-- One round of the cherry-pick in `DoRunnable`: `run_tasks_.pop()` and
`Processer::AddTaskRunnable`, which enters the task into the processer. -/
def cherryPick (s : Sched τ π) (p : π) : Option (Sched τ π) :=
  match TSQueue.pop s.hooks (s.queues .runTasks) with
  | (H, tsq, some (.task t)) =>
    some ({ s with
      hooks := H
      queues := Function.update s.queues .runTasks tsq
      proc_ := Function.update s.proc_ t (some p) }.push (.runnable p) t)
  | _ => none

/-- The start of `Processer::Run`. -/
def beginRun (s : Sched τ π) (p : π) : Sched τ π :=
  let (H, tsq, slist) := TSQueue.popAll s.hooks (.runnable p) (s.queues (.runnable p))
  { s with
    hooks := H
    queues := Function.update s.queues (.runnable p) tsq
    pass := some ⟨p, slist, slist.head_⟩ }

-- `++it`
def advance (s : Sched τ π) (P : Pass τ π) (t : τ) : Sched τ π :=
  { s with pass := some { P with it := s.hooks.next (.task t) } }

-- `it = slist.erase(it)`
def eraseCurrent (s : Sched τ π) (P : Pass τ π) (t : τ) : Sched τ π :=
  let (H, slist, it) := SList.erase s.hooks P.slist (.task t)
  { s with hooks := H, pass := some ⟨P.proc, slist, it⟩ }

-- `runnable_list_.push(slist)`, which ends the pass
def endRun (s : Sched τ π) (P : Pass τ π) : Sched τ π :=
  let (H, tsq) := TSQueue.pushList s.hooks (s.queues (.runnable P.proc)) P.slist
  { s with
    hooks := H
    queues := Function.update s.queues (.runnable P.proc) tsq
    pass := none }

/-- `wait_tasks_.erase(tk)` and `AddTaskRunnable(tk)`, for the task at position `n`. -/
def unblock (s : Sched τ π) (i n : ℕ) : Option (Sched τ π) :=
  match s.hooks.nth n (.sentinel (.other i)) with
  | some (.task t) =>
    match TSQueue.erase s.hooks (.other i) (s.queues (.other i)) (.task t) with
    | (H, tsq, true) => some ({ s with
        hooks := H, queues := Function.update s.queues (.other i) tsq }.addTaskRunnable t)
    | _ => none
  | _ => none

/-- `user_wait_tasks_[type][wait_id]`: the pair, created with a new queue if absent. -/
def touch (s : Sched τ π) (k : WaitKey) : Sched τ π × WaitPair (TSQueue (Node τ π)) :=
  match s.userWaitTasks_.find k with
  | some p => (s, p)
  | none =>
    let p := ⟨0, TSQueue.new (.sentinel (.wait k))⟩
    ({ s with
      hooks := s.hooks.reset (.sentinel (.wait k))
      userWaitTasks_ := s.userWaitTasks_.store k p }, p)

-- store the pair and `ClearWaitPairWithoutLock`
def commit (s : Sched τ π) (k : WaitKey) (p : WaitPair (TSQueue (Node τ π))) : Sched τ π :=
  { s with userWaitTasks_ := s.userWaitTasks_.commit TSQueue.empty k p }

/-- The `user_block` case of `Processer::Run`. -/
def userBlock (s : Sched τ π) (P : Pass τ π) (t : τ) (k : WaitKey) : Sched τ π :=
  let (s, p) := s.touch k
  if p.first ≠ 0 then (s.advance P t).commit k { p with first := p.first - 1 }
  else
    let s := s.eraseCurrent P t
    let (H, tsq) := TSQueue.push s.hooks (.wait k) p.second (.task t)
    { s with hooks := H }.commit k { p with second := tsq }

def tryBlockWait (s : Sched τ π) (k : WaitKey) : Sched τ π × Bool :=
  match s.userWaitTasks_.find k with
  | none => (s, false)
  | some p => if 0 < p.first then (s.commit k { p with first := p.first - 1 }, true) else (s, false)

/-- The loop of `BlockWakeup` over the popped list: the hook is read *after*
`AddTaskRunnable`. -/
def wakeLoop : ℕ → Sched τ π → Option (Node τ π) → List τ → Option (Sched τ π × List τ)
  | _, s, none, passed => some (s, passed)
  | fuel + 1, s, some (.task t), passed =>
    let s := s.addTaskRunnable t
    wakeLoop fuel s (s.hooks.next (.task t)) (passed ++ [t])
  | _, _, some _, _ => none

/-- `BlockWakeup`: the state, the tasks passed to `AddTaskRunnable`, and the result.
`none` would mean that the loop does not end. -/
def blockWakeup (s : Sched τ π) (k : WaitKey) (wakeupCount : ℕ) :
    Option (Sched τ π × List τ × ℕ) :=
  let (s, p) := s.touch k
  let (H, tsq, tasks) := TSQueue.popN s.hooks (.wait k) p.second wakeupCount
  let c := tasks.count_.toNat
  let first := if c < wakeupCount then (p.first + (wakeupCount - c)) % 2 ^ 32 else p.first
  let s := { s with hooks := H }.commit k ⟨first, tsq⟩
  (wakeLoop (c + 1) s tasks.head_ []).map fun (s, passed) =>
    (s, passed, (c + passed.length) % 2 ^ 32)

end Sched

/-! ### The system -/

/-- What the scheduler and the running task do.  A task that blocks elsewhere goes
to the queue of that wait structure, and comes back, from any position, through
`AddTaskRunnable`; a task that `AddWaitTask` refuses does both at once. -/
inductive Act (τ π : Type*)
  | createTask (t : τ)
  | cherryPick (p : π)
  | beginRun (p : π)
  | yield
  | userBlock (k : WaitKey)
  | block (i : ℕ)
  | finish
  | finishThrow
  | endRun
  | unblock (i n : ℕ)
  | tryUserBlockWait (k : WaitKey)
  | blockWakeup (k : WaitKey) (wakeupCount : ℕ)
deriving DecidableEq, Repr

namespace Sched

variable [DecidableEq τ] [DecidableEq π]

/-- The task at the iterator, if a pass is in progress. -/
def current (s : Sched τ π) : Option (Pass τ π × τ) :=
  match s.pass with
  | some P => match P.it with
    | some (.task t) => some (P, t)
    | _ => none
  | none => none

def step (s : Sched τ π) : Act τ π → Option (Sched τ π)
  | .createTask t => if s.created t then none else some (s.createTask t)
  | .cherryPick p => if s.pass.isSome then none else s.cherryPick p
  | .beginRun p => if s.pass.isSome then none else some (s.beginRun p)
  | .yield => s.current.map fun (P, t) => s.advance P t
  | .userBlock k => s.current.map fun (P, t) => s.userBlock P t k
  | .block i => s.current.map fun (P, t) => (s.eraseCurrent P t).push (.other i) t
  | .finish => s.current.map fun (P, t) => s.eraseCurrent P t
  | .finishThrow => s.current.bind fun (P, t) =>
      let s := s.eraseCurrent P t
      s.pass.map s.endRun
  | .endRun => match s.pass with
    | some P => if P.it = none then some (s.endRun P) else none
    | none => none
  | .unblock i n => s.unblock i n
  | .tryUserBlockWait k => some (s.tryBlockWait k).1
  | .blockWakeup k n => if n < 2 ^ 32 then (s.blockWakeup k n).map Prod.fst else none

/-- No task yet; every queue is new. -/
def new : Sched τ π :=
  ⟨⟨⟨fun _ => none, fun _ => none⟩, fun _ => none⟩, fun q => TSQueue.new (.sentinel q), ∅,
    fun _ => none, fun _ => false, none⟩

def Init (s : Sched τ π) : Prop := s = new

end Sched

end WakeupHeap
