/-
`IoWait` (coroutine/linux/io_wait.cpp): waiting for file descriptors in epoll.

A waiting task has one registration for every descriptor of its list that epoll
accepted, and perhaps a timer; each of them holds a reference on the task.  This
module embeds the parts of `IoWait` that work on these data: the two epoll sets as
the kernel keeps them, the reference count with the list of tasks to delete, and
the loops of `SchedulerSwitch`, `Cancel` and `WaitLoop` over descriptors.  The
scheduler module adds what they do to the queues of tasks.

* `Kernel` — descriptors and the interest lists of `epoll_fds_`;
* `IoState` — the io data of every task, the timers, the delete list, and a log of
  every successful `EPOLL_CTL_DEL`.
-/
import CppFeatures.Timer
import Mathlib.Order.Defs.LinearOrder
import Mathlib.Data.List.Sort

/-! ### Descriptors and epoll -/

inductive EpollType
  | read
  | write
deriving DecidableEq, Repr

-- the flags of `epoll_event::events` that the code uses
def EPOLLIN : BitVec 32 := 0x001
def EPOLLOUT : BitVec 32 := 0x004
def EPOLLERR : BitVec 32 := 0x008
def EPOLLHUP : BitVec 32 := 0x010

/-- `FdStruct`, with the result `epoll_ptr.revent`; the other members of `EpollPtr`
are in the registration. -/
structure FdStruct where
  fd : ℤ
  event : BitVec 32
  revent : BitVec 32 := 0
deriving DecidableEq, Repr

def chooseEpoll (event : BitVec 32) : EpollType :=
  if event &&& EPOLLIN ≠ 0 then .read else .write

/-- The interest that an `FdStruct` stands for. -/
def FdStruct.key (f : FdStruct) : EpollType × ℤ := (chooseEpoll f.event, f.fd)

/-- What `epoll_ctl` makes of a descriptor number. -/
inductive FdStatus
  | closed
  | unpollable
  | pollable
deriving DecidableEq, Repr

/-- An entry of an epoll set.  Its `data.ptr` is the `EpollPtr` at index `slot` of
`tk->wait_fds_`, set up with `tk` and `ioBlockId` by `CoSwitch`. -/
structure Registration (τ : Type*) where
  fd : ℤ
  event : BitVec 32
  tk : τ
  ioBlockId : BitVec 32
  slot : ℕ
deriving DecidableEq, Repr

structure Kernel (τ : Type*) where
  status : ℤ → FdStatus
  epoll : EpollType → List (Registration τ)

/-- The `errno` of a failed `EPOLL_CTL_ADD`, as far as it is looked at. -/
inductive CtlError
  | eexist
  | other
deriving DecidableEq, Repr

namespace Kernel

variable {τ : Type*}

def epollCtlAdd (k : Kernel τ) (e : EpollType) (r : Registration τ) :
    Except CtlError (Kernel τ) :=
  if ∃ r' ∈ k.epoll e, r'.fd = r.fd then .error .eexist
  else if k.status r.fd = .pollable then
    .ok { k with epoll := Function.update k.epoll e (k.epoll e ++ [r]) }
  else .error .other

/-- `EPOLL_CTL_DEL`, with the entry that it removes; `none` when it fails. -/
def epollCtlDel (k : Kernel τ) (e : EpollType) (fd : ℤ) : Option (Registration τ × Kernel τ) :=
  match (k.epoll e).find? fun r => decide (r.fd = fd) with
  | none => none
  | some r =>
    let rest := (k.epoll e).filter fun r => decide (r.fd ≠ fd)
    some (r, { k with epoll := Function.update k.epoll e rest })

-- `open`, `socket`, `accept`, …: the number was free
def openFd (k : Kernel τ) (fd : ℤ) (status : FdStatus) : Kernel τ :=
  { k with status := Function.update k.status fd status }

/-- `close` of the last descriptor of its open file: the kernel drops it from the epoll
sets. -/
def closeFd (k : Kernel τ) (fd : ℤ) : Kernel τ where
  status := Function.update k.status fd .closed
  epoll e := (k.epoll e).filter fun r => decide (r.fd ≠ fd)

end Kernel

/-! ### The io data of the tasks -/

/-- The members of `Task` that io waits use.  `ref_count_` is kept as an integer: a
task has at most one registration for each descriptor in each of two epoll sets,
and Linux has fewer than `2 ^ 31 - 2` descriptors, so that the 32-bit counter
never wraps. -/
structure IoTask (τ : Type*) where
  refCount_ : ℤ := 1
  ioBlockId_ : BitVec 32
  waitFds_ : List FdStruct := []
  waitSuccessful_ : BitVec 32 := 0
  ioBlockTimeout_ : ℤ := 0
  ioBlockTimer_ : Option (CoTimer (τ × BitVec 32)) := none

/-- A successful `EPOLL_CTL_DEL`, made for the wait `id` of `tk`. -/
structure Deletion (τ : Type*) where
  tk : τ
  id : BitVec 32
  removed : Registration τ
deriving DecidableEq, Repr

structure IoState (τ : Type*) where
  task : τ → IoTask τ
  sDeleteList : List τ
  -- the tasks that `WaitLoop` has deleted
  deleted : List τ
  -- the callbacks of io timers are `(tk, id)`
  timerMgr_ : CoTimerMgr (τ × BitVec 32)
  timeoutList_ : List (CoTimer (τ × BitVec 32))
  -- the addresses of the timers, by id
  addr : ℕ → ℕ
  kernel : Kernel τ
  dels : List (Deletion τ)

namespace IoState

variable {τ : Type*} [DecidableEq τ]

def modifyTask (io : IoState τ) (tk : τ) (f : IoTask τ → IoTask τ) : IoState τ :=
  { io with task := Function.update io.task tk (f (io.task tk)) }

def incrementRef (io : IoState τ) (tk : τ) : IoState τ :=
  io.modifyTask tk fun t => { t with refCount_ := t.refCount_ + 1 }

def decrementRef (io : IoState τ) (tk : τ) : IoState τ :=
  let io := io.modifyTask tk fun t => { t with refCount_ := t.refCount_ - 1 }
  if (io.task tk).refCount_ = 0 then { io with sDeleteList := io.sDeleteList ++ [tk] } else io

/-- What `CoSwitch` stores in the task. -/
def coSwitch (io : IoState τ) (tk : τ) (fdsts : List FdStruct) (timeoutMs : ℤ) : IoState τ :=
  io.modifyTask tk fun t => { t with
    ioBlockId_ := t.ioBlockId_ + 1
    waitSuccessful_ := 0
    ioBlockTimeout_ := timeoutMs
    ioBlockTimer_ := none
    waitFds_ := fdsts }

/-- `if (0 == epoll_ctl(.., EPOLL_CTL_DEL, fd, NULL)) tk->DecrementRef();` -/
def delFd (tk : τ) (id : BitVec 32) (io : IoState τ) (fdst : FdStruct) : IoState τ :=
  match io.kernel.epollCtlDel (chooseEpoll fdst.event) fdst.fd with
  | none => io
  | some (r, k) =>
    decrementRef { io with kernel := k, dels := io.dels ++ [⟨tk, id, r⟩] } tk

/-- The loop of `SchedulerSwitch` over `wait_fds_`, with the flag `ok`. -/
def addFds (tk : τ) (id : BitVec 32) :
    ℕ → List FdStruct → IoState τ → List FdStruct → Bool → IoState τ × Bool
  | _, [], io, _, ok => (io, ok)
  | slot, fdst :: rest, io, rollbackList, ok =>
    match (io.incrementRef tk).kernel.epollCtlAdd (chooseEpoll fdst.event)
        ⟨fdst.fd, fdst.event, tk, id, slot⟩ with
    | .ok k =>
      addFds tk id (slot + 1) rest { io.incrementRef tk with kernel := k }
        (rollbackList ++ [fdst]) true
    | .error .eexist =>
      (rollbackList.foldl (delFd tk id) ((io.incrementRef tk).decrementRef tk), false)
    | .error .other =>
      addFds tk id (slot + 1) rest ((io.incrementRef tk).decrementRef tk) rollbackList ok

/-- `SchedulerSwitch` up to the end of its loop; the first reference is that of
`ref_guard`. -/
def register (io : IoState τ) (tk : τ) : IoState τ × Bool :=
  addFds tk (io.task tk).ioBlockId_ 0 (io.task tk).waitFds_ (io.incrementRef tk) [] false

/-- The timer of a wait, with its reference. -/
def setTimer (io : IoState τ) (tk : τ) (timer : CoTimer (τ × BitVec 32)) : IoState τ :=
  let io := io.incrementRef tk
  modifyTask { io with timerMgr_ := io.timerMgr_.expireAt timer } tk
    fun t => { t with ioBlockTimer_ := some timer }

/-- The loop of `Cancel` over `wait_fds_`. -/
def clearFds (io : IoState τ) (tk : τ) (id : BitVec 32) : IoState τ :=
  (io.task tk).waitFds_.foldl (delFd tk id) io

/-- The first loop of `WaitLoop`, each `GetExpired` at one of the times; `std::list::merge`
compares the addresses of the timers. -/
def collectTimers : List ℤ → IoState τ → IoState τ
  | [], io => io
  | now :: nows, io =>
    let (timers, mgr) := io.timerMgr_.getExpired now 128
    if timers = [] then io
    else collectTimers nows { io with
      timerMgr_ := mgr
      timeoutList_ := io.timeoutList_.merge timers fun a b => decide (io.addr a.id_ ≤ io.addr b.id_) }

omit [DecidableEq τ] in
/-- The first timers that `WaitLoop` collects. -/
theorem collectTimers_first {io : IoState τ} (h : io.timeoutList_ = []) {now : ℤ}
    (hne : (io.timerMgr_.getExpired now 128).1 ≠ []) (nows : List ℤ) :
    io.collectTimers (now :: nows) = collectTimers nows { io with
      timerMgr_ := (io.timerMgr_.getExpired now 128).2
      timeoutList_ := (io.timerMgr_.getExpired now 128).1 } := by
  rw [collectTimers]
  dsimp only
  rw [if_neg hne, h, List.nil_merge]

/-- One event of `epoll_wait` on the set `e`: the entry it is for, and the task noted
for `Cancel`. -/
def epollEvent (e : EpollType) (io : IoState τ) (ev : ℤ × BitVec 32) :
    IoState τ × Option (τ × BitVec 32) :=
  match (io.kernel.epoll e).find? fun r => decide (r.fd = ev.1) with
  | none => (io, none)
  | some r =>
    (io.modifyTask r.tk fun t => { t with
      waitSuccessful_ := t.waitSuccessful_ + 1
      waitFds_ := t.waitFds_.modify r.slot fun f => { f with revent := ev.2 } },
    some (r.tk, r.ioBlockId))

/-- `delete` for every task of `s_delete_list`. -/
def deleteTasks (io : IoState τ) : IoState τ :=
  { io with sDeleteList := [], deleted := io.deleted ++ io.sDeleteList }

end IoState

/-- `epollwait_tasks_.insert`: a set ordered by the address of the task. -/
def insertEpollWaitSt {τ : Type*} [LinearOrder τ] (set : List (τ × BitVec 32)) (st : τ × BitVec 32) :
    List (τ × BitVec 32) :=
  if ∃ st' ∈ set, st'.1 = st.1 then set
  else set.orderedInsert (fun a b => a.1 ≤ b.1) st
