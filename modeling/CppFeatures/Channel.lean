/-
`Channel<T>` (coroutine/channel.h): the embedding.

A channel is two `BlockObject`s, a queue and a `CoMutex`.  A writer waits for
`write_block_`, pushes under the mutex and wakes `read_block_`; a reader wakes
`write_block_` *before* it waits for `read_block_`, and pops under the mutex.
`TryPop` wakes `write_block_` too, and takes that permit back when it finds
nothing to read.

Every access to a `BlockObject` and to the queue is one atomic step, `front` and
`pop` included, and the steps of all operations in progress interleave.  An
operation is a process of the model: `Stage` is its next step.
-/
import CppFeatures.CoMutex
import CppFeatures.Semaphores

/-- `ChannelImpl`. -/
structure Channel (τ T : Type*) where
  writeBlock_ : BlockObject τ
  readBlock_ : BlockObject τ
  queue_ : List T
  queueLock_ : CoMutex τ

namespace Channel

variable {τ T : Type*}

-- `max_wakeup` defaults to `-1`, the largest `std::size_t`
def new (capacity : ℕ) : Channel τ T :=
  ⟨BlockObject.new capacity (2 ^ 64 - 1), BlockObject.new 0 (2 ^ 64 - 1), [], CoMutex.new⟩

/-- The three objects an operation may wait for. -/
inductive Sem
  | write
  | read
  | lock
deriving DecidableEq, Repr

def sem (ch : Channel τ T) : Sem → BlockObject τ
  | .write => ch.writeBlock_
  | .read => ch.readBlock_
  | .lock => ch.queueLock_.block_

def setSem (ch : Channel τ T) (k : Sem) (b : BlockObject τ) : Channel τ T :=
  match k with
  | .write => { ch with writeBlock_ := b }
  | .read => { ch with readBlock_ := b }
  | .lock => { ch with queueLock_ := ⟨b⟩ }

@[simp] theorem sem_setSem (ch : Channel τ T) (k : Sem) (b : BlockObject τ) :
    (ch.setSem k b).sem = Function.update ch.sem k b := by
  funext j
  cases k <;> cases j <;> rfl

@[simp] theorem queue_setSem (ch : Channel τ T) (k : Sem) (b : BlockObject τ) :
    (ch.setSem k b).queue_ = ch.queue_ := by
  cases k <;> rfl

/-- The next step of an operation. -/
inductive Stage
  | idle
  -- `operator<<`: `write_block_.CoBlockWait()`, `lock`, `push`, `unlock`, `read_block_.Wakeup()`
  | wWait (ph : WaitPhase) | wLock (ph : WaitPhase) | wPush | wUnlock | wWakeup
  -- `TryPush`: `write_block_.TryBlockWait()`, then as `operator<<`
  | wTry
  -- `operator>>`: `write_block_.Wakeup()`, `read_block_.CoBlockWait()`, `lock`, `front`, `pop`, `unlock`
  | rWakeup | rWait (ph : WaitPhase) | rLock (ph : WaitPhase) | rFront | rPop | rUnlock
  -- `TryPop`: `write_block_.Wakeup()`, `read_block_.TryBlockWait()`, `write_block_.TryBlockWait()`,
  -- then as `operator>>`
  | tWakeup | tRead | tTakeBack
deriving DecidableEq, Repr, Inhabited

/-- The stage that follows when the object an operation waits for is granted. -/
def Stage.granted : Stage → Stage
  | .wWait _ | .wTry => .wLock .ready
  | .wLock _ => .wPush
  | .rWait _ | .tRead => .rLock .ready
  | .rLock _ => .rFront
  | st => st

/-- Arguments and local variables of one operation. -/
structure Locals (T : Type*) where
  -- whether the caller is a coroutine
  co : Bool
  -- the value to push
  val : Option T
  -- the caller passed `nullptr`, so `front` is not read
  ignore : Bool
  -- the value moved out of `front`
  got : Option T

/-- A channel, its operations in progress, the values pushed and popped so far
(oldest first), and whether `front` or `pop` met an empty queue or an `unlock`
threw. -/
structure System (τ T : Type*) where
  chan : Channel τ T
  ops : Pool τ Stage
  loc : τ → Locals T
  pushed : List T
  popped : List T
  fault : Bool

inductive Act (τ T : Type*)
  | push (t : τ) (co : Bool) (v : T)
  | pop (t : τ) (co : Bool) (ignore : Bool)
  | tryPush (t : τ) (co : Bool) (v : T)
  | tryPop (t : τ) (co : Bool) (ignore : Bool)
  | advance (t : τ)

namespace System

variable [DecidableEq τ]

def move (s : System τ T) (t : τ) (x : Stage) : System τ T := { s with ops := s.ops.set t x }

/-- The outcome of a step on object `k`. -/
def setSem (s : System τ T) (k : Sem) (r : BlockObject τ × Pool τ Stage) : System τ T :=
  { s with chan := s.chan.setSem k r.1, ops := r.2 }

-- `CoBlockWait`, its locked check
def wait (s : System τ T) (k : Sem) (t : τ) (x : WaitPhase → Stage) : System τ T :=
  s.setSem k ((s.chan.sem k).waitBy s.ops t (s.loc t).co x (x .ready).granted)

-- the scheduler's `AddWaitTask`
def park (s : System τ T) (k : Sem) (t : τ) (x : WaitPhase → Stage) : System τ T :=
  s.setSem k ((s.chan.sem k).parkBy s.ops t x (x .ready).granted)

def tryWait (s : System τ T) (k : Sem) (t : τ) (x y : Stage) : System τ T :=
  s.setSem k ((s.chan.sem k).tryBy s.ops t x y)

def wake (s : System τ T) (k : Sem) (t : τ) (x : Stage) : System τ T :=
  s.setSem k ((s.chan.sem k).wakeBy s.ops t x Stage.granted)

/-- The next step of operation `t`. -/
def advance (s : System τ T) (t : τ) : Option (System τ T) :=
  match s.ops.pc t with
  | .wWait .ready => some (s.wait .write t .wWait)
  | .wWait .marked => some (s.park .write t .wWait)
  | .wTry => some (s.tryWait .write t (.wLock .ready) .idle)
  | .wLock .ready => some (s.wait .lock t .wLock)
  | .wLock .marked => some (s.park .lock t .wLock)
  | .wPush => (s.loc t).val.map fun v =>
      { s.move t .wUnlock with
        chan := { s.chan with queue_ := s.chan.queue_ ++ [v] }, pushed := s.pushed ++ [v] }
  | .wUnlock => some { s.wake .lock t .wWakeup with
      fault := s.fault || !(s.chan.queueLock_.unlock false).2.2.isOk }
  | .wWakeup => some (s.wake .read t .idle)
  | .rWakeup => some (s.wake .write t (.rWait .ready))
  | .rWait .ready => some (s.wait .read t .rWait)
  | .rWait .marked => some (s.park .read t .rWait)
  | .tWakeup => some (s.wake .write t .tRead)
  | .tRead => some (s.tryWait .read t (.rLock .ready) .tTakeBack)
  | .tTakeBack => some (s.tryWait .write t .idle .tRead)
  | .rLock .ready => some (s.wait .lock t .rLock)
  | .rLock .marked => some (s.park .lock t .rLock)
  | .rFront =>
    if (s.loc t).ignore then some (s.move t .rPop)
    else some { s.move t .rPop with
      loc := Function.update s.loc t { s.loc t with got := s.chan.queue_.head? }
      fault := s.fault || s.chan.queue_.isEmpty }
  | .rPop =>
    some { s.move t .rUnlock with
      chan := { s.chan with queue_ := s.chan.queue_.tail }
      popped := s.popped ++ (if (s.loc t).ignore then s.chan.queue_.head? else (s.loc t).got).toList
      fault := s.fault || s.chan.queue_.isEmpty }
  | .rUnlock => some { s.wake .lock t .idle with
      fault := s.fault || !(s.chan.queueLock_.unlock false).2.2.isOk }
  | .idle | .wWait .parked | .wLock .parked | .rWait .parked | .rLock .parked => none

/-- An operation starts at stage `x`. -/
def start (s : System τ T) (t : τ) (x : Stage) (l : Locals T) : Option (System τ T) :=
  if s.ops.pc t = .idle then some { s.move t x with loc := Function.update s.loc t l } else none

def step (s : System τ T) : Act τ T → Option (System τ T)
  | .push t co v => s.start t (.wWait .ready) ⟨co, some v, false, none⟩
  | .pop t co ignore => s.start t .rWakeup ⟨co, none, ignore, none⟩
  | .tryPush t co v => s.start t .wTry ⟨co, some v, false, none⟩
  | .tryPop t co ignore => s.start t .tWakeup ⟨co, none, ignore, none⟩
  | .advance t => s.advance t

/-- A new channel; `loc` is uninitialised memory. -/
def Init (c : ℕ) (s : System τ T) : Prop :=
  s.chan = Channel.new c ∧ s.ops = Pool.empty ∧ s.pushed = [] ∧ s.popped = [] ∧ s.fault = false

end System

end Channel
