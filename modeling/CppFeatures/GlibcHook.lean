/-
The hooked system calls (coroutine/linux_glibc_hook.cpp), as far as the scheduler
sees them: which descriptors a call waits for, for how long, and what it does when
the wait is over.

A call that completes at once, or that is made on a descriptor the hooks leave
alone, is an ordinary system call and does not appear here.
-/
import CppFeatures.IoWait

-- the flags of `pollfd::events`
def POLLIN : BitVec 16 := 0x001
def POLLOUT : BitVec 16 := 0x004
def POLLERR : BitVec 16 := 0x008
def POLLHUP : BitVec 16 := 0x010

def pollEvent2Epoll (events : BitVec 16) : BitVec 32 :=
  (if events &&& POLLIN ≠ 0 then EPOLLIN else 0) |||
  (if events &&& POLLOUT ≠ 0 then EPOLLOUT else 0) |||
  (if events &&& POLLHUP ≠ 0 then EPOLLHUP else 0) |||
  (if events &&& POLLERR ≠ 0 then EPOLLERR else 0)

-- an `fd_set`; the argument of `select` may be `NULL`
abbrev FdSet := ℕ → Bool

def FD_SETSIZE : ℤ := 1024

/-- The three sets of a `select` call, each with the events it stands for. -/
def selectSets (readfds writefds exceptfds : Option FdSet) : List (Option FdSet × BitVec 32) :=
  [(readfds, EPOLLIN ||| EPOLLERR ||| EPOLLHUP), (writefds, EPOLLOUT),
    (exceptfds, EPOLLERR ||| EPOLLHUP)]

/-- The `FdStruct` of one descriptor: none if no set has it. -/
def selectFdst (sets : List (Option FdSet × BitVec 32)) (i : ℕ) : Option FdStruct :=
  match sets.filter fun s => s.1.any fun set => set i with
  | [] => none
  | hits => some { fd := i, event := hits.foldl (fun e s => e ||| s.2) 0 }

def selectFdsts (nfds : ℤ) (sets : List (Option FdSet × BitVec 32)) : List FdStruct :=
  (List.range (min nfds FD_SETSIZE).toNat).filterMap (selectFdst sets)

/-- A hooked call.  `readWrite` is `read_write_mode` once the system call has failed
with `EAGAIN`, with the time-out it has read from the socket; `connect` is the call
once it has failed with `EINPROGRESS`. -/
inductive Hook
  | readWrite (fd : ℤ) (event : BitVec 32) (timeoutMs : ℤ)
  | connect (fd : ℤ)
  | poll (fds : List (ℤ × BitVec 16)) (timeout : ℤ)
  | select (nfds : ℤ) (readfds writefds exceptfds : Option FdSet) (timeoutMs : Option ℤ)

namespace Hook

/-- How a hooked call begins. -/
inductive Start
  -- the original call, without a wait
  | direct
  | sleep (ms : ℤ)
  | io (fdsts : List FdStruct) (timeoutMs : ℤ)

def start : Hook → Start
  | readWrite fd event timeoutMs => .io [{ fd, event }] timeoutMs
  | connect fd => .io [{ fd, event := EPOLLOUT }] (-1)
  | poll fds timeout =>
    if timeout = 0 then .direct
    else if fds = [] then .sleep timeout
    else .io (fds.map fun p => { fd := p.1, event := pollEvent2Epoll p.2 }) timeout
  | select nfds readfds writefds exceptfds timeoutMs =>
    if timeoutMs = some 0 then .direct
    else if nfds = 0 ∧ readfds.isNone ∧ writefds.isNone ∧ exceptfds.isNone ∧ timeoutMs.isSome then
      .sleep (timeoutMs.getD (-1))
    else .io (selectFdsts nfds (selectSets readfds writefds exceptfds)) (timeoutMs.getD (-1))

/-- Whether the call cancels the timer of its wait: `connect` has none. -/
def cancelsTimer : Hook → Bool
  | connect _ => false
  | _ => true

/-- How long the call sleeps when no descriptor could be added to epoll. -/
def fallbackSleep : Hook → ℤ
  | poll _ timeout => timeout
  | select _ _ _ _ timeoutMs => timeoutMs.getD (-1)
  | _ => -1

/-- A call without a timer to cancel does not set one. -/
theorem start_of_not_cancelsTimer {h : Hook} (hc : h.cancelsTimer = false) {fdsts : List FdStruct}
    {ms : ℤ} (hs : h.start = .io fdsts ms) : ms = -1 := by
  cases h with
  | connect fd =>
    rw [start, Start.io.injEq] at hs
    exact hs.2.symm
  | _ => simp [cancelsTimer] at hc

end Hook
