/-
The socket hooks for Windows (coroutine/win_patch/win_vc_hook.cpp).

Winsock cannot be asked whether a socket is in non-blocking mode, so the hooked
`ioctlsocket` keeps a mark, the option `SO_GROUP_PRIORITY`, and `IsNonblocking` reads it.
A hook switches a blocking socket to non-blocking mode for its own use and leaves a socket
alone whose mark says that the user did.

* `connectModeHook`, `modeHook` — the templates, with every exit;
* `Api.hook` — the functions hooked with them;
* `restored_iff` — a sequence of calls leaves the socket unmarked throughout iff every
  `connect` that switched the mode had to wait.
-/
import CppFeatures.Runs
import Mathlib.Data.Int.Notation
import Mathlib.Tactic.Common

namespace WinHook

/-- What the hooks read and write of a socket. -/
structure Socket where
  -- `FIONBIO`
  nonblocking : Bool
  -- `SO_GROUP_PRIORITY`
  groupPriority : ℤ
  -- `SO_RCVTIMEO` and `SO_SNDTIMEO`, in milliseconds
  rcvTimeo : ℤ
  sndTimeo : ℤ
deriving DecidableEq, Repr

/-- `WSAGetLastError()`, as far as the hooks look at it. -/
inductive WsaError
  | wouldBlock
  | inProgress
  | other (code : ℤ)
deriving DecidableEq, Repr

/-- `SOCKET_ERROR`, and `INVALID_SOCKET` as an `int`. -/
def socketError : ℤ := -1

/-- What a call returns, with the error it sets. -/
structure Answer where
  ret : ℤ
  err : WsaError
deriving DecidableEq, Repr

/-- What the system answers in the course of one hooked call. -/
structure Env where
  -- `ioctlsocket(s, FIONBIO, 1)` succeeds, and so does the `setsockopt` of the mark
  ioctl : Bool
  mark : Bool
  -- the original function, called at once and called again after the wait
  first : Answer
  second : Answer
  -- the sets that `select` leaves to `connect_mode_hook`, and `SO_ERROR`
  writable : Bool
  except : Bool
  soError : ℤ
deriving DecidableEq, Repr

/-- What a hooked call did: its answer, whether it took the bypass of a non-blocking socket,
and the time-out of its `select`, if it came to that. -/
structure Outcome where
  answer : Answer
  bypass : Bool
  waited : Option (Option ℤ)
deriving DecidableEq, Repr

namespace Socket

/-- `IsNonblocking`, on a socket. -/
def isNonblocking (s : Socket) : Bool := decide (s.groupPriority ≠ 0)

/-- `SetNonblocking(s, true)` through the hooked `ioctlsocket`. -/
def setNonblockingTrue (s : Socket) (e : Env) : Socket × Bool :=
  if e.ioctl then
    ({ s with nonblocking := true, groupPriority := if e.mark then 1 else s.groupPriority }, true)
  else (s, false)

/-- `SetNonblocking(s, false)`, which succeeds. -/
def setNonblockingFalse (s : Socket) : Socket := { s with nonblocking := false, groupPriority := 0 }

end Socket

/-- `connect_mode_hook`, called by a coroutine. -/
def connectModeHook (s : Socket) (e : Env) : Socket × Outcome :=
  if s.isNonblocking then (s, ⟨e.first, true, none⟩)
  else
    let (s, switched) := s.setNonblockingTrue e
    if !switched then (s, ⟨e.first, false, none⟩)
    else if e.first.ret = 0 then (s, ⟨e.first, false, none⟩)
    else if e.first.err ≠ .wouldBlock ∧ e.first.err ≠ .inProgress then (s, ⟨e.first, false, none⟩)
    else if !e.except && e.writable then
      (s.setNonblockingFalse, ⟨⟨0, e.first.err⟩, false, some none⟩)
    else if e.soError ≠ 0 then
      (s.setNonblockingFalse, ⟨⟨socketError, .other e.soError⟩, false, some none⟩)
    else (s.setNonblockingFalse, ⟨⟨0, e.first.err⟩, false, some none⟩)

/-- `e_mode_hook_flags`. -/
structure Flags where
  nonblockingOp : Bool := false
  noTimeout : Bool := false
deriving DecidableEq, Repr

/-- The body that `read_mode_hook` and `write_mode_hook` share; `timeo` is the socket's
time-out for the direction. -/
def modeHook (timeo : Socket → ℤ) (flags : Flags) (s : Socket) (e : Env) : Socket × Outcome :=
  if s.isNonblocking then (s, ⟨e.first, true, none⟩)
  else if flags.nonblockingOp then (s, ⟨e.first, false, none⟩)
  else
    let (s, switched) := s.setNonblockingTrue e
    if !switched then (s, ⟨e.first, false, none⟩)
    else if e.first.ret ≠ -1 then (s.setNonblockingFalse, ⟨e.first, false, none⟩)
    else if e.first.err ≠ .wouldBlock ∧ e.first.err ≠ .inProgress then
      (s.setNonblockingFalse, ⟨e.first, false, none⟩)
    else
      let timeout := if flags.noTimeout then 0 else timeo s
      -- a time-out of `select` is not looked at either
      (s.setNonblockingFalse,
        ⟨e.second, false, some (if timeout ≠ 0 then some timeout else none)⟩)

def readModeHook : Flags → Socket → Env → Socket × Outcome := modeHook Socket.rcvTimeo

def writeModeHook : Flags → Socket → Env → Socket × Outcome := modeHook Socket.sndTimeo

/-- The hooked functions; `overlapped` says whether the caller passed `lpOverlapped`. -/
inductive Api
  | connect
  | wsaConnect
  | accept
  | wsaAccept
  | wsaRecv (overlapped : Bool)
  | recv
  | recvfrom
  | wsaRecvFrom (overlapped : Bool)
  | wsaRecvMsg (overlapped : Bool)
  | wsaSend (overlapped : Bool)
  | send
  | sendto
  | wsaSendTo (overlapped : Bool)
  | wsaSendMsg (overlapped : Bool)
deriving DecidableEq, Repr

/-- `hook_connect`, `hook_WSAConnect`, .., `hook_WSASendMsg`. -/
def Api.hook : Api → Socket → Env → Socket × Outcome
  | .connect => connectModeHook
  | .wsaConnect => connectModeHook
  | .accept => readModeHook { noTimeout := true }
  | .wsaAccept => readModeHook { noTimeout := true }
  | .wsaRecv overlapped => readModeHook { nonblockingOp := overlapped }
  | .recv => readModeHook {}
  | .recvfrom => readModeHook {}
  | .wsaRecvFrom overlapped => readModeHook { nonblockingOp := overlapped }
  | .wsaRecvMsg overlapped => readModeHook { nonblockingOp := overlapped }
  | .wsaSend overlapped => writeModeHook { nonblockingOp := overlapped }
  | .send => writeModeHook {}
  | .sendto => writeModeHook {}
  | .wsaSendTo overlapped => writeModeHook { nonblockingOp := overlapped }
  | .wsaSendMsg overlapped => writeModeHook { nonblockingOp := overlapped }

/-- One call of a sequence. -/
structure Call where
  api : Api
  env : Env
deriving DecidableEq, Repr

def Api.connects : Api → Bool
  | .connect | .wsaConnect => true
  | _ => false

/-- The first call of the original function says that the operation goes on. -/
def Env.pending (e : Env) : Bool :=
  decide (e.first.ret ≠ 0 ∧ (e.first.err = .wouldBlock ∨ e.first.err = .inProgress))

/-- A `connect` that switched the socket, with its mark, had to wait. -/
def Call.Undoes (c : Call) : Prop :=
  c.api.connects = true → c.env.ioctl = true → c.env.mark = true → c.env.pending = true

/-! ### One call -/

variable {s : Socket} {e : Env}

theorem modeHook_restores (timeo : Socket → ℤ) (flags : Flags) (e : Env)
    (h : s.isNonblocking = false) :
    (modeHook timeo flags s e).1.isNonblocking = false ∧
      (modeHook timeo flags s e).2.bypass = false := by
  rw [modeHook, if_neg (by rw [h]; decide), Socket.setNonblockingTrue]
  cases flags.nonblockingOp with
  | true => exact ⟨h, rfl⟩
  | false =>
    cases e.ioctl with
    | false => exact ⟨h, rfl⟩
    | true =>
      dsimp only
      simp only [Bool.false_eq_true, if_false, if_true, Bool.not_true]
      split_ifs <;> exact ⟨rfl, rfl⟩

/-- The switch is visible to `IsNonblocking` iff the mark was set. -/
theorem setNonblockingTrue_marks (h : s.isNonblocking = false) (hioctl : e.ioctl = true) :
    (s.setNonblockingTrue e).2 = true ∧ (s.setNonblockingTrue e).1.isNonblocking = e.mark := by
  rw [Socket.setNonblockingTrue, if_pos hioctl]
  refine ⟨rfl, ?_⟩
  cases hmark : e.mark with
  | false => exact h
  | true => rfl

theorem setNonblockingTrue_fails (hioctl : e.ioctl = false) :
    s.setNonblockingTrue e = (s, false) := by
  rw [Socket.setNonblockingTrue, if_neg (by rw [hioctl]; decide)]

/-- **The exits of `connect_mode_hook`**: those before the wait leave the switched socket. -/
theorem connectModeHook_restores_iff (h : s.isNonblocking = false) :
    (connectModeHook s e).1.isNonblocking = false ↔
      (e.ioctl = true → e.mark = true → e.pending = true) := by
  rw [connectModeHook, if_neg (by rw [h]; decide)]
  cases hioctl : e.ioctl with
  | false =>
    rw [setNonblockingTrue_fails hioctl]
    exact iff_of_true h nofun
  | true =>
    obtain ⟨hswitched, hmark⟩ := setNonblockingTrue_marks h hioctl
    dsimp only
    rw [hswitched, if_neg (by decide)]
    by_cases hpending : e.pending = true
    · have hwait := of_decide_eq_true hpending
      rw [if_neg hwait.1, if_neg (by tauto)]
      refine iff_of_true ?_ fun _ _ => hpending
      split_ifs <;> rfl
    · have hexit : e.mark = false ↔ (true = true → e.mark = true → e.pending = true) := by
        simp [hpending]
      by_cases hret : e.first.ret = 0
      · rw [if_pos hret, hmark]
        exact hexit
      · have herr : e.first.err ≠ .wouldBlock ∧ e.first.err ≠ .inProgress := by
          rw [Env.pending, decide_eq_true_iff] at hpending
          tauto
        rw [if_neg hret, if_pos herr, hmark]
        exact hexit

theorem connectModeHook_bypass (h : s.isNonblocking = false) :
    (connectModeHook s e).2.bypass = false := by
  rw [connectModeHook, if_neg (by rw [h]; decide)]
  dsimp only
  split_ifs <;> rfl

/-- **One call** on a socket that is not marked. -/
theorem hook_restores_iff (c : Call) (h : s.isNonblocking = false) :
    ((c.api.hook s c.env).1.isNonblocking = false ↔ c.Undoes) ∧
      (c.api.hook s c.env).2.bypass = false := by
  by_cases hc : c.api.connects = true
  · have hhook : c.api.hook = connectModeHook := by
      cases hapi : c.api with
      | connect => rfl
      | wsaConnect => rfl
      | _ =>
        rw [hapi] at hc
        cases hc
    rw [hhook, connectModeHook_restores_iff h, Call.Undoes]
    refine ⟨?_, connectModeHook_bypass h⟩
    simp only [hc, forall_const]
  · have hhook : ∃ timeo flags, c.api.hook = modeHook timeo flags := by
      cases hapi : c.api with
      | connect => exact absurd (by rw [hapi]; rfl) hc
      | wsaConnect => exact absurd (by rw [hapi]; rfl) hc
      | _ => exact ⟨_, _, rfl⟩
    obtain ⟨timeo, flags, hhook⟩ := hhook
    obtain ⟨hrestored, hbypass⟩ := modeHook_restores timeo flags c.env h
    rw [hhook]
    exact ⟨iff_of_true hrestored fun hconnects => absurd hconnects hc, hbypass⟩

/-! ### Sequences of calls -/

/-- A socket created in blocking mode. -/
def Socket.created (rcvTimeo sndTimeo : ℤ) : Socket := ⟨false, 0, rcvTimeo, sndTimeo⟩

def step (s : Socket) (c : Call) : Option Socket := some (c.api.hook s c.env).1

/-- What the calls of a sequence did. -/
def outcomes : Socket → List Call → List Outcome
  | _, [] => []
  | s, c :: cs => (c.api.hook s c.env).2 :: outcomes (c.api.hook s c.env).1 cs

theorem bypass_outcomes {cs : List Call} (h : s.isNonblocking = false) (hcs : ∀ c ∈ cs, c.Undoes) :
    ∀ o ∈ outcomes s cs, o.bypass = false := by
  induction cs generalizing s with
  | nil => exact nofun
  | cons c cs ih =>
    rw [List.forall_mem_cons] at hcs
    obtain ⟨hrestored, hbypass⟩ := hook_restores_iff c h
    rw [outcomes, List.forall_mem_cons]
    exact ⟨hbypass, ih (hrestored.mpr hcs.1) hcs.2⟩

/-- **Between any two calls `IsNonblocking` is false**, for every sequence of calls with every
outcome, **iff** each `connect` that switched the mode, with its mark, was answered that it has
to wait; and then no call takes the bypass. -/
theorem restored_iff (rcvTimeo sndTimeo : ℤ) (cs : List Call) :
    (Along step (fun s => s.isNonblocking = false) (.created rcvTimeo sndTimeo) cs ↔
        ∀ c ∈ cs, c.Undoes) ∧
      ((∀ c ∈ cs, c.Undoes) →
        ∀ o ∈ outcomes (.created rcvTimeo sndTimeo) cs, o.bypass = false) := by
  have hcreated : (Socket.created rcvTimeo sndTimeo).isNonblocking = false := rfl
  have hstep : ∀ (s s' : Socket) (c : Call), True → s.isNonblocking = false →
      step s c = some s' → (s'.isNonblocking = false ↔ c.Undoes) := by
    intro s s' c _ h hst
    cases hst
    exact (hook_restores_iff c h).1
  have hsteps := along_iff_stepsOk (fun _ => True) (fun _ _ _ _ _ => trivial) hstep trivial
    hcreated cs
  exact ⟨hsteps.trans (stepsOk_total _ cs), bypass_outcomes hcreated⟩

/-- A `connect` that succeeds at once, and a `recv` that finds nothing yet. -/
def connectThenRecv : List Call :=
  [⟨.connect, ⟨true, true, ⟨0, .other 0⟩, ⟨0, .other 0⟩, false, false, 0⟩⟩,
    ⟨.recv, ⟨true, true, ⟨-1, .wouldBlock⟩, ⟨5, .other 0⟩, false, false, 0⟩⟩]

/-- The `recv` takes the bypass and fails, where it should have waited. -/
theorem connect_leaves_nonblocking :
    ¬ Along step (fun s => s.isNonblocking = false) (.created 0 0) connectThenRecv ∧
      outcomes (.created 0 0) connectThenRecv
        = [⟨⟨0, .other 0⟩, false, none⟩, ⟨⟨-1, .wouldBlock⟩, true, none⟩] := by
  refine ⟨fun h => ?_, rfl⟩
  have hmarked := (h.2 _ rfl).start
  exact absurd hmarked (by decide)

end WinHook
