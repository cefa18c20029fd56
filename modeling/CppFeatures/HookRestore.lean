/-
`O_NONBLOCK` under the Linux hooks (coroutine/linux_glibc_hook.cpp).

`read_write_mode` and `connect` read the flags of the descriptor, set `O_NONBLOCK` for their
own use, and write the flags they had read back on every way out.  Here the hooks are taken
apart into their system calls, each with every answer it may give, and the calls of any
number of coroutines on one descriptor interleave at every system call; on one scheduler
thread they do so in `IOBlockSwitch` only.

* `Pc`, `Fd.step` — the two hooks, one system call at a time;
* `Fd.Inv` — a coroutine holds a copy of the flags only if the descriptor was blocking, and
  the flag is set only while one does;
* `Fd.nonblock_restored` — with no call in progress the flag is what it was initially.
-/
import CppFeatures.Runs
import Mathlib.Logic.Function.Basic
import Mathlib.Tactic.Common

namespace HookRestore

def oNonblock : BitVec 32 := 0x800

def nonblock (flags : BitVec 32) : Bool := decide (flags &&& oNonblock ≠ 0)

/-- `read_write_mode`, under `read`, `write`, `accept` and their kin, and `connect`. -/
inductive Hook
  | readWrite
  | connect
deriving DecidableEq, Repr

/-- The next system call of a coroutine; `flags` is the hook's copy. -/
inductive Pc
  | idle
  | fstat
  | getfl (h : Hook)
  | setfl (h : Hook) (flags : BitVec 32)
  -- the original function, whose result is returned
  | original
  | first (h : Hook) (flags : BitVec 32)
  -- in `IOBlockSwitch`
  | wait (h : Hook) (flags : BitVec 32)
  | second (flags : BitVec 32)
  -- `getsockopt(SO_ERROR)`
  | soError (flags : BitVec 32)
  -- `fcntl(F_SETFL, flags & ~O_NONBLOCK)`, and then the original function or the end
  | restore (flags : BitVec 32) (again : Bool)
deriving DecidableEq, Repr

def Pc.restores : Pc → Bool
  | .restore _ _ => true
  | _ => false

/-- What a system call answers. -/
inductive Answer
  | ok
  | error
  -- `EAGAIN` of a read or write, `EINPROGRESS` of a `connect`
  | pending
  -- `IOBlockSwitch` ended by its timer
  | timeout
  -- `fstat` of something else
  | notSocket
deriving DecidableEq, Repr

/-- A descriptor and the coroutines that use it. -/
structure Fd (κ : Type*) where
  flags : BitVec 32
  pc : κ → Pc

inductive Act (κ : Type*)
  | call (k : κ) (h : Hook)
  | answer (k : κ) (a : Answer)
deriving DecidableEq, Repr

/-- Where a hook goes when `IOBlockSwitch` is over.  `ok` stands for a `wait_successful_` that
is not 0, `error` for a registration with epoll that failed. -/
def afterWait (flags : BitVec 32) : Hook → Answer → Pc
  | .readWrite, .ok => .second flags
  | .readWrite, .timeout => .restore flags false
  | .readWrite, _ => .restore flags true
  | .connect, .ok => .soError flags
  | .connect, _ => .restore flags false

/-- Where a hook goes with the flags it has read, `-1` after an error. -/
def afterGetfl (h : Hook) (flags : BitVec 32) : Pc :=
  if (h = .readWrite ∧ flags = -1) ∨ nonblock flags then .original else .setfl h flags

namespace Fd

variable {κ : Type*} [DecidableEq κ]

def goto (s : Fd κ) (k : κ) (x : Pc) : Fd κ := { s with pc := Function.update s.pc k x }

/-- The system call of coroutine `k` answers `a`. -/
def answer (s : Fd κ) (k : κ) (a : Answer) : Option (Fd κ) :=
  match s.pc k with
  | .idle => none
  | .fstat => some (s.goto k (if a = .ok then .getfl .readWrite else .original))
  | .getfl h => some (s.goto k (afterGetfl h (if a = .ok then s.flags else -1)))
  | .setfl h flags =>
    if a = .ok then some ({ s with flags := flags ||| oNonblock }.goto k (.first h flags))
    else some (s.goto k .original)
  | .original => some (s.goto k .idle)
  | .first h flags =>
    some (s.goto k (if a = .pending then .wait h flags else .restore flags false))
  | .wait h flags => some (s.goto k (afterWait flags h a))
  | .second flags => some (s.goto k (.restore flags false))
  -- 0, an error of the connection, or no answer
  | .soError flags => some (s.goto k (.restore flags false))
  | .restore flags again =>
    let s := if a = .ok then { s with flags := flags &&& ~~~ oNonblock } else s
    some (s.goto k (if again then .original else .idle))

@[simp] theorem pc_goto_self (s : Fd κ) (k : κ) (x : Pc) : (s.goto k x).pc k = x :=
  Function.update_self ..

theorem pc_goto_of_ne (s : Fd κ) {j k : κ} (h : j ≠ k) (x : Pc) : (s.goto k x).pc j = s.pc j :=
  Function.update_of_ne h ..

def step (s : Fd κ) : Act κ → Option (Fd κ)
  | .call k h =>
    if s.pc k = .idle then
      -- `connect` does not ask for the kind of the descriptor
      some (s.goto k (if h = .connect then .getfl .connect else .fstat))
    else none
  | .answer k a => s.answer k a

def Init (flags : BitVec 32) (s : Fd κ) : Prop := s.flags = flags ∧ ∀ k, s.pc k = .idle

/-- The `F_SETFL` that restores the flags succeeds. -/
def RestoreSucceeds (s : Fd κ) : Act κ → Prop
  | .call _ _ => True
  | .answer k a => (s.pc k).restores = true → a = .ok

instance (s : Fd κ) : ∀ a : Act κ, Decidable (s.RestoreSucceeds a)
  | .call _ _ => inferInstanceAs (Decidable True)
  | .answer _ _ => inferInstanceAs (Decidable (_ → _))

end Fd

/-! ### Bits -/

theorem or_and_oNonblock (f : BitVec 32) : (f ||| oNonblock) &&& oNonblock = oNonblock := by
  ext i
  simp only [BitVec.getElem_and, BitVec.getElem_or]
  cases oNonblock[i] <;> simp

theorem nonblock_or (f : BitVec 32) : nonblock (f ||| oNonblock) = true := by
  rw [nonblock, or_and_oNonblock]
  rfl

theorem nonblock_allOnes : nonblock (-1) = true := rfl

/-- Clearing a flag that is not set. -/
theorem and_not_of_not_nonblock {f : BitVec 32} (h : nonblock f = false) :
    f &&& ~~~ oNonblock = f := by
  have hzero : f &&& oNonblock = 0 := by
    by_contra hne
    rw [nonblock, decide_eq_true hne] at h
    cases h
  ext i hi
  have hbit := congrArg (fun g : BitVec 32 => g[i]) hzero
  simp only [BitVec.getElem_and, BitVec.getElem_not] at hbit ⊢
  cases hf : f[i] with
  | false => rfl
  | true =>
    rw [hf] at hbit
    simpa using hbit

/-! ### What a coroutine holds -/

/-- The hook's copy of the flags. -/
def Pc.copy : Pc → Option (BitVec 32)
  | .setfl _ flags | .first _ flags | .wait _ flags | .second flags | .soError flags
  | .restore flags _ => some flags
  | .idle | .fstat | .getfl _ | .original => none

/-- The hook has set the flag and not restored it. -/
def Pc.switched : Pc → Bool
  | .first _ _ | .wait _ _ | .second _ | .soError _ | .restore _ _ => true
  | .idle | .fstat | .getfl _ | .original | .setfl _ _ => false

namespace Fd

variable {κ : Type*} {flags₀ : BitVec 32} {s s' : Fd κ}

/-- The copies are of the initial flags, of a blocking descriptor; and the flags differ from
the initial ones only while a coroutine has them switched. -/
structure Inv (flags₀ : BitVec 32) (s : Fd κ) : Prop where
  copy : ∀ k, ∀ f ∈ (s.pc k).copy, f = flags₀ ∧ nonblock flags₀ = false
  flags : s.flags = flags₀ ∨
    (s.flags = flags₀ ||| oNonblock ∧ ∃ k, (s.pc k).switched = true)

theorem inv_init (h : Init flags₀ s) : Inv flags₀ s := by
  refine ⟨fun k f hf => ?_, .inl h.1⟩
  rw [h.2 k] at hf
  cases hf

theorem Inv.flags_of_idle (h : Inv flags₀ s) (hidle : ∀ k, s.pc k = .idle) : s.flags = flags₀ := by
  rcases h.flags with hflags | ⟨-, k, hk⟩
  · exact hflags
  · rw [hidle k] at hk
    cases hk

/-- A copy is made only of flags without `O_NONBLOCK`, and those are the initial ones. -/
theorem Inv.copy_afterGetfl (h : Inv flags₀ s) (hook : Hook) (a : Answer) :
    ∀ f ∈ (afterGetfl hook (if a = .ok then s.flags else -1)).copy,
      f = flags₀ ∧ nonblock flags₀ = false := by
  intro f hf
  by_cases ha : a = .ok
  · rw [if_pos ha, afterGetfl] at hf
    split_ifs at hf with hread
    · cases hf
    · cases hf
      have hblocking : nonblock s.flags = false := Bool.eq_false_iff.mpr fun hn => hread (.inr hn)
      rcases h.flags with hflags | ⟨hflags, -⟩
      · exact ⟨hflags, hflags ▸ hblocking⟩
      · rw [hflags, nonblock_or] at hblocking
        cases hblocking
  · rw [if_neg ha, afterGetfl, if_pos (.inr nonblock_allOnes)] at hf
    cases hf

variable [DecidableEq κ] {k : κ} {x : Pc}

/-- The flags become the initial ones, or the switched ones for a coroutine that has switched
them. -/
theorem Inv.set (h : Inv flags₀ s) (flags : BitVec 32)
    (hcopy : ∀ f ∈ x.copy, f = flags₀ ∧ nonblock flags₀ = false)
    (hflags : flags = flags₀ ∨ (flags = flags₀ ||| oNonblock ∧
      (x.switched = true ∨ ∃ j, j ≠ k ∧ (s.pc j).switched = true))) :
    Inv flags₀ ({ s with flags := flags }.goto k x) := by
  constructor
  · intro j f hf
    by_cases hj : j = k
    · rw [hj, pc_goto_self] at hf
      exact hcopy f hf
    · rw [pc_goto_of_ne _ hj] at hf
      exact h.copy j f hf
  · rcases hflags with hflags | ⟨hflags, hx | ⟨j, hj, hsw⟩⟩
    · exact .inl hflags
    · exact .inr ⟨hflags, k, by rw [pc_goto_self]; exact hx⟩
    · exact .inr ⟨hflags, j, by rw [pc_goto_of_ne _ hj]; exact hsw⟩

/-- A coroutine that moves on keeps its copy, and what it has switched. -/
theorem Inv.goto (h : Inv flags₀ s) (hcopy : ∀ f ∈ x.copy, f = flags₀ ∧ nonblock flags₀ = false)
    (hswitched : (s.pc k).switched = true → x.switched = true) : Inv flags₀ (s.goto k x) := by
  refine h.set s.flags hcopy ?_
  rcases h.flags with hflags | ⟨hflags, j, hj⟩
  · exact .inl hflags
  · by_cases hjk : j = k
    · exact .inr ⟨hflags, .inl (hswitched (hjk ▸ hj))⟩
    · exact .inr ⟨hflags, .inr ⟨j, hjk, hj⟩⟩

theorem copy_afterWait (flags : BitVec 32) (hook : Hook) (a : Answer) :
    (afterWait flags hook a).copy = some flags ∧ (afterWait flags hook a).switched = true := by
  cases hook <;> cases a <;> exact ⟨rfl, rfl⟩

/-- **One answer** keeps the invariant. -/
theorem Inv.answer {a : Answer} (h : Inv flags₀ s) (hok : s.RestoreSucceeds (.answer k a))
    (hst : s.answer k a = some s') : Inv flags₀ s' := by
  have hcopy := h.copy k
  rw [Fd.answer] at hst
  cases hpc : s.pc k with
  | idle =>
    rw [hpc] at hst
    cases hst
  | fstat =>
    rw [hpc] at hst
    cases hst
    refine h.goto ?_ (by rw [hpc]; nofun)
    split_ifs <;> nofun
  | getfl hook =>
    rw [hpc] at hst
    cases hst
    exact h.goto (h.copy_afterGetfl hook a) (by rw [hpc]; nofun)
  | setfl hook flags =>
    rw [hpc] at hst hcopy
    dsimp only at hst
    split_ifs at hst
    · cases hst
      obtain ⟨hflags, -⟩ := hcopy flags rfl
      exact h.set _ hcopy (.inr ⟨by rw [hflags], .inl rfl⟩)
    · cases hst
      exact h.goto nofun (by rw [hpc]; nofun)
  | original =>
    rw [hpc] at hst
    cases hst
    exact h.goto nofun (by rw [hpc]; nofun)
  | first hook flags =>
    rw [hpc] at hst hcopy
    cases hst
    refine h.goto ?_ fun _ => ?_
    · split_ifs <;> exact hcopy
    · split_ifs <;> rfl
  | wait hook flags =>
    rw [hpc] at hst hcopy
    cases hst
    obtain ⟨hkept, hswitched⟩ := copy_afterWait flags hook a
    exact h.goto (by rw [hkept]; exact hcopy) fun _ => hswitched
  | second flags =>
    rw [hpc] at hst hcopy
    cases hst
    exact h.goto hcopy fun _ => rfl
  | soError flags =>
    rw [hpc] at hst hcopy
    cases hst
    exact h.goto hcopy fun _ => rfl
  | restore flags again =>
    rw [hpc] at hst hcopy
    obtain ⟨hflags, hblocking⟩ := hcopy flags rfl
    dsimp only at hst
    rw [if_pos (hok (by rw [hpc]; rfl))] at hst
    cases hst
    have hrestored : flags &&& ~~~ oNonblock = flags₀ := by
      rw [hflags, and_not_of_not_nonblock hblocking]
    refine h.set _ ?_ (.inl hrestored)
    split_ifs <;> nofun

/-- **One step.** -/
theorem Inv.step {a : Act κ} (h : Inv flags₀ s) (hok : s.RestoreSucceeds a)
    (hst : s.step a = some s') : Inv flags₀ s' := by
  cases a with
  | call k hook =>
    rw [Fd.step] at hst
    split_ifs at hst with hidle hconnect
    · cases hst
      exact h.goto nofun (by rw [hidle]; nofun)
    · cases hst
      exact h.goto nofun (by rw [hidle]; nofun)
  | answer k a => exact h.answer hok hst

/-- **Every run.** -/
theorem reach_inv : ∀ s : Fd κ, ReachIf (Init flags₀) step RestoreSucceeds s → Inv flags₀ s :=
  ReachIf.invariant (fun _ h => inv_init h) fun _ _ _ h hok hst => h.step hok hst

/-- **The blocking mode is restored.**  For any number of coroutines, any interleaving of
their calls and any answers of the system, when each `F_SETFL` that restores the flags
succeeds: whenever no call is in progress, `O_NONBLOCK` is what it was initially. -/
theorem nonblock_restored (hs : ReachIf (Init flags₀) step RestoreSucceeds s)
    (hidle : ∀ k, s.pc k = .idle) : nonblock s.flags = nonblock flags₀ := by
  rw [(reach_inv s hs).flags_of_idle hidle]

/-- Two coroutines on a blocking socket: the first waits to read, the second finds the socket
switched and calls the original function, then the first runs into its time-out. -/
def overlapping : List (Act Bool) :=
  [.call false .readWrite, .answer false .ok, .answer false .ok, .answer false .ok,
    .answer false .pending, .call true .readWrite, .answer true .ok, .answer true .ok,
    .answer true .error, .answer false .timeout, .answer false .ok]

theorem nonblock_restored_overlapping : ∃ s : Fd Bool,
    execIf step RestoreSucceeds ⟨2, fun _ => .idle⟩ overlapping = some s ∧
      (∀ k, s.pc k = .idle) ∧ nonblock s.flags = nonblock 2 := by
  have hrun : (execIf step RestoreSucceeds ⟨2, fun _ => .idle⟩ overlapping).map
      (fun s => decide (∀ k, s.pc k = .idle)) = some true := by
    decide
  obtain ⟨s, hs, hidle⟩ := Option.map_eq_some_iff.mp hrun
  have hidle := of_decide_eq_true hidle
  have hreach := reachIf_exec overlapping (.start ⟨rfl, fun _ => rfl⟩ : ReachIf (Init 2) _ _ _) hs
  exact ⟨s, hs, hidle, nonblock_restored hreach hidle⟩

end Fd

end HookRestore
