/-
`BlockObject` (coroutine/block_object.cpp): the counting semaphore under every
blocking primitive of the scheduler.

Each method body runs under `lock_`, so it is one atomic step.  Waiting is split:
`CoBlockWait` checks the permits and, finding none, only marks the task and
yields; the scheduler then calls `AddWaitTask`, which checks again before it
parks the task in `wait_queue_`.  Wakeups may land in between.

* `BlockObject.Sound` — permits and waiters exclude each other, and the counter
  stays within its bound;
* `BlockObject.System` — any number of tasks on one object, one atomic step at a
  time, with a log of what each call returned;
* `BlockObject.System.counting_semaphore` — in every interleaving the object is a
  counting semaphore: no permit is lost, invented or wrapped.
-/
import CppFeatures.Runs
import CppFeatures.Pool
import Mathlib.Tactic.Common

/-- `BlockObject`; the queue holds the parked tasks, oldest first. -/
structure BlockObject (τ : Type*) where
  wakeup_ : ℕ
  maxWakeup_ : ℕ
  waitQueue_ : List τ
deriving DecidableEq, Repr

/-- How far a task has come in one `CoBlockWait` call: before its locked check,
marked and yielded (`block_` is set, the scheduler has not seen it yet), or
parked in `wait_queue_`. -/
inductive WaitPhase
  | ready
  | marked
  | parked
deriving DecidableEq, Repr, Inhabited

namespace BlockObject

variable {τ : Type*}

def new (initWakeup maxWakeup : ℕ) : BlockObject τ := ⟨initWakeup, maxWakeup, []⟩

-- `--wakeup_` and `++wakeup_`, on `std::size_t`
def decWakeup (b : BlockObject τ) : BlockObject τ :=
  { b with wakeup_ := (b.wakeup_ + (2 ^ 64 - 1)) % 2 ^ 64 }

def incWakeup (b : BlockObject τ) : BlockObject τ :=
  { b with wakeup_ := (b.wakeup_ + 1) % 2 ^ 64 }

/-- The locked check of `CoBlockWait`; `true` when the wait is granted at once. -/
def coBlockWait (b : BlockObject τ) : BlockObject τ × Bool :=
  if 0 < b.wakeup_ then (b.decWakeup, true) else (b, false)

def tryBlockWait (b : BlockObject τ) : BlockObject τ × Bool :=
  if b.wakeup_ = 0 then (b, false) else (b.decWakeup, true)

/-- `Wakeup`: the task handed to `AddTaskRunnable`, if any, and the result. -/
def wakeup (b : BlockObject τ) : BlockObject τ × Option τ × Bool :=
  match b.waitQueue_ with
  | [] => if b.maxWakeup_ ≤ b.wakeup_ then (b, none, false) else (b.incWakeup, none, true)
  | tk :: rest => ({ b with waitQueue_ := rest }, some tk, true)

def isWakeup (b : BlockObject τ) : Bool := decide (0 < b.wakeup_)

/-- `AddWaitTask`; `false` when a permit was there after all and the task stays
runnable. -/
def addWaitTask (b : BlockObject τ) (tk : τ) : BlockObject τ × Bool :=
  if b.wakeup_ ≠ 0 then (b.decWakeup, false)
  else ({ b with waitQueue_ := b.waitQueue_ ++ [tk] }, true)

/-! ### Permits and waiters exclude each other -/

/-- What every operation keeps: a permit is only stored while nobody waits, and
the counter fits its bound. -/
structure Sound (b : BlockObject τ) : Prop where
  noWaiter : 0 < b.wakeup_ → b.waitQueue_ = []
  le_max : b.wakeup_ ≤ b.maxWakeup_
  max_lt : b.maxWakeup_ < 2 ^ 64

theorem sound_new {i m : ℕ} (him : i ≤ m) (hm : m < 2 ^ 64) :
    (new i m : BlockObject τ).Sound :=
  ⟨fun _ => rfl, him, hm⟩

variable {b : BlockObject τ}

theorem Sound.decWakeup_eq (h : b.Sound) (hw : 0 < b.wakeup_) :
    b.decWakeup = { b with wakeup_ := b.wakeup_ - 1 } := by
  have hlt := h.le_max
  have hm := h.max_lt
  have hval : (b.wakeup_ + (2 ^ 64 - 1)) % 2 ^ 64 = b.wakeup_ - 1 := by omega
  rw [decWakeup, hval]

theorem Sound.incWakeup_eq (h : b.Sound) (hw : b.wakeup_ < b.maxWakeup_) :
    b.incWakeup = { b with wakeup_ := b.wakeup_ + 1 } := by
  have hm := h.max_lt
  have hval : (b.wakeup_ + 1) % 2 ^ 64 = b.wakeup_ + 1 := by omega
  rw [incWakeup, hval]

theorem decWakeup_waitQueue (b : BlockObject τ) : b.decWakeup.waitQueue_ = b.waitQueue_ := by
  rw [decWakeup]

/-- A wait takes a stored permit, or leaves the object alone. -/
theorem Sound.coBlockWait_cases (h : b.Sound) :
    (0 < b.wakeup_ ∧ b.coBlockWait = ({ b with wakeup_ := b.wakeup_ - 1 }, true)) ∨
      (b.wakeup_ = 0 ∧ b.coBlockWait = (b, false)) := by
  rw [coBlockWait]
  by_cases hw : 0 < b.wakeup_
  · exact .inl ⟨hw, by rw [if_pos hw, h.decWakeup_eq hw]⟩
  · exact .inr ⟨by omega, if_neg hw⟩

theorem tryBlockWait_eq (b : BlockObject τ) : b.tryBlockWait = b.coBlockWait := by
  rw [tryBlockWait, coBlockWait]
  by_cases hw : b.wakeup_ = 0
  · rw [if_pos hw, if_neg (by omega)]
  · rw [if_neg hw, if_pos (by omega)]

/-- The scheduler's second check takes a permit that arrived meanwhile, or parks
the task. -/
theorem Sound.addWaitTask_cases (h : b.Sound) (tk : τ) :
    (0 < b.wakeup_ ∧ b.addWaitTask tk = ({ b with wakeup_ := b.wakeup_ - 1 }, false)) ∨
      (b.wakeup_ = 0 ∧
        b.addWaitTask tk = ({ b with waitQueue_ := b.waitQueue_ ++ [tk] }, true)) := by
  rw [addWaitTask]
  by_cases hw : b.wakeup_ ≠ 0
  · exact .inl ⟨by omega, by rw [if_pos hw, h.decWakeup_eq (by omega)]⟩
  · exact .inr ⟨by omega, if_neg hw⟩

/-- A wakeup hands over to the oldest waiter, stores a permit, or is refused. -/
theorem Sound.wakeup_cases (h : b.Sound) :
    (∃ tk rest, b.waitQueue_ = tk :: rest ∧ b.wakeup_ = 0 ∧
        b.wakeup = ({ b with waitQueue_ := rest }, some tk, true)) ∨
      (b.waitQueue_ = [] ∧ b.wakeup_ < b.maxWakeup_ ∧
        b.wakeup = ({ b with wakeup_ := b.wakeup_ + 1 }, none, true)) ∨
      (b.waitQueue_ = [] ∧ b.wakeup_ = b.maxWakeup_ ∧ b.wakeup = (b, none, false)) := by
  rw [wakeup]
  rcases hq : b.waitQueue_ with _ | ⟨tk, rest⟩
  · have hle := h.le_max
    by_cases hw : b.maxWakeup_ ≤ b.wakeup_
    · exact .inr (.inr ⟨rfl, by omega, if_pos hw⟩)
    · refine .inr (.inl ⟨rfl, by omega, ?_⟩)
      simp only [if_neg hw, h.incWakeup_eq (by omega), hq]
  · refine .inl ⟨tk, rest, rfl, ?_, rfl⟩
    by_contra hne
    have := h.noWaiter (by omega)
    rw [hq] at this
    exact List.cons_ne_nil _ _ this

theorem Sound.take (h : b.Sound) (hw : 0 < b.wakeup_) :
    ({ b with wakeup_ := b.wakeup_ - 1 } : BlockObject τ).Sound :=
  ⟨fun _ => h.noWaiter hw, by have := h.le_max; simp only; omega, h.max_lt⟩

theorem Sound.give (h : b.Sound) (hq : b.waitQueue_ = []) (hw : b.wakeup_ < b.maxWakeup_) :
    ({ b with wakeup_ := b.wakeup_ + 1 } : BlockObject τ).Sound :=
  ⟨fun _ => hq, hw, h.max_lt⟩

theorem Sound.requeue (h : b.Sound) (hw : b.wakeup_ = 0) (q : List τ) :
    ({ b with waitQueue_ := q } : BlockObject τ).Sound :=
  ⟨fun hpos => absurd hw (by simp only at hpos; omega), h.le_max, h.max_lt⟩

/-! ### Any number of tasks on one object -/

/-- What one atomic step of a call did. -/
inductive Event (τ : Type*)
  | checked (granted : Bool)
  | tried (granted : Bool)
  | added (queued : Bool)
  | woke (tk : Option τ) (ret : Bool)
deriving DecidableEq, Repr

/-- The step granted a wait: an immediate decrement, or a waiter popped. -/
def Event.isGrant : Event τ → Bool
  | .checked granted => granted
  | .tried granted => granted
  | .added queued => !queued
  | .woke tk _ => tk.isSome

def Event.isWakeup : Event τ → Bool
  | .woke _ ret => ret
  | _ => false

/-- One object, the tasks using it, and the log of all steps so far (newest
first). -/
structure System (τ : Type*) where
  obj : BlockObject τ
  tasks : Pool τ WaitPhase
  log : List (Event τ)

/-- The atomic steps.  Outside a coroutine `CoBlockWait` only repeats
`TryBlockWait`, so it needs no step of its own. -/
inductive Act (τ : Type*)
  | coBlockWait (tk : τ)
  | addWaitTask (tk : τ)
  | tryBlockWait
  | wakeup
deriving DecidableEq, Repr

namespace System

def Init (i m : ℕ) (s : System τ) : Prop :=
  s = ⟨new i m, Pool.empty, []⟩

-- `Wakeup` calls that returned true, and waits that were granted
def wakeups (s : System τ) : ℕ := s.log.countP Event.isWakeup

def grants (s : System τ) : ℕ := s.log.countP Event.isGrant

/-- The invariant of the system: the object is sound, its queue lists the parked
tasks, and permits are conserved. -/
structure Inv (i m : ℕ) (s : System τ) : Prop where
  sound : s.obj.Sound
  max_eq : s.obj.maxWakeup_ = m
  parks : Parks s.obj.waitQueue_ s.tasks (· == .parked)
  conserved : i + s.wakeups = s.obj.wakeup_ + s.grants

theorem inv_init {i m : ℕ} (him : i ≤ m) (hm : m < 2 ^ 64) {s : System τ} (h : Init i m s) :
    Inv i m s := by
  subst h
  exact ⟨sound_new him hm, rfl, Parks.empty rfl, by simp [wakeups, grants, new]⟩

/-- A step that balances the permit it takes or gives keeps the invariant, and
moves the counter by at most one. -/
theorem Inv.extend {i m : ℕ} {s : System τ} (h : Inv i m s) {obj : BlockObject τ}
    {tasks : Pool τ WaitPhase} {e : Event τ} (hs : obj.Sound)
    (hmax : obj.maxWakeup_ = s.obj.maxWakeup_)
    (hp : Parks obj.waitQueue_ tasks (· == .parked))
    (hc : s.obj.wakeup_ + e.isWakeup.toNat = obj.wakeup_ + e.isGrant.toNat) :
    Inv i m ⟨obj, tasks, e :: s.log⟩ ∧
      obj.wakeup_ ≤ s.obj.wakeup_ + 1 ∧ s.obj.wakeup_ ≤ obj.wakeup_ + 1 := by
  have hold := h.conserved
  have hw := Bool.toNat_le e.isWakeup
  have hg := Bool.toNat_le e.isGrant
  have hcount : ∀ p : Event τ → Bool,
      (e :: s.log).countP p = s.log.countP p + (p e).toNat := by
    intro p
    rw [List.countP_cons]
    cases p e <;> simp
  refine ⟨⟨hs, hmax.trans h.max_eq, hp, ?_⟩, by omega, by omega⟩
  simp only [wakeups, grants, hcount] at hold ⊢
  omega

variable [DecidableEq τ]

/-- Perform one step; a task that is marked or parked makes no call. -/
def step (s : System τ) : Act τ → Option (System τ)
  | .coBlockWait tk =>
    if s.tasks.pc tk = .ready then
      let (obj, granted) := s.obj.coBlockWait
      some ⟨obj, if granted then s.tasks else s.tasks.set tk .marked, .checked granted :: s.log⟩
    else none
  | .addWaitTask tk =>
    if s.tasks.pc tk = .marked then
      let (obj, queued) := s.obj.addWaitTask tk
      some ⟨obj, s.tasks.set tk (if queued then .parked else .ready), .added queued :: s.log⟩
    else none
  | .tryBlockWait =>
    let (obj, granted) := s.obj.tryBlockWait
    some ⟨obj, s.tasks, .tried granted :: s.log⟩
  | .wakeup =>
    let (obj, tk, ret) := s.obj.wakeup
    some ⟨obj, match tk with | some tk => s.tasks.set tk .ready | none => s.tasks,
      .woke tk ret :: s.log⟩

/-- **One step** of any task keeps the invariant and moves the counter by at most
one, so it does not wrap. -/
theorem step_inv {i m : ℕ} {s s' : System τ} {a : Act τ} (h : Inv i m s)
    (hst : s.step a = some s') :
    Inv i m s' ∧ s'.obj.wakeup_ ≤ s.obj.wakeup_ + 1 ∧ s.obj.wakeup_ ≤ s'.obj.wakeup_ + 1 := by
  have hs := h.sound
  have hp := h.parks
  cases a with
  | coBlockWait tk =>
    rw [step] at hst
    split_ifs at hst with htk
    rcases hs.coBlockWait_cases with ⟨hw, heq⟩ | ⟨hw, heq⟩
    · rw [heq] at hst
      cases hst
      exact h.extend (hs.take hw) rfl hp (by simp [Event.isWakeup, Event.isGrant]; omega)
    · rw [heq] at hst
      cases hst
      exact h.extend hs rfl (hp.stay (by simp [htk]) (by simp)) rfl
  | addWaitTask tk =>
    rw [step] at hst
    split_ifs at hst with htk
    rcases hs.addWaitTask_cases tk with ⟨hw, heq⟩ | ⟨hw, heq⟩
    · -- a wakeup fell between the two checks
      rw [heq] at hst
      cases hst
      exact h.extend (hs.take hw) rfl (hp.stay (by simp [htk]) (by simp))
        (by simp [Event.isWakeup, Event.isGrant]; omega)
    · rw [heq] at hst
      cases hst
      exact h.extend (hs.requeue hw _) rfl (hp.push (by simp [htk]) (by simp)) rfl
  | tryBlockWait =>
    rw [step, tryBlockWait_eq] at hst
    rcases hs.coBlockWait_cases with ⟨hw, heq⟩ | ⟨hw, heq⟩
    · rw [heq] at hst
      cases hst
      exact h.extend (hs.take hw) rfl hp (by simp [Event.isWakeup, Event.isGrant]; omega)
    · rw [heq] at hst
      cases hst
      exact h.extend hs rfl hp rfl
  | wakeup =>
    rw [step] at hst
    rcases hs.wakeup_cases with ⟨tk, rest, hq, hw, heq⟩ | ⟨hq, hw, heq⟩ | ⟨hq, hw, heq⟩
    · -- direct hand-over: the permit count stays 0
      rw [heq] at hst
      cases hst
      rw [hq] at hp
      exact h.extend (hs.requeue hw _) rfl (hp.pop (by simp)) rfl
    · rw [heq] at hst
      cases hst
      exact h.extend (hs.give hq hw) rfl hp (by simp [Event.isWakeup, Event.isGrant])
    · rw [heq] at hst
      cases hst
      exact h.extend hs rfl hp rfl

theorem reach_inv {i m : ℕ} (him : i ≤ m) (hm : m < 2 ^ 64) :
    ∀ s : System τ, Reach (Init i m) step s → Inv i m s :=
  ReachIf.invariant (fun _ h => inv_init him hm h) fun _ _ _ h _ hst => (step_inv h hst).1

/-- **`BlockObject` is a counting semaphore.**  In every interleaving of the
steps of any number of tasks: a stored permit means that nobody is parked; the
counter respects its bound and never wraps; permits are conserved; and a refused
`Wakeup` changes nothing. -/
theorem counting_semaphore {i m : ℕ} (him : i ≤ m) (hm : m < 2 ^ 64) {s : System τ}
    (hs : Reach (Init i m) step s) :
    (0 < s.obj.wakeup_ → s.obj.waitQueue_ = []) ∧
      (s.obj.maxWakeup_ = m ∧ s.obj.wakeup_ ≤ m ∧ ∀ a s', s.step a = some s' →
        s'.obj.wakeup_ ≤ s.obj.wakeup_ + 1 ∧ s.obj.wakeup_ ≤ s'.obj.wakeup_ + 1) ∧
      i + s.wakeups = s.obj.wakeup_ + s.grants ∧
      (s.obj.wakeup.2.2 = false →
        s.step .wakeup = some { s with log := .woke none false :: s.log }) := by
  have h := reach_inv him hm s hs
  refine ⟨h.sound.noWaiter, ⟨h.max_eq, h.max_eq ▸ h.sound.le_max, fun a s' hst =>
    (step_inv h hst).2⟩, h.conserved, ?_⟩
  intro hret
  rcases h.sound.wakeup_cases with ⟨tk, rest, -, -, heq⟩ | ⟨-, -, heq⟩ | ⟨-, -, heq⟩
  · rw [heq] at hret
    exact absurd hret (by simp)
  · rw [heq] at hret
    exact absurd hret (by simp)
  · rw [step, heq]

/-- An initially empty object of bound 3: task 1 is marked, a wakeup stores a
permit before the scheduler parks the task, which then takes it. -/
def wakeupBetweenChecks : List (Act ℕ) := [.coBlockWait 1, .wakeup, .addWaitTask 1]

theorem counting_semaphore_wakeupBetweenChecks :
    ∃ s : System ℕ, exec step ⟨new 0 3, Pool.empty, []⟩ wakeupBetweenChecks = some s ∧
      s.wakeups = 1 ∧ s.obj.wakeup_ = 0 ∧ 0 + s.wakeups = s.obj.wakeup_ + s.grants :=
  ⟨_, rfl, rfl, rfl,
    (counting_semaphore (i := 0) (m := 3) (by decide) (by decide)
      (reach_exec wakeupBetweenChecks (.start rfl) rfl)).2.2.1⟩

end System

end BlockObject
