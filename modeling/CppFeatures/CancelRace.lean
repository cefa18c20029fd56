/-
`IoWait::Cancel` against `IoWait::SchedulerSwitch` (coroutine/linux/io_wait.cpp).

One task waits for descriptors again and again.  Its side is sequential: `CoSwitch`, then
`SchedulerSwitch` on the thread that runs its processer, then a resumption by whichever
thread runs that processer next.  `Cancel` is only called in `WaitLoop`, under
`epoll_lock_`, so one call is in progress at a time.  `SchedulerSwitch` and `Cancel` both
end a wait the same way: who erases the task from `wait_tasks_` makes it runnable.

* `Waits.enabled`, `Waits.next` — the atomic steps of both sides;
* `Waits.Inv` — a push is in one place: on `wait_tasks_`, with the thread that erased it,
  or in a run queue;
* `Waits.cancel_ends_own_wait` — no push makes the task runnable twice, and if the task
  never re-enters `CoSwitch` between the comparison and the erase of a `Cancel`, then a
  `Cancel` ends the wait it was called for;
* `Waits.stale_cancel` — otherwise it can end a later one.
-/
import CppFeatures.Runs
import Mathlib.Data.List.Basic
import Mathlib.Tactic.Common

namespace CancelRace

/-- One `wait_tasks_.push`: its number, and the `io_block_id_` of the wait. -/
structure Push where
  no : ℕ
  id : BitVec 32
deriving DecidableEq, Repr

/-- What `epoll_ctl(EPOLL_CTL_ADD)` answers. -/
inductive Added
  | success
  | eexist
  | failure
deriving DecidableEq, Repr

/-- Where the task stands. -/
inductive TaskPc
  | running
  -- `CoSwitch` has yielded
  | yielded
  -- in `SchedulerSwitch`, with `io_block_lock_` if there are several descriptors
  | entered
  | adding (left : ℕ) (ok : Bool)
  | erased (p : Push)
  -- `SchedulerSwitch` has returned
  | parked
deriving DecidableEq, Repr

/-- Where the call of `Cancel` stands; `locked` says whether it holds `io_block_lock_`. -/
inductive CancelPc
  | idle
  | compared (id : BitVec 32)
  | erased (id : BitVec 32) (p : Push)
  | deleted (id : BitVec 32) (p : Push) (locked : Bool)
  | leaving (locked : Bool)
deriving DecidableEq, Repr

namespace TaskPc

/-- The push that the failure branch has erased. -/
def claim : TaskPc → Option Push
  | erased p => some p
  | _ => none

theorem claim_eq_some {pc : TaskPc} {p : Push} : pc.claim = some p ↔ pc = .erased p := by
  cases pc <;> simp [claim]

/-- The task has been pushed on `wait_tasks_` and not been resumed since. -/
@[simp] def pushed : TaskPc → Bool
  | adding _ _ | erased _ | parked => true
  | running | yielded | entered => false

/-- One round of the loop over the descriptors. -/
def add : TaskPc → Added → TaskPc
  | adding (n + 1) _, .success => adding n true
  -- the descriptors added before are rolled back
  | adding (_ + 1) _, .eexist => adding 0 false
  | adding (n + 1) ok, .failure => adding n ok
  | pc, _ => pc

theorem add_adding (n : ℕ) (ok : Bool) (r : Added) :
    ∃ n' ok', (adding (n + 1) ok).add r = adding n' ok' := by
  cases r <;> exact ⟨_, _, rfl⟩

end TaskPc

namespace CancelPc

/-- The call is between its comparison and its erase. -/
def comparing : CancelPc → Bool
  | compared _ => true
  | _ => false

/-- The argument of the call and the push that it has erased. -/
def claim : CancelPc → Option (BitVec 32 × Push)
  | erased id p | deleted id p _ => some (id, p)
  | idle | compared _ | leaving _ => none

end CancelPc

structure Waits where
  ioBlockId_ : BitVec 32
  -- `wait_fds_.size()`
  nfds : ℕ := 0
  -- `io_block_lock_`
  lck : Bool := false
  -- the task's entry in `wait_tasks_`
  waitTask_ : Option Push := none
  pc : TaskPc := .running
  cancel : CancelPc := .idle
  -- the task's entries in the run queue of its processer
  runnable : ℕ := 0
  -- how often the task was pushed
  pushes : ℕ := 0
  -- the pushes that have led to `AddTaskRunnable`
  woken : List Push := []
  -- the argument of each `Cancel` that has made the task runnable, and the push it erased
  ended : List (BitVec 32 × Push) := []
deriving DecidableEq, Repr

inductive Act
  | coSwitch (nfds : ℕ)
  | enterSwitch
  | push
  | add (r : Added)
  | leaveSwitch
  | switchErase
  | switchRunnable
  | resume
  | cancelCompare (id : BitVec 32)
  | cancelErase
  | cancelDelete
  | cancelRunnable
  | cancelLeave
deriving DecidableEq, Repr

namespace Waits

/-- A thread that needs `io_block_lock_` waits for it. -/
def lockFree (s : Waits) : Bool := !(decide (1 < s.nfds) && s.lck)

def enabled (s : Waits) : Act → Bool
  | .coSwitch _ => s.pc == .running
  | .enterSwitch => s.pc == .yielded && s.lockFree
  | .push => s.pc == .entered
  | .add _ => match s.pc with
    | .adding (_ + 1) _ => true
    | _ => false
  | .leaveSwitch => s.pc == .adding 0 true
  | .switchErase => s.pc == .adding 0 false
  | .switchRunnable => s.pc.claim.isSome
  | .resume => s.pc == .parked && decide (0 < s.runnable)
  | .cancelCompare _ => s.cancel == .idle
  | .cancelErase => match s.cancel with
    | .compared _ => true
    | _ => false
  | .cancelDelete => match s.cancel with
    | .erased _ _ => s.lockFree
    | _ => false
  | .cancelRunnable => match s.cancel with
    | .deleted _ _ _ => true
    | _ => false
  | .cancelLeave => match s.cancel with
    | .leaving _ => true
    | _ => false

/-- The end of `SchedulerSwitch`: the lock, if it was taken, is released. -/
def leave (s : Waits) : Waits := { s with pc := .parked, lck := s.lck && !decide (1 < s.nfds) }

/-- `AddTaskRunnable`, by the thread that erased the push. -/
def addTaskRunnable (s : Waits) (p : Push) : Waits :=
  { s with runnable := s.runnable + 1, woken := p :: s.woken }

def next (s : Waits) : Act → Waits
  | .coSwitch n => { s with ioBlockId_ := s.ioBlockId_ + 1, nfds := n, pc := .yielded }
  | .enterSwitch => { s with pc := .entered, lck := s.lck || decide (1 < s.nfds) }
  | .push =>
    { s with waitTask_ := some ⟨s.pushes, s.ioBlockId_⟩, pushes := s.pushes + 1
             pc := .adding s.nfds false }
  | .add r => { s with pc := s.pc.add r }
  | .leaveSwitch => s.leave
  | .switchErase => match s.waitTask_ with
    | some p => { s with waitTask_ := none, pc := .erased p }
    | none => s.leave
  | .switchRunnable => match s.pc with
    | .erased p => (s.addTaskRunnable p).leave
    | _ => s
  | .resume => { s with pc := .running, runnable := s.runnable - 1 }
  | .cancelCompare id => if s.ioBlockId_ = id then { s with cancel := .compared id } else s
  | .cancelErase => match s.cancel with
    | .compared id => match s.waitTask_ with
      | some p => { s with waitTask_ := none, cancel := .erased id p }
      | none => { s with cancel := .idle }
    | _ => s
  | .cancelDelete => match s.cancel with
    | .erased id p =>
      { s with cancel := .deleted id p (decide (1 < s.nfds)), lck := s.lck || decide (1 < s.nfds) }
    | _ => s
  | .cancelRunnable => match s.cancel with
    | .deleted id p locked =>
      { s.addTaskRunnable p with cancel := .leaving locked, ended := (id, p) :: s.ended }
    | _ => s
  | .cancelLeave => match s.cancel with
    | .leaving locked => { s with cancel := .idle, lck := s.lck && !locked }
    | _ => s

/-- A task that has not waited yet. -/
def Init (s : Waits) : Prop := ∃ id, s = { ioBlockId_ := id }

/-- `CoSwitch` does not come between the comparison and the erase of a `Cancel`. -/
def apart (s : Waits) : Act → Bool
  | .coSwitch _ => !s.cancel.comparing
  | _ => true

variable {s : Waits} {a : Act}

/-! ### A push is in one place -/

/-- The pushes that have not led to `AddTaskRunnable` yet. -/
def live (s : Waits) : List Push :=
  s.waitTask_.toList ++ s.pc.claim.toList ++ s.cancel.claim.toList.map Prod.snd

structure Inv (s : Waits) : Prop where
  one : s.live.length + s.runnable = if s.pc.pushed then 1 else 0
  last : ∀ p ∈ s.live, p.no + 1 = s.pushes ∧ p.id = s.ioBlockId_
  before : ∀ q ∈ s.woken, q.no < s.pushes
  fresh : ∀ p ∈ s.live, p.no ∉ s.woken.map Push.no
  nodup : (s.woken.map Push.no).Nodup

theorem inv_init (h : s.Init) : s.Inv := by
  obtain ⟨id, rfl⟩ := h
  have hlive : live { ioBlockId_ := id } = [] := rfl
  exact ⟨rfl, by simp [hlive], by simp, by simp [hlive], by simp⟩

/-- While nothing is pushed, nothing is on its way. -/
theorem Inv.idle (h : s.Inv) (hpc : s.pc.pushed = false) : s.live = [] ∧ s.runnable = 0 := by
  have hone := h.one
  rw [hpc, if_neg Bool.false_ne_true] at hone
  exact ⟨List.length_eq_zero_iff.mp (by omega), by omega⟩

/-- A task in a run queue is nowhere else. -/
theorem Inv.live_of_runnable (h : s.Inv) (hrun : 0 < s.runnable) : s.live = [] := by
  have hone := h.one
  split_ifs at hone
  · exact List.length_eq_zero_iff.mp (by omega)
  · omega

/-- A step that at most hands a push over. -/
theorem Inv.move {t : Waits} (h : s.Inv) (hlive : t.live.Perm s.live)
    (hpc : t.pc.pushed = s.pc.pushed) (hid : t.ioBlockId_ = s.ioBlockId_)
    (hrun : t.runnable = s.runnable) (hpushes : t.pushes = s.pushes) (hwoken : t.woken = s.woken) :
    t.Inv where
  one := by rw [hlive.length_eq, hrun, hpc]; exact h.one
  last p hp := by rw [hpushes, hid]; exact h.last p (hlive.subset hp)
  before := by rw [hwoken, hpushes]; exact h.before
  fresh p hp := by rw [hwoken]; exact h.fresh p (hlive.subset hp)
  nodup := by rw [hwoken]; exact h.nodup

/-- The task goes on without a push changing hands. -/
theorem Inv.setPc (h : s.Inv) {pc : TaskPc} {lck : Bool} (hclaim : pc.claim = s.pc.claim)
    (hpushed : pc.pushed = s.pc.pushed) : { s with pc := pc, lck := lck }.Inv := by
  refine h.move (.of_eq ?_) hpushed rfl rfl rfl rfl
  show s.waitTask_.toList ++ pc.claim.toList ++ s.cancel.claim.toList.map Prod.snd = s.live
  rw [hclaim, live]

/-- The `Cancel` goes on without a push changing hands. -/
theorem Inv.setCancel (h : s.Inv) {c : CancelPc} {lck : Bool} (hclaim : c.claim = s.cancel.claim) :
    { s with cancel := c, lck := lck }.Inv := by
  refine h.move (.of_eq ?_) rfl rfl rfl rfl rfl
  show s.waitTask_.toList ++ s.pc.claim.toList ++ c.claim.toList.map Prod.snd = s.live
  rw [hclaim, live]

/-- `AddTaskRunnable`, by the thread that has erased the push. -/
theorem Inv.wake {t : Waits} {p : Push} (h : s.Inv) (hlive : s.live.Perm (p :: t.live))
    (hpc : t.pc.pushed = s.pc.pushed) (hrun : t.runnable = s.runnable + 1)
    (hpushes : t.pushes = s.pushes) (hwoken : t.woken = p :: s.woken) : t.Inv := by
  have hp : p ∈ s.live := hlive.symm.subset (List.mem_cons_self ..)
  have hlen := hlive.length_eq
  rw [List.length_cons] at hlen
  have hnil : t.live = [] := by
    have hone := h.one
    refine List.length_eq_zero_iff.mp ?_
    split_ifs at hone <;> omega
  refine ⟨?_, by simp [hnil], ?_, by simp [hnil], ?_⟩
  · have hone := h.one
    rw [hpc, hrun]
    omega
  · rw [hwoken, hpushes]
    refine List.forall_mem_cons.mpr ⟨?_, h.before⟩
    have := (h.last p hp).1
    omega
  · rw [hwoken, List.map_cons]
    exact List.nodup_cons.mpr ⟨h.fresh p hp, h.nodup⟩

theorem Inv.coSwitch (h : s.Inv) (n : ℕ) (hpc : s.pc = .running) : (s.next (.coSwitch n)).Inv := by
  obtain ⟨hlive, hrun⟩ := h.idle (by rw [hpc]; rfl)
  have hlive' : (s.next (.coSwitch n)).live = [] := by
    rw [live, hpc] at hlive
    exact hlive
  refine ⟨?_, by simp [hlive'], h.before, by simp [hlive'], h.nodup⟩
  rw [hlive']
  exact (Nat.zero_add _).trans hrun

theorem Inv.push (h : s.Inv) (hpc : s.pc = .entered) : (s.next .push).Inv := by
  obtain ⟨hlive, hrun⟩ := h.idle (by rw [hpc]; rfl)
  have hlive' : (s.next .push).live = [⟨s.pushes, s.ioBlockId_⟩] := by
    rw [live, hpc, List.append_eq_nil_iff] at hlive
    exact congrArg ([_] ++ ·) hlive.2
  refine ⟨?_, ?_, fun q hq => Nat.lt_succ_of_lt (h.before q hq), ?_, h.nodup⟩
  · rw [hlive']
    exact congrArg (1 + ·) hrun
  · rw [hlive']
    exact List.forall_mem_singleton.mpr ⟨rfl, rfl⟩
  · rw [hlive']
    refine List.forall_mem_singleton.mpr fun hmem => ?_
    obtain ⟨q, hq, hno⟩ := List.mem_map.mp hmem
    exact Nat.ne_of_lt (h.before q hq) hno

theorem Inv.resume (h : s.Inv) (hpc : s.pc = .parked) (hrun : 0 < s.runnable) :
    (s.next .resume).Inv := by
  have hlive := h.live_of_runnable hrun
  have hone := h.one
  have hlive' : (s.next .resume).live = [] := by
    rw [live, hpc] at hlive
    exact hlive
  refine ⟨?_, by simp [hlive'], h.before, by simp [hlive'], h.nodup⟩
  have hrun' : s.runnable = 1 := by
    rw [hlive, hpc] at hone
    exact (Nat.zero_add _).symm.trans hone
  rw [hlive']
  show 0 + (s.runnable - 1) = 0
  rw [hrun']

theorem Inv.next (h : s.Inv) (hen : s.enabled a = true) : (s.next a).Inv := by
  cases a with
  | coSwitch n => exact h.coSwitch n (beq_iff_eq.mp hen)
  | enterSwitch =>
    have hpc : s.pc = .yielded := beq_iff_eq.mp (Bool.and_eq_true_iff.mp hen).1
    exact h.setPc (by rw [hpc]; rfl) (by rw [hpc]; rfl)
  | push => exact h.push (beq_iff_eq.mp hen)
  | add r =>
    rw [enabled] at hen
    split at hen
    · next n ok hpc =>
      obtain ⟨n', ok', hadd⟩ := TaskPc.add_adding n ok r
      rw [Waits.next, hpc, hadd]
      exact h.setPc (by rw [hpc]; rfl) (by rw [hpc]; rfl)
    · cases hen
  | leaveSwitch =>
    have hpc : s.pc = .adding 0 true := beq_iff_eq.mp hen
    exact h.setPc (by rw [hpc]; rfl) (by rw [hpc]; rfl)
  | switchErase =>
    have hpc : s.pc = .adding 0 false := beq_iff_eq.mp hen
    rw [Waits.next]
    split
    · next p hp =>
      -- from `wait_tasks_` to the failure branch
      exact h.move (.of_eq (by rw [live, live, hpc, hp]; rfl)) (by rw [hpc]; rfl) rfl rfl rfl rfl
    · exact h.setPc (by rw [hpc]; rfl) (by rw [hpc]; rfl)
  | switchRunnable =>
    rw [enabled, Option.isSome_iff_exists] at hen
    obtain ⟨p, hp⟩ := hen
    have hpc := TaskPc.claim_eq_some.mp hp
    rw [Waits.next, hpc]
    refine h.wake (p := p) ?_ (by rw [hpc]; rfl) rfl rfl rfl
    rw [live, hpc]
    show (s.waitTask_.toList ++ [p] ++ s.cancel.claim.toList.map Prod.snd).Perm
      (p :: (s.waitTask_.toList ++ [] ++ s.cancel.claim.toList.map Prod.snd))
    simp
  | resume =>
    obtain ⟨hpc, hrun⟩ := Bool.and_eq_true_iff.mp hen
    exact h.resume (beq_iff_eq.mp hpc) (decide_eq_true_iff.mp hrun)
  | cancelCompare id =>
    have hidle : s.cancel = .idle := beq_iff_eq.mp hen
    rw [Waits.next]
    split_ifs
    · exact h.setCancel (by rw [hidle]; rfl)
    · exact h
  | cancelErase =>
    rw [enabled] at hen
    split at hen
    · next id hc =>
      rw [Waits.next, hc]
      dsimp only
      split
      · next p hp =>
        -- from `wait_tasks_` to the `Cancel`
        refine h.move ?_ rfl rfl rfl rfl rfl
        rw [live, live, hc, hp]
        show ([] ++ s.pc.claim.toList ++ [p]).Perm ([p] ++ s.pc.claim.toList ++ [])
        simp
      · exact h.setCancel (by rw [hc]; rfl)
    · cases hen
  | cancelDelete =>
    rw [enabled] at hen
    split at hen
    · next id p hc =>
      rw [Waits.next, hc]
      exact h.setCancel (by rw [hc]; rfl)
    · cases hen
  | cancelRunnable =>
    rw [enabled] at hen
    split at hen
    · next id p locked hc =>
      rw [Waits.next, hc]
      refine h.wake (p := p) ?_ rfl rfl rfl rfl
      rw [live, hc]
      show (s.waitTask_.toList ++ s.pc.claim.toList ++ [p]).Perm
        (p :: (s.waitTask_.toList ++ s.pc.claim.toList ++ []))
      rw [List.append_nil]
      exact List.perm_append_singleton ..
    · cases hen
  | cancelLeave =>
    rw [enabled] at hen
    split at hen
    · next locked hc =>
      rw [Waits.next, hc]
      exact h.setCancel (by rw [hc]; rfl)
    · cases hen

theorem inv_of_reachIf {ok : Waits → Act → Prop} :
    ∀ s, ReachIf Init (guarded enabled next) ok s → s.Inv :=
  ReachIf.invariant_guarded (fun _ h => inv_init h) fun _ _ h _ hen => h.next hen

/-! ### Whose wait a `Cancel` ends -/

/-- What a `Cancel` has compared is still so, and what it has erased is what it
compared. -/
structure Own (s : Waits) : Prop where
  compared : ∀ id, s.cancel = .compared id → s.ioBlockId_ = id
  erased : ∀ e ∈ s.cancel.claim, e.2.id = e.1
  ended : ∀ e ∈ s.ended, e.2.id = e.1

theorem own_init (h : s.Init) : s.Own := by
  obtain ⟨id, rfl⟩ := h
  exact ⟨by rintro _ ⟨⟩, by rintro _ ⟨⟩, by simp⟩

/-- A step that ends a comparison or leaves it alone. -/
theorem Own.of_cancel_ne {t : Waits} (h : s.Own) (hne : ∀ id, t.cancel ≠ .compared id)
    (hclaim : ∀ e ∈ t.cancel.claim, e ∈ s.cancel.claim) (hended : t.ended = s.ended) : t.Own where
  compared id hid := absurd hid (hne id)
  erased e he := h.erased e (hclaim e he)
  ended := by rw [hended]; exact h.ended

theorem Own.next (h : s.Own) (hinv : s.Inv) (hapart : s.apart a = true) (hen : s.enabled a = true) :
    (s.next a).Own := by
  cases a with
  | coSwitch n =>
    refine h.of_cancel_ne (fun id hid => ?_) (fun _ he => he) rfl
    have hc : s.cancel = .compared id := hid
    rw [apart, hc] at hapart
    cases hapart
  | enterSwitch => exact ⟨h.compared, h.erased, h.ended⟩
  | push => exact ⟨h.compared, h.erased, h.ended⟩
  | add r => exact ⟨h.compared, h.erased, h.ended⟩
  | leaveSwitch => exact ⟨h.compared, h.erased, h.ended⟩
  | switchErase =>
    rw [Waits.next]
    split
    · exact ⟨h.compared, h.erased, h.ended⟩
    · exact ⟨h.compared, h.erased, h.ended⟩
  | switchRunnable =>
    rw [Waits.next]
    split
    · exact ⟨h.compared, h.erased, h.ended⟩
    · exact h
  | resume => exact ⟨h.compared, h.erased, h.ended⟩
  | cancelCompare id =>
    rw [Waits.next]
    split_ifs with hid
    · refine ⟨?_, by rintro _ ⟨⟩, h.ended⟩
      rintro _ ⟨⟩
      exact hid
    · exact h
  | cancelErase =>
    rw [Waits.next]
    split
    · next id hc =>
      split
      · next p hp =>
        refine ⟨by rintro _ ⟨⟩, ?_, h.ended⟩
        rintro _ ⟨⟩
        -- the entry in `wait_tasks_` is that of the current wait
        have hlast := hinv.last p (by simp [live, hp])
        exact hlast.2.trans (h.compared id hc)
      · exact h.of_cancel_ne (by rintro _ ⟨⟩) (by rintro _ ⟨⟩) rfl
    · exact h
  | cancelDelete =>
    rw [Waits.next]
    split
    · next id p hc =>
      exact h.of_cancel_ne (by rintro _ ⟨⟩) (by rw [hc]; exact fun _ he => he) rfl
    · exact h
  | cancelRunnable =>
    rw [Waits.next]
    split
    · next id p locked hc =>
      refine ⟨by rintro _ ⟨⟩, by rintro _ ⟨⟩, List.forall_mem_cons.mpr ⟨?_, h.ended⟩⟩
      exact h.erased (id, p) (by rw [hc]; rfl)
    · exact h
  | cancelLeave =>
    rw [Waits.next]
    split
    · exact h.of_cancel_ne (by rintro _ ⟨⟩) (by rintro _ ⟨⟩) rfl
    · exact h

theorem own_of_reachIf :
    ∀ s, ReachIf Init (guarded enabled next) (fun s a => s.apart a) s → s.Own := by
  refine ReachIf.invariant_with Inv inv_of_reachIf (fun _ h => own_init h) ?_
  intro s s' a hinv h hapart hst
  obtain ⟨hen, rfl⟩ := guarded_eq_some.mp hst
  exact h.next hinv hapart hen

/-- **What a `Cancel` ends.**  No push on `wait_tasks_` leads to two `AddTaskRunnable`s,
whatever the interleaving.  If moreover no `CoSwitch` of the task has come between the
comparison and the erase of a `Cancel`, then every `Cancel` that has made the task runnable
has ended a wait with its own `io_block_id_`. -/
theorem cancel_ends_own_wait (hs : Reach Init (guarded enabled next) s) :
    (s.woken.map Push.no).Nodup ∧
      (ReachIf Init (guarded enabled next) (fun s a => s.apart a) s →
        ∀ e ∈ s.ended, e.2.id = e.1) :=
  ⟨(inv_of_reachIf s hs).nodup, fun hs' => (own_of_reachIf s hs').ended⟩

/-- Two waits: `SchedulerSwitch` finds the second descriptor of the first one in epoll and
ends it, `Cancel` ends the other one. -/
def twoWaits : List Act :=
  [.coSwitch 2, .enterSwitch, .push, .add .success, .add .eexist, .switchErase, .switchRunnable,
    .resume, .coSwitch 1, .enterSwitch, .push, .add .success, .leaveSwitch, .cancelCompare 2,
    .cancelErase, .cancelDelete, .cancelRunnable, .cancelLeave]

theorem cancel_ends_own_wait_twoWaits : ∃ s, Reach Init (guarded enabled next) s ∧
    (s.woken.map Push.no).Nodup ∧ s.woken = [⟨1, 2⟩, ⟨0, 1⟩] ∧
    (∀ e ∈ s.ended, e.2.id = e.1) ∧ s.ended = [(2, ⟨1, 2⟩)] := by
  have hs : ReachIf Init (guarded enabled next) (fun s a => s.apart a)
      (twoWaits.foldl next { ioBlockId_ := 0 }) :=
    reachIf_exec twoWaits (.start ⟨0, rfl⟩) rfl
  have hmain := cancel_ends_own_wait (hs.mono fun _ _ _ => trivial)
  exact ⟨_, hs.mono fun _ _ _ => trivial, hmain.1, by decide, hmain.2 hs, by decide⟩

/-- The first descriptor of a wait is registered and becomes ready; `WaitLoop` calls
`Cancel`, which finds the identifier of the wait.  Then `SchedulerSwitch` fails at the
second descriptor and ends the wait itself, the task goes on and waits again, and the
`Cancel` erases this later wait. -/
def overtaken : List Act :=
  [.coSwitch 2, .enterSwitch, .push, .add .success, .cancelCompare 1, .add .eexist, .switchErase,
    .switchRunnable, .resume, .coSwitch 1, .enterSwitch, .push, .add .success, .leaveSwitch,
    .cancelErase, .cancelDelete, .cancelRunnable]

theorem stale_cancel : ∃ s, Reach Init (guarded enabled next) s ∧ s.ended = [(1, ⟨1, 2⟩)] := by
  have hs : Reach Init (guarded enabled next) (overtaken.foldl next { ioBlockId_ := 0 }) :=
    reach_exec overtaken (.start ⟨0, rfl⟩) rfl
  exact ⟨_, hs, by decide⟩

end Waits

end CancelRace
