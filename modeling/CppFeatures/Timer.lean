/-
`CoTimer` and `CoTimerMgr` (coroutine/timer.cpp).

A timer's identity, callback and deadline never change; what changes is whether it
is still active.  `TimerHeap` keeps that flag for every timer ever made, so that a
manager may hold timers that have been cancelled through another one.

* `CoTimerMgr.expireAt`, `cancel`, `getExpired` — the manager's two indexes;
* `CoTimerMgr.getExpired_append` — `GetExpired` hands out a first part of the
  deadlines and keeps the rest.
-/
import Mathlib.Data.List.AList
import Mathlib.Data.List.Infix
import Mathlib.Tactic.Common

/-- `CoTimer`, apart from `active_`; `fn_` is the data of the callback. -/
structure CoTimer (F : Type*) where
  id_ : ℕ
  fn_ : F
  nextTimePoint_ : ℤ
deriving DecidableEq, Repr

/-- `CoTimer::s_id`, and the `active_` flag of every timer. -/
structure TimerHeap where
  sId : ℕ
  active_ : ℕ → Bool

namespace TimerHeap

-- the constructor `CoTimer(fn)`; the new timer's id is `sId` afterwards
def new (h : TimerHeap) : TimerHeap :=
  ⟨h.sId + 1, Function.update h.active_ (h.sId + 1) true⟩

/-- What `operator()`, `Cancel` and `BlockCancel` do under `fn_lock_`: clear
`active_`, and tell whether it was set. -/
def deactivate (h : TimerHeap) (id : ℕ) : TimerHeap × Bool :=
  ({ h with active_ := Function.update h.active_ id false }, h.active_ id)

end TimerHeap

/-- `CoTimerMgr`: all timers by id, and by deadline. -/
structure CoTimerMgr (F : Type*) where
  timers_ : AList fun _ : ℕ => CoTimer F
  deadlines_ : List (ℤ × CoTimer F)

namespace CoTimerMgr

variable {F : Type*}

def new : CoTimerMgr F := ⟨∅, []⟩

/-- `std::multimap::insert`: after the entries with the same key. -/
def insertDeadline : List (ℤ × CoTimer F) → ℤ × CoTimer F → List (ℤ × CoTimer F)
  | [], e => [e]
  | d :: ds, e => if d.1 ≤ e.1 then d :: insertDeadline ds e else e :: d :: ds

def expireAt (m : CoTimerMgr F) (t : CoTimer F) : CoTimerMgr F :=
  ⟨m.timers_.insert t.id_ t, insertDeadline m.deadlines_ (t.nextTimePoint_, t)⟩

/-- `__Cancel`: forget the timer, if this manager has it. -/
def cancel (m : CoTimerMgr F) (id : ℕ) (timePoint : ℤ) : CoTimerMgr F :=
  match m.timers_.lookup id with
  | none => m
  | some _ => ⟨m.timers_.erase id,
      m.deadlines_.eraseP fun d => decide (d.1 = timePoint) && decide (d.2.id_ = id)⟩

/-- `GetExpired(result, n)` at time `now`. -/
def getExpired (m : CoTimerMgr F) (now : ℤ) (n : ℕ) : List (CoTimer F) × CoTimerMgr F :=
  let due := (m.deadlines_.takeWhile fun d => decide (d.1 ≤ now)).take n
  (due.map Prod.snd, ⟨due.foldl (fun ts d => ts.erase d.2.id_) m.timers_,
    m.deadlines_.drop due.length⟩)

theorem insertDeadline_perm (ds : List (ℤ × CoTimer F)) (e : ℤ × CoTimer F) :
    (insertDeadline ds e).Perm (e :: ds) := by
  induction ds with
  | nil => exact .refl _
  | cons d ds ih =>
    rw [insertDeadline]
    split_ifs
    · exact (ih.cons d).trans (.swap ..)
    · exact .refl _

/-- **`GetExpired` takes a first part of the deadlines**, in their order. -/
theorem getExpired_append (m : CoTimerMgr F) (now : ℤ) (n : ℕ) :
    (m.getExpired now n).1 ++ (m.getExpired now n).2.deadlines_.map Prod.snd
      = m.deadlines_.map Prod.snd := by
  have hprefix : (m.deadlines_.takeWhile fun d => decide (d.1 ≤ now)).take n <+: m.deadlines_ :=
    (List.take_prefix ..).trans (List.takeWhile_prefix _)
  rw [getExpired, ← List.map_append]
  conv_rhs => rw [List.prefix_append_drop hprefix]

end CoTimerMgr
