/-
The time-outs of io waits: `IoWait::WaitLoop` (coroutine/linux/io_wait.cpp, timer.cpp).

A `WaitLoop` first takes the expired timers out of `timer_mgr_`, up to 128 at a time, and
merges each batch into `timeout_list_`.  If another thread has `epoll_lock_` it returns;
otherwise it takes the list and calls the timers in it, one after the other.
`std::list::merge` compares the elements, and those are shared pointers: the lists are
merged by address, although they are in the order of the deadlines.

* `Timeouts.step` — any sequence of `WaitLoop` calls, new io timers, and cancels;
* `Timeouts.Inv` — where each timer is, and which are active;
* `Timeouts.Sorted` — a list in the order of the deadlines, which merges by address keep only
  in the two cases `collectTimers_one` and `collectTimers_follows`;
* `Timeouts.ran_once_and_ordered` — no timer is called twice; a `WaitLoop` ends, and if it gets
  the lock, all that was due and not cancelled has been called once; in the order of the
  deadlines, if at most one batch is collected between two lists that are called, or if the
  addresses are in that order;
* `ioWaitLoop_timers` — the `WaitLoop` is the one of the scheduler's model.
-/
import CppFeatures.IoTimers
import CppFeatures.TimerStore
import Mathlib.Data.List.Count

namespace IoTimeouts

open List

variable {F τ : Type*}

/-! ### The source -/

/-- `(*cb)()` for every element of a list; the second result are the callbacks that ran. -/
def runCallbacks : List (CoTimer F) → TimerHeap → TimerHeap × List (CoTimer F)
  | [], h => (h, [])
  | t :: ts, h =>
    let (h, active) := h.deactivate t.id_
    let (h, ran) := runCallbacks ts h
    (h, if active then t :: ran else ran)

/-- The first loop of `WaitLoop` calls `GetExpired` at exactly these times: it stops when
nothing has expired. -/
def endsLoop : List ℤ → CoTimerMgr F → Bool
  | [], _ => false
  | now :: nows, mgr =>
    let (timers, mgr) := mgr.getExpired now 128
    if timers = [] then nows.isEmpty else endsLoop nows mgr

/-- A list that a `WaitLoop` took, and the callbacks that ran. -/
structure Executed (F : Type*) where
  list : List (CoTimer F)
  ran : List (CoTimer F)

/-- `IoWait` and the timers.  The last three members record the run: the io timers made and
cancelled, and the lists that have been called. -/
structure Timeouts (τ : Type*) where
  io : IoState τ
  timers : TimerHeap
  added : List (CoTimer (τ × BitVec 32))
  cancelled : List (CoTimer (τ × BitVec 32))
  executed : List (Executed (τ × BitVec 32))

/-- The steps.  A cancel goes through the manager of the scheduler and only clears
`active_`; `newElsewhere` is a timer of another manager. -/
inductive Act (τ : Type*)
  | expireAt (timePoint : ℤ) (fn : τ × BitVec 32)
  | newElsewhere
  | cancel (id : ℕ)
  -- the times of the `GetExpired` calls, and whether `epoll_lock_` is taken
  | waitLoop (nows : List ℤ) (locked : Bool)

namespace Timeouts

def waitLoop (s : Timeouts τ) (nows : List ℤ) (locked : Bool) : Timeouts τ :=
  let io := s.io.collectTimers nows
  if locked then { s with io := io }
  else
    let (timers, ran) := runCallbacks io.timeoutList_ s.timers
    { s with
      io := { io with timeoutList_ := [] }
      timers := timers
      executed := s.executed ++ [⟨io.timeoutList_, ran⟩] }

def cancel (s : Timeouts τ) (t : CoTimer (τ × BitVec 32)) : Timeouts τ :=
  let (timers, active) := s.timers.deactivate t.id_
  if active then { s with timers := timers, cancelled := s.cancelled ++ [t] } else s

def expireAt (s : Timeouts τ) (timePoint : ℤ) (fn : τ × BitVec 32) : Timeouts τ :=
  let t : CoTimer (τ × BitVec 32) := ⟨s.timers.new.sId, fn, timePoint⟩
  { s with
    io := { s.io with timerMgr_ := s.io.timerMgr_.expireAt t }
    timers := s.timers.new
    added := s.added ++ [t] }

def step (s : Timeouts τ) : Act τ → Option (Timeouts τ)
  | .expireAt timePoint fn => some (s.expireAt timePoint fn)
  | .newElsewhere => some { s with timers := s.timers.new }
  | .cancel id => (s.added.find? fun t => decide (t.id_ = id)).map s.cancel
  | .waitLoop nows locked =>
    if endsLoop nows s.io.timerMgr_ then some (s.waitLoop nows locked) else none

def Init (s : Timeouts τ) : Prop :=
  s.io.timerMgr_ = .new ∧ s.io.timeoutList_ = [] ∧ s.added = [] ∧ s.cancelled = [] ∧
    s.executed = []

/-- The timers that have left `timeout_list_`. -/
def handled (s : Timeouts τ) : List (CoTimer (τ × BitVec 32)) :=
  (s.executed.map Executed.list).flatten

/-- The callbacks that have run. -/
def ran (s : Timeouts τ) : List (CoTimer (τ × BitVec 32)) := (s.executed.map Executed.ran).flatten

end Timeouts

/-! ### The order in the list -/

/-- Falls due no later. -/
def Due (a b : CoTimer F) : Prop := a.nextTimePoint_ ≤ b.nextTimePoint_

theorem Due.trans (a b c : CoTimer F) (hab : Due a b) (hbc : Due b c) : Due a c :=
  Int.le_trans hab hbc

/-- The addresses of the timers are in the order of their deadlines. -/
def Follows (addr : ℕ → ℕ) (l : List (CoTimer F)) : Prop :=
  ∀ a ∈ l, ∀ b ∈ l, a.nextTimePoint_ < b.nextTimePoint_ → addr a.id_ < addr b.id_

/-- A merge keeps an order that its comparison agrees with. -/
theorem pairwise_merge {α : Type*} {R : α → α → Prop} {le : α → α → Bool}
    (htrans : ∀ a b c, R a b → R b c → R a c) {l₁ l₂ : List α} (h₁ : l₁.Pairwise R)
    (h₂ : l₂.Pairwise R) (hle : ∀ a ∈ l₁, ∀ b ∈ l₂, le a b = true → R a b)
    (hgt : ∀ a ∈ l₁, ∀ b ∈ l₂, le a b = false → R b a) : (l₁.merge l₂ le).Pairwise R := by
  induction l₁ generalizing l₂ with
  | nil =>
    rw [nil_merge]
    exact h₂
  | cons a l₁ ih₁ =>
    induction l₂ with
    | nil =>
      rw [merge_right]
      exact h₁
    | cons b l₂ ih₂ =>
      obtain ⟨ha, hl₁⟩ := pairwise_cons.mp h₁
      obtain ⟨hb, hl₂⟩ := pairwise_cons.mp h₂
      rw [cons_merge_cons]
      split_ifs with hab
      · have hR := hle a mem_cons_self b mem_cons_self hab
        refine pairwise_cons.mpr ⟨fun c hc => ?_, ?_⟩
        · rcases mem_merge.mp hc with hc | hc
          · exact ha c hc
          · rcases mem_cons.mp hc with rfl | hc
            · exact hR
            · exact htrans a b c hR (hb c hc)
        · exact ih₁ hl₁ h₂ (fun x hx => hle x (mem_cons_of_mem _ hx))
            fun x hx => hgt x (mem_cons_of_mem _ hx)
      · have hR := hgt a mem_cons_self b mem_cons_self (Bool.not_eq_true _ ▸ hab)
        refine pairwise_cons.mpr ⟨fun c hc => ?_, ?_⟩
        · rcases mem_merge.mp hc with hc | hc
          · rcases mem_cons.mp hc with rfl | hc
            · exact hR
            · exact htrans b a c hR (ha c hc)
          · exact hb c hc
        · exact ih₂ hl₂ (fun x hx y hy => hle x hx y (mem_cons_of_mem _ hy))
            fun x hx y hy => hgt x hx y (mem_cons_of_mem _ hy)

theorem pairwise_due_getExpired {mgr : CoTimerMgr F} (h : mgr.Consistent) (now : ℤ) (n : ℕ) :
    (mgr.getExpired now n).1.Pairwise Due := by
  rw [(h.getExpired now n).2.1]
  refine (h.sorted.sublist (take_sublist ..)).imp fun {a b} hab => ?_
  rcases hab with hlt | ⟨heq, -⟩
  · exact Int.le_of_lt hlt
  · exact Int.le_of_eq heq

theorem dueCount_eq {mgr : CoTimerMgr F} (h : mgr.Consistent) (now : ℤ) :
    mgr.dueCount now = mgr.store.countP fun t => decide (t.nextTimePoint_ ≤ now) := by
  rw [CoTimerMgr.dueCount, CoTimerMgr.store, countP_map]
  refine countP_congr fun d hd => ?_
  rw [Function.comp_apply, h.key d hd]

/-- A batch that takes all that is due at two times leaves nothing due. -/
theorem dueCount_rest {mgr : CoTimerMgr F} (h : mgr.Consistent) {now now' : ℤ}
    (hle : mgr.dueCount now ≤ 128) (heq : mgr.dueCount now' = mgr.dueCount now) :
    (mgr.getExpired now 128).2.dueCount now' = 0 := by
  obtain ⟨hcons, -, hrest, -⟩ := h.getExpired now 128
  obtain ⟨-, hfirst, -, hdue⟩ := h.getExpired now' (mgr.dueCount now)
  rw [Nat.min_eq_right hle] at hrest
  rw [heq, Nat.min_self] at hfirst
  have htotal := dueCount_eq h now'
  have hlen : mgr.dueCount now' ≤ mgr.store.length := htotal ▸ countP_le_length
  have htaken : (mgr.store.take (mgr.dueCount now)).countP (fun t => decide (t.nextTimePoint_ ≤ now'))
      = mgr.dueCount now := by
    rw [countP_eq_length.mpr fun t ht => decide_eq_true (hdue t (hfirst ▸ ht)), length_take]
    omega
  rw [dueCount_eq hcons, hrest]
  rw [← take_append_drop (mgr.dueCount now) mgr.store, countP_append, htaken] at htotal
  omega

theorem collectTimers_none {io : IoState τ} {nows : List ℤ} (h : io.timerMgr_.Consistent)
    (hnone : ∀ now ∈ nows, io.timerMgr_.dueCount now = 0) : io.collectTimers nows = io := by
  cases nows with
  | nil => rfl
  | cons now nows =>
    have hempty : (io.timerMgr_.getExpired now 128).1 = [] := by
      rw [(h.getExpired now 128).2.1, hnone now mem_cons_self]
      rfl
    rw [IoState.collectTimers]
    dsimp only
    rw [if_pos hempty]

/-- **One batch**, into an empty list. -/
theorem collectTimers_one {io : IoState τ} {nows : List ℤ} {d : ℕ} (h : io.timerMgr_.Consistent)
    (hlist : io.timeoutList_ = []) (hd : d ≤ 128) (hdue : ∀ now ∈ nows, io.timerMgr_.dueCount now = d) :
    (io.collectTimers nows).timeoutList_.Pairwise Due := by
  cases nows with
  | nil =>
    rw [IoState.collectTimers, hlist]
    exact .nil
  | cons now nows =>
    have hnow := hdue now mem_cons_self
    rw [IoState.collectTimers]
    dsimp only
    split_ifs
    · rw [hlist]
      exact .nil
    · rw [collectTimers_none (h.getExpired now 128).1, hlist, nil_merge]
      · exact pairwise_due_getExpired h now 128
      · intro now' hnow'
        refine dueCount_rest h (by omega) ?_
        rw [hnow, hdue now' (mem_cons_of_mem now hnow')]

/-- **Any number of batches**, if addresses and deadlines agree. -/
theorem collectTimers_follows {io : IoState τ} (h : io.timerMgr_.Consistent) (nows : List ℤ)
    (hfollows : Follows io.addr (io.timerMgr_.store ++ io.timeoutList_))
    (hsorted : io.timeoutList_.Pairwise Due) : (io.collectTimers nows).timeoutList_.Pairwise Due := by
  induction nows generalizing io with
  | nil => exact hsorted
  | cons now nows ih =>
    rw [IoState.collectTimers]
    dsimp only
    split_ifs
    · exact hsorted
    · obtain ⟨hcons, hbatch, hrest, -⟩ := h.getExpired now 128
      have hdue := pairwise_due_getExpired h now 128
      have htaken : ∀ t ∈ (io.timerMgr_.getExpired now 128).1, t ∈ io.timerMgr_.store ++ io.timeoutList_ :=
        fun t ht => mem_append_left _ (mem_of_mem_take (hbatch ▸ ht))
      have hkept : ∀ t ∈ io.timeoutList_, t ∈ io.timerMgr_.store ++ io.timeoutList_ :=
        fun t ht => mem_append_right _ ht
      refine ih hcons ?_ ?_
      · have hsub : ∀ t ∈ (io.timerMgr_.getExpired now 128).2.store ++ io.timeoutList_.merge
            (io.timerMgr_.getExpired now 128).1 (fun a b => decide (io.addr a.id_ ≤ io.addr b.id_)),
            t ∈ io.timerMgr_.store ++ io.timeoutList_ := by
          intro t ht
          rcases mem_append.mp ht with ht | ht
          · exact mem_append_left _ (mem_of_mem_drop (hrest ▸ ht))
          · rcases mem_merge.mp ht with ht | ht
            · exact hkept t ht
            · exact htaken t ht
        exact fun a ha b hb => hfollows a (hsub a ha) b (hsub b hb)
      · refine pairwise_merge Due.trans hsorted hdue (fun a ha b hb hle => ?_) fun a ha b hb hgt => ?_
        · have hback := hfollows b (htaken b hb) a (hkept a ha)
          have hle := of_decide_eq_true hle
          rw [Due]
          omega
        · have hback := hfollows a (hkept a ha) b (htaken b hb)
          have hgt := of_decide_eq_false hgt
          rw [Due]
          omega

theorem collectTimers_keeps {io : IoState τ} (h : io.timerMgr_.Consistent) (nows : List ℤ) :
    (io.collectTimers nows).timerMgr_.Consistent ∧ (io.collectTimers nows).addr = io.addr := by
  induction nows generalizing io with
  | nil => exact ⟨h, rfl⟩
  | cons now nows ih =>
    rw [IoState.collectTimers]
    dsimp only
    split_ifs
    · exact ⟨h, rfl⟩
    · exact ih (h.getExpired now 128).1

/-! ### The callbacks of a list -/

theorem runCallbacks_sId (ts : List (CoTimer F)) (h : TimerHeap) :
    (runCallbacks ts h).1.sId = h.sId := by
  induction ts generalizing h with
  | nil => rfl
  | cons t ts ih => exact ih (h.deactivate t.id_).1

/-- They are inactive afterwards, and nothing else has changed. -/
theorem runCallbacks_active (ts : List (CoTimer F)) (h : TimerHeap) (n : ℕ) :
    (runCallbacks ts h).1.active_ n = true ↔ h.active_ n = true ∧ n ∉ ts.map CoTimer.id_ := by
  induction ts generalizing h with
  | nil => simp [runCallbacks]
  | cons t ts ih =>
    show (runCallbacks ts (h.deactivate t.id_).1).1.active_ n = true ↔ _
    rw [ih, map_cons, mem_cons, not_or]
    by_cases hn : n = t.id_
    · simp [TimerHeap.deactivate, hn]
    · simp [TimerHeap.deactivate, hn]

/-- Each active timer runs, in the order of the list. -/
theorem runCallbacks_ran {ts : List (CoTimer F)} (hnodup : (ts.map CoTimer.id_).Nodup)
    (h : TimerHeap) : (runCallbacks ts h).2 = ts.filter fun t => h.active_ t.id_ := by
  induction ts generalizing h with
  | nil => rfl
  | cons t ts ih =>
    rw [map_cons, nodup_cons] at hnodup
    have hrest : ts.filter (fun u => (h.deactivate t.id_).1.active_ u.id_)
        = ts.filter fun u => h.active_ u.id_ := by
      refine filter_congr fun u hu => ?_
      have hne : u.id_ ≠ t.id_ := fun he => hnodup.1 (he ▸ mem_map_of_mem hu)
      exact Function.update_of_ne hne ..
    show (if h.active_ t.id_ then t :: (runCallbacks ts (h.deactivate t.id_).1).2
      else (runCallbacks ts (h.deactivate t.id_).1).2) = _
    rw [ih hnodup.2, hrest, filter_cons]

/-! ### Where each timer is -/

namespace Timeouts

structure Inv (s : Timeouts τ) : Prop where
  consistent : s.io.timerMgr_.Consistent
  ids : s.added.Pairwise fun a b => a.id_ < b.id_
  le_sId : ∀ t ∈ s.added, t.id_ ≤ s.timers.sId
  place : s.added.Perm (s.io.timerMgr_.store ++ s.io.timeoutList_ ++ s.handled)
  active : ∀ t ∈ s.added, s.timers.active_ t.id_ = true ↔ t ∉ s.cancelled ∧ t ∉ s.handled
  cancelled_sub : ∀ t ∈ s.cancelled, t ∈ s.added
  ran_iff : ∀ t, t ∈ s.ran ↔ t ∈ s.handled ∧ t ∉ s.cancelled
  ran_sub : s.ran.Sublist s.handled
  executed : ∀ e ∈ s.executed, e.ran.Sublist e.list

variable {s s' : Timeouts τ} {t : CoTimer (τ × BitVec 32)}

theorem inv_init (h : Init s) : Inv s := by
  obtain ⟨hmgr, hlist, hadded, hcancelled, hexecuted⟩ := h
  have hhandled : s.handled = [] := by rw [handled, hexecuted]; rfl
  have hran : s.ran = [] := by rw [ran, hexecuted]; rfl
  have hstore : s.io.timerMgr_.store = [] := by rw [hmgr]; rfl
  refine ⟨hmgr ▸ CoTimerMgr.consistent_new, ?_, ?_, ?_, ?_, ?_, ?_, ?_, ?_⟩
  all_goals simp [hadded, hcancelled, hexecuted, hhandled, hran, hstore, hlist]

theorem Inv.nodup_ids (h : Inv s) : (s.added.map CoTimer.id_).Nodup :=
  pairwise_map.mpr (h.ids.imp fun hlt => Nat.ne_of_lt hlt)

theorem Inv.eq_of_id (h : Inv s) {u : CoTimer (τ × BitVec 32)} (ht : t ∈ s.added)
    (hu : u ∈ s.added) (hid : t.id_ = u.id_) : t = u :=
  inj_on_of_nodup_map h.nodup_ids ht hu hid

theorem Inv.handled_sub (h : Inv s) (ht : t ∈ s.handled) : t ∈ s.added :=
  h.place.mem_iff.mpr (mem_append_right _ ht)

/-- A new io timer. -/
theorem Inv.expireAt (h : Inv s) (timePoint : ℤ) (fn : τ × BitVec 32) :
    Inv (s.expireAt timePoint fn) := by
  have hyoung : ∀ t ∈ s.added, t.id_ < s.timers.sId + 1 := fun t ht =>
    Nat.lt_succ_of_le (h.le_sId t ht)
  have hstore : ∀ t ∈ s.io.timerMgr_.store, t ∈ s.added := fun t ht =>
    h.place.mem_iff.mpr (mem_append_left _ (mem_append_left _ ht))
  have hnew : ∀ t ∈ s.added, t ≠ ⟨s.timers.sId + 1, fn, timePoint⟩ := by
    rintro t ht rfl
    exact Nat.lt_irrefl _ (hyoung _ ht)
  obtain ⟨hcons, -⟩ := h.consistent.expireAt (t := ⟨s.timers.sId + 1, fn, timePoint⟩)
    fun t ht => hyoung t (hstore t ht)
  constructor
  case consistent => exact hcons
  case ids =>
    refine pairwise_append.mpr ⟨h.ids, pairwise_singleton .., ?_⟩
    intro a ha b hb
    rw [mem_singleton.mp hb]
    exact hyoung a ha
  case le_sId =>
    intro t ht
    rcases mem_append.mp ht with ht | ht
    · exact Nat.le_of_lt (hyoung t ht)
    · rw [mem_singleton.mp ht]
      exact Nat.le_refl _
  case place =>
    have hput := CoTimerMgr.store_expireAt_perm s.io.timerMgr_ ⟨s.timers.sId + 1, fn, timePoint⟩
    refine (perm_append_comm.trans (h.place.cons _)).trans ?_
    exact ((hput.symm.append_right s.io.timeoutList_).append_right s.handled)
  case active =>
    intro t ht
    show Function.update s.timers.active_ (s.timers.sId + 1) true t.id_ = true ↔ _
    rcases mem_append.mp ht with ht | ht
    · rw [Function.update_of_ne (Nat.ne_of_lt (hyoung t ht))]
      exact h.active t ht
    · rw [mem_singleton.mp ht]
      refine iff_of_true (Function.update_self ..) ⟨fun hc => ?_, fun hc => ?_⟩
      · exact hnew _ (h.cancelled_sub _ hc) rfl
      · exact hnew _ (h.handled_sub hc) rfl
  case cancelled_sub => exact fun t ht => mem_append_left _ (h.cancelled_sub t ht)
  case ran_iff => exact h.ran_iff
  case ran_sub => exact h.ran_sub
  case executed => exact h.executed

/-- A cancel of an io timer. -/
theorem Inv.cancel (h : Inv s) (ht : t ∈ s.added) : Inv (s.cancel t) := by
  rw [Timeouts.cancel]
  dsimp only [TimerHeap.deactivate]
  split_ifs with hact
  · have hkept := ((h.active t ht).mp hact).2
    constructor
    case consistent => exact h.consistent
    case ids => exact h.ids
    case le_sId => exact h.le_sId
    case place => exact h.place
    case active =>
      intro u hu
      show Function.update s.timers.active_ t.id_ false u.id_ = true ↔
        u ∉ s.cancelled ++ [t] ∧ u ∉ s.handled
      by_cases hid : u.id_ = t.id_
      · rw [hid, Function.update_self, h.eq_of_id hu ht hid]
        simp
      · have hne : u ≠ t := fun he => hid (he ▸ rfl)
        rw [Function.update_of_ne hid, h.active u hu]
        simp [hne]
    case cancelled_sub =>
      intro u hu
      rcases mem_append.mp hu with hu | hu
      · exact h.cancelled_sub u hu
      · rw [mem_singleton.mp hu]
        exact ht
    case ran_iff =>
      intro u
      show u ∈ s.ran ↔ u ∈ s.handled ∧ u ∉ s.cancelled ++ [t]
      rw [h.ran_iff, mem_append, mem_singleton, not_or]
      constructor
      · rintro ⟨hu, hc⟩
        exact ⟨hu, hc, fun he => hkept (he ▸ hu)⟩
      · rintro ⟨hu, hc, -⟩
        exact ⟨hu, hc⟩
    case ran_sub => exact h.ran_sub
    case executed => exact h.executed
  · exact h

/-- The first loop of `WaitLoop`. -/
theorem Inv.collect (h : Inv s) (nows : List ℤ) : Inv { s with io := s.io.collectTimers nows } := by
  obtain ⟨hcons, -⟩ := collectTimers_keeps h.consistent nows
  obtain ⟨hmoves, -, -⟩ := IoState.collectTimers_moves nows s.io
  refine ⟨hcons, h.ids, h.le_sId, ?_, h.active, h.cancelled_sub, h.ran_iff, h.ran_sub, h.executed⟩
  exact h.place.trans (hmoves.symm.append_right s.handled)

/-- `WaitLoop` takes the list and calls it. -/
def run (s : Timeouts τ) : Timeouts τ :=
  { s with
    io := { s.io with timeoutList_ := [] }
    timers := (runCallbacks s.io.timeoutList_ s.timers).1
    executed := s.executed ++ [⟨s.io.timeoutList_, (runCallbacks s.io.timeoutList_ s.timers).2⟩] }

theorem handled_run (s : Timeouts τ) : s.run.handled = s.handled ++ s.io.timeoutList_ := by
  simp [run, handled]

theorem ran_run (s : Timeouts τ) :
    s.run.ran = s.ran ++ (runCallbacks s.io.timeoutList_ s.timers).2 := by
  simp [run, ran]

theorem Inv.run (h : Inv s) : Inv s.run := by
  have hsub : ∀ t ∈ s.io.timeoutList_, t ∈ s.added := fun t ht =>
    h.place.mem_iff.mpr (mem_append_left _ (mem_append_right _ ht))
  have hids := (h.place.map CoTimer.id_).nodup_iff.mp h.nodup_ids
  rw [map_append, map_append, nodup_append] at hids
  obtain ⟨hids, -, hapart⟩ := hids
  have hids := (nodup_append.mp hids).2.1
  -- a timer of the list has not been called yet
  have hfresh : ∀ t ∈ s.io.timeoutList_, t ∉ s.handled := fun t ht hm =>
    hapart t.id_ (mem_append_right _ (mem_map_of_mem ht)) t.id_ (mem_map_of_mem hm) rfl
  have hran := runCallbacks_ran hids s.timers
  constructor
  case consistent => exact h.consistent
  case ids => exact h.ids
  case le_sId =>
    intro t ht
    exact (runCallbacks_sId s.io.timeoutList_ s.timers).symm ▸ h.le_sId t ht
  case place =>
    have hmoved : (s.io.timerMgr_.store ++ s.io.timeoutList_ ++ s.handled).Perm
        (s.io.timerMgr_.store ++ [] ++ (s.handled ++ s.io.timeoutList_)) := by
      rw [append_nil, append_assoc]
      exact perm_append_comm.append_left _
    rw [handled_run]
    exact h.place.trans hmoved
  case active =>
    intro t ht
    have hmem : t.id_ ∈ s.io.timeoutList_.map CoTimer.id_ ↔ t ∈ s.io.timeoutList_ := by
      constructor
      · intro hm
        obtain ⟨u, hu, hid⟩ := mem_map.mp hm
        rw [← h.eq_of_id (hsub u hu) ht hid]
        exact hu
      · exact mem_map_of_mem
    show (runCallbacks s.io.timeoutList_ s.timers).1.active_ t.id_ = true ↔ _
    rw [runCallbacks_active, h.active t ht, hmem, handled_run, mem_append, not_or, and_assoc]
    rfl
  case cancelled_sub => exact h.cancelled_sub
  case ran_iff =>
    intro t
    rw [ran_run, handled_run, hran, mem_append, mem_append, h.ran_iff, mem_filter,
      or_and_right]
    refine or_congr_right (and_congr_right fun ht => ?_)
    rw [h.active t (hsub t ht)]
    exact and_iff_left (hfresh t ht)
  case ran_sub =>
    rw [ran_run, handled_run, hran]
    exact h.ran_sub.append filter_sublist
  case executed =>
    intro e he
    rcases mem_append.mp he with he | he
    · exact h.executed e he
    · rw [mem_singleton.mp he]
      show (runCallbacks s.io.timeoutList_ s.timers).2.Sublist s.io.timeoutList_
      rw [hran]
      exact filter_sublist

theorem Inv.waitLoop (h : Inv s) (nows : List ℤ) (locked : Bool) : Inv (s.waitLoop nows locked) := by
  have hcollect := h.collect nows
  rw [Timeouts.waitLoop]
  dsimp only
  split_ifs
  · exact hcollect
  · exact hcollect.run

/-- **One step** keeps the invariant. -/
theorem step_inv {a : Act τ} (h : Inv s) (hst : s.step a = some s') : Inv s' := by
  cases a with
  | expireAt timePoint fn =>
    cases hst
    exact h.expireAt timePoint fn
  | newElsewhere =>
    cases hst
    have hne : ∀ t ∈ s.added, t.id_ ≠ s.timers.sId + 1 := fun t ht =>
      Nat.ne_of_lt (Nat.lt_succ_of_le (h.le_sId t ht))
    refine ⟨h.consistent, h.ids, fun t ht => Nat.le_succ_of_le (h.le_sId t ht), h.place,
      fun t ht => ?_, h.cancelled_sub, h.ran_iff, h.ran_sub, h.executed⟩
    show Function.update s.timers.active_ (s.timers.sId + 1) true t.id_ = true ↔ _
    rw [Function.update_of_ne (hne t ht)]
    exact h.active t ht
  | cancel id =>
    obtain ⟨t, hfind, rfl⟩ := Option.map_eq_some_iff.mp hst
    exact h.cancel (mem_of_find?_eq_some hfind)
  | waitLoop nows locked =>
    rw [step] at hst
    split_ifs at hst
    cases hst
    exact h.waitLoop nows locked

/-- **Every run** keeps it. -/
theorem reach_inv : ∀ s : Timeouts τ, Reach Init step s → Inv s :=
  ReachIf.invariant (fun _ h => inv_init h) fun _ _ _ h _ hst => step_inv h hst

/-! ### The result -/

/-- A timer that is due when nothing is due in the manager and the list is empty has been
handled. -/
theorem Inv.handled_of_due (h : Inv s) {now : ℤ} (hlist : s.io.timeoutList_ = [])
    (hnone : s.io.timerMgr_.dueCount now = 0) (ht : t ∈ s.added) (hdue : t.nextTimePoint_ ≤ now) :
    t ∈ s.handled := by
  have hplace := h.place.mem_iff.mp ht
  rw [hlist, append_nil] at hplace
  refine (mem_append.mp hplace).resolve_left fun hm => ?_
  obtain ⟨d, hd, rfl⟩ := mem_map.mp hm
  refine countP_eq_zero.mp hnone d hd (decide_eq_true ?_)
  rw [h.consistent.key d hd]
  exact hdue

/-- A batch that is empty leaves nothing that is due. -/
theorem dueCount_of_empty {mgr : CoTimerMgr F} (h : mgr.Consistent) {now : ℤ}
    (hempty : (mgr.getExpired now 128).1 = []) : mgr.dueCount now = 0 := by
  rw [(h.getExpired now 128).2.1, take_eq_nil_iff] at hempty
  rcases hempty with hzero | hstore
  · omega
  · have hnil : mgr.deadlines_ = [] := map_eq_nil_iff.mp hstore
    rw [CoTimerMgr.dueCount, hnil]
    rfl

/-- **The first loop leaves nothing** that is due at its last `GetExpired`. -/
theorem collectTimers_drains {io : IoState τ} (h : io.timerMgr_.Consistent) {nows : List ℤ} {now : ℤ}
    (hends : endsLoop nows io.timerMgr_ = true) (hlast : nows.getLast? = some now) :
    (io.collectTimers nows).timerMgr_.dueCount now = 0 := by
  induction nows generalizing io with
  | nil => cases hends
  | cons first nows ih =>
    rw [endsLoop] at hends
    rw [IoState.collectTimers]
    dsimp only at hends ⊢
    split_ifs at hends ⊢ with hempty
    · rw [isEmpty_iff.mp hends, List.getLast?_singleton, Option.some_inj] at hlast
      exact hlast ▸ dueCount_of_empty h hempty
    · refine ih (h.getExpired first 128).1 hends ?_
      cases nows with
      | nil => cases hends
      | cons second nows => rw [← hlast, List.getLast?_cons_cons]

/-- **It ends**: every batch but the last takes a timer out of the manager. -/
theorem exists_endsLoop {mgr : CoTimerMgr F} (h : mgr.Consistent) {nows : List ℤ}
    (hlen : mgr.store.length < nows.length) : ∃ k, endsLoop (nows.take k) mgr = true := by
  induction nows generalizing mgr with
  | nil => exact absurd hlen (Nat.not_lt_zero _)
  | cons now nows ih =>
    by_cases hempty : (mgr.getExpired now 128).1 = []
    · refine ⟨1, ?_⟩
      rw [take_succ_cons, endsLoop]
      dsimp only
      rw [if_pos hempty]
      rfl
    · obtain ⟨hcons, hbatch, hrest, -⟩ := h.getExpired now 128
      rw [hbatch, take_eq_nil_iff, not_or] at hempty
      have hpos := length_pos_of_ne_nil hempty.2
      rw [length_cons] at hlen
      obtain ⟨k, hk⟩ := ih hcons (by rw [hrest, length_drop]; omega)
      refine ⟨k + 1, ?_⟩
      rw [take_succ_cons, endsLoop]
      dsimp only
      rw [if_neg (by rw [hbatch, take_eq_nil_iff, not_or]; exact hempty)]
      exact hk

/-! ### The order of the callbacks -/

/-- The lists are in the order of the deadlines. -/
structure Sorted (s : Timeouts τ) : Prop where
  list : s.io.timeoutList_.Pairwise Due
  executed : ∀ e ∈ s.executed, e.list.Pairwise Due

/-- **A step keeps the order** if the batches that it collects do. -/
theorem Sorted.step {a : Act τ} (h : Sorted s)
    (hcollect : ∀ nows locked, a = .waitLoop nows locked →
      (s.io.collectTimers nows).timeoutList_.Pairwise Due)
    (hst : s.step a = some s') : Sorted s' := by
  cases a with
  | expireAt timePoint fn =>
    cases hst
    exact ⟨h.list, h.executed⟩
  | newElsewhere =>
    cases hst
    exact ⟨h.list, h.executed⟩
  | cancel id =>
    obtain ⟨t, -, rfl⟩ := Option.map_eq_some_iff.mp hst
    rw [Timeouts.cancel]
    dsimp only
    split_ifs
    · exact ⟨h.list, h.executed⟩
    · exact h
  | waitLoop nows locked =>
    have hlist := hcollect nows locked rfl
    rw [Timeouts.step] at hst
    split_ifs at hst
    cases hst
    rw [Timeouts.waitLoop]
    dsimp only
    split_ifs
    · exact ⟨hlist, h.executed⟩
    · refine ⟨.nil, fun e he => ?_⟩
      rcases mem_append.mp he with he | he
      · exact h.executed e he
      · rw [mem_singleton.mp he]
        exact hlist

/-- A `WaitLoop` finds nothing due, or finds `timeout_list_` empty and no more due than fits into
one batch, none of it only after the first `GetExpired`. -/
def OneBatch (s : Timeouts τ) : Act τ → Prop
  | .waitLoop nows _ => (∀ now ∈ nows, s.io.timerMgr_.dueCount now = 0) ∨
      s.io.timeoutList_ = [] ∧ ∀ now ∈ nows, s.io.timerMgr_.dueCount now ≤ 128 ∧
        s.io.timerMgr_.dueCount now = s.io.timerMgr_.dueCount (nows.headD 0)
  | _ => True

instance (s : Timeouts τ) (a : Act τ) : Decidable (s.OneBatch a) :=
  match a with
  | .waitLoop .. => inferInstanceAs (Decidable (_ ∨ _ ∧ _))
  | .expireAt .. | .newElsewhere | .cancel _ => .isTrue trivial

theorem sorted_init (h : Init s) : Sorted s := by
  obtain ⟨-, hlist, -, -, hexecuted⟩ := h
  refine ⟨?_, ?_⟩
  · rw [hlist]
    exact .nil
  · rw [hexecuted]
    exact fun e he => by cases he

theorem sorted_of_oneBatch (hs : ReachIf Init step OneBatch s) : Sorted s := by
  refine ReachIf.invariant_with Inv (fun s hs => reach_inv s (hs.mono fun _ _ _ => trivial))
    (fun _ h => sorted_init h) (fun s s' a hinv h hone hst => h.step ?_ hst) s hs
  rintro nows locked rfl
  rcases hone with hnone | ⟨hlist, hdue⟩
  · rw [collectTimers_none hinv.consistent hnone]
    exact h.list
  · cases nows with
    | nil => exact h.list
    | cons now nows =>
      exact collectTimers_one hinv.consistent hlist (hdue now mem_cons_self).1
        fun now' hnow' => (hdue now' hnow').2

theorem step_added {a : Act τ} (h : Inv s) (hst : s.step a = some s') :
    s.added ⊆ s'.added ∧ s'.io.addr = s.io.addr := by
  cases a with
  | expireAt timePoint fn =>
    cases hst
    exact ⟨subset_append_left .., rfl⟩
  | newElsewhere =>
    cases hst
    exact ⟨List.Subset.refl _, rfl⟩
  | cancel id =>
    obtain ⟨t, -, rfl⟩ := Option.map_eq_some_iff.mp hst
    rw [Timeouts.cancel]
    dsimp only
    split_ifs <;> exact ⟨List.Subset.refl _, rfl⟩
  | waitLoop nows locked =>
    obtain ⟨-, haddr⟩ := collectTimers_keeps h.consistent nows
    rw [step] at hst
    split_ifs at hst
    cases hst
    rw [Timeouts.waitLoop]
    dsimp only
    split_ifs <;> exact ⟨List.Subset.refl _, haddr⟩

theorem sorted_of_follows : ∀ s : Timeouts τ, Reach Init step s → Follows s.io.addr s.added → Sorted s := by
  refine ReachIf.invariant_with Inv reach_inv (fun _ h _ => sorted_init h) ?_
  intro s s' a hinv h _ hst hfollows
  obtain ⟨hsub, haddr⟩ := step_added hinv hst
  have hbefore : Follows s.io.addr s.added := fun a ha b hb =>
    haddr ▸ hfollows a (hsub ha) b (hsub hb)
  refine (h hbefore).step (fun nows _ _ => ?_) hst
  refine collectTimers_follows hinv.consistent nows (fun a ha b hb => ?_) (h hbefore).list
  exact hbefore a (hinv.place.mem_iff.mpr (mem_append_left _ ha)) b
    (hinv.place.mem_iff.mpr (mem_append_left _ hb))

/-! ### The result -/

theorem Inv.nodup_ran (h : Inv s) : s.ran.Nodup := by
  have hall := h.place.nodup_iff.mp (List.Nodup.of_map _ h.nodup_ids)
  exact h.ran_sub.nodup (nodup_append.mp hall).2.1

/-- After a `WaitLoop` that gets the lock, all that was due has run. -/
theorem Inv.ran_of_waitLoop [DecidableEq τ] (h : Inv s) {nows : List ℤ} {now : ℤ}
    (hst : s.step (.waitLoop nows false) = some s') (hlast : nows.getLast? = some now)
    (ht : t ∈ s.added) (hdue : t.nextTimePoint_ ≤ now) (hc : t ∉ s.cancelled) :
    s'.ran.count t = 1 := by
  have h' := step_inv h hst
  rw [step] at hst
  split_ifs at hst with hends
  cases hst
  refine count_eq_one_of_mem h'.nodup_ran ((h'.ran_iff t).mpr ⟨?_, hc⟩)
  exact h'.handled_of_due rfl (collectTimers_drains h.consistent hends hlast) ht hdue

/-- **Io time-outs run once each**, in any sequence of `WaitLoop` calls, some of which find
`epoll_lock_` taken.  No callback runs twice.  A `WaitLoop` ends, whatever its `GetExpired` calls
read from the clock, and when one that gets the lock has ended, each timer that was due at its
last `GetExpired` and was not cancelled has run exactly once.  **And in the order of their
deadlines**, within one list, if every `WaitLoop` finds at most one batch and the list empty, or
nothing due; or if the addresses of the timers are in that order. -/
theorem ran_once_and_ordered [DecidableEq τ] (hs : Reach Init step s) :
    (∀ t, s.ran.count t ≤ 1) ∧
      (∀ (nows : List ℤ) locked, s.io.timerMgr_.store.length < nows.length →
        ∃ k s', s.step (.waitLoop (nows.take k) locked) = some s') ∧
      (∀ (nows : List ℤ) now s', s.step (.waitLoop nows false) = some s' → nows.getLast? = some now →
        ∀ t ∈ s.added, t.nextTimePoint_ ≤ now → t ∉ s.cancelled → s'.ran.count t = 1) ∧
      (ReachIf Init step OneBatch s ∨ Follows s.io.addr s.added →
        ∀ e ∈ s.executed, e.ran.Pairwise fun a b => a.nextTimePoint_ ≤ b.nextTimePoint_) := by
  have h := reach_inv s hs
  refine ⟨nodup_iff_count_le_one.mp h.nodup_ran, fun nows locked hlen => ?_,
    fun nows now s' hst hlast t => h.ran_of_waitLoop hst hlast, fun horder e he => ?_⟩
  · obtain ⟨k, hk⟩ := exists_endsLoop h.consistent hlen
    exact ⟨k, s.waitLoop (nows.take k) locked, if_pos hk⟩
  · have hsorted : Sorted s := horder.elim sorted_of_oneBatch (sorted_of_follows s hs)
    exact (hsorted.executed e he).sublist (h.executed e he)

/-! ### Two timers -/

/-- No timers yet; a younger timer is allocated at a lower address. -/
def fresh : Timeouts ℕ :=
  ⟨⟨fun _ => { ioBlockId_ := 0 }, [], [], .new, [], fun id => 10 - id,
    ⟨fun _ => .closed, fun _ => []⟩, []⟩, ⟨0, fun _ => false⟩, [], [], []⟩

theorem init_fresh : Init fresh := ⟨rfl, rfl, rfl, rfl, rfl⟩

/-- Two timers, due at 1 and at 2, and a `WaitLoop` at each of these times; `locked` says
whether the first finds `epoll_lock_` taken. -/
def twoTimers (locked : Bool) : Option (Timeouts ℕ) :=
  exec step fresh [.expireAt 1 (0, 0), .expireAt 2 (1, 0), .waitLoop [1, 1] locked,
    .waitLoop [2, 2] false]

/-- A `WaitLoop` for each of two timers, and one before both, which finds `epoll_lock_` taken. -/
def oneEach : List (Act ℕ) :=
  [.waitLoop [0] true, .expireAt 1 (0, 0), .expireAt 2 (1, 0), .waitLoop [1, 1] false]

theorem ran_once_oneEach : ∃ s s', execIf step OneBatch fresh oneEach = some s ∧
    s.step (.waitLoop [2, 3] false) = some s' ∧
    (∀ t ∈ s.added, t.nextTimePoint_ ≤ 3 → t ∉ s.cancelled → s'.ran.count t = 1) ∧
    ∀ e ∈ s.executed, e.ran.Pairwise fun a b => a.nextTimePoint_ ≤ b.nextTimePoint_ := by
  have hrun : execIf step OneBatch fresh oneEach = some ((execIf step OneBatch fresh oneEach).get rfl) :=
    rfl
  have hreach : ReachIf Init step OneBatch ((execIf step OneBatch fresh oneEach).get rfl) :=
    reachIf_exec oneEach (.start init_fresh) hrun
  obtain ⟨-, -, honce, hordered⟩ := ran_once_and_ordered (hreach.mono fun _ _ _ => trivial)
  exact ⟨_, _, hrun, rfl, honce [2, 3] 3 _ rfl rfl, hordered (.inl hreach)⟩

/-- How `merge` compares. -/
def byAddr (s : Timeouts τ) (a b : CoTimer (τ × BitVec 32)) : Bool :=
  decide (s.io.addr a.id_ ≤ s.io.addr b.id_)

/-- The first `WaitLoop` collects a timer and returns, the second puts the younger timer in
front of it: the callback that is due at 2 runs before the one that is due at 1. -/
theorem ran_out_of_order : ∃ s e, twoTimers true = some s ∧ e ∈ s.executed ∧
    e.ran = [⟨2, (1, 0), 2⟩, ⟨1, (0, 0), 1⟩] := by
  have hmerge : List.merge (List.merge [] [(⟨1, (0, 0), 1⟩ : CoTimer (ℕ × BitVec 32))] fresh.byAddr)
      [⟨2, (1, 0), 2⟩] fresh.byAddr = [⟨2, (1, 0), 2⟩, ⟨1, (0, 0), 1⟩] := by
    rw [nil_merge, cons_merge_cons_neg _ _ _ (by decide), merge_right]
  refine ⟨_, _, rfl, mem_singleton_self _, ?_⟩
  show (runCallbacks (List.merge (List.merge [] [⟨1, (0, 0), 1⟩] fresh.byAddr)
    [⟨2, (1, 0), 2⟩] fresh.byAddr) _).2 = _
  rw [hmerge]
  rfl

end Timeouts

/-! ### The scheduler's model -/

section Scheduler

open Scheduler IoState

variable [LinearOrder τ] {β : Type*}

theorem sameTimers_cancel (s : State τ β) (tk : τ) (id : BitVec 32) :
    SameTimers s.io (s.cancel tk id).io := by
  rw [State.cancel]
  split_ifs
  · exact .refl _
  · exact sameTimers_delFds tk id _ s.io
  · exact .refl _

theorem ioTimeout_timers (t : CoTimer (τ × BitVec 32)) (s : State τ β) :
    (s.ioTimeout t).timers = (s.timers.deactivate t.id_).1 ∧ SameTimers s.io (s.ioTimeout t).io := by
  rw [State.ioTimeout]
  dsimp only [TimerHeap.deactivate]
  split_ifs with hact
  · have hio := sameTimers_cancel { s with timers := (s.timers.deactivate t.id_).1 } t.fn_.1 t.fn_.2
    exact ⟨State.cancel_timers .., hio.trans (sameTimers_decrementRef ..)⟩
  · refine ⟨?_, .refl _⟩
    have hoff : s.timers.active_ t.id_ = false := Bool.eq_false_iff.mpr hact
    rw [← hoff, Function.update_eq_self]

theorem foldl_ioTimeout_timers (l : List (CoTimer (τ × BitVec 32))) (s : State τ β) :
    (l.foldl State.ioTimeout s).timers = (runCallbacks l s.timers).1 ∧
      SameTimers s.io (l.foldl State.ioTimeout s).io := by
  induction l generalizing s with
  | nil => exact ⟨rfl, .refl _⟩
  | cons t l ih =>
    obtain ⟨htimers, hio⟩ := ioTimeout_timers t s
    obtain ⟨hrest, hrestIo⟩ := ih (s.ioTimeout t)
    refine ⟨?_, hio.trans hrestIo⟩
    rw [foldl_cons, hrest, htimers]
    rfl

theorem runTimeouts_timers (s : State τ β) :
    s.runTimeouts.timers = (runCallbacks s.io.timeoutList_ s.timers).1 ∧
      s.runTimeouts.io.timerMgr_ = s.io.timerMgr_ ∧ s.runTimeouts.io.timeoutList_ = [] := by
  obtain ⟨hran, hio⟩ := foldl_ioTimeout_timers s.io.timeoutList_
    { s with io := { s.io with timeoutList_ := [] } }
  exact ⟨hran, hio.mgr, hio.timeoutList⟩

/-- `Cancel` for the tasks with events touches no timer. -/
theorem cancelAll_timers (set : List (τ × BitVec 32)) (s : State τ β) :
    (s.cancelAll set).timers = s.timers ∧ SameTimers s.io (s.cancelAll set).io := by
  induction set generalizing s with
  | nil => exact ⟨rfl, .refl _⟩
  | cons st set ih =>
    obtain ⟨htimers, hio⟩ := ih (s.cancel st.1 st.2)
    exact ⟨htimers.trans (s.cancel_timers ..), (sameTimers_cancel s ..).trans hio⟩

/-- **The same `WaitLoop`**: what the scheduler's model does to the timers. -/
theorem ioWaitLoop_timers (s : State τ β) (nows : List ℤ) (readEvs writeEvs : List (ℤ × BitVec 32)) :
    (s.ioWaitLoop nows readEvs writeEvs).timers
        = (runCallbacks (s.io.collectTimers nows).timeoutList_ s.timers).1 ∧
      (s.ioWaitLoop nows readEvs writeEvs).io.timerMgr_ = (s.io.collectTimers nows).timerMgr_ ∧
      (s.ioWaitLoop nows readEvs writeEvs).io.timeoutList_ = [] := by
  have hevents : SameTimers (s.io.collectTimers nows)
      (State.epollWait (s.io.collectTimers nows) readEvs writeEvs).1 :=
    (State.sameTimers_epollEvents .read readEvs _ []).trans
      (State.sameTimers_epollEvents .write writeEvs _ _)
  obtain ⟨htimers, hio⟩ := cancelAll_timers
    (State.epollWait (s.io.collectTimers nows) readEvs writeEvs).2
    { s with io := (State.epollWait (s.io.collectTimers nows) readEvs writeEvs).1 }
  obtain ⟨hran, hmgr, hempty⟩ := runTimeouts_timers
    (({ s with io := (State.epollWait (s.io.collectTimers nows) readEvs writeEvs).1 } :
      State τ β).cancelAll (State.epollWait (s.io.collectTimers nows) readEvs writeEvs).2)
  refine ⟨hran.trans ?_, hmgr.trans (hio.mgr.trans hevents.mgr), hempty⟩
  rw [hio.timeoutList.trans hevents.timeoutList, htimers]

end Scheduler

end IoTimeouts
