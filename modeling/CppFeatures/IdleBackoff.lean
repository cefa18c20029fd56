/-
The idle back-off of `Scheduler::Run` and of `ThreadPool::Run` (coroutine/scheduler.cpp,
thread_pool.cpp, thread_pool.h).

Both loops sleep when a call found nothing to do, a little longer each time, up to
`max_sleep_ms`; both keep the time in an 8-bit `sleep_ms_`.  The scheduler stores the
clamped value back, the thread pool stores the running one, and the thread pool never
counts the elements it pops.

* `schedulerRun`, `threadPoolRun` — one call;
* `Follows` — what a back-off is for: work resets it, idle calls sleep longer and longer;
* `backoff_follows_iff` — for which `max_sleep_ms`, and on which calls, the two do.
-/
import Mathlib.Data.List.Infix
import Mathlib.Order.Basic
import Mathlib.Tactic.Common

namespace IdleBackoff

open List

/-- One call of `Run`: how much it found to do, what it returned, for how many milliseconds
it slept, and what it left in `sleep_ms_`. -/
structure Call where
  work : ℕ
  ret : UInt32
  slept : Option UInt8
  sleepMs_ : UInt8
deriving DecidableEq, Repr

/-- What `DoRunnable`, `DoEpoll`, `DoTimer` and `DoSleep` return. -/
structure Counts where
  runTaskCount : UInt32
  epCount : ℤ
  tmCount : UInt32
  slCount : UInt32
deriving DecidableEq, Repr

-- `epoll_wait` may fail
def Counts.work (c : Counts) : ℕ :=
  c.runTaskCount.toNat + c.epCount.toNat + c.tmCount.toNat + c.slCount.toNat

/-- The end of `Scheduler::Run`. -/
def schedulerRun (maxSleepMs sleepMs_ : UInt8) (c : Counts) : Call :=
  if c.runTaskCount = 0 ∧ c.epCount ≤ 0 ∧ c.tmCount = 0 ∧ c.slCount = 0 then
    let ms := min (sleepMs_ + 1) maxSleepMs
    ⟨c.work, c.runTaskCount, some ms, ms⟩
  else ⟨c.work, c.runTaskCount, none, 1⟩

section ThreadPool

variable {ε : Type*}

/-- The loop of `ThreadPool::Run` over the queued elements, and its counter `c`. -/
def popElems : List ε → UInt32 → UInt32
  | [], c => c
  | _ :: elems, c => popElems elems c

/-- `ThreadPool::Run`, which finds `elems` in its queue. -/
def threadPoolRun (maxSleepMs sleepMs_ : UInt8) (elems : List ε) : Call :=
  let c := popElems elems 0
  if c = 0 then ⟨elems.length, c, some (min sleepMs_ maxSleepMs), sleepMs_ + 1⟩
  else ⟨elems.length, c, none, 0⟩

end ThreadPool

/-- A sequence of calls. -/
def calls {α : Type*} (run : UInt8 → α → Call) : UInt8 → List α → List Call
  | _, [] => []
  | sleepMs_, a :: as => run sleepMs_ a :: calls run (run sleepMs_ a).sleepMs_ as

/-- The sleep times `ms` never decrease, and stay within `maxSleepMs`. -/
def Rising (maxSleepMs : UInt8) (ms : List UInt8) : Prop :=
  ms.Pairwise (· ≤ ·) ∧ ∀ m ∈ ms, m ≤ maxSleepMs

/-- **The back-off follows the work**: a call that found some does not sleep and leaves
`sleep_ms_` at `reset`; every idle call sleeps, and within a streak of idle calls the times
rise. -/
structure Follows (reset maxSleepMs : UInt8) (cs : List Call) : Prop where
  worked : ∀ c ∈ cs, 0 < c.work → c.slept = none ∧ c.sleepMs_ = reset
  idle : ∀ streak, streak <:+: cs → (∀ c ∈ streak, c.work = 0) →
    ∃ ms, streak.map Call.slept = ms.map some ∧ Rising maxSleepMs ms

/-! ### Sequences of calls -/

section Calls

variable {α : Type*} {run : UInt8 → α → Call}

theorem exists_of_mem_calls {s : UInt8} {as : List α} {c : Call} (h : c ∈ calls run s as) :
    ∃ s' a, a ∈ as ∧ c = run s' a := by
  induction as generalizing s with
  | nil => cases h
  | cons a as ih =>
    rcases mem_cons.mp h with rfl | h
    · exact ⟨s, a, mem_cons_self, rfl⟩
    · obtain ⟨s', a', ha', hc⟩ := ih h
      exact ⟨s', a', mem_cons_of_mem _ ha', hc⟩

theorem exists_mem_calls (run : UInt8 → α → Call) (s : UInt8) {as : List α} {a : α}
    (h : a ∈ as) : ∃ s', run s' a ∈ calls run s as := by
  induction as generalizing s with
  | nil => cases h
  | cons a' as ih =>
    rcases mem_cons.mp h with rfl | h
    · exact ⟨s, mem_cons_self⟩
    · obtain ⟨s', hs'⟩ := ih _ h
      exact ⟨s', mem_cons_of_mem _ hs'⟩

theorem calls_front {s : UInt8} {as : List α} {cs : List Call} (h : cs <+: calls run s as) :
    ∃ as', cs = calls run s as' := by
  induction as generalizing s cs with
  | nil => exact ⟨[], prefix_nil.mp h⟩
  | cons a as ih =>
    rcases prefix_cons_iff.mp h with rfl | ⟨cs', rfl, h'⟩
    · exact ⟨[], rfl⟩
    · obtain ⟨as', rfl⟩ := ih h'
      exact ⟨a :: as', rfl⟩

/-- A streak is a sequence of calls of its own, from some `sleep_ms_`. -/
theorem calls_streak {s : UInt8} {as : List α} {cs : List Call} (h : cs <:+: calls run s as) :
    ∃ s' as', cs = calls run s' as' := by
  induction as generalizing s with
  | nil => exact ⟨s, [], infix_nil.mp h⟩
  | cons a as ih =>
    rcases infix_cons_iff.mp h with h | h
    · have hfront : cs <+: calls run s (a :: as) := h
      obtain ⟨as', has'⟩ := calls_front hfront
      exact ⟨s, as', has'⟩
    · exact ih h

/-- Calls that all count `sleep_ms_` up sleep for the times that it runs through. -/
theorem slept_counting (f : UInt8 → UInt8) (s : UInt8) (as : List α)
    (hrun : ∀ s, ∀ a ∈ as, (run s a).slept = some (f s) ∧ (run s a).sleepMs_ = s + 1) :
    (calls run s as).map Call.slept
      = ((List.range as.length).map fun i => f (s + UInt8.ofNat i)).map some := by
  induction as generalizing s with
  | nil => rfl
  | cons a as ih =>
    obtain ⟨hslept, hnext⟩ := hrun s a mem_cons_self
    have ih := ih (s + 1) fun s' a' ha' => hrun s' a' (mem_cons_of_mem _ ha')
    have hrange : (List.range (as.length + 1)).map (fun i => f (s + UInt8.ofNat i))
        = f s :: (List.range as.length).map fun i => f (s + 1 + UInt8.ofNat i) := by
      rw [range_succ_eq_map, map_cons, map_map]
      congr 1
      · show f (s + 0) = f s
        rw [UInt8.add_zero]
      · refine map_congr_left fun i _ => ?_
        show f (s + UInt8.ofNat (i + 1)) = f (s + 1 + UInt8.ofNat i)
        rw [Nat.add_comm, UInt8.ofNat_add, UInt8.add_assoc]
        rfl
    rw [calls, map_cons, hslept, hnext, ih, length_cons, hrange, map_cons]

end Calls

/-- The times `f 0`, .., `f (n - 1)`. -/
theorem rising_range_iff {maxSleepMs : UInt8} {n : ℕ} {f : ℕ → UInt8} :
    Rising maxSleepMs ((List.range n).map f) ↔
      (∀ i j, i < j → j < n → f i ≤ f j) ∧ ∀ i < n, f i ≤ maxSleepMs := by
  rw [Rising, pairwise_map, forall_mem_map, pairwise_iff_getElem]
  simp only [length_range, getElem_range, mem_range]
  constructor
  · rintro ⟨hle, hmax⟩
    exact ⟨fun i j hij hj => hle i j (by omega) hj hij, hmax⟩
  · rintro ⟨hle, hmax⟩
    exact ⟨fun i j _ hj hij => hle i j hij hj, hmax⟩

/-- The times of a streak are read off its calls. -/
theorem Follows.rising {reset maxSleepMs : UInt8} {cs : List Call} (h : Follows reset maxSleepMs cs)
    (hidle : ∀ c ∈ cs, c.work = 0) {ms : List UInt8} (hms : cs.map Call.slept = ms.map some) :
    Rising maxSleepMs ms := by
  obtain ⟨ms', hms', hrise⟩ := h.idle cs infix_rfl hidle
  have hsame : ms.map some = ms'.map some := hms.symm.trans hms'
  have hinj : Function.Injective (some : UInt8 → Option UInt8) := fun _ _ => Option.some.inj
  rw [map_injective_iff.mpr hinj hsame]
  exact hrise

theorem Rising.sublist {maxSleepMs : UInt8} {ms ms' : List UInt8} (h : Rising maxSleepMs ms)
    (hsub : ms'.Sublist ms) : Rising maxSleepMs ms' :=
  ⟨h.1.sublist hsub, fun m hm => h.2 m (hsub.subset hm)⟩

/-- Calls whose times rise throughout rise in every streak. -/
theorem Rising.streak {maxSleepMs : UInt8} {ms : List UInt8} {cs streak : List Call}
    (h : Rising maxSleepMs ms) (hms : cs.map Call.slept = ms.map some) (hstreak : streak <:+: cs) :
    ∃ ms', streak.map Call.slept = ms'.map some ∧ Rising maxSleepMs ms' := by
  obtain ⟨before, after, rfl⟩ := hstreak
  rw [map_append, eq_comm, map_eq_append_iff] at hms
  obtain ⟨ms₁, ms₂, rfl, hms₁, -⟩ := hms
  rw [map_append, map_eq_append_iff] at hms₁
  obtain ⟨ms₀, ms', rfl, -, hms'⟩ := hms₁
  refine ⟨ms', hms'.symm, h.sublist ?_⟩
  exact (sublist_append_right ms₀ ms').trans (sublist_append_left _ ms₂)

/-! ### The scheduler -/

variable {maxSleepMs s : UInt8}

theorem clamped_le (a m : UInt8) : min a m ≤ m := by
  rw [Std.min_eq_if]
  grind

/-- A clamped value is stored back, so it does not wrap below 255. -/
theorem le_clamped_succ (hs : s ≤ maxSleepMs) (hmax : maxSleepMs ≠ 255) :
    s ≤ min (s + 1) maxSleepMs := by
  rw [Std.min_eq_if]
  grind

theorem Counts.work_eq_zero_iff (c : Counts) : c.work = 0 ↔
    c.runTaskCount = 0 ∧ c.epCount ≤ 0 ∧ c.tmCount = 0 ∧ c.slCount = 0 := by
  rw [Counts.work, ← UInt32.toNat_inj, ← UInt32.toNat_inj, ← UInt32.toNat_inj]
  show _ ↔ _ = 0 ∧ _ ∧ _ = 0 ∧ _ = 0
  omega

theorem work_schedulerRun (c : Counts) : (schedulerRun maxSleepMs s c).work = c.work := by
  rw [schedulerRun]
  split_ifs <;> rfl

theorem schedulerRun_idle {c : Counts} (h : c.work = 0) : schedulerRun maxSleepMs s c
    = ⟨0, c.runTaskCount, some (min (s + 1) maxSleepMs), min (s + 1) maxSleepMs⟩ := by
  rw [schedulerRun, if_pos (c.work_eq_zero_iff.mp h), h]

theorem schedulerRun_worked {c : Counts} (h : 0 < c.work) :
    schedulerRun maxSleepMs s c = ⟨c.work, c.runTaskCount, none, 1⟩ := by
  rw [schedulerRun, if_neg]
  intro hidle
  have := c.work_eq_zero_iff.mpr hidle
  omega

/-- **Every idle streak** of the scheduler rises, from the first time on. -/
theorem schedulerRun_streak (hmax : maxSleepMs ≠ 255) (cs : List Counts)
    (hidle : ∀ c ∈ calls (schedulerRun maxSleepMs) s cs, c.work = 0) :
    ∃ ms, (calls (schedulerRun maxSleepMs) s cs).map Call.slept = ms.map some ∧
      Rising maxSleepMs ms ∧ ∀ m ∈ ms, min (s + 1) maxSleepMs ≤ m := by
  induction cs generalizing s with
  | nil => exact ⟨[], rfl, ⟨.nil, nofun⟩, nofun⟩
  | cons c cs ih =>
    rw [calls, forall_mem_cons, work_schedulerRun] at hidle
    obtain ⟨hc, hcs⟩ := hidle
    rw [schedulerRun_idle hc] at hcs
    have hbound := clamped_le (s + 1) maxSleepMs
    have hnext := le_clamped_succ hbound hmax
    obtain ⟨ms, hms, hrise, hfrom⟩ := ih hcs
    have hfirst : ∀ m ∈ ms, min (s + 1) maxSleepMs ≤ m := fun m hm =>
      UInt8.le_trans hnext (hfrom m hm)
    refine ⟨min (s + 1) maxSleepMs :: ms, ?_, ⟨?_, ?_⟩, ?_⟩
    · rw [calls, schedulerRun_idle hc, map_cons, map_cons, hms]
    · exact pairwise_cons.mpr ⟨hfirst, hrise.1⟩
    · exact forall_mem_cons.mpr ⟨hbound, hrise.2⟩
    · exact forall_mem_cons.mpr ⟨UInt8.le_refl _, hfirst⟩

/-- **Below 255** the back-off of the scheduler follows the work. -/
theorem schedulerRun_follows (hmax : maxSleepMs ≠ 255) (cs : List Counts) :
    Follows 1 maxSleepMs (calls (schedulerRun maxSleepMs) s cs) := by
  constructor
  · intro c hc hwork
    obtain ⟨s', a, -, rfl⟩ := exists_of_mem_calls hc
    rw [work_schedulerRun] at hwork
    rw [schedulerRun_worked hwork]
    exact ⟨rfl, rfl⟩
  · intro streak hstreak hidle
    obtain ⟨s', cs', rfl⟩ := calls_streak hstreak
    obtain ⟨ms, hms, hrise, -⟩ := schedulerRun_streak hmax cs' hidle
    exact ⟨ms, hms, hrise⟩

/-- A call that finds nothing to do. -/
def Counts.none : Counts := ⟨0, 0, 0, 0⟩

/-- At 255 nothing is clamped, and `sleep_ms_` wraps. -/
theorem schedulerRun_255 (s : UInt8) : schedulerRun 255 s .none = ⟨0, 0, some (s + 1), s + 1⟩ := by
  have hclamp : min (s + 1) 255 = s + 1 := by
    rw [Std.min_eq_if]
    grind
  rw [schedulerRun_idle rfl, hclamp]
  rfl

theorem schedulerRun_255_not_follows :
    ¬ Follows 1 255 (calls (schedulerRun 255) 0 (List.replicate 256 .none)) := by
  intro h
  have hslept := @slept_counting Counts (schedulerRun 255) (fun s => s + 1) 0
    (List.replicate 256 .none) (by
      intro s c hc
      rw [(mem_replicate.mp hc).2, schedulerRun_255]
      exact ⟨rfl, rfl⟩)
  have hrise := h.rising (by
    intro o ho
    obtain ⟨s, c, hc, rfl⟩ := exists_of_mem_calls ho
    rw [(mem_replicate.mp hc).2, schedulerRun_255]) hslept
  rw [length_replicate] at hrise
  -- the 255th call sleeps for 255 ms, the next one not at all
  have hwrap := (rising_range_iff.mp hrise).1 254 255 (by decide) (by decide)
  exact absurd hwrap (by decide)

/-! ### The thread pool -/

section ThreadPool

variable {ε : Type*}

theorem popElems_eq (elems : List ε) (c : UInt32) : popElems elems c = c := by
  induction elems with
  | nil => rfl
  | cons e elems ih => rw [popElems, ih]

/-- `c` is never incremented: every call sleeps and returns 0. -/
theorem threadPoolRun_eq (elems : List ε) : threadPoolRun maxSleepMs s elems
    = ⟨elems.length, 0, some (min s maxSleepMs), s + 1⟩ := by
  rw [threadPoolRun, popElems_eq]
  rfl

theorem slept_threadPoolRun (maxSleepMs s : UInt8) (elems : List (List ε)) :
    (calls (threadPoolRun maxSleepMs) s elems).map Call.slept
      = ((List.range elems.length).map fun i => min (s + UInt8.ofNat i) maxSleepMs).map some := by
  refine slept_counting (fun s => min s maxSleepMs) s elems fun s' e _ => ?_
  rw [threadPoolRun_eq]
  exact ⟨rfl, rfl⟩

theorem clamped_mono {a b : UInt8} (h : a ≤ b) (m : UInt8) : min a m ≤ min b m := by
  rw [Std.min_eq_if, Std.min_eq_if]
  grind

/-- The first `n` idle times of a pool rise iff `sleep_ms_` has not wrapped, or does not
matter. -/
theorem rising_threadPool_iff {n : ℕ} :
    Rising maxSleepMs ((List.range n).map fun i => min (0 + UInt8.ofNat i) maxSleepMs) ↔
      maxSleepMs = 0 ∨ n ≤ 256 := by
  rw [rising_range_iff]
  constructor
  · rintro ⟨hle, -⟩
    by_contra hne
    obtain ⟨hmax, hn⟩ := not_or.mp hne
    have hwrap := hle 255 256 (by decide) (by omega)
    have hlast : (0 : UInt8) + UInt8.ofNat 255 = 255 := rfl
    have hagain : (0 : UInt8) + UInt8.ofNat 256 = 0 := rfl
    rw [hlast, hagain, Std.min_eq_if, Std.min_eq_if] at hwrap
    grind
  · intro h
    refine ⟨fun i j hij hj => ?_, fun i _ => clamped_le _ _⟩
    rcases h with rfl | hn
    · rw [Std.min_eq_if, Std.min_eq_if]
      grind
    · refine clamped_mono ?_ _
      rw [UInt8.zero_add, UInt8.zero_add, UInt8.le_iff_toNat_le, UInt8.toNat_ofNat', UInt8.toNat_ofNat']
      omega

/-- **The thread pool** follows the work iff it never has any, and has not been idle for
long. -/
theorem threadPoolRun_follows_iff (elems : List (List ε)) :
    (Follows 0 maxSleepMs (calls (threadPoolRun maxSleepMs) 0 elems) ∧
        ∀ c ∈ calls (threadPoolRun maxSleepMs) 0 elems, c.ret.toNat = c.work) ↔
      (∀ es ∈ elems, es = []) ∧ (maxSleepMs = 0 ∨ elems.length ≤ 256) := by
  have hslept := slept_threadPoolRun maxSleepMs 0 elems
  have hidle : (∀ es ∈ elems, es = []) →
      ∀ c ∈ calls (threadPoolRun maxSleepMs) 0 elems, c.work = 0 ∧ c.ret = 0 := by
    intro hnil c hc
    obtain ⟨s', es, hes, rfl⟩ := exists_of_mem_calls hc
    rw [threadPoolRun_eq, hnil es hes]
    exact ⟨rfl, rfl⟩
  constructor
  · rintro ⟨hfollows, hret⟩
    have hnil : ∀ es ∈ elems, es = [] := by
      intro es hes
      obtain ⟨s', hmem⟩ := exists_mem_calls (threadPoolRun maxSleepMs) 0 hes
      have hzero := hret _ hmem
      rw [threadPoolRun_eq] at hzero
      exact eq_nil_of_length_eq_zero hzero.symm
    refine ⟨hnil, rising_threadPool_iff.mp ?_⟩
    exact hfollows.rising (fun c hc => (hidle hnil c hc).1) hslept
  · rintro ⟨hnil, hshort⟩
    refine ⟨⟨fun c hc hwork => ?_, fun streak hstreak _ => ?_⟩, fun c hc => ?_⟩
    · rw [(hidle hnil c hc).1] at hwork
      exact absurd hwork (Nat.lt_irrefl 0)
    · exact (rising_threadPool_iff.mpr hshort).streak hslept hstreak
    · rw [(hidle hnil c hc).1, (hidle hnil c hc).2]
      rfl

end ThreadPool

/-- **When the idle back-offs follow the work.**  The scheduler's does on every sequence of
calls iff `max_sleep_ms` is not 255.  The thread pool's does on a sequence of calls iff none
of them finds an element, and `max_sleep_ms` is 0 or there are at most 256 calls. -/
theorem backoff_follows_iff {ε : Type*} (maxSleepMs : UInt8) :
    ((∀ cs, Follows 1 maxSleepMs (calls (schedulerRun maxSleepMs) 0 cs)) ↔ maxSleepMs ≠ 255) ∧
      ∀ elems : List (List ε),
        (Follows 0 maxSleepMs (calls (threadPoolRun maxSleepMs) 0 elems) ∧
            ∀ c ∈ calls (threadPoolRun maxSleepMs) 0 elems, c.ret.toNat = c.work) ↔
          (∀ es ∈ elems, es = []) ∧ (maxSleepMs = 0 ∨ elems.length ≤ 256) := by
  refine ⟨⟨fun h => ?_, fun hmax cs => schedulerRun_follows hmax cs⟩, threadPoolRun_follows_iff⟩
  rintro rfl
  exact schedulerRun_255_not_follows (h _)

/-- With the default of 20 ms, a pool that finds an element on each of two calls returns 0
twice and sleeps after the second. -/
theorem threadPool_sleeps_at_work :
    calls (threadPoolRun 20) 0 [[()], [()]] = [⟨1, 0, some 0, 1⟩, ⟨1, 0, some 1, 2⟩] ∧
      ¬ Follows 0 20 (calls (threadPoolRun 20) 0 [[()], [()]]) := by
  refine ⟨rfl, fun h => ?_⟩
  have hslept := (h.worked ⟨1, 0, some 1, 2⟩ (.tail _ (.head _)) Nat.one_pos).1
  cases hslept

end IdleBackoff
