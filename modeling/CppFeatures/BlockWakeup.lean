/-
`Scheduler::BlockWakeup` loses waiters.

The loop over the popped list reads `next` of a task after `AddTaskRunnable` has
pushed the task onto another queue, and `push` clears `next`.  So the loop ends
after the first task, and the other popped tasks are in no queue at all.

* `Sched.Rep.blockWakeup_lost` — the tasks that are lost;
* `Sched.wakes_iff` — it does what it promises exactly if at most one waiter is
  to be woken (and the counter does not overflow);
* `Sched.blockWakeup_returns_removed_iff` — the value it returns is the number of
  waiters it removed exactly if there are none.
-/
import CppFeatures.TaskLists

namespace WakeupHeap

open Function

variable {τ π : Type*} [DecidableEq τ] [DecidableEq π]

namespace Sched

/-- **The lost waiters**: all that `BlockWakeup` takes out of the queue, apart from
the first, are in no list afterwards. -/
theorem Rep.blockWakeup_lost {s u : Sched τ π} {L : Loc π → List τ} (h : Rep s L) {k : WaitKey}
    {n ret : ℕ} {passed : List τ} (hn : n < 2 ^ 32)
    (hu : s.blockWakeup k n = some (u, passed, ret)) {x : τ}
    (hx : x ∈ (L (.queue (.wait k))).take n) (hne : (L (.queue (.wait k))).head? ≠ some x)
    {l : Loc π} {xs : List τ} (hl : u.HoldsAt l xs) : x ∉ xs := by
  obtain ⟨hrep, -, -, -, hcreated, -⟩ := h.unlocked hn rfl
  obtain ⟨-, hcons⟩ := h.blockWakeup hn rfl
  have hmem : x ∈ L (.queue (.wait k)) := List.mem_of_mem_take hx
  cases hL : L (.queue (.wait k)) with
  | nil => simp [hL] at hmem
  | cons t ts =>
    obtain ⟨heq, hnone⟩ := hcons t ts hL
    rw [heq, Option.some_inj, Prod.mk.injEq] at hu
    obtain ⟨rfl, -⟩ := hu
    have hxt : x ≠ t := fun hxt => hne (by rw [hL, hxt]; rfl)
    have hc : s.created t = true := h.created (l := .queue (.wait k)) (by rw [hL]; simp)
    obtain ⟨q, -, hadd, -⟩ := hrep.addTaskRunnable hnone (by rw [hcreated]; exact hc)
    have hdrop : x ∉ (L (.queue (.wait k))).drop (min (max 1 n) (L (.queue (.wait k))).length) := by
      refine fun hd => List.disjoint_take_drop (h.holds _).nodup le_rfl ?_ hd
      rw [List.take_eq_take_min] at hx
      exact (List.take_sublist_take_left (by omega)).subset hx
    have hxl := notMem_update (fun h1 h2 => h.disjoint h1 h2) hmem hdrop
    rw [← (hadd.holds l).unique hl, update_apply]
    split_ifs with hq
    · simpa [hxt] using hxl (.queue q)
    · exact hxl l

/-- What `BlockWakeup(k, n)` promises when `ts` wait for `k` and `rs p` is the
runnable list of `p`: the first `min n k` waiters are passed to `AddTaskRunnable`,
once each and in order, and end in their runnable lists; the others keep waiting;
and the counter takes the rest of `n`. -/
def Wakes (s : Sched τ π) (k : WaitKey) (n : ℕ) (ts : List τ) (rs : π → List τ) : Prop :=
  ∃ u ret, s.blockWakeup k n = some (u, ts.take (min n ts.length), ret) ∧
    (∀ p, u.HoldsAt (.queue (.runnable p))
      (rs p ++ (ts.take (min n ts.length)).filter fun t => s.proc_ t = some p)) ∧
    u.HoldsAt (.queue (.wait k)) (ts.drop (min n ts.length)) ∧
    u.counter k = s.counter k + (n - min n ts.length)

theorem counter_addTaskRunnable (s : Sched τ π) (t : τ) (k : WaitKey) :
    (s.addTaskRunnable t).counter k = s.counter k := by
  rw [Sched.addTaskRunnable]
  cases s.proc_ t <;> rfl

/-- **`BlockWakeup` keeps its promise exactly if it has at most one waiter to wake**,
and the counter does not overflow. -/
theorem wakes_iff {s : Sched τ π} (hs : Reach Init step s) {k : WaitKey} {n : ℕ} (hn : 1 ≤ n)
    (hn' : n < 2 ^ 32) {ts : List τ} {rs : π → List τ} (hts : s.HoldsAt (.queue (.wait k)) ts)
    (hrs : ∀ p, s.HoldsAt (.queue (.runnable p)) (rs p)) :
    s.Wakes k n ts rs ↔ min n ts.length ≤ 1 ∧
      (min n ts.length < n → s.counter k + (n - min n ts.length) < 2 ^ 32) := by
  obtain ⟨L, h⟩ := reach_rep s hs
  have hLk : L (.queue (.wait k)) = ts := (h.holds _).unique hts
  have hLp : ∀ p, L (.queue (.runnable p)) = rs p := fun p => (h.holds _).unique (hrs p)
  have hm : min n ts.length = min (max 1 n) (L (.queue (.wait k))).length := by
    rw [hLk]
    omega
  rw [Wakes]
  generalize min n ts.length = m at hm
  obtain ⟨hrep, -, -, hproc, hcreated, hcounter⟩ := h.unlocked hn' hm
  obtain ⟨hnil, hcons⟩ := h.blockWakeup hn' hm
  rw [hLk] at hm hnil hcons hrep
  cases ts with
  | nil =>
    obtain rfl : m = 0 := by rw [hm, List.length_nil, Nat.min_zero]
    rw [hnil rfl]
    rw [if_pos (by omega)] at hcounter
    constructor
    · rintro ⟨u, ret, heq, -, -, hu⟩
      rw [Option.some_inj, Prod.mk.injEq] at heq
      rw [← heq.1, hcounter] at hu
      exact ⟨by omega, fun _ => by omega⟩
    · rintro ⟨-, hlt⟩
      refine ⟨_, _, rfl, fun p => ?_, ?_, ?_⟩
      · have := hrep.holds (.queue (.runnable p))
        rw [update_of_ne (by simp), hLp] at this
        simpa using this
      · have := hrep.holds (.queue (.wait k))
        rwa [update_self] at this
      · rw [hcounter, Nat.mod_eq_of_lt (hlt (by omega))]
  | cons t ts =>
    obtain ⟨heq, hnone⟩ := hcons t ts rfl
    have hmem : t ∈ L (.queue (.wait k)) := by rw [hLk]; exact List.mem_cons_self
    rw [heq]
    rw [← counter_addTaskRunnable _ t] at hcounter
    constructor
    · rintro ⟨u, ret, heq, -, -, hu⟩
      rw [Option.some_inj, Prod.mk.injEq, Prod.mk.injEq] at heq
      obtain ⟨rfl, htake, -⟩ := heq
      -- only one task was passed on, so no more than one was to be
      have hlen := congrArg List.length htake
      rw [List.length_take, List.length_singleton] at hlen
      refine ⟨by omega, fun hlt => ?_⟩
      rw [hcounter, if_pos hlt] at hu
      omega
    · rintro ⟨hle, hlt⟩
      obtain rfl : m = 1 := by rw [List.length_cons] at hm; omega
      obtain ⟨p, hp⟩ := Option.ne_none_iff_exists'.mp (h.proc hmem (by simp))
      obtain ⟨q, hq, hadd, -⟩ := hrep.addTaskRunnable hnone (by rw [hcreated]; exact h.created hmem)
      rw [hproc] at hq
      obtain rfl : q = .runnable p := hq.trans (home_of_some hp)
      have hrun : update L (.queue (.wait k)) (List.drop 1 (t :: ts))
          (.queue (.runnable p)) = rs p := by
        rw [update_of_ne (by simp), hLp]
      rw [hrun] at hadd
      refine ⟨_, _, rfl, fun p' => ?_, ?_, ?_⟩
      · have := hadd.holds (.queue (.runnable p'))
        by_cases hpp : p' = p
        · subst hpp
          rw [update_self] at this
          simpa [hp] using this
        · rw [update_of_ne (by simpa using hpp), update_of_ne (by simp), hLp] at this
          simpa [hp, Ne.symm hpp] using this
      · have := hadd.holds (.queue (.wait k))
        rwa [update_of_ne (by simp), update_self] at this
      · rw [hcounter]
        split_ifs with hlt'
        · exact Nat.mod_eq_of_lt (hlt hlt')
        · omega

/-- **`BlockWakeup` overstates what it did**: it takes `min n k` of the `k` waiters out of
the queue, and the value it returns is their number only if there are none.  The loop
over the popped list counts the task that it passes on a second time. -/
theorem blockWakeup_returns_removed_iff {s : Sched τ π} (hs : Reach Init step s) {k : WaitKey}
    {n : ℕ} (hn : 1 ≤ n) (hn' : n < 2 ^ 32) {ts : List τ}
    (hts : s.HoldsAt (.queue (.wait k)) ts) :
    ∃ u passed ret, s.blockWakeup k n = some (u, passed, ret) ∧
      u.HoldsAt (.queue (.wait k)) (ts.drop (min n ts.length)) ∧
      (ret = min n ts.length ↔ ts = []) := by
  obtain ⟨L, h⟩ := reach_rep s hs
  have hLk : L (.queue (.wait k)) = ts := (h.holds _).unique hts
  have hm : min n ts.length = min (max 1 n) (L (.queue (.wait k))).length := by
    rw [hLk]
    omega
  obtain ⟨hrep, -, -, -, hcreated, -⟩ := h.unlocked hn' hm
  obtain ⟨hnil, hcons⟩ := h.blockWakeup hn' hm
  have hwait := hrep.holds (.queue (.wait k))
  rw [update_self, hLk] at hwait
  rw [hLk] at hnil hcons hrep
  cases ts with
  | nil => exact ⟨_, _, _, hnil rfl, hwait, by simp⟩
  | cons t ts =>
    obtain ⟨heq, hnone⟩ := hcons t ts rfl
    have hc : s.created t = true := h.created (l := .queue (.wait k)) (by rw [hLk]; simp)
    obtain ⟨q, hq, hadd, -⟩ := hrep.addTaskRunnable hnone (by rw [hcreated]; exact hc)
    have hne : Loc.queue (QueueId.wait k) ≠ .queue q := by
      rintro ⟨⟩
      exact home_ne_wait _ _ _ hq.symm
    refine ⟨_, _, _, heq, ?_, ?_⟩
    · have := hadd.holds (.queue (.wait k))
      rwa [update_of_ne hne, update_self] at this
    · -- at least one task was removed, so the count is off by one
      rw [List.length_cons]
      constructor
      · intro hret
        omega
      · intro hnil
        cases hnil

/-- Two tasks of one processer wait for one key. -/
def twoWaiters : Option (Sched ℕ Unit) :=
  exec step new [.createTask 1, .createTask 2, .cherryPick (), .cherryPick (), .beginRun (),
    .userBlock (5, 7), .userBlock (5, 7), .endRun]

theorem reach_twoWaiters : Reach Init step (twoWaiters.get rfl) := by
  have hrun : twoWaiters = some (twoWaiters.get rfl) := rfl
  exact reach_exec _ (.start rfl) hrun

theorem holdsAt_twoWaiters : (twoWaiters.get rfl).HoldsAt (.queue (.wait (5, 7))) [1, 2] ∧
    ∀ p, (twoWaiters.get rfl).HoldsAt (.queue (.runnable p)) [] := by
  refine ⟨⟨rfl, ⟨rfl, rfl, rfl, rfl, rfl, rfl, trivial⟩, rfl, rfl, by decide, by decide⟩, ?_⟩
  rintro ⟨⟩
  exact ⟨rfl, ⟨rfl, rfl, trivial⟩, rfl, rfl, by decide, by simp⟩

/-- With two waiters and `wakeup_count = 2` the second task is in no list afterwards. -/
theorem blockWakeup_loses_waiter : ∃ s u : Sched ℕ Unit, Reach Init step s ∧
    s.HoldsAt (.queue (.wait (5, 7))) [1, 2] ∧
    (∀ p, s.HoldsAt (.queue (.runnable p)) []) ∧
    s.blockWakeup (5, 7) 2 = some (u, [1], 3) ∧ (∀ l ts, u.HoldsAt l ts → 2 ∉ ts) ∧
    ¬ s.Wakes (5, 7) 2 [1, 2] fun _ => [] := by
  obtain ⟨hwait, hrunnable⟩ := holdsAt_twoWaiters
  obtain ⟨L, hL⟩ := reach_rep _ reach_twoWaiters
  have hcall : (twoWaiters.get rfl).blockWakeup (5, 7) 2
      = some ((((twoWaiters.get rfl).blockWakeup (5, 7) 2).get rfl).1, [1], 3) := rfl
  have hLk : L (.queue (.wait (5, 7))) = [1, 2] := (hL.holds _).unique hwait
  refine ⟨_, _, reach_twoWaiters, hwait, hrunnable, hcall, fun l ts hl => ?_, ?_⟩
  · exact hL.blockWakeup_lost (by decide) hcall (by rw [hLk]; decide) (by rw [hLk]; decide) hl
  · rintro ⟨u, ret, heq, -⟩
    rw [hcall, Option.some_inj, Prod.mk.injEq, Prod.mk.injEq] at heq
    exact absurd heq.2.1 (by decide)

/-- With the same waiters and `wakeup_count = 1` the promise is kept. -/
theorem wakes_twoWaiters : ∃ s : Sched ℕ Unit, Reach Init step s ∧
    s.HoldsAt (.queue (.wait (5, 7))) [1, 2] ∧ s.Wakes (5, 7) 1 [1, 2] fun _ => [] := by
  obtain ⟨hwait, hrunnable⟩ := holdsAt_twoWaiters
  exact ⟨_, reach_twoWaiters, hwait,
    (wakes_iff reach_twoWaiters (by decide) (by decide) hwait hrunnable).mpr ⟨by decide, by decide⟩⟩

-- nobody waits for the key
theorem blockWakeup_returns_removed_iff_none : ∃ u passed ret,
    (new : Sched ℕ Unit).blockWakeup (5, 7) 3 = some (u, passed, ret) ∧ ret = 0 := by
  have hreach : Reach Init step (new : Sched ℕ Unit) := .start rfl
  have hnone : (new : Sched ℕ Unit).HoldsAt (.queue (.wait (5, 7))) [] := (rep_init rfl).holds _
  obtain ⟨u, passed, ret, heq, -, hret⟩ :=
    blockWakeup_returns_removed_iff hreach (n := 3) (by decide) (by decide) hnone
  exact ⟨u, passed, ret, heq, hret.mpr rfl⟩

/-- One of two waiters is removed, and the value returned is 2. -/
theorem blockWakeup_returns_two : ∃ s u : Sched ℕ Unit, Reach Init step s ∧
    s.HoldsAt (.queue (.wait (5, 7))) [1, 2] ∧ s.blockWakeup (5, 7) 1 = some (u, [1], 2) ∧
    u.HoldsAt (.queue (.wait (5, 7))) [2] := by
  refine ⟨_, _, reach_twoWaiters, holdsAt_twoWaiters.1, rfl, rfl, ⟨rfl, rfl, rfl, rfl, trivial⟩,
    rfl, rfl, by decide, by decide⟩

end Sched

end WakeupHeap
