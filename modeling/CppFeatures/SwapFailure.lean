/-
`Processer::Run` when `swapcontext` fails (coroutine/processer.cpp).

`Run` pops the whole runnable list and resumes its tasks one after the other.  When
`swapcontext` returns an error, it pushes the task it could not resume and throws; the
popped list, with the tasks it has resumed and those still to come, is a local variable.

* `Lists.Homed` — the tasks in the runnable list of a processer belong to it;
* `Lists.Tracks` — where the tasks of a pass can be: ended, in the popped list, back in
  the runnable list, or in a wait queue;
* `Sched.Rep.swapFailed` — what the failure leaves;
* `Sched.swapFailed_keeps_iff` — no task is lost exactly if the popped list holds no
  other task.
-/
import CppFeatures.TaskLists

namespace WakeupHeap

open Function List

variable {τ π : Type*} [DecidableEq π]

/-- The queues in which a task waits. -/
def QueueId.waits : QueueId π → Bool
  | .wait _ | .other _ => true
  | _ => false

/-! ### Tasks stay with their processer -/

namespace Lists

variable {A A' : Lists τ π} {a : Act τ π} {ended : List τ}

/-- The tasks of a runnable list, and of the pass, belong to its processer. -/
structure Homed (A : Lists τ π) : Prop where
  runnable : ∀ {p t}, t ∈ A.tasks (.queue (.runnable p)) → A.proc_ t = some p
  slist : ∀ {t}, t ∈ A.tasks .slist → A.proc_ t = A.pass

/-- No task is in two lists, and the tasks in lists have been made. -/
structure Apart (A : Lists τ π) : Prop where
  disjoint : ∀ {l l' t}, t ∈ A.tasks l → t ∈ A.tasks l' → l = l'
  created : ∀ {l t}, t ∈ A.tasks l → A.created t = true

theorem mem_set {l l' : Loc π} {ts : List τ} {t : τ} :
    t ∈ (A.set l ts).tasks l' ↔ l' = l ∧ t ∈ ts ∨ l' ≠ l ∧ t ∈ A.tasks l' := by
  by_cases hl : l' = l
  · subst hl
    simp [set]
  · simp [set, hl]

theorem mem_push {q : QueueId π} {l : Loc π} {t u : τ} :
    u ∈ (A.push q t).tasks l ↔ u ∈ A.tasks l ∨ l = .queue q ∧ u = t := by
  rw [push, mem_set]
  by_cases hl : l = .queue q
  · subst hl
    simp
  · simp [hl]

theorem mem_endPass {p : π} {l : Loc π} {t : τ} : t ∈ (A.endPass p).tasks l ↔
    l ≠ .slist ∧ t ∈ A.tasks l ∨ l = .queue (.runnable p) ∧ t ∈ A.tasks .slist := by
  show t ∈ ((A.set .slist []).set (.queue (.runnable p)) _).tasks l ↔ _
  rw [mem_set, mem_set]
  by_cases hl : l = .queue (.runnable p)
  · subst hl
    simp
  · simp [hl]

/-- Tasks that leave the list of the pass for a wait queue. -/
theorem Homed.park (h : A.Homed) {t : τ} {b c : List τ} (hcur : A.tasks .slist = b ++ t :: c)
    {q : QueueId π} (hq : q.waits = true) : ((A.set .slist (b ++ c)).push q t).Homed := by
  constructor
  · intro p u hu
    rcases mem_push.mp hu with hu | ⟨heq, -⟩
    · rcases mem_set.mp hu with ⟨heq, -⟩ | ⟨-, hu⟩
      · cases heq
      · exact h.runnable hu
    · rw [← Loc.queue.inj heq] at hq
      cases hq
  · intro u hu
    refine h.slist ?_
    rcases mem_push.mp hu with hu | ⟨heq, -⟩
    · rcases mem_set.mp hu with ⟨-, hu⟩ | ⟨hne, -⟩
      · rw [hcur]
        exact perm_middle.mem_iff.mpr (mem_cons_of_mem t hu)
      · exact absurd rfl hne
    · cases heq

/-- A task that is taken out of a wait queue goes to its own processer. -/
theorem Homed.wake (h : A.Homed) {t : τ} {q : QueueId π} (hq : q.waits = true) {ts : List τ} :
    ((A.set (.queue q) ts).push (home A.proc_ t) t).Homed := by
  constructor
  · intro p u hu
    rcases mem_push.mp hu with hu | ⟨heq, rfl⟩
    · rcases mem_set.mp hu with ⟨heq, -⟩ | ⟨-, hu⟩
      · rw [← Loc.queue.inj heq] at hq
        cases hq
      · exact h.runnable hu
    · have hhome := Loc.queue.inj heq
      rw [home] at hhome
      show A.proc_ u = some p
      cases hp : A.proc_ u with
      | none => simp [hp] at hhome
      | some p' =>
        rw [hp] at hhome
        rw [QueueId.runnable.inj hhome]
  · intro u hu
    rcases mem_push.mp hu with hu | ⟨heq, -⟩
    · rcases mem_set.mp hu with ⟨heq, -⟩ | ⟨-, hu⟩
      · cases heq
      · exact h.slist hu
    · cases heq

theorem Homed.endPass (h : A.Homed) {p : π} (hpass : A.pass = some p) : (A.endPass p).Homed := by
  constructor
  · intro p' u hu
    rcases mem_endPass.mp hu with ⟨-, hu⟩ | ⟨heq, hm⟩
    · exact h.runnable hu
    · obtain rfl : p' = p := by simpa using heq
      exact (h.slist hm).trans hpass
  · intro u hu
    rcases mem_endPass.mp hu with ⟨hne, -⟩ | ⟨heq, -⟩
    · exact absurd rfl hne
    · cases heq

/-- A list of the pass from which a task is missing. -/
theorem Homed.erase (h : A.Homed) {t : τ} {b c : List τ} (hcur : A.tasks .slist = b ++ t :: c) :
    (A.set .slist (b ++ c)).Homed := by
  constructor
  · intro p u hu
    rcases mem_set.mp hu with ⟨heq, -⟩ | ⟨-, hu⟩
    · cases heq
    · exact h.runnable hu
  · intro u hu
    refine h.slist ?_
    rcases mem_set.mp hu with ⟨-, hu⟩ | ⟨hne, -⟩
    · rw [hcur]
      exact perm_middle.mem_iff.mpr (mem_cons_of_mem t hu)
    · exact absurd rfl hne

variable [DecidableEq τ] in
/-- **One step** leaves tasks with their processers. -/
theorem Homed.step (h : A.Homed) (hapart : A.Apart) (hst : A.Step a ended A') : A'.Homed := by
  cases hst with
  | @createTask t hnew =>
    -- the new task is in no list, so no other task's processer changes
    have hne : ∀ {l u}, u ∈ A.tasks l → u ≠ t := by
      rintro l u hu rfl
      rw [hapart.created hu] at hnew
      cases hnew
    constructor
    · intro p u hu
      rcases mem_push.mp hu with hu | ⟨heq, -⟩
      · exact (update_of_ne (hne hu) ..).trans (h.runnable hu)
      · cases heq
    · intro u hu
      rcases mem_push.mp hu with hu | ⟨heq, -⟩
      · exact (update_of_ne (hne hu) ..).trans (h.slist hu)
      · cases heq
  | @cherryPick p t ts hidle hpend =>
    have ht : t ∈ A.tasks (.queue .runTasks) := hpend ▸ mem_cons_self
    have hne : ∀ {l u}, l ≠ .queue .runTasks → u ∈ A.tasks l → u ≠ t := by
      rintro l u hl hu rfl
      exact hl (hapart.disjoint hu ht)
    constructor
    · intro p' u hu
      rcases mem_push.mp hu with hu | ⟨heq, rfl⟩
      · rcases mem_set.mp hu with ⟨heq, -⟩ | ⟨hl, hu⟩
        · cases heq
        · exact (update_of_ne (hne hl hu) ..).trans (h.runnable hu)
      · obtain rfl : p' = p := by simpa using heq
        exact update_self ..
    · intro u hu
      rcases mem_push.mp hu with hu | ⟨heq, -⟩
      · rcases mem_set.mp hu with ⟨heq, -⟩ | ⟨hl, hu⟩
        · cases heq
        · exact (update_of_ne (hne hl hu) ..).trans (h.slist hu)
      · cases heq
  | @beginRun p hidle =>
    constructor
    · intro p' u hu
      rcases mem_set.mp hu with ⟨-, hu⟩ | ⟨-, hu⟩
      · cases hu
      · rcases mem_set.mp hu with ⟨heq, -⟩ | ⟨-, hu⟩
        · cases heq
        · exact h.runnable hu
    · intro u hu
      rcases mem_set.mp hu with ⟨heq, -⟩ | ⟨-, hu⟩
      · cases heq
      · rcases mem_set.mp hu with ⟨-, hu⟩ | ⟨hne, -⟩
        · exact h.runnable hu
        · exact absurd rfl hne
  | yield => exact h
  | permit => exact h
  | userBlock hcur => exact h.park hcur rfl
  | block hcur => exact h.park hcur rfl
  | finish hcur => exact h.erase hcur
  | finishThrow hpass hcur => exact (h.erase hcur).endPass hpass
  | endRun hpass => exact h.endPass hpass
  | unblock hat => exact h.wake rfl
  | tryUserBlockWait => exact h
  | noWaiter hat => exact h
  | blockWakeup hat => exact h.wake rfl

/-! ### The tasks of a pass -/

variable {p : π} {xs fin : List τ}

/-- A pass of `p` over the tasks `xs`, of which `fin` have ended.  The popped list holds
tasks of the pass only; and each of them that has not ended is in the popped list, back
in the runnable list, or in a wait queue. -/
structure Tracks (p : π) (xs fin : List τ) (A : Lists τ π) : Prop where
  pass : A.pass = some p
  proc : ∀ x ∈ xs, A.proc_ x = some p
  created : ∀ x ∈ xs, A.created x = true
  slist : ∀ x ∈ A.tasks .slist, x ∈ xs ∧ x ∉ fin
  held : ∀ x ∈ xs, x ∈ fin ∨ x ∈ A.tasks .slist ∨ x ∈ A.tasks (.queue (.runnable p)) ∨
    ∃ q, q.waits = true ∧ x ∈ A.tasks (.queue q)

theorem tracks_beginRun (h : A.Homed) (hapart : A.Apart) :
    Tracks p (A.tasks (.queue (.runnable p))) [] (({ A with pass := some p }.set .slist
      (A.tasks (.queue (.runnable p)))).set (.queue (.runnable p)) []) where
  pass := rfl
  proc _ hx := h.runnable hx
  created _ hx := hapart.created hx
  slist x hx := by
    rcases mem_set.mp hx with ⟨heq, -⟩ | ⟨-, hx⟩
    · cases heq
    · rcases mem_set.mp hx with ⟨-, hx⟩ | ⟨hne, -⟩
      · exact ⟨hx, by simp⟩
      · exact absurd rfl hne
  held x hx := .inr (.inl (mem_set.mpr (.inr ⟨by simp, mem_set.mpr (.inl ⟨rfl, hx⟩)⟩)))

/-- A task is taken out of a wait queue, and passed to `AddTaskRunnable`. -/
theorem Tracks.wake (h : A.Tracks p xs fin) {t : τ} {q : QueueId π} (hq : q.waits = true)
    {ts : List τ} (hts : ∀ x ∈ A.tasks (.queue q), x = t ∨ x ∈ ts) :
    ((A.set (.queue q) ts).push (home A.proc_ t) t).Tracks p xs fin where
  pass := h.pass
  proc := h.proc
  created := h.created
  slist x hx := by
    refine h.slist x ?_
    rcases mem_push.mp hx with hx | ⟨heq, -⟩
    · rcases mem_set.mp hx with ⟨heq, -⟩ | ⟨-, hx⟩
      · cases heq
      · exact hx
    · cases heq
  held x hx := by
    rcases h.held x hx with hx' | hx' | hx' | ⟨q', hq', hx'⟩
    · exact .inl hx'
    · exact .inr (.inl (mem_push.mpr (.inl (mem_set.mpr (.inr ⟨by simp, hx'⟩)))))
    · refine .inr (.inr (.inl (mem_push.mpr (.inl (mem_set.mpr (.inr ⟨?_, hx'⟩))))))
      intro heq
      rw [← Loc.queue.inj heq] at hq
      cases hq
    · by_cases hqq : q' = q
      · subst hqq
        rcases hts x hx' with rfl | hx'
        · -- the task that is woken belongs to this processer
          exact .inr (.inr (.inl (mem_push.mpr (.inr
            ⟨by rw [home_of_some (h.proc x hx)], rfl⟩))))
        · exact .inr (.inr (.inr ⟨q', hq', mem_push.mpr (.inl (mem_set.mpr (.inl ⟨rfl, hx'⟩)))⟩))
      · exact .inr (.inr (.inr ⟨q', hq', mem_push.mpr (.inl (mem_set.mpr (.inr
          ⟨by simpa using hqq, hx'⟩)))⟩))

variable [DecidableEq τ]

/-- A task of the pass leaves the popped list for a wait queue. -/
theorem Tracks.park (h : A.Tracks p xs fin) {t : τ} {b c : List τ}
    (hcur : A.tasks .slist = b ++ t :: c) {q : QueueId π} (hq : q.waits = true) :
    ((A.set .slist (b ++ c)).push q t).Tracks p xs fin where
  pass := h.pass
  proc := h.proc
  created := h.created
  slist x hx := by
    refine h.slist x ?_
    rcases mem_push.mp hx with hx | ⟨heq, -⟩
    · rcases mem_set.mp hx with ⟨-, hx⟩ | ⟨hne, -⟩
      · rw [hcur]
        exact perm_middle.mem_iff.mpr (mem_cons_of_mem t hx)
      · exact absurd rfl hne
    · cases heq
  held x hx := by
    rcases h.held x hx with hx | hx | hx | ⟨q', hq', hx⟩
    · exact .inl hx
    · by_cases hxt : x = t
      · exact .inr (.inr (.inr ⟨q, hq, mem_push.mpr (.inr ⟨rfl, hxt⟩)⟩))
      · refine .inr (.inl (mem_push.mpr (.inl (mem_set.mpr (.inl ⟨rfl, ?_⟩)))))
        rw [hcur] at hx
        exact (mem_cons.mp (perm_middle.mem_iff.mp hx)).resolve_left hxt
    · exact .inr (.inr (.inl (mem_push.mpr (.inl (mem_set.mpr (.inr ⟨by simp, hx⟩))))))
    · exact .inr (.inr (.inr ⟨q', hq', mem_push.mpr (.inl (mem_set.mpr (.inr ⟨by simp, hx⟩)))⟩))

/-- The steps of a pass in progress.  A `BlockWakeup` that takes out more than one waiter is
left out: it loses all but the first by itself. -/
def InPass (A : Lists τ π) : Act τ π → Prop
  | .endRun | .finishThrow => False
  | .blockWakeup k n => n ≤ 1 ∨ (A.tasks (.queue (.wait k))).length ≤ 1
  | _ => True

/-- **One step of a pass** keeps track of its tasks. -/
theorem Tracks.step (h : A.Tracks p xs fin) (hnodup : (A.tasks .slist).Nodup) (ha : A.InPass a)
    (hst : A.Step a ended A') : A'.Tracks p xs (fin ++ ended) := by
  have hbusy : A.pass ≠ none := by simp [h.pass]
  cases hst with
  | @createTask t hnew =>
    have hne : ∀ x ∈ xs, x ≠ t := by
      rintro x hx rfl
      rw [h.created x hx] at hnew
      cases hnew
    rw [append_nil]
    refine ⟨h.pass, fun x hx => ?_, fun x hx => ?_, fun x hx => ?_, fun x hx => ?_⟩
    · exact (update_of_ne (hne x hx) ..).trans (h.proc x hx)
    · exact (update_of_ne (hne x hx) ..).trans (h.created x hx)
    · rcases mem_push.mp hx with hx | ⟨heq, -⟩
      · exact h.slist x hx
      · cases heq
    · rcases h.held x hx with hx | hx | hx | ⟨q, hq, hx⟩
      · exact .inl hx
      · exact .inr (.inl (mem_push.mpr (.inl hx)))
      · exact .inr (.inr (.inl (mem_push.mpr (.inl hx))))
      · exact .inr (.inr (.inr ⟨q, hq, mem_push.mpr (.inl hx)⟩))
  | cherryPick hidle => exact absurd hidle hbusy
  | beginRun hidle => exact absurd hidle hbusy
  | yield => rwa [append_nil]
  | permit => rwa [append_nil]
  | userBlock hcur =>
    rw [append_nil]
    exact h.park hcur rfl
  | block hcur =>
    rw [append_nil]
    exact h.park hcur rfl
  | @finish t b c hcur =>
    have hnot : t ∉ b ++ c := by
      rw [hcur] at hnodup
      exact (nodup_cons.mp (perm_middle.nodup_iff.mp hnodup)).1
    refine ⟨h.pass, h.proc, h.created, fun x hx => ?_, fun x hx => ?_⟩
    · rcases mem_set.mp hx with ⟨-, hx⟩ | ⟨hne, -⟩
      · have hmem : x ∈ A.tasks .slist := by
          rw [hcur]
          exact perm_middle.mem_iff.mpr (mem_cons_of_mem t hx)
        refine ⟨(h.slist x hmem).1, ?_⟩
        rw [mem_append, mem_singleton]
        rintro (hfin | rfl)
        · exact (h.slist x hmem).2 hfin
        · exact hnot hx
      · exact absurd rfl hne
    · rw [mem_append, mem_singleton]
      rcases h.held x hx with hx | hx | hx | ⟨q, hq, hx⟩
      · exact .inl (.inl hx)
      · by_cases hxt : x = t
        · exact .inl (.inr hxt)
        · refine .inr (.inl (mem_set.mpr (.inl ⟨rfl, ?_⟩)))
          rw [hcur] at hx
          exact (mem_cons.mp (perm_middle.mem_iff.mp hx)).resolve_left hxt
      · exact .inr (.inr (.inl (mem_set.mpr (.inr ⟨by simp, hx⟩))))
      · exact .inr (.inr (.inr ⟨q, hq, mem_set.mpr (.inr ⟨by simp, hx⟩)⟩))
  | finishThrow => exact ha.elim
  | endRun => exact ha.elim
  | @unblock i n t b c hat =>
    rw [append_nil]
    refine h.wake rfl fun x hx => ?_
    rw [hat, mem_append, mem_cons] at hx
    rw [mem_append]
    tauto
  | tryUserBlockWait => rwa [append_nil]
  | noWaiter => rwa [append_nil]
  | @blockWakeup k n t ts hat =>
    rw [append_nil]
    refine h.wake rfl fun x hx => ?_
    have hdrops : n ≤ 1 ∨ (A.tasks (.queue (.wait k))).length ≤ 1 := ha
    rw [hat, mem_cons] at hx
    rcases hdrops with hle | hlen
    · -- all other waiters stay
      rwa [show n - 1 = 0 by omega, drop_zero]
    · -- there is no other
      rw [hat, length_cons] at hlen
      rw [eq_nil_of_length_eq_zero (l := ts) (by omega)] at hx
      exact .inl (hx.resolve_right not_mem_nil)

end Lists

/-! ### The failure -/

namespace Sched

variable [DecidableEq τ]

/-- `Run` when `swapcontext` fails for the task at its iterator: `runnable_list_.push(tk)`,
and an exception leaves the function. -/
def swapFailed (s : Sched τ π) (P : Pass τ π) (t : τ) : Sched τ π :=
  { s.push (.runnable P.proc) t with pass := none }

/-- The tasks that end in a sequence of steps. -/
def finishedIn (s : Sched τ π) : List (Act τ π) → List τ
  | [] => []
  | a :: acts => s.ended a ++ (match s.step a with
    | some u => u.finishedIn acts
    | none => [])

omit [DecidableEq π] [DecidableEq τ] in
theorem HasLists.apart {s : Sched τ π} {A : Lists τ π} (h : s.HasLists A) : A.Apart where
  disjoint := h.rep.disjoint
  created ht := by
    rw [h.created]
    exact h.rep.created ht

/-- Every reachable state has its lists, with tasks at home. -/
theorem reach_homed : ∀ s : Sched τ π, Reach Init step s → ∃ A, s.HasLists A ∧ A.Homed :=
  ReachIf.invariant
    (fun s h => ⟨⟨fun _ => [], s.proc_, s.created, s.pass.map Pass.proc⟩,
      ⟨rep_init h, rfl, rfl, rfl⟩, ⟨by simp, by simp⟩⟩)
    fun _ _ _ ⟨_, h, hhome⟩ _ hst => by
      obtain ⟨A', hst', h'⟩ := step_lists h hst
      exact ⟨A', h', hhome.step h.apart hst'⟩

/-- The steps of a pass, in the state in which they are made: `BlockWakeup` drops no waiter. -/
def InPass (s : Sched τ π) : Act τ π → Prop
  | .endRun | .finishThrow => False
  | .blockWakeup k n => ∀ ts, s.HoldsAt (.queue (.wait k)) ts → n ≤ 1 ∨ ts.length ≤ 1
  | _ => True

omit [DecidableEq π] [DecidableEq τ] in
theorem HasLists.inPass {s : Sched τ π} {A : Lists τ π} (h : s.HasLists A) {a : Act τ π}
    (ha : s.InPass a) : A.InPass a := by
  cases a with
  | blockWakeup k n => exact ha _ (h.rep.holds _)
  | _ => exact ha

/-- **The steps of a pass** keep track of its tasks. -/
theorem HasLists.tracks {s u : Sched τ π} {A : Lists τ π} {p : π} {xs fin : List τ}
    (h : s.HasLists A) (htracks : A.Tracks p xs fin) {acts : List (Act τ π)}
    (hacts : StepsOk step InPass s acts) (hrun : exec step s acts = some u) :
    ∃ A', u.HasLists A' ∧ A'.Tracks p xs (fin ++ s.finishedIn acts) := by
  induction acts generalizing s A fin with
  | nil =>
    cases hrun
    rw [finishedIn, append_nil]
    exact ⟨A, h, htracks⟩
  | cons a acts ih =>
    rw [exec, Option.bind_eq_some_iff] at hrun
    obtain ⟨v, hv, hrun⟩ := hrun
    obtain ⟨A₁, hst, h₁⟩ := step_lists h hv
    obtain ⟨ha, hrest⟩ := hacts v hv
    have hstep := htracks.step (h.rep.holds .slist).nodup (h.inPass ha) hst
    obtain ⟨A', h', htracks'⟩ := ih h₁ hstep hrest hrun
    refine ⟨A', h', ?_⟩
    rw [finishedIn, hv, ← append_assoc]
    exact htracks'

/-- **What the failure leaves**: the task is at the back of the runnable list, and the
popped list is gone. -/
theorem Rep.swapFailed {s : Sched τ π} {L : Loc π → List τ} (h : Rep s L) {P : Pass τ π} {t : τ}
    (hcur : s.current = some (P, t)) : Rep (s.swapFailed P t)
      (update (update L .slist []) (.queue (.runnable P.proc))
        (L (.queue (.runnable P.proc)) ++ [t])) := by
  obtain ⟨a, b, hL, -⟩ := h.current_split hcur
  have ht : t ∈ L .slist := by rw [hL]; simp
  obtain ⟨hhead, hrep⟩ := h.queue (q := .runnable P.proc) rfl
  have hnot : Node.task t ∉ (s.queues (.runnable P.proc)).head_ ::
      (L (.queue (.runnable P.proc))).map Node.task := by
    rw [hhead]
    intro hm
    have := h.disjoint ht (Loc.task_mem_nodes (l := .queue (.runnable P.proc)).mp hm)
    cases this
  obtain ⟨hrep', hhead', heq⟩ := hrep.push (x := .task t) hnot
  refine h.endPass rfl heq ?_ (hhead'.trans hhead) ?_ ?_
  · intro y hy
    rw [hhead] at hy
    rcases mem_cons.mp hy with rfl | hy
    · exact .inr ⟨t, ht, rfl⟩
    · exact .inl hy
  · rw [map_append]
    exact hrep'
  · intro u hu
    rw [mem_singleton.mp hu]
    exact ht

/-- A pass of `p` over the tasks `xs` up to the task `t` for which `swapcontext` fails.
The steps are those of the tasks resumed before it, and of anyone else. -/
structure FailsAt (s₀ : Sched τ π) (p : π) (xs : List τ) (acts : List (Act τ π)) (s : Sched τ π)
    (P : Pass τ π) (t : τ) : Prop where
  reach : Reach Init step s₀
  popped : s₀.HoldsAt (.queue (.runnable p)) xs
  idle : s₀.pass = none
  inPass : StepsOk step InPass (s₀.beginRun p) acts
  run : exec step (s₀.beginRun p) acts = some s
  current : s.current = some (P, t)

/-- The task is in a wait queue. -/
def Parked (s : Sched τ π) (x : τ) : Prop :=
  ∃ q ts, QueueId.waits q = true ∧ s.HoldsAt (.queue q) ts ∧ x ∈ ts

/-- The runnable list of `p` is a queue that holds every task of the pass once, apart
from those that have ended or wait. -/
def Keeps (s : Sched τ π) (p : π) (xs fin : List τ) : Prop :=
  ∃ rs, s.HoldsAt (.queue (.runnable p)) rs ∧ ∀ x ∈ xs, x ∉ fin → ¬ s.Parked x → rs.count x = 1

/-- The lists when `swapcontext` fails, and where the tasks of the pass are in them. -/
theorem FailsAt.lists {s₀ s : Sched τ π} {p : π} {xs : List τ} {acts : List (Act τ π)}
    {P : Pass τ π} {t : τ} (h : FailsAt s₀ p xs acts s P t) :
    P.proc = p ∧ ∃ A : Lists τ π, s.HasLists A ∧ A.Tracks p xs ((s₀.beginRun p).finishedIn acts) := by
  obtain ⟨A₀, h₀, hhome⟩ := reach_homed s₀ h.reach
  have hxs : A₀.tasks (.queue (.runnable p)) = xs := (h₀.rep.holds _).unique h.popped
  have htracks := Lists.tracks_beginRun (p := p) hhome h₀.apart
  have hbegin : (s₀.beginRun p).HasLists (({ A₀ with pass := some p }.set .slist
      (A₀.tasks (.queue (.runnable p)))).set (.queue (.runnable p)) []) :=
    ⟨h₀.rep.beginRun p, h₀.proc, h₀.created, rfl⟩
  obtain ⟨A, hA, htr⟩ := hbegin.tracks htracks h.inPass h.run
  rw [hxs, nil_append] at htr
  obtain ⟨hP, -⟩ := current_eq h.current
  have hpass := hA.pass
  rw [htr.pass, hP] at hpass
  exact ⟨(Option.some_inj.mp hpass).symm, A, hA, htr⟩

/-- The failure leaves the wait queues alone. -/
theorem Rep.parked_swapFailed {s : Sched τ π} {L : Loc π → List τ} (h : Rep s L) {P : Pass τ π}
    {t : τ} (hcur : s.current = some (P, t)) (x : τ) :
    (s.swapFailed P t).Parked x ↔ ∃ q, QueueId.waits q = true ∧ x ∈ L (.queue q) := by
  have hsame : ∀ q : QueueId π, q.waits = true →
      (s.swapFailed P t).HoldsAt (.queue q) (L (.queue q)) := by
    intro q hq
    have hholds := (h.swapFailed hcur).holds (.queue q)
    have hne : q ≠ .runnable P.proc := by
      rintro rfl
      cases hq
    rwa [update_of_ne (by simpa using hne), update_of_ne (by simp)] at hholds
  constructor
  · rintro ⟨q, ts, hq, hts, hx⟩
    exact ⟨q, hq, (hsame q hq).unique hts ▸ hx⟩
  · rintro ⟨q, hq, hx⟩
    exact ⟨q, _, hq, hsame q hq, hx⟩

/-- **`Run` loses no task when `swapcontext` fails** exactly if the popped list holds no
task but the one it could not resume: every task resumed before it has left the list,
and it is the last. -/
theorem swapFailed_keeps_iff {s₀ s : Sched τ π} {p : π} {xs : List τ} {acts : List (Act τ π)}
    {P : Pass τ π} {t : τ} (h : FailsAt s₀ p xs acts s P t) :
    (s.swapFailed P t).Keeps p xs ((s₀.beginRun p).finishedIn acts) ↔ s.HoldsAt .slist [t] := by
  obtain ⟨rfl, A, hA, htr⟩ := h.lists
  have hparked := hA.rep.parked_swapFailed h.current
  have hrun := (hA.rep.swapFailed h.current).holds (.queue (.runnable P.proc))
  rw [update_self] at hrun
  obtain ⟨b, c, hsl, hnot⟩ := hA.rep.current_split h.current
  have hslist := hA.rep.holds .slist
  constructor
  · rintro ⟨rs, hrs, hkeeps⟩
    obtain rfl := hrun.unique hrs
    -- another task of the list would have to be in the runnable list as well
    have hnone : b ++ c = [] := by
      refine eq_nil_iff_forall_not_mem.mpr fun x hx => ?_
      have hmem : x ∈ A.tasks .slist := by
        rw [hsl]
        exact perm_middle.mem_iff.mpr (mem_cons_of_mem t hx)
      obtain ⟨hxs, hfin⟩ := htr.slist x hmem
      have hcount := hkeeps x hxs hfin fun hpark => by
        obtain ⟨q, -, hq⟩ := (hparked x).mp hpark
        cases hA.rep.disjoint hmem hq
      have hin : x ∈ A.tasks (.queue (.runnable P.proc)) ++ [t] :=
        count_pos_iff.mp (by omega)
      rcases mem_append.mp hin with hin | hin
      · cases hA.rep.disjoint hmem hin
      · exact hnot (mem_singleton.mp hin ▸ hx)
    obtain ⟨rfl, rfl⟩ := append_eq_nil_iff.mp hnone
    rwa [hsl] at hslist
  · intro hone
    have hsl' : A.tasks .slist = [t] := hslist.unique hone
    refine ⟨_, hrun, fun x hx hfin hpark => count_eq_one_of_mem hrun.nodup ?_⟩
    rw [mem_append, mem_singleton]
    rcases htr.held x hx with h1 | h1 | h1 | h1
    · exact absurd h1 hfin
    · rw [hsl', mem_singleton] at h1
      exact .inr h1
    · exact .inl h1
    · exact absurd ((hparked x).mpr h1) hpark

/-- The tasks `1, …, n` in the runnable list of the only processer. -/
def runnableTasks (n : ℕ) : Option (Sched ℕ Unit) :=
  exec step new ((List.range' 1 n).map .createTask ++ List.replicate n (.cherryPick ()))

theorem reach_runnableTasks (n : ℕ) (h : (runnableTasks n).isSome) :
    Reach Init step ((runnableTasks n).get h) := by
  have hrun : runnableTasks n = some ((runnableTasks n).get h) := (Option.some_get h).symm
  exact reach_exec _ (.start rfl) hrun

/-- The first task waits, the second wakes it, with a count of two, and ends. -/
def wakeAndEnd : List (Act ℕ Unit) := [.userBlock ⟨0, 0⟩, .blockWakeup ⟨0, 0⟩ 2, .finish]

-- `swapcontext` fails for the third task, the only one that is left in the popped list
theorem swapFailed_keeps_iff_third :
    ∃ s₀ s P, FailsAt (s₀ : Sched ℕ Unit) () [1, 2, 3] wakeAndEnd s P 3 ∧
      (s.swapFailed P 3).Keeps () [1, 2, 3] [2] := by
  have hpopped : ((runnableTasks 3).get rfl).HoldsAt (.queue (.runnable ())) [1, 2, 3] :=
    ⟨rfl, ⟨rfl, rfl, rfl, rfl, rfl, rfl, rfl, rfl, trivial⟩, rfl, rfl, by decide, by decide⟩
  have hwaits : (((((runnableTasks 3).get rfl).beginRun ()).step (.userBlock ⟨0, 0⟩)).get rfl).HoldsAt
      (.queue (.wait ⟨0, 0⟩)) [1] :=
    ⟨rfl, ⟨rfl, rfl, rfl, rfl, trivial⟩, rfl, rfl, by decide, by decide⟩
  have hsteps : StepsOk step InPass (((runnableTasks 3).get rfl).beginRun ()) wakeAndEnd := by
    refine .cons rfl trivial (.cons rfl (fun ts hts => .inr ?_) (.cons rfl trivial trivial))
    rw [hts.unique hwaits]
    decide
  have hfails : FailsAt ((runnableTasks 3).get rfl) () [1, 2, 3] wakeAndEnd
      ((exec step (((runnableTasks 3).get rfl).beginRun ()) wakeAndEnd).get rfl) _ 3 :=
    ⟨reach_runnableTasks 3 rfl, hpopped, rfl, hsteps, rfl, rfl⟩
  refine ⟨_, _, _, hfails, (swapFailed_keeps_iff hfails).mpr ?_⟩
  exact ⟨⟨⟨rfl, rfl, trivial⟩, rfl, rfl, rfl, by decide, by decide⟩, fun _ => rfl, [], [3], rfl, rfl⟩

/-- Two runnable tasks, and `swapcontext` fails for the first: the second is in no list
any more. -/
theorem swapFailed_loses_task : ∃ s₀ s P, FailsAt (s₀ : Sched ℕ Unit) () [1, 2] [] s P 1 ∧
    (s.swapFailed P 1).HoldsAt (.queue (.runnable ())) [1] ∧
    (∀ l ts, (s.swapFailed P 1).HoldsAt l ts → 2 ∉ ts) ∧
    ¬ (s.swapFailed P 1).Keeps () [1, 2] [] := by
  have hpopped : ((runnableTasks 2).get rfl).HoldsAt (.queue (.runnable ())) [1, 2] :=
    ⟨rfl, ⟨rfl, rfl, rfl, rfl, rfl, rfl, trivial⟩, rfl, rfl, by decide, by decide⟩
  have hslist : (((runnableTasks 2).get rfl).beginRun ()).HoldsAt .slist [1, 2] :=
    ⟨⟨⟨rfl, rfl, rfl, rfl, trivial⟩, rfl, rfl, rfl, by decide, by decide⟩, fun _ => rfl,
      [], [1, 2], rfl, rfl⟩
  have hfails : FailsAt ((runnableTasks 2).get rfl) () [1, 2] []
      (((runnableTasks 2).get rfl).beginRun ()) _ 1 :=
    ⟨reach_runnableTasks 2 rfl, hpopped, rfl, trivial, rfl, rfl⟩
  obtain ⟨L, hL⟩ := reach_rep _ hfails.reach
  have hrep := (hL.beginRun ()).swapFailed hfails.current
  have hlists : ∀ l, 2 ∈ L l → l = .queue (.runnable ()) := fun l hl =>
    hL.disjoint hl (((hL.holds _).unique hpopped).symm ▸ by simp)
  refine ⟨_, _, _, hfails, ⟨rfl, ⟨rfl, rfl, rfl, rfl, trivial⟩, rfl, rfl, by decide, by decide⟩,
    fun l ts hts hm => ?_, fun hkeeps => ?_⟩
  · rw [← (hrep.holds l).unique hts] at hm
    simp only [update_apply] at hm
    split_ifs at hm with hl hl'
    · simp at hm
    · simp at hm
    · exact hl (hlists l hm)
  · -- the popped list holds both tasks, and not the first alone
    rcases hkeeps with ⟨rs, hrs, hkeeps⟩
    have hone : rs = [1] := hrs.unique ⟨rfl, ⟨rfl, rfl, rfl, rfl, trivial⟩, rfl, rfl, by decide,
      by decide⟩
    have hcount := hkeeps 2 (by simp) (by simp) fun ⟨q, ts, hq, hts, hm⟩ => by
      rw [← (hrep.holds (.queue q)).unique hts] at hm
      cases q with
      | runTasks => cases hq
      | runnable p => cases hq
      | wait k => exact absurd (hlists _ hm) (by simp)
      | other i => exact absurd (hlists _ hm) (by simp)
    rw [hone] at hcount
    simp at hcount

end Sched

end WakeupHeap
