/-
The lists of tasks behind the scheduler's queues.

Every queue of the scheduler, and the list of a pass in progress, stands for a list of
tasks, and the operations on hooks move tasks between these lists.

* `Sched.Rep` — each location holds its list, and no task is in two of them;
* `Lists` and `Lists.Step` — the scheduler on lists, without pointers;
* `Sched.step_lists` — every step on the heap is a step on the lists;
* `Sched.reach_lists` — so every reachable state has its lists.
-/
import CppFeatures.WakeupHeap

namespace WakeupHeap

open Function List

variable {τ π : Type*}

/-- Where a task can be. -/
inductive Loc (π : Type*)
  | queue (q : QueueId π)
  | slist
deriving DecidableEq, Repr

/-- The nodes of the list at a location. -/
def Loc.nodes : Loc π → List τ → List (Node τ π)
  | .queue q, ts => .sentinel q :: ts.map .task
  | .slist, ts => ts.map .task

theorem Loc.task_mem_nodes {l : Loc π} {ts : List τ} {t : τ} :
    Node.task t ∈ l.nodes ts ↔ t ∈ ts := by
  cases l <;> simp [Loc.nodes]

theorem Loc.eq_of_sentinel_mem {l : Loc π} {ts : List τ} {q : QueueId π}
    (h : Node.sentinel q ∈ l.nodes ts) : l = .queue q := by
  cases l with
  | queue q' =>
    simp only [Loc.nodes, mem_cons, Node.sentinel.injEq, mem_map] at h
    rcases h with h | ⟨t, -, h⟩
    · rw [h]
    · cases h
  | slist =>
    simp only [Loc.nodes, mem_map] at h
    obtain ⟨t, -, h⟩ := h
    cases h

/-- The queue that `AddTaskRunnable` puts a task into. -/
def home (proc_ : τ → Option π) (t : τ) : QueueId π :=
  match proc_ t with
  | some p => .runnable p
  | none => .runTasks

theorem home_of_some {proc_ : τ → Option π} {t : τ} {p : π} (h : proc_ t = some p) :
    home proc_ t = .runnable p := by
  rw [home, h]

theorem home_ne_wait (proc_ : τ → Option π) (t : τ) (k : WaitKey) : home proc_ t ≠ .wait k := by
  rw [home]
  cases proc_ t <;> simp

namespace Sched

/-- The location holds the tasks `ts`. -/
def HoldsAt (s : Sched τ π) : Loc π → List τ → Prop
  | .queue q, ts => match s.queueAt q with
    | some tsq => tsq.head_ = .sentinel q ∧ tsq.Represents s.hooks q (ts.map .task)
    | none => ts = []
  | .slist, ts => match s.pass with
    | some P => P.slist.Represents s.hooks (ts.map .task) ∧
        (ts ≠ [] → P.slist.check_ = some (.runnable P.proc)) ∧
        ∃ a b, ts = a ++ b ∧ P.it = b.head?.map .task
    | none => ts = []

theorem HoldsAt.nodup {s : Sched τ π} {l : Loc π} {ts : List τ} (h : s.HoldsAt l ts) :
    ts.Nodup := by
  cases l with
  | queue q =>
    rw [HoldsAt] at h
    cases hq : s.queueAt q with
    | none =>
      simp only [hq] at h
      exact h ▸ .nil
    | some tsq =>
      simp only [hq] at h
      exact .of_map _ (nodup_cons.mp h.2.nodup).2
  | slist =>
    rw [HoldsAt] at h
    cases hp : s.pass with
    | none =>
      simp only [hp] at h
      exact h ▸ .nil
    | some P =>
      simp only [hp] at h
      exact .of_map _ h.1.nodup

/-- The tasks at each location, none of them at two. -/
structure Rep (s : Sched τ π) (L : Loc π → List τ) : Prop where
  holds : ∀ l, s.HoldsAt l (L l)
  disjoint : ∀ {l l' t}, t ∈ L l → t ∈ L l' → l = l'
  created : ∀ {l t}, t ∈ L l → s.created t = true
  proc : ∀ {l t}, t ∈ L l → l ≠ .queue .runTasks → s.proc_ t ≠ none

/-- A location's own record is the same in both states. -/
def Same (s s' : Sched τ π) : Loc π → Prop
  | .queue q => s'.queueAt q = s.queueAt q
  | .slist => s'.pass = s.pass

theorem HoldsAt.frame {s s' : Sched τ π} {l : Loc π} {ts : List τ} {S : List (Node τ π)}
    (h : s.HoldsAt l ts) (hsame : Same s s' l) (heq : Hooks.EqOff S s.hooks s'.hooks)
    (hd : ∀ y ∈ l.nodes ts, y ∉ S) : s'.HoldsAt l ts := by
  cases l with
  | queue q =>
    have hsame' : s'.queueAt q = s.queueAt q := hsame
    simp only [HoldsAt, hsame'] at h ⊢
    cases hq : s.queueAt q with
    | none => simpa only [hq] using h
    | some tsq =>
      simp only [hq] at h
      refine ⟨h.1, h.2.frame heq ?_⟩
      rw [h.1]
      exact hd
  | slist =>
    have hsame' : s'.pass = s.pass := hsame
    simp only [HoldsAt, hsame'] at h ⊢
    cases hP : s.pass with
    | none => simpa only [hP] using h
    | some P =>
      simp only [hP] at h
      exact ⟨h.1.frame heq hd, h.2⟩

/-- **The general step**: an operation rewrites the lists at the locations `D`,
writing to their nodes and to tasks that are in no list. -/
theorem Rep.change {s u : Sched τ π} {L L' : Loc π → List τ} {D : Loc π → Prop}
    {S : List (Node τ π)} (h : Rep s L) (heq : Hooks.EqOff S s.hooks u.hooks)
    (hS : ∀ y ∈ S, (∃ l, D l ∧ y ∈ l.nodes (L l)) ∨
      (∃ q, D (.queue q) ∧ y = .sentinel q) ∨ ∃ t, y = .task t ∧ ∀ l, t ∉ L l)
    (hoff : ∀ l, ¬D l → L' l = L l ∧ Same s u l) (hon : ∀ l, D l → u.HoldsAt l (L' l))
    (hfrom : ∀ l t, D l → t ∈ L' l →
      (∃ l', D l' ∧ t ∈ L l') ∨ (∀ l', t ∉ L l') ∧ u.created t = true)
    (hdis : ∀ l l' t, D l → D l' → t ∈ L' l → t ∈ L' l' → l = l')
    (hproc : ∀ l t, D l → t ∈ L' l → l ≠ .queue .runTasks → u.proc_ t ≠ none)
    (hcr : ∀ t, s.created t = true → u.created t = true)
    (hpr : ∀ l t, t ∈ L l → s.proc_ t ≠ none → u.proc_ t ≠ none) : Rep u L' := by
  refine ⟨fun l => ?_, ?_, fun {l t} ht => ?_, fun {l t} ht hne => ?_⟩
  · by_cases hl : D l
    · exact hon l hl
    · obtain ⟨hL, hsame⟩ := hoff l hl
      rw [hL]
      refine (h.holds l).frame hsame heq fun y hy hyS => ?_
      rcases hS y hyS with ⟨l', hl', hy'⟩ | ⟨q, hq, rfl⟩ | ⟨t, rfl, ht⟩
      · cases y with
        | task t =>
          rw [Loc.task_mem_nodes] at hy hy'
          exact hl (h.disjoint hy hy' ▸ hl')
        | sentinel q =>
          exact hl (Loc.eq_of_sentinel_mem hy ▸ Loc.eq_of_sentinel_mem hy' ▸ hl')
      · exact hl (Loc.eq_of_sentinel_mem hy ▸ hq)
      · exact ht l (Loc.task_mem_nodes.mp hy)
  · -- a task in two lists: neither list, one of them or both were rewritten
    have hmixed : ∀ {l l' t}, D l → ¬D l' → t ∈ L' l → t ∈ L' l' → l = l' := by
      intro l l' t hl hl' ht ht'
      rw [(hoff l' hl').1] at ht'
      rcases hfrom l t hl ht with ⟨l'', hl'', ht''⟩ | ⟨hnone, -⟩
      · exact absurd (h.disjoint ht'' ht' ▸ hl'') hl'
      · exact absurd ht' (hnone l')
    intro l l' t ht ht'
    by_cases hl : D l <;> by_cases hl' : D l'
    · exact hdis l l' t hl hl' ht ht'
    · exact hmixed hl hl' ht ht'
    · exact (hmixed hl' hl ht' ht).symm
    · rw [(hoff l hl).1] at ht
      rw [(hoff l' hl').1] at ht'
      exact h.disjoint ht ht'
  · by_cases hl : D l
    · rcases hfrom l t hl ht with ⟨l', -, ht'⟩ | ⟨-, hc⟩
      · exact hcr t (h.created ht')
      · exact hc
    · rw [(hoff l hl).1] at ht
      exact hcr t (h.created ht)
  · by_cases hl : D l
    · exact hproc l t hl ht hne
    · rw [(hoff l hl).1] at ht
      exact hpr l t ht (h.proc ht hne)

theorem queueAt_of_not_wait {s : Sched τ π} {q : QueueId π} (hq : ∀ k, q ≠ .wait k) :
    s.queueAt q = some (s.queues q) := by
  cases q with
  | wait k => exact absurd rfl (hq k)
  | _ => rfl

theorem Rep.queue {s : Sched τ π} {L : Loc π → List τ} (h : Rep s L) {q : QueueId π}
    {tsq : TSQueue (Node τ π)} (hq : s.queueAt q = some tsq) :
    tsq.head_ = .sentinel q ∧ tsq.Represents s.hooks q ((L (.queue q)).map .task) := by
  have := h.holds (.queue q)
  simpa only [HoldsAt, hq] using this

theorem Rep.slist {s : Sched τ π} {L : Loc π → List τ} (h : Rep s L) {P : Pass τ π}
    (hP : s.pass = some P) :
    P.slist.Represents s.hooks ((L .slist).map .task) ∧
      (L .slist ≠ [] → P.slist.check_ = some (.runnable P.proc)) ∧
      ∃ a b, L .slist = a ++ b ∧ P.it = b.head?.map .task := by
  have := h.holds .slist
  simpa only [HoldsAt, hP] using this

variable [DecidableEq π]

/-- `change` for an operation on a single location. -/
theorem Rep.change_one {s u : Sched τ π} {L : Loc π → List τ} {l₀ : Loc π} {ts : List τ}
    {S : List (Node τ π)} (h : Rep s L) (heq : Hooks.EqOff S s.hooks u.hooks)
    (hS : ∀ y ∈ S, y ∈ l₀.nodes (L l₀) ∨ ∃ t, y = .task t ∧ ∀ l, t ∉ L l)
    (hoff : ∀ l, l ≠ l₀ → Same s u l) (hon : u.HoldsAt l₀ ts)
    (hfrom : ∀ t ∈ ts, t ∈ L l₀ ∨ (∀ l, t ∉ L l) ∧ u.created t = true)
    (hproc : ∀ t ∈ ts, l₀ ≠ .queue .runTasks → u.proc_ t ≠ none)
    (hcr : ∀ t, s.created t = true → u.created t = true)
    (hpr : ∀ l t, t ∈ L l → s.proc_ t ≠ none → u.proc_ t ≠ none) :
    Rep u (update L l₀ ts) := by
  refine h.change (D := (· = l₀)) heq ?_ ?_ ?_ ?_ ?_ ?_ hcr hpr
  · intro y hy
    rcases hS y hy with hy | hy
    · exact .inl ⟨l₀, rfl, hy⟩
    · exact .inr (.inr hy)
  · exact fun l hl => ⟨update_of_ne hl .., hoff l hl⟩
  · rintro l rfl
    rwa [update_self]
  · rintro l t rfl ht
    rw [update_self] at ht
    exact (hfrom t ht).imp_left fun ht => ⟨l, rfl, ht⟩
  · rintro l l' t rfl rfl - -
    rfl
  · rintro l t rfl ht
    rw [update_self] at ht
    exact hproc t ht

/-- Setting one queue outside the table. -/
theorem queueAt_update {s u : Sched τ π} {q : QueueId π} {b : TSQueue (Node τ π)}
    (hqs : u.queues = update s.queues q b)
    (htbl : u.userWaitTasks_ = s.userWaitTasks_) {q' : QueueId π} (hne : q' ≠ q) :
    u.queueAt q' = s.queueAt q' := by
  cases q' with
  | wait k => simp only [queueAt, htbl]
  | _ => simp only [queueAt, hqs, update_of_ne hne]

theorem queueAt_update_self {s u : Sched τ π} {q : QueueId π} {b : TSQueue (Node τ π)}
    (hq : ∀ k, q ≠ .wait k) (hqs : u.queues = update s.queues q b) :
    u.queueAt q = some b := by
  rw [queueAt_of_not_wait hq, hqs, update_self]

theorem same_update {s u : Sched τ π} {q : QueueId π} {b : TSQueue (Node τ π)}
    (hqs : u.queues = update s.queues q b)
    (htbl : u.userWaitTasks_ = s.userWaitTasks_) (hpass : u.pass = s.pass) {l : Loc π}
    (hl : l ≠ .queue q) : Same s u l := by
  cases l with
  | slist => exact hpass
  | queue q' => exact queueAt_update hqs htbl fun e => hl (e ▸ rfl)

/-- Dropping a task from the list at one location. -/
theorem notMem_update {L : Loc π → List τ} {l₀ : Loc π} {ts : List τ} {t : τ}
    (h : ∀ {l l' t}, t ∈ L l → t ∈ L l' → l = l') (ht : t ∈ L l₀) (hts : t ∉ ts) (l : Loc π) :
    t ∉ update L l₀ ts l := by
  by_cases hl : l = l₀
  · subst hl
    rwa [update_self]
  · rw [update_of_ne hl]
    exact fun hm => hl (h hm ht)

variable [DecidableEq τ]

/-- **`push`** of a task that is in no list. -/
theorem Rep.push {s : Sched τ π} {L : Loc π → List τ} (h : Rep s L) {q : QueueId π} {t : τ}
    (hq : ∀ k, q ≠ .wait k) (ht : ∀ l, t ∉ L l) (hc : s.created t = true)
    (hp : q ≠ .runTasks → s.proc_ t ≠ none) :
    Rep (s.push q t) (update L (.queue q) (L (.queue q) ++ [t])) ∧
      (s.push q t).hooks.next (.task t) = none := by
  obtain ⟨hhead, hrep⟩ := h.queue (queueAt_of_not_wait hq)
  have hnot : Node.task t ∉ (s.queues q).head_ :: (L (.queue q)).map Node.task := by
    rw [hhead]
    exact fun hm => ht (.queue q) (Loc.task_mem_nodes (l := .queue q).mp hm)
  obtain ⟨hrep', hhead', heq⟩ := hrep.push (x := .task t) hnot
  refine ⟨h.change_one heq ?_ (fun l hl => same_update (s := s) (u := s.push q t) rfl rfl rfl hl)
    ?_ ?_ ?_ (fun _ h => h) (fun _ _ _ h => h), Links.next_setNext⟩
  · intro y hy
    rw [mem_cons] at hy
    rcases hy with rfl | hy
    · exact .inr ⟨t, rfl, ht⟩
    · rw [hhead] at hy
      exact .inl hy
  · have hat : (s.push q t).queueAt q = some (TSQueue.push s.hooks q (s.queues q) (.task t)).2 :=
      queueAt_update_self hq rfl
    simp only [HoldsAt, hat, map_append, map_singleton]
    exact ⟨hhead'.trans hhead, hrep'⟩
  · intro u hu
    rcases mem_append.mp hu with hu | hu
    · exact .inl hu
    · rw [mem_singleton] at hu
      exact .inr ⟨hu ▸ ht, hu ▸ hc⟩
  · intro u hu hne
    rcases mem_append.mp hu with hu | hu
    · exact h.proc hu hne
    · rw [mem_singleton] at hu
      exact hu ▸ hp fun e => hne (e ▸ rfl)

/-- **`AddTaskRunnable`** of a task that is in no list appends it to its runnable
list, or to `run_tasks_`. -/
theorem Rep.addTaskRunnable {s : Sched τ π} {L : Loc π → List τ} (h : Rep s L) {t : τ}
    (ht : ∀ l, t ∉ L l) (hc : s.created t = true) :
    ∃ q, q = home s.proc_ t ∧
      Rep (s.addTaskRunnable t) (update L (.queue q) (L (.queue q) ++ [t])) ∧
      (s.addTaskRunnable t).hooks.next (.task t) = none := by
  rw [Sched.addTaskRunnable, home]
  cases hp : s.proc_ t with
  | some p => exact ⟨_, rfl, h.push (by simp) ht hc (by simp [hp])⟩
  | none => exact ⟨_, rfl, h.push (by simp) ht hc (by simp)⟩

theorem addTaskRunnable_frame (s : Sched τ π) (t : τ) :
    (s.addTaskRunnable t).proc_ = s.proc_ ∧ (s.addTaskRunnable t).created = s.created ∧
      (s.addTaskRunnable t).pass = s.pass := by
  rw [Sched.addTaskRunnable]
  cases s.proc_ t <;> exact ⟨rfl, rfl, rfl⟩

omit [DecidableEq π] [DecidableEq τ] in
theorem current_eq {s : Sched τ π} {P : Pass τ π} {t : τ} (hcur : s.current = some (P, t)) :
    s.pass = some P ∧ P.it = some (.task t) := by
  rw [current] at hcur
  cases hpass : s.pass with
  | none => simp [hpass] at hcur
  | some P' =>
    cases hit : P'.it with
    | none => simp [hpass, hit] at hcur
    | some y =>
      cases y with
      | sentinel q => simp [hpass, hit] at hcur
      | task u =>
        simp only [hpass, hit, Option.some_inj, Prod.mk.injEq] at hcur
        obtain ⟨rfl, rfl⟩ := hcur
        exact ⟨rfl, hit⟩

omit [DecidableEq π] [DecidableEq τ] in
/-- The iterator splits the list of the pass at the current task. -/
theorem Rep.current_split {s : Sched τ π} {L : Loc π → List τ} (h : Rep s L) {P : Pass τ π} {t : τ}
    (hcur : s.current = some (P, t)) :
    ∃ a b, L .slist = a ++ t :: b ∧ t ∉ a ++ b := by
  obtain ⟨hP, hit⟩ := current_eq hcur
  obtain ⟨hrep, -, a, b, hL, hitb⟩ := h.slist hP
  rw [hit] at hitb
  cases b with
  | nil => simp at hitb
  | cons u b =>
    simp only [List.head?_cons, Option.map_some, Option.some_inj, Node.task.injEq] at hitb
    subst hitb
    have hnd : (a ++ t :: b).Nodup := by
      have := hrep.nodup
      rw [hL] at this
      exact List.Nodup.of_map _ this
    exact ⟨a, b, hL, (nodup_cons.mp (perm_middle.nodup_iff.mp hnd)).1⟩

/-- **`it = slist.erase(it)`.** -/
theorem Rep.eraseCurrent {s : Sched τ π} {L : Loc π → List τ} (h : Rep s L) {P : Pass τ π} {t : τ}
    (hcur : s.current = some (P, t)) {a b : List τ} (hL : L .slist = a ++ t :: b) :
    Rep (s.eraseCurrent P t) (update L .slist (a ++ b)) := by
  obtain ⟨hP, -⟩ := current_eq hcur
  obtain ⟨hrep, hcheck, -⟩ := h.slist hP
  have hsub : ∀ u ∈ a ++ b, u ∈ L .slist := by
    intro u hu
    rw [hL]
    rw [mem_append] at hu ⊢
    exact hu.imp_right (mem_cons_of_mem t)
  rw [hL, map_append, map_cons] at hrep
  obtain ⟨hrep', hit', heq⟩ := hrep.erase
  refine h.change_one heq ?_ ?_ ?_ ?_ ?_ (fun _ h => h) (fun _ _ _ h => h)
  · intro y hy
    left
    rw [hL, Loc.nodes, map_append, map_cons]
    exact hy
  · intro l hl
    cases l with
    | slist => exact absurd rfl hl
    | queue q => exact rfl
  · have hpass : (s.eraseCurrent P t).pass = some ⟨P.proc,
        (SList.erase s.hooks P.slist (.task t)).2.1, (SList.erase s.hooks P.slist (.task t)).2.2⟩ :=
      rfl
    simp only [HoldsAt, hpass, map_append]
    refine ⟨hrep', fun _ => hcheck (by rw [hL]; simp), a, b, rfl, ?_⟩
    rw [hit', List.head?_map]
  · exact fun u hu => .inl (hsub u hu)
  · exact fun u hu _ => h.proc (hsub u hu) (by simp)

omit [DecidableEq τ] in
/-- **`++it`.** -/
theorem Rep.advance {s : Sched τ π} {L : Loc π → List τ} (h : Rep s L) {P : Pass τ π} {t : τ}
    (hcur : s.current = some (P, t)) {a b : List τ} (hL : L .slist = a ++ t :: b) :
    Rep (s.advance P t) L := by
  obtain ⟨hP, -⟩ := current_eq hcur
  obtain ⟨hrep, hcheck, -⟩ := h.slist hP
  have hnext : s.hooks.next (.task t) = b.head?.map .task := by
    have hseg := hrep.seg
    rw [hL, map_append, map_cons] at hseg
    rw [hseg.next_eq, Option.or_none, List.head?_map]
  have hself : update L .slist (L .slist) = L := update_eq_self ..
  rw [← hself]
  refine h.change_one (S := []) .refl (by simp) ?_ ?_ (fun _ hu => .inl hu)
    (fun _ hu _ => h.proc hu (by simp)) (fun _ h => h) (fun _ _ _ h => h)
  · intro l hl
    cases l with
    | slist => exact absurd rfl hl
    | queue q => exact rfl
  · have hpass : (s.advance P t).pass = some { P with it := s.hooks.next (.task t) } := rfl
    simp only [HoldsAt, hpass]
    exact ⟨hrep, hcheck, a ++ [t], b, by rw [hL]; simp, hnext⟩

/-- **The start of a pass** moves the runnable list to the pass. -/
theorem Rep.beginRun {s : Sched τ π} {L : Loc π → List τ} (h : Rep s L) (p : π) :
    Rep (s.beginRun p) (update (update L .slist (L (.queue (.runnable p))))
      (.queue (.runnable p)) []) := by
  obtain ⟨hhead, hrep⟩ := h.queue (q := .runnable p) rfl
  obtain ⟨hrep', hsl, hhead', heq⟩ := hrep.popAll
  refine h.change (D := fun l => l = .queue (.runnable p) ∨ l = .slist) heq ?_ ?_ ?_ ?_ ?_ ?_
    (fun _ h => h) (fun _ _ _ h => h)
  · intro y hy
    rw [hhead] at hy
    exact .inl ⟨_, .inl rfl, hy⟩
  · intro l hl
    rw [not_or] at hl
    refine ⟨by rw [update_of_ne hl.1, update_of_ne hl.2], ?_⟩
    cases l with
    | slist => exact absurd rfl hl.2
    | queue q =>
      exact queueAt_update (s := s) (u := s.beginRun p) rfl rfl fun e => hl.1 (congrArg _ e)
  · rintro l (rfl | rfl)
    · rw [update_self]
      have hat : (s.beginRun p).queueAt (.runnable p) = some
          (TSQueue.popAll s.hooks (.runnable p) (s.queues (.runnable p))).2.1 :=
        queueAt_update_self (s := s) (by simp) rfl
      simp only [HoldsAt, hat]
      exact ⟨hhead'.trans hhead, hrep'⟩
    · rw [update_of_ne (by simp), update_self]
      have hpass' : (s.beginRun p).pass = some ⟨p,
          (TSQueue.popAll s.hooks (.runnable p) (s.queues (.runnable p))).2.2,
          (TSQueue.popAll s.hooks (.runnable p) (s.queues (.runnable p))).2.2.head_⟩ := rfl
      simp only [HoldsAt, hpass']
      refine ⟨hsl, fun hne => ?_, [], _, rfl, by rw [hsl.head, List.head?_map]⟩
      exact hrep.popAll_check (by simpa using hne)
  · rintro l t (rfl | rfl) ht
    · rw [update_self] at ht
      cases ht
    · rw [update_of_ne (by simp), update_self] at ht
      exact .inl ⟨_, .inl rfl, ht⟩
  · rintro l l' t (rfl | rfl) (rfl | rfl) ht ht'
    · rfl
    · rw [update_self] at ht
      cases ht
    · rw [update_self] at ht'
      cases ht'
    · rfl
  · rintro l t (rfl | rfl) ht -
    · rw [update_self] at ht
      cases ht
    · rw [update_of_ne (by simp), update_self] at ht
      exact h.proc ht (by simp)

omit [DecidableEq τ] in
/-- **The end of a pass** that gives the tasks `ys` of its list back to the runnable
list. -/
theorem Rep.endPass {s u : Sched τ π} {L : Loc π → List τ} (h : Rep s L) {p : π}
    {tsq : TSQueue (Node τ π)} {S : List (Node τ π)} {ys : List τ}
    (hu : u = { s with
      hooks := u.hooks, queues := update s.queues (.runnable p) tsq, pass := none })
    (heq : Hooks.EqOff S s.hooks u.hooks)
    (hS : ∀ y ∈ S, y ∈ (Loc.queue (.runnable p)).nodes (L (.queue (.runnable p))) ∨
      ∃ t ∈ L .slist, y = .task t)
    (hhead : tsq.head_ = .sentinel (.runnable p))
    (hrep : tsq.Represents u.hooks (.runnable p) ((L (.queue (.runnable p)) ++ ys).map .task))
    (hys : ∀ t ∈ ys, t ∈ L .slist) :
    Rep u (update (update L .slist []) (.queue (.runnable p))
      (L (.queue (.runnable p)) ++ ys)) := by
  have hqueues : u.queues = update s.queues (.runnable p) tsq := by rw [hu]
  have htbl : u.userWaitTasks_ = s.userWaitTasks_ := by rw [hu]
  have hpass : u.pass = none := by rw [hu]
  have hproc : u.proc_ = s.proc_ := by rw [hu]
  have hcreated : u.created = s.created := by rw [hu]
  refine h.change (D := fun l => l = .queue (.runnable p) ∨ l = .slist) heq ?_ ?_ ?_ ?_ ?_ ?_
    (fun _ h => hcreated ▸ h) (fun _ _ _ h => hproc ▸ h)
  · intro y hy
    rcases hS y hy with hy | ⟨t, ht, rfl⟩
    · exact .inl ⟨_, .inl rfl, hy⟩
    · exact .inl ⟨_, .inr rfl, Loc.task_mem_nodes.mpr ht⟩
  · intro l hl
    rw [not_or] at hl
    refine ⟨by rw [update_of_ne hl.1, update_of_ne hl.2], ?_⟩
    cases l with
    | slist => exact absurd rfl hl.2
    | queue q => exact queueAt_update hqueues htbl fun e => hl.1 (congrArg _ e)
  · rintro l (rfl | rfl)
    · rw [update_self]
      simp only [HoldsAt, queueAt_update_self (s := s) (by simp) hqueues]
      exact ⟨hhead, hrep⟩
    · rw [update_of_ne (by simp), update_self]
      simp only [HoldsAt, hpass]
  · rintro l t (rfl | rfl) ht
    · rw [update_self] at ht
      rcases mem_append.mp ht with ht | ht
      · exact .inl ⟨_, .inl rfl, ht⟩
      · exact .inl ⟨_, .inr rfl, hys t ht⟩
    · rw [update_of_ne (by simp), update_self] at ht
      cases ht
  · rintro l l' t (rfl | rfl) (rfl | rfl) ht ht'
    · rfl
    · rw [update_of_ne (by simp), update_self] at ht'
      cases ht'
    · rw [update_of_ne (by simp), update_self] at ht
      cases ht
    · rfl
  · rintro l t (rfl | rfl) ht -
    · rw [update_self] at ht
      rw [hproc]
      rcases mem_append.mp ht with ht | ht
      · exact h.proc ht (by simp)
      · exact h.proc (hys t ht) (by simp)
    · rw [update_of_ne (by simp), update_self] at ht
      cases ht

/-- `runnable_list_.push(slist)`. -/
theorem Rep.endRun {s : Sched τ π} {L : Loc π → List τ} (h : Rep s L) {P : Pass τ π}
    (hP : s.pass = some P) :
    Rep (s.endRun P) (update (update L .slist []) (.queue (.runnable P.proc))
      (L (.queue (.runnable P.proc)) ++ L .slist)) := by
  obtain ⟨hhead, hrep⟩ := h.queue (q := .runnable P.proc) rfl
  obtain ⟨hsl, hcheck, -⟩ := h.slist hP
  have hdisj : ∀ y ∈ (L .slist).map Node.task,
      y ∉ (s.queues (.runnable P.proc)).head_ :: (L (.queue (.runnable P.proc))).map Node.task := by
    intro y hy hy'
    obtain ⟨t, ht, rfl⟩ := mem_map.mp hy
    rw [hhead] at hy'
    have := h.disjoint ht (Loc.task_mem_nodes (l := .queue (.runnable P.proc)).mp hy')
    cases this
  obtain ⟨hrep', hhead', heq⟩ := hrep.pushList hsl (fun hne => hcheck (by simpa using hne)) hdisj
  rw [← map_append] at hrep' heq
  refine h.endPass rfl heq ?_ (hhead'.trans hhead) hrep' fun _ ht => ht
  intro y hy
  rw [hhead, mem_cons] at hy
  rcases hy with rfl | hy
  · exact .inl mem_cons_self
  · obtain ⟨t, ht, rfl⟩ := mem_map.mp hy
    rcases mem_append.mp ht with ht | ht
    · exact .inl (Loc.task_mem_nodes.mpr ht)
    · exact .inr ⟨t, ht, rfl⟩

theorem Rep.createTask {s : Sched τ π} {L : Loc π → List τ} (h : Rep s L) {t : τ}
    (hnew : s.created t = false) :
    Rep (s.createTask t)
      (update L (.queue .runTasks) (L (.queue .runTasks) ++ [t])) := by
  have ht : ∀ l, t ∉ L l := fun l hm => by
    rw [h.created hm] at hnew
    cases hnew
  have hself : update L .slist (L .slist) = L := update_eq_self ..
  have hblank : Rep { s with
      hooks := s.hooks.reset (.task t)
      proc_ := update s.proc_ t none
      created := update s.created t true } (update L .slist (L .slist)) := by
    have heq : Hooks.EqOff [Node.task t] s.hooks (s.hooks.reset (.task t)) :=
      Hooks.EqOff.refl.reset (mem_singleton_self _)
    have hne : ∀ {l u}, u ∈ L l → u ≠ t := fun hu e => ht _ (e ▸ hu)
    refine h.change_one heq ?_ ?_ ?_ (fun u hu => .inl hu) ?_ ?_ ?_
    · intro y hy
      rw [mem_singleton] at hy
      exact .inr ⟨t, hy, ht⟩
    · intro l _
      cases l <;> exact rfl
    · refine (h.holds .slist).frame rfl heq fun y hy hy' => ?_
      rw [mem_singleton] at hy'
      subst hy'
      exact ht _ (Loc.task_mem_nodes.mp hy)
    · intro u hu _
      show update s.proc_ t none u ≠ none
      rw [update_of_ne (hne hu)]
      exact h.proc hu (by simp)
    · intro u hu
      show update s.created t true u = true
      by_cases he : u = t
      · rw [he, update_self]
      · rwa [update_of_ne he]
    · intro l u hu hp
      show update s.proc_ t none u ≠ none
      rwa [update_of_ne (hne hu)]
  rw [hself] at hblank
  obtain ⟨q, hq, hrep, -⟩ := hblank.addTaskRunnable ht (update_self ..)
  have hhome : q = .runTasks := by
    rw [hq, home]
    simp only [update_self]
  rwa [hhome] at hrep

theorem Rep.cherryPick {s u : Sched τ π} {L : Loc π → List τ} (h : Rep s L) {p : π}
    (hst : s.cherryPick p = some u) : ∃ t ts, L (.queue .runTasks) = t :: ts ∧
      Rep u (update (update L (.queue .runTasks) ts) (.queue (.runnable p))
        (L (.queue (.runnable p)) ++ [t])) ∧
      u.proc_ = update s.proc_ t (some p) ∧ u.created = s.created ∧
      u.pass = s.pass := by
  obtain ⟨hhead, hrep⟩ := h.queue (q := .runTasks) rfl
  rw [Sched.cherryPick] at hst
  cases hL : L (.queue .runTasks) with
  | nil =>
    rw [hL] at hrep
    simp [hrep.pop_nil] at hst
  | cons t ts =>
    rw [hL, map_cons] at hrep
    obtain ⟨hpop, hrep', hhead', heq⟩ := hrep.pop
    rcases hres : TSQueue.pop s.hooks (s.queues .runTasks) with ⟨H, tsq, r⟩
    rw [hres] at hpop hrep' hhead' heq hst
    simp only at hpop hrep' hhead' heq
    subst hpop
    simp only [Option.some_inj] at hst
    subst hst
    have ht : t ∈ L (.queue .runTasks) := by rw [hL]; exact mem_cons_self
    have hts : t ∉ ts := by
      have hnd := (nodup_cons.mp hrep.nodup).2
      rw [← map_cons] at hnd
      exact (nodup_cons.mp (List.Nodup.of_map _ hnd)).1
    have hpopped : Rep { s with
        hooks := H
        queues := update s.queues .runTasks tsq
        proc_ := update s.proc_ t (some p) }
        (update L (.queue .runTasks) ts) := by
      refine h.change_one heq ?_ ?_ ?_ ?_ ?_ (fun _ h => h) ?_
      · intro y hy
        rw [hhead] at hy
        rw [hL]
        exact .inl hy
      · intro l hl
        refine same_update (b := tsq) ?_ ?_ ?_ hl <;> rfl
      · exact ⟨hhead'.trans hhead, hrep'⟩
      · exact fun v hv => .inl (by rw [hL]; exact mem_cons_of_mem _ hv)
      · exact fun _ _ hne => absurd rfl hne
      · intro l v hv hp
        show update s.proc_ t (some p) v ≠ none
        by_cases he : v = t
        · rw [he, update_self]
          simp
        · rwa [update_of_ne he]
    have hpush := (hpopped.push (q := .runnable p) (by simp)
      (notMem_update (fun h1 h2 => h.disjoint h1 h2) ht hts) (h.created ht) fun _ => by
        show update s.proc_ t (some p) t ≠ none
        rw [update_self]
        simp).1
    rw [update_of_ne (by simp : Loc.queue (QueueId.runnable p) ≠ .queue .runTasks)] at hpush
    exact ⟨t, ts, rfl, hpush, rfl, rfl, rfl⟩

theorem Rep.unblock {s u : Sched τ π} {L : Loc π → List τ} (h : Rep s L) {i n : ℕ}
    (hst : s.unblock i n = some u) : ∃ t a b, L (.queue (.other i)) = a ++ t :: b ∧
      (let L₁ := update L (.queue (.other i)) (a ++ b)
      Rep u (update L₁ (.queue (home s.proc_ t)) (L₁ (.queue (home s.proc_ t)) ++ [t]))) ∧
      u.proc_ = s.proc_ ∧ u.created = s.created ∧ u.pass = s.pass := by
  obtain ⟨hhead, hrep⟩ := h.queue (q := .other i) rfl
  -- the walk from the sentinel ends at a task of the queue
  obtain ⟨t, ht, hnth⟩ : ∃ t ∈ L (.queue (.other i)),
      s.hooks.nth n (.sentinel (.other i)) = some (.task t) := by
    have hseg := hrep.seg
    rw [hhead] at hseg
    have hn := hseg.nth_eq n
    rw [Sched.unblock, hn, List.getElem?_map] at hst
    cases hg : (L (.queue (.other i)))[n]? with
    | none => simp [hg] at hst
    | some t => exact ⟨t, mem_of_getElem? hg, by rw [hn, List.getElem?_map, hg]; rfl⟩
  obtain ⟨a, b, hL⟩ := append_of_mem ht
  rw [hL, map_append, map_cons] at hrep
  obtain ⟨hok, hrep', hhead', heq⟩ := hrep.erase
  simp only [Sched.unblock, hnth] at hst
  rcases hres : TSQueue.erase s.hooks (.other i) (s.queues (.other i)) (.task t) with ⟨H, tsq, ok⟩
  rw [hres] at hok hrep' hhead' heq hst
  simp only at hok hrep' hhead' heq
  subst hok
  simp only [Option.some_inj] at hst
  subst hst
  have hnot : t ∉ a ++ b := by
    have hnd := (nodup_cons.mp hrep.nodup).2
    rw [← map_cons, ← map_append] at hnd
    exact (nodup_cons.mp (perm_middle.nodup_iff.mp (List.Nodup.of_map _ hnd))).1
  have hsub : ∀ v ∈ a ++ b, v ∈ L (.queue (.other i)) := by
    intro v hv
    rw [hL]
    rw [mem_append] at hv ⊢
    exact hv.imp_right (mem_cons_of_mem t)
  have herased : Rep { s with hooks := H, queues := update s.queues (.other i) tsq }
      (update L (.queue (.other i)) (a ++ b)) := by
    refine h.change_one heq ?_ ?_ ?_ ?_ ?_ (fun _ h => h) (fun _ _ _ h => h)
    · intro y hy
      rw [hhead] at hy
      left
      rw [hL, Loc.nodes, map_append, map_cons]
      exact hy
    · intro l hl
      refine same_update (b := tsq) ?_ ?_ ?_ hl <;> rfl
    · have hat : ({ s with hooks := H, queues := update s.queues (.other i) tsq } :
          Sched τ π).queueAt (.other i) = some tsq := queueAt_update_self (s := s) (by simp) rfl
      simp only [HoldsAt, hat, map_append]
      exact ⟨hhead'.trans hhead, hrep'⟩
    · exact fun v hv => .inl (hsub v hv)
    · exact fun v hv _ => h.proc (hsub v hv) (by simp)
  obtain ⟨q, rfl, hadd, -⟩ := herased.addTaskRunnable
    (notMem_update (fun h1 h2 => h.disjoint h1 h2) ht hnot) (h.created ht)
  exact ⟨t, a, b, hL, hadd, addTaskRunnable_frame _ t⟩

/-! ### The wait table -/

/-- **`operator[]`** leaves a pair in the table and disturbs no list. -/
theorem Rep.touch {s : Sched τ π} {L : Loc π → List τ} (h : Rep s L) (k : WaitKey) :
    Rep (s.touch k).1 L ∧ (s.touch k).1.queueAt (.wait k) = some (s.touch k).2.second ∧
      (s.touch k).2.first = s.counter k := by
  rw [Sched.touch, Sched.counter]
  cases hf : s.userWaitTasks_.find k with
  | some p =>
    refine ⟨h, ?_, rfl⟩
    rw [queueAt, hf]
    rfl
  | none =>
    have hnil : L (.queue (.wait k)) = [] := by
      have hat : s.queueAt (.wait k) = none := by rw [queueAt, hf]; rfl
      have := h.holds (.queue (.wait k))
      simpa only [HoldsAt, hat] using this
    have hfind := WaitTable.find_store s.userWaitTasks_ k ⟨0, TSQueue.new (.sentinel (.wait k))⟩
    have heq : Hooks.EqOff [Node.sentinel (.wait k)] s.hooks
        (s.hooks.reset (.sentinel (.wait k))) := Hooks.EqOff.refl.reset (mem_singleton_self _)
    have hself : update L (.queue (.wait k)) (L (.queue (.wait k))) = L :=
      update_eq_self ..
    have hat : ({ s with
        hooks := s.hooks.reset (.sentinel (.wait k))
        userWaitTasks_ := s.userWaitTasks_.store k ⟨0, TSQueue.new (.sentinel (.wait k))⟩ } :
          Sched τ π).queueAt (.wait k) = some (TSQueue.new (.sentinel (.wait k))) := by
      rw [queueAt, hfind, if_pos rfl]
      rfl
    refine ⟨?_, hat, rfl⟩
    rw [← hself]
    refine h.change_one heq ?_ ?_ ?_ (fun _ hu => .inl hu) ?_ (fun _ h => h) (fun _ _ _ h => h)
    · intro y hy
      rw [mem_singleton] at hy
      exact .inl (hy ▸ mem_cons_self)
    · intro l hl
      cases l with
      | slist => exact rfl
      | queue q =>
        cases q with
        | wait k' =>
          show Option.map _ (WaitTable.find _ k') = _
          rw [hfind, if_neg fun e => hl (by rw [e])]
          rfl
        | _ => exact rfl
    · simp only [HoldsAt, hat, hnil]
      exact ⟨rfl, TSQueue.represents_new (update_self ..) (update_self ..)⟩
    · exact fun u hu hne => h.proc hu hne

theorem touch_pass (s : Sched τ π) (k : WaitKey) : (s.touch k).1.pass = s.pass ∧
    (s.touch k).1.proc_ = s.proc_ ∧ (s.touch k).1.created = s.created := by
  rw [Sched.touch]
  cases s.userWaitTasks_.find k <;> exact ⟨rfl, rfl, rfl⟩

theorem current_touch (s : Sched τ π) (k : WaitKey) : (s.touch k).1.current = s.current := by
  rw [current, current, (touch_pass s k).1]

omit [DecidableEq τ] in
theorem TSQueue_empty_iff [DecidableEq τ] {H : Hooks (Node τ π) (QueueId π)} {k : QueueId π}
    {tsq : TSQueue (Node τ π)} {ts : List τ} (h : tsq.Represents H k (ts.map .task)) :
    tsq.empty = true ↔ ts = [] := by
  rw [TSQueue.empty, beq_iff_eq, h.head_eq_tail, map_eq_nil_iff]

/-- **Storing a pair**, whose queue now represents `ts`, and cleaning up. -/
theorem Rep.commit {s : Sched τ π} {L : Loc π → List τ} (h : Rep s L) {k : WaitKey}
    {H : Hooks (Node τ π) (QueueId π)} {S : List (Node τ π)} {p : WaitPair (TSQueue (Node τ π))}
    {ts : List τ} (heq : Hooks.EqOff S s.hooks H)
    (hS : ∀ y ∈ S, y ∈ (Loc.queue (.wait k)).nodes (L (.queue (.wait k))) ∨
      ∃ t, y = .task t ∧ ∀ l, t ∉ L l)
    (hhead : p.second.head_ = .sentinel (.wait k))
    (hrep : p.second.Represents H (.wait k) (ts.map .task))
    (hfrom : ∀ t ∈ ts, t ∈ L (.queue (.wait k)) ∨ (∀ l, t ∉ L l) ∧ s.created t = true)
    (hproc : ∀ t ∈ ts, s.proc_ t ≠ none) :
    Rep ({ s with hooks := H }.commit k p) (update L (.queue (.wait k)) ts) ∧
      ({ s with hooks := H }.commit k p).counter k = p.first := by
  have hfind : ∀ k', ({ s with hooks := H }.commit k p).userWaitTasks_.find k' =
      if k' = k then (if p.second.empty = true ∧ p.first = 0 then none else some p)
      else s.userWaitTasks_.find k' := WaitTable.find_commit _ _ _ _
  refine ⟨h.change_one heq hS ?_ ?_ hfrom (fun t ht _ => hproc t ht) (fun _ h => h)
    (fun _ _ _ h => h), ?_⟩
  · intro l hl
    cases l with
    | slist => exact rfl
    | queue q =>
      cases q with
      | wait k' =>
        have hk : k' ≠ k := fun e => hl (by rw [e])
        show Option.map _ (WaitTable.find _ k') = _
        rw [hfind k', if_neg hk]
        rfl
      | _ => exact rfl
  · by_cases hdead : p.second.empty = true ∧ p.first = 0
    · have hat : ({ s with hooks := H }.commit k p).queueAt (.wait k) = none := by
        show Option.map _ (WaitTable.find _ k) = none
        rw [hfind k, if_pos rfl, if_pos hdead]
        rfl
      simp only [HoldsAt, hat]
      exact (TSQueue_empty_iff hrep).mp hdead.1
    · have hat : ({ s with hooks := H }.commit k p).queueAt (.wait k) = some p.second := by
        show Option.map _ (WaitTable.find _ k) = some p.second
        rw [hfind k, if_pos rfl, if_neg hdead]
        rfl
      simp only [HoldsAt, hat]
      exact ⟨hhead, hrep⟩
  · show (Option.map _ (WaitTable.find _ k)).getD 0 = p.first
    rw [hfind k, if_pos rfl]
    split_ifs with hdead
    · exact hdead.2.symm
    · rfl

/-- `task_queue.push(tk)` on the queue of a key. -/
theorem Rep.enqueue {s : Sched τ π} {L : Loc π → List τ} (h : Rep s L) {k : WaitKey} {t : τ}
    {tsq : TSQueue (Node τ π)} (hat : s.queueAt (.wait k) = some tsq) (ht : ∀ l, t ∉ L l)
    (hc : s.created t = true) (hp : s.proc_ t ≠ none) (first : ℕ) :
    let r := TSQueue.push s.hooks (.wait k) tsq (.task t)
    Rep ({ s with hooks := r.1 }.commit k ⟨first, r.2⟩)
      (update L (.queue (.wait k)) (L (.queue (.wait k)) ++ [t])) := by
  obtain ⟨hhead, hrep⟩ := h.queue hat
  have hx : Node.task t ∉ tsq.head_ :: (L (.queue (.wait k))).map Node.task := by
    rw [hhead]
    exact fun hm => ht _ (Loc.task_mem_nodes (l := .queue (.wait k)).mp hm)
  obtain ⟨hrep', hhead', heq⟩ := hrep.push (x := .task t) hx
  intro r
  have hmap : r.2.Represents r.1 (.wait k) ((L (.queue (.wait k)) ++ [t]).map .task) := by
    rw [map_append]
    exact hrep'
  refine (h.commit (p := ⟨first, r.2⟩) heq ?_ (hhead'.trans hhead) hmap ?_ ?_).1
  · intro y hy
    rw [mem_cons] at hy
    rcases hy with rfl | hy
    · exact .inr ⟨t, rfl, ht⟩
    · rw [hhead] at hy
      exact .inl hy
  · intro u hu
    rcases mem_append.mp hu with hu | hu
    · exact .inl hu
    · rw [mem_singleton] at hu
      exact .inr ⟨hu ▸ ht, hu ▸ hc⟩
  · intro u hu
    rcases mem_append.mp hu with hu | hu
    · exact h.proc hu (by simp)
    · rw [mem_singleton] at hu
      exact hu ▸ hp

/-- Changing the counter of a key. -/
theorem Rep.setCounter {s : Sched τ π} {L : Loc π → List τ} (h : Rep s L) {k : WaitKey}
    {tsq : TSQueue (Node τ π)} (hat : s.queueAt (.wait k) = some tsq) (first : ℕ) :
    Rep (s.commit k ⟨first, tsq⟩) L := by
  obtain ⟨hhead, hrep⟩ := h.queue hat
  have hself : update L (.queue (.wait k)) (L (.queue (.wait k))) = L :=
    update_eq_self ..
  rw [← hself]
  exact (h.commit (S := []) (p := ⟨first, tsq⟩) .refl (by simp) hhead hrep (fun _ ht => .inl ht)
    fun _ ht => h.proc ht (by simp)).1

theorem Rep.tryBlockWait {s : Sched τ π} {L : Loc π → List τ} (h : Rep s L) (k : WaitKey) :
    Rep (s.tryBlockWait k).1 L := by
  rw [Sched.tryBlockWait]
  cases hf : s.userWaitTasks_.find k with
  | none => exact h
  | some p =>
    have hat : s.queueAt (.wait k) = some p.second := by rw [queueAt, hf]; rfl
    simp only
    split_ifs
    · exact h.setCounter hat _
    · exact h

theorem tryBlockWait_frame (s : Sched τ π) (k : WaitKey) :
    (s.tryBlockWait k).1.proc_ = s.proc_ ∧ (s.tryBlockWait k).1.created = s.created ∧
      (s.tryBlockWait k).1.pass = s.pass := by
  rw [Sched.tryBlockWait]
  cases s.userWaitTasks_.find k with
  | none => exact ⟨rfl, rfl, rfl⟩
  | some p =>
    simp only
    split_ifs <;> exact ⟨rfl, rfl, rfl⟩

/-- **The `user_block` case** consumes a permit, or moves the task to the queue of
its key. -/
theorem Rep.userBlock {s : Sched τ π} {L : Loc π → List τ} (h : Rep s L) {P : Pass τ π} {t : τ}
    (hcur : s.current = some (P, t)) (k : WaitKey) {a b : List τ} (hL : L .slist = a ++ t :: b)
    (hnot : t ∉ a ++ b) :
    (Rep (s.userBlock P t k) L ∨ Rep (s.userBlock P t k) (update
      (update L .slist (a ++ b)) (.queue (.wait k)) (L (.queue (.wait k)) ++ [t]))) ∧
      (s.userBlock P t k).proc_ = s.proc_ ∧ (s.userBlock P t k).created = s.created ∧
      (s.userBlock P t k).pass.map Pass.proc = s.pass.map Pass.proc := by
  obtain ⟨ht, hat, -⟩ := h.touch k
  obtain ⟨hpass, hproc, hcreated⟩ := touch_pass s k
  obtain ⟨hP, -⟩ := current_eq hcur
  have hcur' : (s.touch k).1.current = some (P, t) := (current_touch s k).trans hcur
  have hmem : t ∈ L .slist := by rw [hL]; simp
  rw [Sched.userBlock]
  simp only
  split_ifs with hfirst
  · have hat' : ((s.touch k).1.advance P t).queueAt (.wait k) = some (s.touch k).2.second := hat
    exact ⟨.inl ((ht.advance hcur' hL).setCounter hat' _), hproc, hcreated, by rw [hP]; rfl⟩
  · have hat' : ((s.touch k).1.eraseCurrent P t).queueAt (.wait k) = some (s.touch k).2.second :=
      hat
    have henq := (ht.eraseCurrent hcur' hL).enqueue hat'
      (notMem_update (fun h1 h2 => h.disjoint h1 h2) hmem hnot) (ht.created hmem)
      (ht.proc hmem (by simp)) (s.touch k).2.first
    rw [update_of_ne (by simp : Loc.queue (QueueId.wait k) ≠ .slist)] at henq
    exact ⟨.inr henq, hproc, hcreated, by rw [hP]; rfl⟩

/-! ### `BlockWakeup` -/

theorem wakeLoop_none (fuel : ℕ) (s : Sched τ π) (passed : List τ) :
    wakeLoop fuel s none passed = some (s, passed) := by
  cases fuel <;> rfl

/-- **The loop stops after its first task**: `AddTaskRunnable` clears the `next` it
would follow. -/
theorem Rep.wakeLoop {s : Sched τ π} {L : Loc π → List τ} (h : Rep s L) {t : τ}
    (ht : ∀ l, t ∉ L l) (hc : s.created t = true) (fuel : ℕ) :
    Sched.wakeLoop (fuel + 1) s (some (.task t)) [] = some (s.addTaskRunnable t, [t]) := by
  obtain ⟨-, -, -, hnext⟩ := h.addTaskRunnable ht hc
  rw [Sched.wakeLoop, hnext, wakeLoop_none]
  rfl

/-- `task_queue.pop(wakeup_count)` in `BlockWakeup`. -/
def popped (s : Sched τ π) (k : WaitKey) (n : ℕ) :
    Hooks (Node τ π) (QueueId π) × TSQueue (Node τ π) × SList (Node τ π) (QueueId π) :=
  TSQueue.popN (s.touch k).1.hooks (.wait k) (s.touch k).2.second n

/-- The state of `BlockWakeup` before its loop, with `c` tasks popped. -/
def unlocked (s : Sched τ π) (k : WaitKey) (n c : ℕ) : Sched τ π :=
  { (s.touch k).1 with hooks := (s.popped k n).1 }.commit k
    ⟨if c < n then ((s.touch k).2.first + (n - c)) % 2 ^ 32 else (s.touch k).2.first,
      (s.popped k n).2.1⟩

theorem blockWakeup_eq (s : Sched τ π) (k : WaitKey) (n : ℕ) :
    s.blockWakeup k n =
      let c := (s.popped k n).2.2.count_.toNat
      (Sched.wakeLoop (c + 1) (s.unlocked k n c) (s.popped k n).2.2.head_ []).map
        fun (s, passed) => (s, passed, (c + passed.length) % 2 ^ 32) := rfl

/-- **Before the loop** the first waiters have left the queue, and are in no list;
the counter has taken the rest of `n`. -/
theorem Rep.unlocked {s : Sched τ π} {L : Loc π → List τ} (h : Rep s L) {k : WaitKey} {n m : ℕ}
    (hn : n < 2 ^ 32) (hm : m = min (max 1 n) (L (.queue (.wait k))).length) :
    Rep (s.unlocked k n m) (update L (.queue (.wait k)) ((L (.queue (.wait k))).drop m)) ∧
      (s.popped k n).2.2.count_.toNat = m ∧
      (s.popped k n).2.2.head_ = ((L (.queue (.wait k))).take m).head?.map .task ∧
      (s.unlocked k n m).proc_ = s.proc_ ∧ (s.unlocked k n m).created = s.created ∧
      (s.unlocked k n m).counter k
        = (if m < n then (s.counter k + (n - m)) % 2 ^ 32 else s.counter k) := by
  obtain ⟨ht, hat, hfirst⟩ := h.touch k
  obtain ⟨hhead, hrep⟩ := ht.queue hat
  obtain ⟨hrep', hsl, hhead', heq⟩ := hrep.popN n
  have htake : ((L (.queue (.wait k))).map Node.task).take (max 1 n)
      = ((L (.queue (.wait k))).take m).map (Node.task (π := π)) := by
    rw [← map_take]
    congr 1
    rw [take_eq_take_iff]
    omega
  have hdrop : ((L (.queue (.wait k))).map Node.task).drop (max 1 n)
      = ((L (.queue (.wait k))).drop m).map (Node.task (π := π)) := by
    rw [← map_drop]
    congr 1
    rw [drop_eq_drop_iff]
    omega
  rw [hdrop] at hrep'
  rw [htake] at hsl
  obtain ⟨hcommit, hcounter⟩ := ht.commit
    (p := ⟨if m < n then ((s.touch k).2.first + (n - m)) % 2 ^ 32 else (s.touch k).2.first,
      (s.popped k n).2.1⟩)
    heq (fun y hy => .inl (by rw [hhead] at hy; exact hy)) (hhead'.trans hhead) hrep'
    (fun t hm => .inl (mem_of_mem_drop hm))
    (fun t hm => ht.proc (mem_of_mem_drop hm) (by simp))
  refine ⟨hcommit, ?_, ?_, (touch_pass s k).2.1, (touch_pass s k).2.2, ?_⟩
  · have hcount := hsl.count
    rw [length_map, length_take] at hcount
    rw [popped, hcount, BitVec.toNat_ofNat, Nat.mod_eq_of_lt (by omega)]
    omega
  · rw [popped, hsl.head, List.head?_map]
  · rw [← hfirst]
    exact hcounter

/-- **What `BlockWakeup` does**: of the waiters that it takes out of the queue only
the first is passed on. -/
theorem Rep.blockWakeup {s : Sched τ π} {L : Loc π → List τ} (h : Rep s L) {k : WaitKey} {n m : ℕ}
    (hn : n < 2 ^ 32) (hm : m = min (max 1 n) (L (.queue (.wait k))).length) :
    (L (.queue (.wait k)) = [] → s.blockWakeup k n = some (s.unlocked k n m, [], 0)) ∧
      ∀ t ts, L (.queue (.wait k)) = t :: ts →
        s.blockWakeup k n = some ((s.unlocked k n m).addTaskRunnable t, [t], (m + 1) % 2 ^ 32) ∧
        ∀ l, t ∉ update L (.queue (.wait k)) ((L (.queue (.wait k))).drop m) l := by
  obtain ⟨hrep, hcount, hhead, -, hcreated, -⟩ := h.unlocked hn hm
  refine ⟨fun hnil => ?_, fun t ts hcons => ?_⟩
  · rw [hnil, length_nil, Nat.min_zero] at hm
    subst hm
    rw [blockWakeup_eq, hcount, hhead, hnil]
    rfl
  · have hpos : m = (m - 1) + 1 := by
      rw [hcons, length_cons] at hm
      omega
    have hmem : t ∈ L (.queue (.wait k)) := by rw [hcons]; exact mem_cons_self
    have hnd : (t :: ts).Nodup := hcons ▸ (h.holds (.queue (.wait k))).nodup
    have hnone : ∀ l, t ∉ update L (.queue (.wait k))
        ((L (.queue (.wait k))).drop m) l := by
      refine notMem_update (fun h1 h2 => h.disjoint h1 h2) hmem fun hd => ?_
      rw [hcons, hpos, drop_succ_cons] at hd
      exact (nodup_cons.mp hnd).1 (mem_of_mem_drop hd)
    refine ⟨?_, hnone⟩
    have hhd : ((L (.queue (.wait k))).take m).head?.map (Node.task (π := π)) = some (.task t) := by
      rw [hcons, hpos, take_succ_cons]
      rfl
    simp only [blockWakeup_eq, hcount, hhead, hhd]
    rw [hrep.wakeLoop hnone (by rw [hcreated]; exact h.created hmem) m]
    rfl

end Sched

/-! ### The scheduler on lists -/

/-- The tasks at each location, their processers, the tasks made so far, and the
processer whose pass is in progress. -/
structure Lists (τ π : Type*) where
  tasks : Loc π → List τ
  proc_ : τ → Option π
  created : τ → Bool
  pass : Option π

namespace Lists

variable [DecidableEq π]

def set (A : Lists τ π) (l : Loc π) (ts : List τ) : Lists τ π :=
  { A with tasks := update A.tasks l ts }

def push (A : Lists τ π) (q : QueueId π) (t : τ) : Lists τ π :=
  A.set (.queue q) (A.tasks (.queue q) ++ [t])

/-- The list of a pass goes back to the runnable list. -/
def endPass (A : Lists τ π) (p : π) : Lists τ π :=
  { (A.set .slist []).set (.queue (.runnable p))
      (A.tasks (.queue (.runnable p)) ++ A.tasks .slist) with pass := none }

variable [DecidableEq τ]

/-- **What a step does to the lists**, with the tasks that end in it. -/
inductive Step (A : Lists τ π) : Act τ π → List τ → Lists τ π → Prop
  | createTask {t : τ} (hnew : A.created t = false) :
      Step A (.createTask t) [] ({ A with
        proc_ := update A.proc_ t none
        created := update A.created t true }.push .runTasks t)
  | cherryPick {p : π} {t : τ} {ts : List τ} (hidle : A.pass = none)
      (hpend : A.tasks (.queue .runTasks) = t :: ts) :
      Step A (.cherryPick p) [] (({ A with
        proc_ := update A.proc_ t (some p) }.set (.queue .runTasks) ts).push (.runnable p) t)
  | beginRun {p : π} (hidle : A.pass = none) :
      Step A (.beginRun p) [] (({ A with pass := some p }.set .slist
        (A.tasks (.queue (.runnable p)))).set (.queue (.runnable p)) [])
  | yield : Step A .yield [] A
  -- a permit is there, and the task stays in the list of the pass
  | permit {k : WaitKey} : Step A (.userBlock k) [] A
  | userBlock {k : WaitKey} {t : τ} {a b : List τ} (hcur : A.tasks .slist = a ++ t :: b) :
      Step A (.userBlock k) [] ((A.set .slist (a ++ b)).push (.wait k) t)
  | block {i : ℕ} {t : τ} {a b : List τ} (hcur : A.tasks .slist = a ++ t :: b) :
      Step A (.block i) [] ((A.set .slist (a ++ b)).push (.other i) t)
  | finish {t : τ} {a b : List τ} (hcur : A.tasks .slist = a ++ t :: b) :
      Step A .finish [t] (A.set .slist (a ++ b))
  | finishThrow {p : π} {t : τ} {a b : List τ} (hpass : A.pass = some p)
      (hcur : A.tasks .slist = a ++ t :: b) :
      Step A .finishThrow [t] ((A.set .slist (a ++ b)).endPass p)
  | endRun {p : π} (hpass : A.pass = some p) : Step A .endRun [] (A.endPass p)
  | unblock {i n : ℕ} {t : τ} {a b : List τ} (hat : A.tasks (.queue (.other i)) = a ++ t :: b) :
      Step A (.unblock i n) [] ((A.set (.queue (.other i)) (a ++ b)).push (home A.proc_ t) t)
  | tryUserBlockWait {k : WaitKey} : Step A (.tryUserBlockWait k) [] A
  | noWaiter {k : WaitKey} {n : ℕ} (hat : A.tasks (.queue (.wait k)) = []) :
      Step A (.blockWakeup k n) [] A
  -- all waiters that are taken out, apart from the first, are in no list
  | blockWakeup {k : WaitKey} {n : ℕ} {t : τ} {ts : List τ}
      (hat : A.tasks (.queue (.wait k)) = t :: ts) :
      Step A (.blockWakeup k n) []
        ((A.set (.queue (.wait k)) (ts.drop (n - 1))).push (home A.proc_ t) t)

end Lists

namespace Sched

/-- The lists of a state. -/
structure HasLists (s : Sched τ π) (A : Lists τ π) : Prop where
  rep : Rep s A.tasks
  proc : A.proc_ = s.proc_
  created : A.created = s.created
  pass : A.pass = s.pass.map Pass.proc

/-- The tasks that end in a step. -/
def ended (s : Sched τ π) : Act τ π → List τ
  | .finish | .finishThrow => (s.current.map Prod.snd).toList
  | _ => []

/-! ### Every reachable state -/

theorem rep_init {s : Sched τ π} (h : Init s) : Rep s fun _ => [] := by
  subst h
  refine ⟨fun l => ?_, by simp, by simp, by simp⟩
  cases l with
  | slist => exact rfl
  | queue q =>
    cases q with
    | wait k =>
      have : (∅ : WaitTable (TSQueue (Node τ π))).find k = none := by
        rw [WaitTable.find, AList.lookup_empty, Option.bind_none]
      simp only [HoldsAt, queueAt, new, this, Option.map_none]
    | _ => exact ⟨rfl, TSQueue.represents_new rfl rfl⟩

variable [DecidableEq π] [DecidableEq τ]

/-- The current task leaves the list of the pass. -/
theorem HasLists.eraseCurrent {s : Sched τ π} {A : Lists τ π} (h : s.HasLists A) {P : Pass τ π}
    {t : τ} (hcur : s.current = some (P, t)) : ∃ a b, A.tasks .slist = a ++ t :: b ∧
      (s.eraseCurrent P t).HasLists (A.set .slist (a ++ b)) ∧
      (∀ l, t ∉ (A.set .slist (a ++ b)).tasks l) ∧ s.created t = true ∧ s.proc_ t ≠ none := by
  obtain ⟨hP, -⟩ := current_eq hcur
  obtain ⟨a, b, hL, hnot⟩ := h.rep.current_split hcur
  have hmem : t ∈ A.tasks .slist := by rw [hL]; simp
  have hpass : A.pass = (s.eraseCurrent P t).pass.map Pass.proc := by
    rw [h.pass, hP]
    rfl
  exact ⟨a, b, hL, ⟨h.rep.eraseCurrent hcur hL, h.proc, h.created, hpass⟩,
    notMem_update (fun h1 h2 => h.rep.disjoint h1 h2) hmem hnot, h.rep.created hmem,
    h.rep.proc hmem (by simp)⟩

theorem HasLists.endRun {s : Sched τ π} {A : Lists τ π} (h : s.HasLists A) {P : Pass τ π}
    (hP : s.pass = some P) : (s.endRun P).HasLists (A.endPass P.proc) :=
  ⟨h.rep.endRun hP, h.proc, h.created, rfl⟩

/-- `BlockWakeup` on the lists. -/
theorem HasLists.blockWakeup {s u : Sched τ π} {A : Lists τ π} (h : s.HasLists A) {k : WaitKey}
    {n ret : ℕ} {passed : List τ} (hn : n < 2 ^ 32)
    (hu : s.blockWakeup k n = some (u, passed, ret)) :
    ∃ A', A.Step (.blockWakeup k n) [] A' ∧ u.HasLists A' := by
  obtain ⟨hrep, -, -, hproc, hcreated, -⟩ := h.rep.unlocked (k := k) hn rfl
  obtain ⟨hnil, hcons⟩ := h.rep.blockWakeup (k := k) hn rfl
  have hpass : ∀ m, (s.unlocked k n m).pass = s.pass := fun m => (touch_pass s k).1
  cases hL : A.tasks (.queue (.wait k)) with
  | nil =>
    rw [hnil hL, Option.some_inj, Prod.mk.injEq] at hu
    obtain ⟨rfl, -⟩ := hu
    rw [hL, drop_nil, ← hL, update_eq_self] at hrep
    exact ⟨A, .noWaiter hL, hrep, h.proc.trans hproc.symm, h.created.trans hcreated.symm,
      h.pass.trans (by rw [hpass])⟩
  | cons t ts =>
    obtain ⟨heq, hnone⟩ := hcons t ts hL
    rw [heq, Option.some_inj, Prod.mk.injEq] at hu
    obtain ⟨rfl, -⟩ := hu
    have hc : s.created t = true := h.rep.created (l := .queue (.wait k)) (by rw [hL]; simp)
    obtain ⟨q, rfl, hadd, -⟩ := hrep.addTaskRunnable hnone (by rw [hcreated]; exact hc)
    obtain ⟨hproc', hcreated', hpass'⟩ := addTaskRunnable_frame
      (s.unlocked k n (min (max 1 n) (A.tasks (.queue (.wait k))).length)) t
    have hdrop : (A.tasks (.queue (.wait k))).drop
        (min (max 1 n) (A.tasks (.queue (.wait k))).length) = ts.drop (n - 1) := by
      have hpos : min (max 1 n) (A.tasks (.queue (.wait k))).length
          = min (n - 1) ts.length + 1 := by
        rw [hL, length_cons]
        omega
      rw [hpos, hL, drop_succ_cons, drop_eq_drop_iff]
      omega
    rw [hproc, ← h.proc, hdrop] at hadd
    exact ⟨_, .blockWakeup hL, hadd, h.proc.trans (hproc'.trans hproc).symm,
      h.created.trans (hcreated'.trans hcreated).symm, by rw [hpass', hpass]; exact h.pass⟩

/-- **One step** of the scheduler on its heap is a step of the scheduler on lists. -/
theorem step_lists {s u : Sched τ π} {a : Act τ π} {A : Lists τ π} (h : s.HasLists A)
    (hst : s.step a = some u) : ∃ A', A.Step a (s.ended a) A' ∧ u.HasLists A' := by
  -- `cherryPick` and `beginRun` are between two passes
  have hidle : ¬ s.pass.isSome → A.pass = none := by
    intro hno
    rw [h.pass, Option.not_isSome_iff_eq_none.mp hno]
    rfl
  cases a with
  | createTask t =>
    rw [step] at hst
    split_ifs at hst with hc
    cases hst
    have hnew : s.created t = false := Bool.eq_false_of_not_eq_true hc
    obtain ⟨hproc, hcreated, hpass⟩ := addTaskRunnable_frame { s with
      hooks := s.hooks.reset (.task t)
      proc_ := update s.proc_ t none
      created := update s.created t true } t
    refine ⟨_, .createTask (h.created ▸ hnew), h.rep.createTask hnew, ?_, ?_, ?_⟩
    · exact (congrArg (update · t none) h.proc).trans hproc.symm
    · exact (congrArg (update · t true) h.created).trans hcreated.symm
    · exact h.pass.trans (congrArg (Option.map Pass.proc) hpass).symm
  | cherryPick p =>
    rw [step] at hst
    split_ifs at hst with hno
    obtain ⟨t, ts, hL, hrep, hproc, hcreated, hpass⟩ := h.rep.cherryPick hst
    refine ⟨_, .cherryPick (hidle hno) hL, ?_, ?_, h.created.trans hcreated.symm, ?_⟩
    · show Rep u (update (update A.tasks (.queue .runTasks) ts)
        (.queue (.runnable p)) (update A.tasks (.queue .runTasks) ts
          (.queue (.runnable p)) ++ [t]))
      rwa [update_of_ne (by simp : Loc.queue (QueueId.runnable p) ≠ .queue .runTasks)]
    · exact (congrArg (update · t (some p)) h.proc).trans hproc.symm
    · exact h.pass.trans (congrArg (Option.map Pass.proc) hpass).symm
  | beginRun p =>
    rw [step] at hst
    split_ifs at hst with hno
    cases hst
    exact ⟨_, .beginRun (hidle hno), h.rep.beginRun p, h.proc, h.created, rfl⟩
  | yield =>
    obtain ⟨⟨P, t⟩, hcur, rfl⟩ := Option.map_eq_some_iff.mp hst
    obtain ⟨a, b, hL, -⟩ := h.rep.current_split hcur
    have hpass : A.pass = (s.advance P t).pass.map Pass.proc := by
      rw [h.pass, (current_eq hcur).1]
      rfl
    exact ⟨A, .yield, h.rep.advance hcur hL, h.proc, h.created, hpass⟩
  | userBlock k =>
    obtain ⟨⟨P, t⟩, hcur, rfl⟩ := Option.map_eq_some_iff.mp hst
    obtain ⟨a, b, hL, hnot⟩ := h.rep.current_split hcur
    obtain ⟨hrep, hproc, hcreated, hpass⟩ := h.rep.userBlock hcur k hL hnot
    rcases hrep with hrep | hrep
    · exact ⟨A, .permit, hrep, h.proc.trans hproc.symm, h.created.trans hcreated.symm,
        h.pass.trans hpass.symm⟩
    · refine ⟨_, .userBlock hL, ?_, h.proc.trans hproc.symm, h.created.trans hcreated.symm,
        h.pass.trans hpass.symm⟩
      show Rep _ (update (update A.tasks .slist (a ++ b)) (.queue (.wait k))
        (update A.tasks .slist (a ++ b) (.queue (.wait k)) ++ [t]))
      rwa [update_of_ne (by simp : Loc.queue (QueueId.wait k) ≠ .slist)]
  | block i =>
    obtain ⟨⟨P, t⟩, hcur, rfl⟩ := Option.map_eq_some_iff.mp hst
    obtain ⟨a, b, hL, herase, hnone, hc, hp⟩ := h.eraseCurrent hcur
    exact ⟨_, .block hL, (herase.rep.push (q := .other i) (by simp) hnone hc fun _ => hp).1,
      herase.proc, herase.created, herase.pass⟩
  | finish =>
    obtain ⟨⟨P, t⟩, hcur, rfl⟩ := Option.map_eq_some_iff.mp hst
    obtain ⟨a, b, hL, herase, -⟩ := h.eraseCurrent hcur
    rw [ended, hcur]
    exact ⟨_, .finish hL, herase⟩
  | finishThrow =>
    obtain ⟨⟨P, t⟩, hcur, hend⟩ := Option.bind_eq_some_iff.mp hst
    obtain ⟨P', hP', rfl⟩ := Option.map_eq_some_iff.mp hend
    obtain ⟨a, b, hL, herase, -⟩ := h.eraseCurrent hcur
    have hpass : A.pass = some P'.proc := by
      have hpass := herase.pass
      rw [hP'] at hpass
      exact hpass
    rw [ended, hcur]
    exact ⟨_, .finishThrow hpass hL, herase.endRun hP'⟩
  | endRun =>
    rw [step] at hst
    cases hP : s.pass with
    | none => simp [hP] at hst
    | some P =>
      simp only [hP] at hst
      split_ifs at hst
      cases hst
      exact ⟨_, .endRun (by rw [h.pass, hP]; rfl), h.endRun hP⟩
  | unblock i n =>
    obtain ⟨t, a, b, hL, hrep, hproc, hcreated, hpass⟩ := h.rep.unblock hst
    rw [← h.proc] at hrep
    exact ⟨_, .unblock hL, hrep, h.proc.trans hproc.symm, h.created.trans hcreated.symm,
      h.pass.trans (by rw [hpass])⟩
  | tryUserBlockWait k =>
    rw [step] at hst
    cases hst
    obtain ⟨hproc, hcreated, hpass⟩ := tryBlockWait_frame s k
    exact ⟨A, .tryUserBlockWait, h.rep.tryBlockWait k, h.proc.trans hproc.symm,
      h.created.trans hcreated.symm, h.pass.trans (by rw [hpass])⟩
  | blockWakeup k n =>
    rw [step] at hst
    split_ifs at hst with hn
    obtain ⟨⟨u', passed, ret⟩, hr, rfl⟩ := Option.map_eq_some_iff.mp hst
    exact h.blockWakeup hn hr

theorem reach_lists : ∀ s : Sched τ π, Reach Init step s → ∃ A, s.HasLists A :=
  ReachIf.invariant (fun s h => ⟨⟨fun _ => [], s.proc_, s.created, s.pass.map Pass.proc⟩,
    rep_init h, rfl, rfl, rfl⟩) fun _ _ _ ⟨_, h⟩ _ hst => by
      obtain ⟨A', -, h'⟩ := step_lists h hst
      exact ⟨A', h'⟩

theorem reach_rep (s : Sched τ π) (hs : Reach Init step s) : ∃ L, Rep s L := by
  obtain ⟨A, h⟩ := reach_lists s hs
  exact ⟨A.tasks, h.rep⟩

omit [DecidableEq τ] [DecidableEq π] in
/-- A location holds one list. -/
theorem HoldsAt.unique {s : Sched τ π} {l : Loc π} {ts us : List τ}
    (h : s.HoldsAt l ts) (h' : s.HoldsAt l us) : ts = us := by
  have hinj : Function.Injective (List.map (Node.task (τ := τ) (π := π))) :=
    map_injective_iff.mpr fun _ _ e => Node.task.inj e
  cases l with
  | queue q =>
    simp only [HoldsAt] at h h'
    cases hq : s.queueAt q with
    | none =>
      simp only [hq] at h h'
      rw [h, h']
    | some tsq =>
      simp only [hq] at h h'
      exact hinj (h.2.seg.unique h'.2.seg)
  | slist =>
    simp only [HoldsAt] at h h'
    cases hp : s.pass with
    | none =>
      simp only [hp] at h h'
      rw [h, h']
    | some P =>
      simp only [hp] at h h'
      obtain ⟨⟨hseg, hhead, -⟩, -⟩ := h
      obtain ⟨⟨hseg', hhead', -⟩, -⟩ := h'
      rw [hhead] at hhead'
      refine hinj ?_
      cases hts : ts.map (Node.task (π := π)) with
      | nil =>
        rw [hts] at hhead'
        exact (List.head?_eq_none_iff.mp hhead'.symm).symm
      | cons x xs =>
        rw [hts] at hhead' hseg
        obtain ⟨ys, hys⟩ := List.head?_eq_some_iff.mp hhead'.symm
        rw [hys] at hseg' ⊢
        rw [hseg.unique hseg']

end Sched

end WakeupHeap
