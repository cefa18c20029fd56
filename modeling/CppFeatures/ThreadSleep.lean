/-
The sleepers of the threads.

`SleepWait::SchedulerSwitch` puts a task into `wait_tasks_` first and then gives it a timer;
`WaitLoop` takes up to 128 timers at once and calls them one after the other, each of them
taking its task out again.  Any number of threads do this at a time.

* `System.Alarmed` — every task in `wait_tasks_` has one timer, or is about to get it, and
  nobody has cleared the timer;
* `System.step_alarmed` — one step keeps this;
* `System.task_ownership` — no task is lost, run twice at a time, or run while another thread
  works on it, and no assertion fails;
* `System.sleepers_alarmed` — no sleeper is forgotten, and none is woken twice.
-/
import CppFeatures.ThreadTasks

namespace Scheduler.Threads

open Function

/-- Where the alarm of a sleeper is: still to be set by a thread, in `timer_mgr_`, or among
the timers that `GetExpired` gave a thread. -/
inductive Alarm (θ : Type*)
  | untimed (t : θ)
  | manager
  | expiring (t : θ)
deriving DecidableEq

variable {θ τ β : Type*}

namespace System

def timersAt (s : System θ τ β) : Alarm θ → List (CoTimer τ)
  | .untimed _ => []
  | .manager => s.q.sleepTimerMgr_.deadlines_.map Prod.snd
  | .expiring t => (s.threads.pc t).timers

/-- The tasks whose alarm is at each place. -/
def alarms (s : System θ τ β) : Alarm θ → List τ
  | .untimed t => (s.threads.pc t).untimed
  | .manager => (s.timersAt .manager).map CoTimer.fn_
  | .expiring t => (s.timersAt (.expiring t)).map CoTimer.fn_

theorem mem_alarms {s : System θ τ β} {l : Alarm θ} {T : CoTimer τ} (hT : T ∈ s.timersAt l) :
    T.fn_ ∈ s.alarms l := by
  cases l with
  | untimed t => contradiction
  | _ => exact List.mem_map_of_mem hT

/-- **Every sleeper has an alarm.** -/
structure Alarmed (s : System θ τ β) (aloc : τ → Option (Alarm θ)) : Prop where
  alarms : Places s.alarms aloc
  asleep : ∀ {tk}, tk ∈ s.q.sleepWaitTasks_ ↔ aloc tk ≠ none
  ids : ∀ {l l' T T'}, T ∈ s.timersAt l → T' ∈ s.timersAt l' → T.id_ = T'.id_ → T.fn_ = T'.fn_
  active : ∀ {l T}, T ∈ s.timersAt l → T.id_ ≤ s.timers.sId ∧ s.timers.active_ T.id_ = true

variable {s s' : System θ τ β} {aloc : τ → Option (Alarm θ)} {loc : τ → Option (Place θ β)} {t : θ}
  {tk : τ} {ph : Phase τ} {T T' : CoTimer τ} {l l' : Alarm θ}

/-- Timers with one id are one timer. -/
theorem Alarmed.inj (h : s.Alarmed aloc) (hT : T ∈ s.timersAt l) (hT' : T' ∈ s.timersAt l')
    (hid : T.id_ = T'.id_) : l = l' ∧ T = T' := by
  have hfn := h.ids hT hT' hid
  have hl : l = l' := h.alarms.unique (mem_alarms hT) (hfn ▸ mem_alarms hT')
  subst hl
  refine ⟨rfl, List.inj_on_of_nodup_map (f := CoTimer.fn_) ?_ hT hT' hfn⟩
  cases l with
  | untimed t => contradiction
  | manager => exact h.alarms.nodup .manager
  | expiring t => exact h.alarms.nodup (.expiring t)

/-- Nobody goes to sleep, and no timer is touched. -/
theorem Alarmed.congr (h : s.Alarmed aloc)
    (hpc : ∀ u, (s'.threads.pc u).untimed = (s.threads.pc u).untimed ∧
      (s'.threads.pc u).timers = (s.threads.pc u).timers)
    (hmgr : s'.q.sleepTimerMgr_ = s.q.sleepTimerMgr_)
    (hsleep : s'.q.sleepWaitTasks_ = s.q.sleepWaitTasks_) (htimers : s'.timers = s.timers) :
    s'.Alarmed aloc := by
  have hat : s'.timersAt = s.timersAt := by
    funext l
    cases l <;> simp [timersAt, hpc, hmgr]
  have hal : s'.alarms = s.alarms := by
    funext l
    cases l <;> simp [System.alarms, hpc, hat]
  exact ⟨hal ▸ h.alarms, hsleep ▸ h.asleep, hat ▸ h.ids, by rw [hat, htimers]; exact h.active⟩

variable [DecidableEq θ]

theorem Alarmed.goto (h : s.Alarmed aloc) (hthreads : s'.threads = s.threads.set t ph)
    (hview : ph.untimed = (s.threads.pc t).untimed ∧ ph.timers = (s.threads.pc t).timers)
    (hmgr : s'.q.sleepTimerMgr_ = s.q.sleepTimerMgr_)
    (hsleep : s'.q.sleepWaitTasks_ = s.q.sleepWaitTasks_) (htimers : s'.timers = s.timers) :
    s'.Alarmed aloc := by
  refine h.congr (fun u => ?_) hmgr hsleep htimers
  rw [hthreads]
  exact ⟨view_set Phase.untimed hview.1 u, view_set Phase.timers hview.2 u⟩

/-- **The alarm of one task** comes, goes or moves. -/
theorem Alarmed.put [DecidableEq τ] (h : s.Alarmed aloc) (tk : τ) (z : Option (Alarm θ))
    (hal : ∀ l, (s'.alarms l ++ if aloc tk = some l then [tk] else []).Perm
      (s.alarms l ++ if z = some l then [tk] else []))
    (hsleep : ∀ x, x ∈ s'.q.sleepWaitTasks_ ↔ if x = tk then z ≠ none else x ∈ s.q.sleepWaitTasks_)
    (hids : ∀ {l l' T T'}, T ∈ s'.timersAt l → T' ∈ s'.timersAt l' → T.id_ = T'.id_ →
      T.fn_ = T'.fn_)
    (hactive : ∀ {l T}, T ∈ s'.timersAt l →
      T.id_ ≤ s'.timers.sId ∧ s'.timers.active_ T.id_ = true) :
    s'.Alarmed (update aloc tk z) := by
  refine ⟨h.alarms.relocate hal, fun {x} => ?_, hids, hactive⟩
  rw [hsleep, update_apply, h.asleep]
  split_ifs <;> rfl

variable [LinearOrder τ]

omit [DecidableEq θ] in
theorem sleep_procAddTaskRunnable (q : Queues τ β) (p : ℕ) (tk : τ) :
    (q.procAddTaskRunnable p tk).sleepTimerMgr_ = q.sleepTimerMgr_ ∧
      (q.procAddTaskRunnable p tk).sleepWaitTasks_ = q.sleepWaitTasks_ := by
  dsimp only [Queues.procAddTaskRunnable]
  split_ifs <;> exact ⟨rfl, rfl⟩

omit [DecidableEq θ] in
/-- `AddTaskRunnable` touches no sleeper and no timer. -/
theorem Alarmed.addRunnable (h : s.Alarmed aloc) : (s.addRunnable tk).Alarmed aloc := by
  have hq : (s.q.addTaskRunnable tk).sleepTimerMgr_ = s.q.sleepTimerMgr_ ∧
      (s.q.addTaskRunnable tk).sleepWaitTasks_ = s.q.sleepWaitTasks_ := by
    rw [Queues.addTaskRunnable]
    cases (s.q.task tk).proc_ with
    | none => exact ⟨rfl, rfl⟩
    | some p => exact sleep_procAddTaskRunnable _ p tk
  exact h.congr (fun _ => ⟨rfl, rfl⟩) hq.1 hq.2 rfl

attribute [local simp] timersAt alarms goto Phase.untimed Phase.timers Pool.pc_set

/-- **The alarm is set.** -/
theorem Alarmed.timer (h : s.Alarmed aloc) {c i : ℕ} {P : Pass τ} {timePoint : ℤ}
    (hph : s.threads.pc t = .parking c i P tk .timer)
    (hs' : { s.goto t (.pass c i P) with
      q := { s.q with
        sleepTimerMgr_ := s.q.sleepTimerMgr_.expireAt ⟨s.timers.sId + 1, tk, timePoint⟩ }
      timers := s.timers.new } = s') : s'.Alarmed (update aloc tk (some .manager)) := by
  have hl : aloc tk = some (.untimed t) := h.alarms.mem.mp (by simp [hph])
  -- the new timer stands somewhere among the deadlines
  have hmgr := (CoTimerMgr.insertDeadline_perm s.q.sleepTimerMgr_.deadlines_
    (timePoint, ⟨s.timers.sId + 1, tk, timePoint⟩)).map Prod.snd
  have hmem : ∀ {l T}, T ∈ s'.timersAt l →
      T ∈ s.timersAt l ∨ T = ⟨s.timers.sId + 1, tk, timePoint⟩ := by
    intro l T hT
    subst hs'
    cases l with
    | untimed u => contradiction
    | manager => exact (List.mem_cons.mp (hmgr.mem_iff.mp hT)).symm
    | expiring u => by_cases hu : u = t <;> simp_all
  have hnew : s'.timers = s.timers.new := by rw [← hs']
  refine h.put tk (some .manager) (fun l => ?_) (fun x => ?_) (fun {l l' T T'} hT hT' hid => ?_)
    fun {l T} hT => ?_
  · subst hs'
    cases l with
    | untimed u =>
      by_cases hu : u = t
      · simp [hu, hl, hph]
      · simp [hu, hl, Ne.symm hu]
    | manager =>
      simpa [hl, CoTimerMgr.expireAt] using
        (hmgr.map CoTimer.fn_).trans (List.perm_append_singleton ..).symm
    | expiring u => by_cases hu : u = t <;> simp_all
  · have hold : tk ∈ s.q.sleepWaitTasks_ ↔ aloc tk ≠ none := h.asleep
    subst hs'
    split_ifs with hx <;> simp_all
  · rcases hmem hT with hT | rfl <;> rcases hmem hT' with hT' | rfl
    · exact h.ids hT hT' hid
    · exact absurd (h.active hT).1 (by rw [hid]; simp)
    · exact absurd (h.active hT').1 (by rw [← hid]; simp)
    · rfl
  · rw [hnew]
    rcases hmem hT with hT | rfl
    · obtain ⟨hle, ha⟩ := h.active hT
      have hne : T.id_ ≠ s.timers.sId + 1 := by omega
      exact ⟨Nat.le_succ_of_le hle, (update_of_ne hne ..).trans ha⟩
    · exact ⟨Nat.le_refl _, update_self ..⟩

/-- **`GetExpired`** hands some timers to a thread that had none. -/
theorem Alarmed.getExpired (h : s.Alarmed aloc) {ts : List (CoTimer τ)} {mgr : CoTimerMgr τ}
    (happ : ts ++ mgr.deadlines_.map Prod.snd = s.q.sleepTimerMgr_.deadlines_.map Prod.snd)
    (hph : s.threads.pc t = .doSleep) (hs' : { s.goto t (.expiring ts) with
      q := { s.q with sleepTimerMgr_ := mgr } } = s') : ∃ aloc', s'.Alarmed aloc' := by
  have hperm : (s.alarms .manager).Perm
      (ts.map CoTimer.fn_ ++ (mgr.deadlines_.map Prod.snd).map CoTimer.fn_) := by
    rw [← List.map_append, happ]
    exact .refl _
  have hal : s'.alarms = update (update s.alarms .manager
      ((mgr.deadlines_.map Prod.snd).map CoTimer.fn_)) (.expiring t)
      (s.alarms (.expiring t) ++ ts.map CoTimer.fn_) := by
    subst hs'
    funext l
    cases l with
    | manager => simp
    | _ u => by_cases hu : u = t <;> simp_all
  have hmem : ∀ {l T}, T ∈ s'.timersAt l → ∃ l', T ∈ s.timersAt l' := by
    intro l T hT
    subst hs'
    cases l with
    | untimed u => contradiction
    | manager => exact ⟨.manager, by rw [timersAt, ← happ]; exact List.mem_append_right _ hT⟩
    | expiring u =>
      by_cases hu : u = t
      · refine ⟨.manager, ?_⟩
        rw [timersAt, ← happ]
        exact List.mem_append_left _ (by simpa [hu] using hT)
      · exact ⟨.expiring u, by simpa [hu] using hT⟩
  refine ⟨_, hal ▸ h.alarms.moveAll (by simp) hperm, fun {x} => ?_, fun hT hT' hid => ?_, fun hT => ?_⟩
  · have hx := fun hx => h.alarms.ne_none (hperm.mem_iff.mpr (List.mem_append_left _ hx)) (a := x)
    rw [← hs']
    split_ifs with hm
    · simpa using h.asleep.mpr (hx hm)
    · exact h.asleep
  · obtain ⟨_, hT⟩ := hmem hT
    obtain ⟨_, hT'⟩ := hmem hT'
    exact h.ids hT hT' hid
  · obtain ⟨_, hT⟩ := hmem hT
    rw [← hs']
    exact h.active hT

/-- **A timer is called**: its task leaves `wait_tasks_`. -/
theorem Alarmed.expire (h : s.Alarmed aloc) (hnodup : s.q.sleepWaitTasks_.Nodup)
    {ts : List (CoTimer τ)} (hph : s.threads.pc t = .expiring (T :: ts)) {b : Bool}
    (hs' : { s.goto t (.waking T.fn_ ts) with
      q := { s.q with sleepWaitTasks_ := s.q.sleepWaitTasks_.erase T.fn_ }
      timers := (s.timers.deactivate T.id_).1
      fault := b } = s') : s'.Alarmed (update aloc T.fn_ none) := by
  have hT₀ : T ∈ s.timersAt (.expiring t) := by simp [hph]
  have hl : aloc T.fn_ = some (.expiring t) := h.alarms.mem.mp (mem_alarms hT₀)
  have hnd : (T :: ts).Nodup := by
    have := h.alarms.nodup (.expiring t)
    rw [System.alarms, timersAt, hph] at this
    exact this.of_map
  have hmem : ∀ {l T'}, T' ∈ s'.timersAt l → T' ∈ s.timersAt l ∧ T'.id_ ≠ T.id_ := by
    intro l T' hT'
    have hold : T' ∈ s.timersAt l ∧ ¬(l = .expiring t ∧ T' = T) := by
      subst hs'
      cases l with
      | expiring u =>
        by_cases hu : u = t
        · simp_all
          grind
        · simp_all
      | _ => simp_all
    exact ⟨hold.1, fun hid => hold.2 (h.inj hold.1 hT₀ hid)⟩
  refine h.put T.fn_ none (fun l => ?_) (fun x => ?_) (fun hT hT' => h.ids (hmem hT).1 (hmem hT').1)
    fun hT => ?_
  · subst hs'
    clear hmem
    cases l with
    | untimed u => by_cases hu : u = t <;> simp_all
    | manager => simp [hl]
    | expiring u =>
      by_cases hu : u = t
      · simp [hu, hl, hph]
      · simp [hu, hl, Ne.symm hu]
  · subst hs'
    rw [hnodup.mem_erase_iff]
    split_ifs with hx <;> simp [hx]
  · obtain ⟨hT, hne⟩ := hmem hT
    rw [← hs']
    exact ⟨(h.active hT).1, (update_of_ne hne ..).trans (h.active hT).2⟩

omit [DecidableEq θ] [LinearOrder τ] in
/-- The task of a timer that a thread was given is in `wait_tasks_`. -/
theorem Alarmed.mem_sleepWait (h : s.Alarmed aloc) {ts : List (CoTimer τ)}
    (hph : s.threads.pc t = .expiring (T :: ts)) : T.fn_ ∈ s.q.sleepWaitTasks_ :=
  h.asleep.mpr (h.alarms.ne_none (mem_alarms (l := .expiring t) (by simp [hph])))

variable [DecidableEq β]

omit [DecidableEq θ] [LinearOrder τ] in
theorem sleepWait_puts {q q' : Queues τ β} {l : Loc β} {xs : List τ} (hq : q.Puts l xs q')
    (hl : l = .sleepWait → xs = q.sleepWaitTasks_) : q'.sleepWaitTasks_ = q.sleepWaitTasks_ := by
  have := congrFun hq.places .sleepWait
  rw [update_apply] at this
  split_ifs at this with h
  · exact this.trans (hl h.symm)
  · exact this

/-- **One step** forgets no sleeper. -/
theorem step_alarmed (h : s.Alarmed aloc) (ho : s.Owned loc) (hst : Step s s') :
    ∃ aloc', s'.Alarmed aloc' := by
  have hcall : ∀ {t x} {q : Queues τ β}, q.sleepTimerMgr_ = s.q.sleepTimerMgr_ →
      q.sleepWaitTasks_ = s.q.sleepWaitTasks_ → Alarmed { s.setCall t x with q := q } aloc :=
    fun hmgr hsleep => h.congr (fun _ => ⟨rfl, rfl⟩) hmgr hsleep rfl
  cases hst with
  | setCount n => exact ⟨_, h.congr (fun _ => ⟨rfl, rfl⟩) rfl rfl rfl⟩
  | permit l q hq =>
    exact ⟨_, h.congr (fun _ => ⟨rfl, rfl⟩) hq.sleepTimerMgr (sleepWait_puts hq (· ▸ rfl)) rfl⟩
  | jump t x ph hph hsame =>
    subst hph
    exact ⟨_, h.goto rfl ⟨hsame.untimed, hsame.timers⟩ rfl rfl rfl⟩
  | record t x ph tk T l q hph hsame htk hproc hstate hq =>
    subst hph
    have hsleep := sleepWait_puts hq fun hl => hl ▸ rfl
    exact ⟨_, h.goto rfl ⟨hsame.untimed, hsame.timers⟩ hq.sleepTimerMgr hsleep rfl⟩
  | park t c i P tk rest ph l xs q hph hafter hpark hq =>
    cases hpark with
    | sleep =>
      have hfree : aloc tk = none := by
        by_contra hne
        have hin : loc tk = some (.shared .sleepWait) := ho.places.mem.mp (h.asleep.mpr hne)
        simp [ho.mem_slist hph hafter] at hin
      have hsl : q.sleepWaitTasks_ = s.q.sleepWaitTasks_ ++ [tk] := congrFun hq.places .sleepWait
      have hat : timersAt { s.goto t (.parking c i { P with after := rest, turn := .enter } tk .timer)
          with q := q } = s.timersAt := by
        funext l
        cases l with
        | expiring u => by_cases hu : u = t <;> simp [hu, hph]
        | _ => simp [hq.sleepTimerMgr]
      refine ⟨_, h.put tk (some (.untimed t)) (fun l => ?_) (fun x => ?_) (hat ▸ h.ids) (hat ▸ h.active)⟩
      · cases l with
        | untimed u =>
          by_cases hu : u = t
          · simp [hu, hph, hfree]
          · simp [hu, hfree, Ne.symm hu]
        | manager => simp [hq.sleepTimerMgr, hfree]
        | expiring u => by_cases hu : u = t <;> simp [hu, hph, hfree]
      · split_ifs with hx <;> simp [hsl, hx]
    | _ =>
      refine ⟨_, h.goto rfl (by rw [hph]; exact ⟨rfl, rfl⟩) hq.sleepTimerMgr (sleepWait_puts hq ?_) rfl⟩
      rintro ⟨⟩ <;> rfl
  | timer t c i P tk timePoint hph => exact ⟨_, h.timer hph rfl⟩
  | doSleep t now hph => exact h.getExpired (CoTimerMgr.getExpired_append ..) hph rfl
  | expire t T timers hph => exact ⟨_, h.expire (ho.places.nodup (.shared .sleepWait)) hph rfl⟩
  | expireDead t T timers hph hdead =>
    -- no other thread calls this timer
    have hact := (h.active (l := .expiring t) (T := T) (by simp [hph])).2
    rw [hdead] at hact
    contradiction
  | done t c i P P' tk rest ph hph hafter hP hph' =>
    refine ⟨_, h.goto rfl ?_ rfl rfl rfl⟩
    rcases hph' with rfl | rfl <;> simp [hph]
  | putBack t c i p raised hph =>
    refine ⟨_, h.goto rfl ?_ rfl rfl rfl⟩
    cases raised <;> simp [hph]
  | give t c i p ti avg tk hph =>
    have hq := sleep_procAddTaskRunnable s.q p tk
    exact ⟨_, h.goto rfl (by rw [hph]; exact ⟨rfl, rfl⟩) hq.1 hq.2 rfl⟩
  | parkWake t c i P tk hph | sleepWake t tk timers hph =>
    refine ⟨aloc, Alarmed.addRunnable ?_⟩
    exact h.goto rfl (by rw [hph]; exact ⟨rfl, rfl⟩) rfl rfl rfl
  | createTask t tk hcall' hnew => exact ⟨_, hcall rfl rfl⟩
  | takeOut t tk inLoop l xs q hcall' hl htk hq =>
    refine ⟨_, hcall hq.sleepTimerMgr (sleepWait_puts hq fun h0 => ?_)⟩
    rcases hl with rfl | ⟨k, rfl⟩ <;> contradiction
  | endCreateTask t tk hcall' | endWakeup t tk inLoop hcall' =>
    exact ⟨_, (hcall (t := t) (x := .none) (q := s.q) rfl rfl).addRunnable⟩
  | wakeup b tk rest q hqueue hq =>
    have h₁ : Alarmed { s with q := q } aloc := h.congr (fun _ => ⟨rfl, rfl⟩) hq.sleepTimerMgr
      (sleepWait_puts hq (by simp)) rfl
    exact ⟨_, h₁.addRunnable⟩
  | lock t hph | beginCreate t hph | create t _ hph | endCreate t _ hph | unlock t hph
  | popProc t _ _ _ _ hph | subDone t _ _ _ _ _ hph | popTask t _ _ _ _ _ _ _ hph
  | giveFailed t _ _ _ _ _ _ hph | popAll t _ _ _ hph | pushList t _ _ _ _ hph
  | registerFailed t _ _ _ _ hph | repush t _ _ _ _ hph =>
    exact ⟨_, h.goto rfl (by rw [hph]; exact ⟨rfl, rfl⟩) rfl rfl rfl⟩

/-! ### Runs -/

structure Inv (s : System θ τ β) : Prop where
  procs : ∃ ploc, s.ProcsPlaced ploc
  owned : ∃ loc, s.Owned loc
  alarmed : ∃ aloc, s.Alarmed aloc
  asserts : s.fault = false

omit [DecidableEq θ] [LinearOrder τ] [DecidableEq β] in
theorem init_inv (h : Init s) : s.Inv := by
  have hpl : s.places = fun _ => [] := by
    funext w
    cases w with
    | shared l => exact h.places l
    | held t k => cases k <;> simp only [places, holds, h.idle, h.call] <;> rfl
  have hat : s.timersAt = fun _ => [] := by
    funext l
    cases l <;> simp [h.sleepTimerMgr, h.idle]
  have hal : s.alarms = fun _ => [] := by
    funext l
    cases l <;> simp [h.sleepTimerMgr, h.idle]
  have hsleep : s.q.sleepWaitTasks_ = [] := h.places .sleepWait
  refine ⟨⟨_, procs_init h⟩, ⟨fun _ => none, hpl ▸ places_empty, ?_, ?_, by simp, ?_⟩,
    ⟨fun _ => none, hal ▸ places_empty, ?_, ?_, ?_⟩, h.fault⟩
  · simp [h.created]
  · simp [h.ended]
  · simp [h.idle, Phase.touched]
  · simp [hsleep]
  · simp [hat, -timersAt]
  · simp [hat, -timersAt]

theorem reach_inv : ∀ s : System θ τ β, ReachIf Init step (fun _ a => readsEnd a = true) s → s.Inv := by
  refine ReachIf.invariant (fun _ h => init_inv h) fun s s' a h hend hst => ?_
  obtain ⟨⟨ploc, hp⟩, ⟨loc, ho⟩, ⟨aloc, ha⟩, hf⟩ := h
  have hstep := step_cases hend hst
  obtain ⟨ho', hf'⟩ := step_owned ho hp ha.mem_sleepWait hstep
  exact ⟨step_procs hp hstep, ho', step_alarmed ha ho hstep, hf'.trans hf⟩

-- thread 1 creates task 7, and thread 0 makes a processer and runs the task
def createAndRun : List (Act ℕ ℕ Unit) :=
  .createTask 1 7 :: .endCall 1 none :: .run 0 :: List.replicate 15 (.advance 0 0)

/-- **Sleepers are woken once**, in the same runs.  Every task in `SleepWait::wait_tasks_` has one
alarm: a timer in `timer_mgr_`, a timer that one thread got from `GetExpired`, or a thread about to set it;
and no other task has one.  All these timers are different and still active, so the call of
each will wake its task. -/
theorem sleepers_alarmed (hs : ReachIf Init step (fun _ a => readsEnd a = true) s) :
    (∀ tk ∈ s.q.sleepWaitTasks_, ∃! l, tk ∈ s.alarms l) ∧
      (∀ l, (s.alarms l).Nodup ∧ ∀ tk ∈ s.alarms l, tk ∈ s.q.sleepWaitTasks_) ∧
      (∀ l, ∀ T ∈ s.timersAt l, s.timers.active_ T.id_ = true) ∧
      (∀ l l', ∀ T ∈ s.timersAt l, ∀ T' ∈ s.timersAt l', T.id_ = T'.id_ → l = l' ∧ T = T') := by
  obtain ⟨-, -, ⟨aloc, h⟩, -⟩ := reach_inv s hs
  refine ⟨fun tk htk => ?_, fun l => ⟨h.alarms.nodup l, fun tk htk => ?_⟩, fun l T hT => ?_,
    fun l l' T hT T' hT' he => h.inj hT hT' he⟩
  · obtain ⟨l, hl⟩ := Option.ne_none_iff_exists'.mp (h.asleep.mp htk)
    exact ⟨l, h.alarms.mem.mpr hl, fun l' hl' => h.alarms.unique hl' (h.alarms.mem.mpr hl)⟩
  · exact h.asleep.mpr (h.alarms.ne_none htk)
  · exact (h.active hT).2

-- task 7 sleeps for 5 ms; at time 5 thread 1 is given the timer, while thread 0 is in its pass
def sleepAndExpire : List (Act ℕ ℕ Unit) :=
  createAndRun ++
    .sleepSwitch 0 5 :: .advance 0 0 :: .advance 0 0 :: .run 1 :: List.replicate 4 (.advance 1 5)

theorem sleepers_alarmed_sleepAndExpire : ∃ s : System ℕ ℕ Unit,
    execIf step (fun _ a => readsEnd a = true) (start 1) sleepAndExpire = some s ∧
      s.alarms (.expiring 1) = [7] ∧ s.alarms .manager = [] ∧ (∃! l, 7 ∈ s.alarms l) ∧
      ∀ T ∈ s.timersAt (.expiring 1), s.timers.active_ T.id_ = true := by
  refine ⟨_, rfl, rfl, rfl, ?_⟩
  have h := sleepers_alarmed (β := Unit) (reachIf_exec sleepAndExpire (.start (init_start 1)) rfl)
  exact ⟨h.1 7 (by decide), h.2.2.1 (.expiring 1)⟩

end System

end Scheduler.Threads
