/-
Every unfinished task is in exactly one container of the scheduler.

* `Queues.Owned` — the tasks are placed (`Places`) in the containers, each processer
  has only its own, and the counters count the placed tasks;
* `State.step_owned` — every step of the scheduler keeps this;
* `State.single_ownership` — the property in every reachable state.
-/
import CppFeatures.Placement
import CppFeatures.Scheduler
import Mathlib.Data.Finset.Card

namespace Scheduler

open Function List

/-- The containers of tasks; `slist` is the list of the pass in progress. -/
inductive Loc (β : Type*)
  | runTasks
  | runnable (p : ℕ)
  | slist
  | ioWait
  | sleepWait
  | block (b : β)
  | user (k : WaitKey)
deriving DecidableEq

variable {τ β : Type*}

-- the states of a task that has been given to a processer
def TaskState.started : TaskState → Bool
  | .init => false
  | .fatal => false
  | _ => true

namespace Queues

/-- The tasks in a container. -/
def places (q : Queues τ β) (slist : List τ) : Loc β → List τ
  | .runTasks => q.runTasks_
  | .runnable p => (q.proc p).runnableList_
  | .slist => slist
  | .ioWait => q.ioWaitTasks_
  | .sleepWait => q.sleepWaitTasks_
  | .block b => (q.block b).waitQueue_
  | .user k => (q.userWaitTasks_.pair [] k).second

/-- The tasks that the stored sleep timers will wake. -/
def sleepers (q : Queues τ β) : List τ := (q.sleepTimerMgr_.deadlines_.map Prod.snd).map CoTimer.fn_

/-- **Ownership.**  `loc` says where each of the tasks `U` is, and the others are
nowhere; the pass in progress has the list `slist` of tasks of `proc`, has finished
`doneCount` tasks, and only `cur` may be marked as done without having been taken
out. -/
structure Owned (q : Queues τ β) (slist : List τ) (proc : Option ℕ) (doneCount : BitVec 32)
    (cur : Option τ) (U : Finset τ) (loc : τ → Option (Loc β)) : Prop where
  places : Places (q.places slist) loc
  live : ∀ {t}, t ∈ U ↔ loc t ≠ none
  created : U ⊆ q.created
  new : ∀ {t}, loc t = some .runTasks → (q.task t).state_ = .init ∧ (q.task t).proc_ = none
  started : ∀ {t l}, loc t = some l → l ≠ .runTasks →
    (q.task t).state_.started ∧ (q.task t).proc_ ≠ none
  home : ∀ {t p}, loc t = some (.runnable p) → (q.task t).proc_ = some p
  inPass : ∀ {t}, loc t = some .slist → (q.task t).proc_ = proc
  finished : ∀ {t}, t ∈ q.created → loc t = none → (q.task t).state_ = .done
  alive : ∀ {t}, loc t ≠ none → (q.task t).state_ = .done → cur = some t
  taskCount : q.taskCount_ - doneCount = BitVec.ofNat 32 U.card
  procCount : ∀ p, (q.proc p).taskCount_
    = BitVec.ofNat 32 (U.filter fun t => (q.task t).proc_ = some p).card
  sleepers : q.sleepers.Nodup ∧ ∀ t ∈ q.sleepers, loc t = some .sleepWait

/-! ### What an operation on the containers has to show -/

/-- The tasks and the counters are the same; containers may differ. -/
structure SameTasks (q q' : Queues τ β) : Prop where
  created : q'.created = q.created
  task : q'.task = q.task
  taskCount : q'.taskCount_ = q.taskCount_
  procCount : ∀ p, (q'.proc p).taskCount_ = (q.proc p).taskCount_

theorem SameTasks.trans {q q' q'' : Queues τ β} (h : SameTasks q q') (h' : SameTasks q' q'') :
    SameTasks q q'' :=
  ⟨h'.created.trans h.created, h'.task.trans h.task, h'.taskCount.trans h.taskCount,
    fun p => (h'.procCount p).trans (h.procCount p)⟩

theorem sameTasks_setRunnable (q : Queues τ β) (p : ℕ) (xs : List τ) :
    SameTasks q { q with proc := update q.proc p ⟨xs, (q.proc p).taskCount_⟩ } := by
  refine ⟨rfl, rfl, rfl, fun p' => ?_⟩
  by_cases hp : p' = p <;> simp [hp]

theorem sameTasks_pushRunnable (q : Queues τ β) (p : ℕ) (tk : τ) :
    SameTasks q (q.pushRunnable p tk) :=
  sameTasks_setRunnable q p _

variable {q q' : Queues τ β} {slist slist' : List τ} {proc proc' : Option ℕ} {dc : BitVec 32}
  {cur cur' : Option τ} {U : Finset τ} {loc loc' : τ → Option (Loc β)} {tk : τ} {l : Loc β}

/-- **Tasks move**, none starts or ends. -/
theorem Owned.relocate (h : q.Owned slist proc dc cur U loc) (hs : SameTasks q q')
    (hpl : Places (q'.places slist') loc') (hlive : ∀ t, (loc' t).isSome = (loc t).isSome)
    (hnew : ∀ t, loc' t = some .runTasks ↔ loc t = some .runTasks)
    (hhome : ∀ t p, loc' t = some (.runnable p) → (q.task t).proc_ = some p)
    (hpass : ∀ t, loc' t = some .slist → (q.task t).proc_ = proc')
    (hcur : ∀ t, (q.task t).state_ = .done → cur = some t → cur' = some t)
    (hsleep : q'.sleepers.Nodup ∧ ∀ t ∈ q'.sleepers, loc' t = some .sleepWait) :
    q'.Owned slist' proc' dc cur' U loc' := by
  have hnone : ∀ t, loc' t = none ↔ loc t = none := fun t => by
    rw [← Option.not_isSome_iff_eq_none, hlive, Option.not_isSome_iff_eq_none]
  refine ⟨hpl, ?_, hs.created ▸ h.created, ?_, ?_, ?_, ?_, ?_, ?_, ?_, ?_, hsleep⟩
  · intro t
    rw [h.live, Ne, Ne, hnone]
  · intro t ht
    rw [hs.task]
    exact h.new ((hnew t).mp ht)
  · intro t l ht hl
    rw [hs.task]
    obtain ⟨l₀, hl₀⟩ := Option.isSome_iff_exists.mp ((hlive t).symm.trans (by rw [ht]; rfl))
    refine h.started hl₀ fun h0 => hl ?_
    rw [h0, ← hnew t, ht] at hl₀
    exact Option.some_inj.mp hl₀
  · intro t p ht
    rw [hs.task]
    exact hhome t p ht
  · intro t ht
    rw [hs.task]
    exact hpass t ht
  · intro t hc ht
    rw [hs.task]
    exact h.finished (hs.created ▸ hc) ((hnone t).mp ht)
  · intro t ht hd
    rw [hs.task] at hd
    exact hcur t hd (h.alive (fun h0 => ht ((hnone t).mpr h0)) hd)
  · rw [hs.taskCount, h.taskCount]
  · intro p
    rw [hs.procCount, hs.task, h.procCount]

/-- Nothing moves. -/
theorem Owned.congr (h : q.Owned slist proc dc cur U loc) (hs : SameTasks q q')
    (hpl : q'.places slist = q.places slist) (hsl : q'.sleepers = q.sleepers) :
    q'.Owned slist proc dc cur U loc :=
  h.relocate hs (hpl ▸ h.places) (fun _ => rfl) (fun _ => .rfl) (fun _ _ => h.home)
    (fun _ => h.inPass) (fun _ _ ht => ht) (hsl ▸ h.sleepers)

theorem SameTasks.refl (q : Queues τ β) : SameTasks q q := ⟨rfl, rfl, rfl, fun _ => rfl⟩

theorem Owned.setCur (h : q.Owned slist proc dc cur U loc)
    (hcur : ∀ t, (q.task t).state_ = .done → cur = some t → cur' = some t) :
    q.Owned slist proc dc cur' U loc :=
  h.relocate (.refl q) h.places (fun _ => rfl) (fun _ => .rfl) (fun _ _ => h.home)
    (fun _ => h.inPass) hcur h.sleepers

section Places

theorem places_setTask (q : Queues τ β) (slist : List τ) (f : τ → Task β) :
    { q with task := f }.places slist = q.places slist := by
  funext l
  cases l <;> rfl

variable [DecidableEq β]

/-! ### The containers after each operation -/

theorem places_runTasks (q : Queues τ β) (slist xs : List τ) :
    { q with runTasks_ := xs }.places slist = update (q.places slist) .runTasks xs := by
  funext l
  cases l <;> simp [places]

theorem places_slist (q : Queues τ β) (slist xs : List τ) :
    q.places xs = update (q.places slist) .slist xs := by
  funext l
  cases l <;> simp [places]

theorem places_ioWait (q : Queues τ β) (slist xs : List τ) :
    { q with ioWaitTasks_ := xs }.places slist = update (q.places slist) .ioWait xs := by
  funext l
  cases l <;> simp [places]

theorem places_sleepWait (q : Queues τ β) (slist xs : List τ) (m : CoTimerMgr τ) :
    { q with sleepWaitTasks_ := xs, sleepTimerMgr_ := m }.places slist
      = update (q.places slist) .sleepWait xs := by
  funext l
  cases l <;> simp [places]

theorem places_runnable (q : Queues τ β) (slist : List τ) (p : ℕ) (r : Processer τ) :
    { q with proc := update q.proc p r }.places slist
      = update (q.places slist) (.runnable p) r.runnableList_ := by
  funext l
  cases l with
  | runnable p' =>
    by_cases hp : p' = p
    · simp [places, hp]
    · simp [places, hp]
  | _ => simp [places]

theorem places_pushRunnable (q : Queues τ β) (slist : List τ) (p : ℕ) (tk : τ) :
    (q.pushRunnable p tk).places slist
      = update (q.places slist) (.runnable p) (q.places slist (.runnable p) ++ [tk]) :=
  places_runnable ..

theorem places_block (q : Queues τ β) (slist : List τ) (b : β) (obj : BlockObject τ) :
    { q with block := update q.block b obj }.places slist
      = update (q.places slist) (.block b) obj.waitQueue_ := by
  funext l
  cases l with
  | block b' =>
    by_cases hb : b' = b
    · simp [places, hb]
    · simp [places, hb]
  | _ => simp [places]

theorem places_user (q : Queues τ β) (slist : List τ) (k : WaitKey) (p : WaitPair (List τ)) :
    { q with userWaitTasks_ := q.userWaitTasks_.commit List.isEmpty k p }.places slist
      = update (q.places slist) (.user k) p.second := by
  funext l
  cases l with
  | user k' =>
    simp only [places, UserWait.pair_commit, update_apply, Loc.user.injEq]
    split_ifs <;> rfl
  | _ => simp [places]

theorem places_block_same (slist : List τ) {b : β} {obj : BlockObject τ}
    (hobj : obj.waitQueue_ = (q.block b).waitQueue_) :
    { q with block := update q.block b obj }.places slist = q.places slist := by
  rw [places_block, hobj]
  exact update_eq_self (.block b) (q.places slist)

theorem places_user_same (slist : List τ) {k : WaitKey} {p : WaitPair (List τ)}
    (hp : p.second = (q.userWaitTasks_.pair [] k).second) :
    { q with userWaitTasks_ := q.userWaitTasks_.commit List.isEmpty k p }.places slist
      = q.places slist := by
  rw [places_user, hp]
  exact update_eq_self (.user k) (q.places slist)

end Places

variable [LinearOrder τ]

/-! ### Changing and moving one task -/

/-- **A task's record changes** and the task stays where it is. -/
theorem Owned.setTask (h : q.Owned slist proc dc cur U loc) (hl : loc tk = some l)
    (hne : l ≠ .runTasks) {T : Task β} (hp : T.proc_ = (q.task tk).proc_) (hi : T.state_.started)
    (hd : T.state_ = .done → cur' = some tk) (hcur : ∀ t ≠ tk, cur = some t → cur' = some t) :
    { q with task := update q.task tk T }.Owned slist proc dc cur' U loc := by
  have hproc : ∀ t, (update q.task tk T t).proc_ = (q.task t).proc_ := by
    intro t
    by_cases ht : t = tk
    · rw [ht, update_self, hp]
    · rw [update_of_ne ht]
  refine ⟨(places_setTask q slist _) ▸ h.places, h.live, h.created, ?_, ?_, ?_, ?_, ?_, ?_, h.taskCount, ?_, h.sleepers⟩
  · intro t ht
    have hne' : t ≠ tk := fun h0 => by
      rw [h0, hl] at ht
      exact hne (Option.some_inj.mp ht)
    simp only [update_of_ne hne']
    exact h.new ht
  · intro t l' ht hl'
    refine ⟨?_, (hproc t).symm ▸ (h.started ht hl').2⟩
    by_cases htk : t = tk
    · rw [htk]
      simpa using hi
    · simp only [update_of_ne htk]
      exact (h.started ht hl').1
  · intro t p ht
    exact (hproc t).trans (h.home ht)
  · intro t ht
    exact (hproc t).trans (h.inPass ht)
  · intro t hc ht
    have hne' : t ≠ tk := fun h0 => by simp [h0, hl] at ht
    simp only [update_of_ne hne']
    exact h.finished hc ht
  · intro t ht hdone
    by_cases htk : t = tk
    · subst htk
      simp only [update_self] at hdone
      exact hd hdone
    · simp only [update_of_ne htk] at hdone
      exact hcur t htk (h.alive ht hdone)
  · intro p
    simp only [hproc]
    exact h.procCount p

variable [DecidableEq β]

/-- **A task moves** from one container to the end of another. -/
theorem Owned.move (h : q.Owned slist proc dc cur U loc) (hs : SameTasks q q') {xs : List τ}
    (hp : (q.places slist l).Perm (tk :: xs)) (hne : l ≠ .runTasks) {l' : Loc β} (hll : l' ≠ l)
    (hne' : l' ≠ .runTasks) (hslist : l' ≠ .slist)
    (hhome : ∀ p, l' = .runnable p → (q.task tk).proc_ = some p)
    (hpl : q'.places slist'
      = update (update (q.places slist) l xs) l' (q.places slist l' ++ [tk]))
    (hcur : ∀ t, (q.task t).state_ = .done → cur = some t → cur' = some t)
    (hsleep : q'.sleepers.Nodup ∧
      ∀ t ∈ q'.sleepers, if t = tk then l' = .sleepWait else loc t = some .sleepWait) :
    q'.Owned slist' proc dc cur' U (update loc tk (some l')) := by
  have hl : loc tk = some l := h.places.mem.mp (hp.mem_iff.mpr mem_cons_self)
  refine h.relocate hs (hpl ▸ h.places.move hll hp) ?_ ?_ ?_ ?_ hcur ⟨hsleep.1, ?_⟩
  all_goals intro t
  · rw [update_apply]
    split_ifs with ht
    · rw [ht, hl]
      rfl
    · rfl
  · rw [update_apply]
    split_ifs with ht
    · simp [ht, hl, hne, hne']
    · rfl
  · intro p
    rw [update_apply]
    split_ifs with ht
    · intro hlp
      rw [ht]
      exact hhome p (Option.some_inj.mp hlp)
    · exact h.home
  · rw [update_apply]
    split_ifs with ht
    · intro hlp
      exact absurd (Option.some_inj.mp hlp) hslist
    · exact h.inPass
  · intro ht
    have := hsleep.2 t ht
    rw [update_apply]
    split_ifs with htk
    · rw [if_pos htk] at this
      rw [this]
    · rwa [if_neg htk] at this

omit [DecidableEq β] in
theorem addTaskRunnable_started {p : ℕ} (hp : (q.task tk).proc_ = some p)
    (hi : (q.task tk).state_.started) :
    q.addTaskRunnable tk = (q.pushRunnable p tk).setState tk .runnable := by
  have hinit : (q.task tk).state_ ≠ .init := fun h0 => by simp [h0, TaskState.started] at hi
  simp only [addTaskRunnable, hp, procAddTaskRunnable, hinit, if_false]
  rfl

omit [DecidableEq β] in
theorem sleepers_addTaskRunnable (q : Queues τ β) (tk : τ) :
    (q.addTaskRunnable tk).sleepers = q.sleepers := by
  rw [addTaskRunnable]
  cases (q.task tk).proc_ with
  | none => rfl
  | some p =>
    dsimp only [procAddTaskRunnable]
    split_ifs <;> rfl

/-- **`AddTaskRunnable`** on a task that has been taken out of a wait structure. -/
theorem Owned.wake (h : q.Owned slist proc dc cur U loc) (hs : SameTasks q q') {xs : List τ}
    (hp : (q.places slist l).Perm (tk :: xs)) (hne : l ≠ .runTasks) (hrun : ∀ p, l ≠ .runnable p)
    (hpl : q'.places slist' = update (q.places slist) l xs)
    (hcur : ∀ t ≠ tk, cur = some t → cur' = some t)
    (hsub : q'.sleepers.Sublist q.sleepers) (hnot : tk ∉ q'.sleepers) :
    ∃ p, (q'.addTaskRunnable tk).Owned slist' proc dc cur' U
      (update loc tk (some (.runnable p))) := by
  have hl : loc tk = some l := h.places.mem.mp (hp.mem_iff.mpr mem_cons_self)
  obtain ⟨hinit, hproc⟩ := h.started hl hne
  obtain ⟨p, hp'⟩ := Option.ne_none_iff_exists'.mp hproc
  refine ⟨p, ?_⟩
  rw [addTaskRunnable_started (by rw [hs.task, hp']) (by rw [hs.task]; exact hinit)]
  have hs' : SameTasks q (q'.pushRunnable p tk) := hs.trans (sameTasks_pushRunnable q' p tk)
  have hmove : (q'.pushRunnable p tk).Owned slist' proc dc cur U
      (update loc tk (some (.runnable p))) := by
    refine h.move hs' hp hne (Ne.symm (hrun p)) (by simp) (by simp) ?_ ?_ (fun _ _ ht => ht)
      ⟨h.sleepers.1.sublist hsub, ?_⟩
    · rintro p' hpp
      rw [hp', Loc.runnable.inj hpp]
    · have hrunnable : (q'.proc p).runnableList_ = q.places slist (.runnable p) := by
        have := congrFun hpl (.runnable p)
        rwa [update_of_ne (Ne.symm (hrun p))] at this
      rw [pushRunnable, places_runnable, hpl, hrunnable]
    · intro t ht
      have htk : t ≠ tk := fun h0 => hnot (h0 ▸ ht)
      rw [if_neg htk]
      exact h.sleepers.2 t (hsub.subset ht)
  exact hmove.setTask (update_self ..) (by simp) rfl rfl (by simp) hcur

omit [LinearOrder τ] [DecidableEq β] in
theorem Owned.notMem_sleepers (h : q.Owned slist proc dc cur U loc) (hl : loc tk = some l)
    (hne : l ≠ .sleepWait) : tk ∉ q.sleepers := fun hm => by
  have := h.sleepers.2 tk hm
  rw [hl] at this
  exact hne (Option.some_inj.mp this)

/-- **`BlockObject::Wakeup`** -/
theorem Owned.wakeup (h : q.Owned slist proc dc cur U loc) (b : β) :
    ∃ loc', (q.wakeup b).Owned slist proc dc cur U loc' := by
  have hsame : ∀ obj, SameTasks q { q with block := update q.block b obj } :=
    fun _ => ⟨rfl, rfl, rfl, fun _ => rfl⟩
  rw [Queues.wakeup, BlockObject.wakeup]
  cases hq : (q.block b).waitQueue_ with
  | nil =>
    refine ⟨loc, ?_⟩
    dsimp only
    split_ifs
    · exact h.congr (hsame _) (places_block_same slist rfl) rfl
    · exact h.congr (hsame _) (places_block_same slist rfl) rfl
  | cons tk rest =>
    have hp : (q.places slist (.block b)).Perm (tk :: rest) := .of_eq hq
    have hl := h.places.mem.mp (hp.mem_iff.mpr mem_cons_self)
    obtain ⟨p, hw⟩ := h.wake (hsame { q.block b with waitQueue_ := rest }) hp (by simp) (by simp)
      (places_block ..) (fun _ _ ht => ht) (.refl _) (h.notMem_sleepers hl (by simp))
    exact ⟨_, hw⟩

/-- **`UserBlockWakeup`** with the default count. -/
theorem Owned.userBlockWakeup (h : q.Owned slist proc dc cur U loc) (k : WaitKey) :
    ∃ loc', (q.userBlockWakeup k).Owned slist proc dc cur U loc' := by
  have hsame : ∀ tbl, SameTasks q { q with userWaitTasks_ := tbl } :=
    fun _ => ⟨rfl, rfl, rfl, fun _ => rfl⟩
  rw [Queues.userBlockWakeup]
  rcases UserWait.blockWakeup_one_cases q.userWaitTasks_ k with ⟨tk, rest, hq, heq⟩ | ⟨hq, heq⟩
  · have hp : (q.places slist (.user k)).Perm (tk :: rest) := .of_eq hq
    have hl := h.places.mem.mp (hp.mem_iff.mpr mem_cons_self)
    obtain ⟨p, hw⟩ := h.wake (hsame (q.userWaitTasks_.commit List.isEmpty k
        ⟨UserWait.counter q.userWaitTasks_ k, rest⟩)) hp (by simp) (by simp)
      (places_user q slist k _) (fun _ _ ht => ht) (.refl _) (h.notMem_sleepers hl (by simp))
    rw [heq]
    exact ⟨_, hw⟩
  · rw [heq]
    exact ⟨loc, h.congr (hsame _) (places_user_same slist hq.symm) rfl⟩

omit [LinearOrder τ] in
/-- A permit of a `BlockObject` is taken. -/
theorem Owned.setBlock (h : q.Owned slist proc dc cur U loc) {b : β} {obj : BlockObject τ}
    (hobj : obj.waitQueue_ = (q.block b).waitQueue_) :
    { q with block := update q.block b obj }.Owned slist proc dc cur U loc :=
  h.congr ⟨rfl, rfl, rfl, fun _ => rfl⟩ (places_block_same slist hobj) rfl

omit [LinearOrder τ] in
/-- The counter of a key changes. -/
theorem Owned.setCounter (h : q.Owned slist proc dc cur U loc) {k : WaitKey}
    {p : WaitPair (List τ)} (hp : p.second = (q.userWaitTasks_.pair [] k).second) :
    { q with userWaitTasks_ := q.userWaitTasks_.commit List.isEmpty k p }.Owned slist proc dc cur U
      loc :=
  h.congr ⟨rfl, rfl, rfl, fun _ => rfl⟩ (places_user_same slist hp) rfl

/-- **A task leaves `IoWait`.** -/
theorem Owned.ioWakeup (h : q.Owned slist proc dc cur U loc) (hmem : tk ∈ q.ioWaitTasks_) :
    ∃ p, (q.ioWakeup tk).Owned slist proc dc cur U (update loc tk (some (.runnable p))) := by
  have hl : loc tk = some .ioWait := h.places.mem.mp hmem
  have hs : SameTasks q { q with ioWaitTasks_ := q.ioWaitTasks_.erase tk } :=
    ⟨rfl, rfl, rfl, fun _ => rfl⟩
  exact h.wake hs (l := .ioWait) (perm_cons_erase hmem) (by simp) (by simp)
    (places_ioWait ..) (fun _ _ ht => ht) (.refl _) (h.notMem_sleepers hl (by simp))

/-- **A task leaves `SleepWait`**, its timer being out of the manager already. -/
theorem Owned.sleepWakeup (h : q.Owned slist proc dc cur U loc) (hl : loc tk = some .sleepWait)
    (hnot : tk ∉ q.sleepers) :
    ∃ p, (q.sleepWakeup tk).Owned slist proc dc cur U
      (update loc tk (some (.runnable p))) := by
  have hmem : tk ∈ q.sleepWaitTasks_ := h.places.mem.mpr hl
  have hs : SameTasks q { q with sleepWaitTasks_ := q.sleepWaitTasks_.erase tk } :=
    ⟨rfl, rfl, rfl, fun _ => rfl⟩
  exact h.wake hs (l := .sleepWait) (perm_cons_erase hmem) (by simp) (by simp)
    (places_sleepWait ..) (fun _ _ ht => ht) (.refl _) hnot

/-! ### Starting and finishing tasks -/

omit [DecidableEq β] in
/-- **A task starts**, or is given to a processer: it gets a new record and a new
place. -/
theorem Owned.replace (h : q.Owned slist proc dc cur U loc) {T : Task β} {l : Loc β}
    (hcreated : q'.created = insert tk q.created) (htask : q'.task = update q.task tk T)
    (hpl : Places (q'.places slist) (update loc tk (some l)))
    (hnew : l = .runTasks → T.state_ = .init ∧ T.proc_ = none)
    (hstarted : l ≠ .runTasks → T.state_.started ∧ T.proc_ ≠ none)
    (hhome : ∀ p, l = .runnable p → T.proc_ = some p) (hslist : l ≠ .slist)
    (hdone : T.state_ ≠ .done)
    (htc : q'.taskCount_ - dc = BitVec.ofNat 32 (insert tk U).card)
    (hpc : ∀ p, (q'.proc p).taskCount_ = BitVec.ofNat 32 ((insert tk U).filter
      fun t => (update q.task tk T t).proc_ = some p).card)
    (hsl : q'.sleepers = q.sleepers) (hnot : loc tk ≠ some .sleepWait) :
    q'.Owned slist proc dc cur (insert tk U) (update loc tk (some l)) := by
  -- every field asks the same question for `tk` and for the other tasks
  refine ⟨hpl, ?_, hcreated ▸ Finset.insert_subset_insert tk h.created, ?_, ?_, ?_, ?_, ?_, ?_,
    htc, ?_, ?_⟩
  · intro t
    by_cases htk : t = tk
    · simp [htk]
    · rw [Finset.mem_insert, update_of_ne htk, h.live]
      simp [htk]
  · intro t ht
    rw [htask]
    by_cases htk : t = tk
    · subst htk
      simp only [update_self, Option.some_inj] at ht ⊢
      exact hnew ht
    · rw [update_of_ne htk] at ht ⊢
      exact h.new ht
  · intro t l' ht hl
    rw [htask]
    by_cases htk : t = tk
    · subst htk
      simp only [update_self, Option.some_inj] at ht ⊢
      exact hstarted (ht ▸ hl)
    · rw [update_of_ne htk] at ht ⊢
      exact h.started ht hl
  · intro t p ht
    rw [htask]
    by_cases htk : t = tk
    · subst htk
      simp only [update_self, Option.some_inj] at ht ⊢
      exact hhome p ht
    · rw [update_of_ne htk] at ht ⊢
      exact h.home ht
  · intro t ht
    rw [htask]
    by_cases htk : t = tk
    · subst htk
      simp only [update_self, Option.some_inj] at ht
      exact absurd ht hslist
    · rw [update_of_ne htk] at ht ⊢
      exact h.inPass ht
  · intro t hc ht
    have htk : t ≠ tk := fun h0 => by simp [h0] at ht
    rw [htask, update_of_ne htk]
    rw [update_of_ne htk] at ht
    exact h.finished (Finset.mem_of_mem_insert_of_ne (hcreated ▸ hc) htk) ht
  · intro t ht hd
    rw [htask] at hd
    by_cases htk : t = tk
    · rw [htk, update_self] at hd
      exact absurd hd hdone
    · rw [update_of_ne htk] at ht hd
      exact h.alive ht hd
  · intro p
    rw [hpc, htask]
  · refine ⟨hsl ▸ h.sleepers.1, fun t ht => ?_⟩
    have hloc := h.sleepers.2 t (hsl ▸ ht)
    have htk : t ≠ tk := fun h0 => hnot (h0 ▸ hloc)
    rw [update_of_ne htk, hloc]

/-- **`CreateTask`** -/
theorem Owned.createTask (h : q.Owned slist proc dc cur U loc) (hnew : tk ∉ q.created) :
    (q.createTask tk).Owned slist proc dc cur (insert tk U)
      (update loc tk (some .runTasks)) := by
  have hnone : loc tk = none := by
    by_contra h0
    exact hnew (h.created (h.live.mpr h0))
  have heq : q.createTask tk = { q with
      created := insert tk q.created
      task := update q.task tk {}
      taskCount_ := q.taskCount_ + 1
      runTasks_ := q.runTasks_ ++ [tk] } := by
    simp [Queues.createTask, addTaskRunnable]
  have hnot : tk ∉ U := fun h0 => h.live.mp h0 hnone
  rw [heq]
  refine h.replace rfl rfl ?_ (fun _ => ⟨rfl, rfl⟩) (fun h0 => absurd rfl h0) (by simp) (by simp)
    (by simp) ?_ ?_ rfl (by simp [hnone])
  · exact (places_runTasks q slist _) ▸ h.places.push hnone
  · rw [Finset.card_insert_of_notMem hnot, BitVec.ofNat_add, ← h.taskCount]
    bv_omega
  · intro p
    rw [Finset.filter_insert, if_neg (by simp), h.procCount]
    congr 2
    refine Finset.filter_congr fun t ht => ?_
    have htk : t ≠ tk := fun h0 => hnot (h0 ▸ ht)
    rw [update_of_ne htk]

/-- **Cherry-picking** one task. -/
theorem Owned.pick (h : q.Owned slist proc dc cur U loc) {rest : List τ}
    (hq : q.runTasks_ = tk :: rest) (p : ℕ) :
    ({ q with runTasks_ := rest }.procAddTaskRunnable p tk).Owned slist proc dc cur U
      (update loc tk (some (.runnable p))) := by
  have hp : (q.places slist .runTasks).Perm (tk :: rest) := .of_eq hq
  have hl : loc tk = some .runTasks := h.places.mem.mp (hp.mem_iff.mpr mem_cons_self)
  obtain ⟨hinit, hproc⟩ := h.new hl
  have hmem : tk ∈ U := h.live.mpr (by simp [hl])
  have heq : { q with runTasks_ := rest }.procAddTaskRunnable p tk = { q with
      runTasks_ := rest
      task := update q.task tk { q.task tk with proc_ := some p, state_ := .runnable }
      proc := update q.proc p
        ⟨(q.proc p).runnableList_ ++ [tk], (q.proc p).taskCount_ + 1⟩ } := by
    simp [procAddTaskRunnable, hinit, setState, modifyTask, pushRunnable]
  rw [heq, ← Finset.insert_eq_of_mem hmem]
  refine h.replace (Finset.insert_eq_of_mem (h.created hmem)).symm rfl ?_ (by simp)
    (fun _ => ⟨rfl, by simp⟩) (fun p' hp' => by rw [Loc.runnable.inj hp']) (by simp) (by simp)
    ?_ ?_ rfl (by simp [hl])
  · have hmove := h.places.move (j := .runnable p) (by simp) hp
    have hpl := places_runnable { q with runTasks_ := rest } slist p
      ⟨(q.proc p).runnableList_ ++ [tk], (q.proc p).taskCount_ + 1⟩
    rw [places_runTasks] at hpl
    exact ((places_setTask _ slist _).trans hpl) ▸ hmove
  · rw [Finset.insert_eq_of_mem hmem, h.taskCount]
  · intro p'
    rw [Finset.insert_eq_of_mem hmem]
    show (update q.proc p
      ⟨(q.proc p).runnableList_ ++ [tk], (q.proc p).taskCount_ + 1⟩ p').taskCount_ = _
    have hnot : tk ∉ U.filter fun t => (q.task t).proc_ = some p' := by simp [hproc]
    by_cases hpp : p' = p
    · have hset : (U.filter fun t => (update q.task tk
          { q.task tk with proc_ := some p, state_ := .runnable } t).proc_ = some p')
          = insert tk (U.filter fun t => (q.task t).proc_ = some p') := by
        ext t
        by_cases htk : t = tk
        · simp [htk, hmem, hpp]
        · simp [htk]
      rw [hset, Finset.card_insert_of_notMem hnot, BitVec.ofNat_add, ← h.procCount, hpp,
        update_self]
      rfl
    · rw [update_of_ne hpp, h.procCount]
      congr 2
      refine Finset.filter_congr fun t _ => ?_
      by_cases htk : t = tk
      · simp [htk, hproc, Ne.symm hpp]
      · rw [update_of_ne htk]

/-- **The cherry-pick loop** of `DoRunnable`. -/
theorem Owned.cherryPick (p n : ℕ) (h : q.Owned slist proc dc cur U loc) :
    ∃ loc', (Queues.cherryPick p n q).Owned slist proc dc cur U loc' := by
  induction n generalizing q loc with
  | zero => exact ⟨loc, h⟩
  | succ n ih =>
    rw [Queues.cherryPick]
    cases hq : q.runTasks_ with
    | nil => exact ⟨loc, h⟩
    | cons tk rest => exact ih (h.pick hq p)

theorem Owned.pickTasks (h : q.Owned slist proc dc cur U loc) (c p : ℕ) :
    ∃ loc', (q.pickTasks c p).Owned slist proc dc cur U loc' := by
  rw [Queues.pickTasks]
  split_ifs
  · exact ⟨loc, h⟩
  · exact h.cherryPick p _

/-- **A task is done** and leaves the pass. -/
theorem Owned.finish {before rest : List τ} {p : ℕ}
    (h : q.Owned (before ++ tk :: rest) (some p) dc (some tk) U loc)
    (hd : (q.task tk).state_ = .done) :
    (q.decTaskCount p).Owned (before ++ rest) (some p) (dc + 1) none (U.erase tk)
      (update loc tk none) := by
  have hp : (q.places (before ++ tk :: rest) .slist).Perm (tk :: (before ++ rest)) :=
    perm_middle
  have hl : loc tk = some .slist := h.places.mem.mp (hp.mem_iff.mpr mem_cons_self)
  have hmem : tk ∈ U := h.live.mpr (by simp [hl])
  have hne : ∀ {t l}, update loc tk none t = some l → t ≠ tk ∧ loc t = some l := by
    intro t l ht
    have htk : t ≠ tk := fun h0 => by simp [h0] at ht
    rw [update_of_ne htk] at ht
    exact ⟨htk, ht⟩
  refine ⟨?_, ?_, (Finset.erase_subset ..).trans h.created, ?_, ?_, ?_, ?_, ?_, ?_, ?_, ?_,
    h.sleepers.1, ?_⟩
  · have hpl := places_runnable q (before ++ tk :: rest) p
      ⟨(q.proc p).runnableList_, (q.proc p).taskCount_ - 1⟩
    have hsame := update_eq_self (.runnable p) (q.places (before ++ tk :: rest))
    rw [places_slist _ (before ++ tk :: rest)]
    exact (hpl.trans hsame) ▸ h.places.remove hp
  · intro t
    by_cases htk : t = tk
    · simp [htk]
    · rw [Finset.mem_erase, update_of_ne htk, h.live]
      simp [htk]
  · exact fun ht => h.new (hne ht).2
  · exact fun ht => h.started (hne ht).2
  · exact fun ht => h.home (hne ht).2
  · exact fun ht => h.inPass (hne ht).2
  · intro t hc ht
    by_cases htk : t = tk
    · rw [htk]
      exact hd
    · rw [update_of_ne htk] at ht
      exact h.finished hc ht
  · intro t ht hdone
    obtain ⟨l, hl⟩ := Option.ne_none_iff_exists'.mp ht
    have := h.alive (by simp [(hne hl).2]) hdone
    exact absurd (Option.some_inj.mp this).symm (hne hl).1
  · have hcard := Finset.card_erase_add_one hmem
    have := h.taskCount
    rw [← hcard, BitVec.ofNat_add] at this
    show q.taskCount_ - (dc + 1) = BitVec.ofNat 32 (U.erase tk).card
    bv_omega
  · intro p'
    show (update q.proc p ⟨(q.proc p).runnableList_, (q.proc p).taskCount_ - 1⟩
      p').taskCount_ = BitVec.ofNat 32
        ((U.erase tk).filter fun t => (q.task t).proc_ = some p').card
    rw [Finset.filter_erase]
    by_cases hpp : p' = p
    · have hcard := Finset.card_erase_add_one (s := U.filter
        fun t => (q.task t).proc_ = some p') (a := tk) (by simp [hmem, h.inPass hl, hpp])
      have := h.procCount p'
      rw [← hcard, BitVec.ofNat_add] at this
      rw [hpp] at this ⊢
      rw [update_self]
      simp only [this]
      bv_omega
    · rw [update_of_ne hpp, Finset.erase_eq_of_notMem, h.procCount]
      simp [h.inPass hl, Ne.symm hpp]
  · intro t ht
    have htk : t ≠ tk := fun h0 => by
      have := h.sleepers.2 t ht
      simp [h0, hl] at this
    rw [update_of_ne htk]
    exact h.sleepers.2 t ht

/-! ### The pass of a processer -/

omit [LinearOrder τ] in
/-- **A pass begins**: the runnable list becomes the list of the pass. -/
theorem Owned.popAll (h : q.Owned [] proc dc cur U loc) (p : ℕ) :
    ∃ loc', (q.popAll p).Owned (q.proc p).runnableList_ (some p) dc cur U loc' := by
  have hpl : (q.popAll p).places (q.proc p).runnableList_
      = update (update (q.places []) (.runnable p) []) .slist
        (q.places [] .slist ++ q.places [] (.runnable p)) := by
    rw [places_slist _ [], Queues.popAll, places_runnable]
    rfl
  refine ⟨_, h.relocate (sameTasks_setRunnable q p []) (hpl ▸ h.places.splice (by simp)) ?_ ?_ ?_ ?_
    (fun _ _ ht => ht) ⟨h.sleepers.1, ?_⟩⟩
  all_goals intro t
  · split_ifs with ht
    · rw [ht]
      rfl
    · rfl
  · split_ifs with ht
    · simp [ht]
    · rfl
  · intro p'
    split_ifs with ht
    · simp
    · exact h.home
  · split_ifs with ht
    · exact fun _ => h.home ht
    · intro hs
      exact absurd (h.places.mem.mpr hs) not_mem_nil
  · intro ht
    have := h.sleepers.2 t ht
    simp [this]

omit [LinearOrder τ] in
/-- **A pass ends**: what is left of its list is runnable again. -/
theorem Owned.pushAll {p : ℕ} (h : q.Owned slist (some p) dc cur U loc)
    (hcur : ∀ t, (q.task t).state_ = .done → cur = some t → cur' = some t) :
    ∃ loc', (q.pushAll p slist).Owned [] none dc cur' U loc' := by
  have hpl : (q.pushAll p slist).places []
      = update (update (q.places slist) .slist []) (.runnable p)
        (q.places slist (.runnable p) ++ q.places slist .slist) := by
    rw [Queues.pushAll, places_runnable, places_slist _ slist]
    rfl
  refine ⟨_, h.relocate (sameTasks_setRunnable q p _) (hpl ▸ h.places.splice (by simp)) ?_ ?_ ?_ ?_
    hcur ⟨h.sleepers.1, ?_⟩⟩
  all_goals intro t
  · split_ifs with ht
    · rw [ht]
      rfl
    · rfl
  · split_ifs with ht
    · simp [ht]
    · rfl
  · intro p'
    split_ifs with ht
    · intro hp
      rw [h.inPass ht, Loc.runnable.inj (Option.some_inj.mp hp)]
    · exact h.home
  · split_ifs with ht
    · simp
    · exact fun hs => absurd hs ht
  · intro ht
    have := h.sleepers.2 t ht
    simp [this]

omit [LinearOrder τ] [DecidableEq β] in
/-- The counters when the pass is accounted for. -/
theorem Owned.subDone (h : q.Owned slist proc dc cur U loc) :
    { q with taskCount_ := q.taskCount_ - dc }.Owned slist proc 0 cur U loc := by
  have hpl : { q with taskCount_ := q.taskCount_ - dc }.places slist = q.places slist := by
    funext l
    cases l <;> rfl
  refine ⟨hpl ▸ h.places, h.live, h.created, h.new, h.started, h.home, h.inPass, h.finished, h.alive, ?_,
    h.procCount, h.sleepers⟩
  exact (BitVec.sub_zero _).trans h.taskCount

omit [LinearOrder τ] [DecidableEq β] in
theorem Owned.loc_of_slist {before rest : List τ}
    (h : q.Owned (before ++ tk :: rest) proc dc cur U loc) : loc tk = some .slist := by
  rw [← h.places.mem]
  simp [Queues.places]

/-- **The task of the pass is parked** in another container. -/
theorem Owned.park {before rest : List τ} (h : q.Owned (before ++ tk :: rest) proc dc (some tk) U loc)
    (hd : (q.task tk).state_ ≠ .done) (hs : SameTasks q q') {l : Loc β} (hne : l ≠ .runTasks)
    (hslist : l ≠ .slist) (hhome : ∀ p, l = .runnable p → proc = some p)
    (hpl : q'.places (before ++ tk :: rest) = update (q.places (before ++ tk :: rest)) l
      (q.places (before ++ tk :: rest) l ++ [tk]))
    (hsleep : q'.sleepers.Nodup ∧
      ∀ t ∈ q'.sleepers, if t = tk then l = .sleepWait else loc t = some .sleepWait) :
    q'.Owned (before ++ rest) proc dc none U (update loc tk (some l)) := by
  have hp : (q.places (before ++ tk :: rest) .slist).Perm (tk :: (before ++ rest)) :=
    perm_middle
  refine h.move hs hp (by simp) hslist hne hslist ?_ ?_ ?_ hsleep
  · intro p hlp
    rw [h.inPass h.loc_of_slist, hhome p hlp]
  · rw [places_slist _ (before ++ tk :: rest), hpl, update_comm hslist.symm]
  · intro t ht hcur
    rw [Option.some_inj] at hcur
    exact absurd (hcur ▸ ht) hd

omit [DecidableEq β] in
/-- The sleepers are as before, and the task is not one of them. -/
theorem Owned.sleepers_of_slist {before rest : List τ} {l : Loc β}
    (h : q.Owned (before ++ tk :: rest) proc dc cur U loc) :
    q.sleepers.Nodup ∧
      ∀ t ∈ q.sleepers, if t = tk then l = .sleepWait else loc t = some .sleepWait := by
  refine ⟨h.sleepers.1, fun t ht => ?_⟩
  have hloc := h.sleepers.2 t ht
  have htk : t ≠ tk := fun h0 => by
    have := h.loc_of_slist
    simp [← h0, hloc] at this
  rw [if_neg htk, hloc]

/-- **The `sys_block` and `user_block` case** of the switch. -/
theorem Owned.blockSwitch {before rest : List τ} {p : ℕ}
    (h : q.Owned (before ++ tk :: rest) (some p) dc (some tk) U loc)
    (hd : (q.task tk).state_ ≠ .done) :
    ∃ loc', (State.blockSwitch q p tk).1.Owned
      (if (State.blockSwitch q p tk).2 then before ++ tk :: rest else before ++ rest) (some p) dc
      none U loc' := by
  obtain ⟨hstarted, -⟩ := h.started h.loc_of_slist (by simp)
  have hcur : ∀ t ≠ tk, some tk = some t → (none : Option τ) = some t :=
    fun t ht h0 => absurd (Option.some_inj.mp h0).symm ht
  rw [State.blockSwitch]
  cases hb : (q.task tk).block_ with
  | some b =>
    have hsame : ∀ obj, SameTasks q { q with block := update q.block b obj } :=
      fun _ => ⟨rfl, rfl, rfl, fun _ => rfl⟩
    -- the task goes to the queue of the object, or a permit makes it runnable
    by_cases hw : (q.block b).wakeup_ ≠ 0
    · simp only [BlockObject.addWaitTask, if_pos hw]
      have hpl := places_pushRunnable { q with
        block := update q.block b (q.block b).decWakeup } (before ++ tk :: rest) p tk
      rw [places_block_same _ (BlockObject.decWakeup_waitQueue _)] at hpl
      have hpark := h.park hd ((hsame (q.block b).decWakeup).trans (sameTasks_pushRunnable _ p tk))
        (l := .runnable p) (by simp) (by simp) (fun _ h0 => by rw [Loc.runnable.inj h0])
        hpl h.sleepers_of_slist
      exact ⟨_, hpark.setTask (update_self ..) (by simp) rfl hstarted
        (fun h0 => absurd h0 hd) (by simp)⟩
    · simp only [BlockObject.addWaitTask, if_neg hw]
      have hpark := h.park hd
        (hsame { q.block b with waitQueue_ := (q.block b).waitQueue_ ++ [tk] })
        (l := .block b) (by simp) (by simp) (by simp) (places_block ..) h.sleepers_of_slist
      exact ⟨_, hpark.setTask (update_self ..) (by simp) rfl hstarted
        (fun h0 => absurd h0 hd) (by simp)⟩
  | none =>
    have hsame : ∀ tbl, SameTasks q { q with userWaitTasks_ := tbl } :=
      fun _ => ⟨rfl, rfl, rfl, fun _ => rfl⟩
    simp only
    generalize ((q.task tk).userWaitType_, (q.task tk).userWaitId_) = k
    rcases UserWait.switch_cases q.userWaitTasks_ k tk with ⟨-, heq⟩ | ⟨-, heq⟩
    · simp only [heq]
      have hstay := h.congr (hsame _) (places_user_same _ (k := k)
        (p := ⟨UserWait.counter q.userWaitTasks_ k - 1, (q.userWaitTasks_.pair [] k).second⟩) rfl)
        rfl
      exact ⟨_, hstay.setTask h.loc_of_slist (by simp) rfl rfl (by simp) hcur⟩
    · simp only [heq]
      exact ⟨_, h.park hd (hsame _) (l := .user k) (by simp) (by simp) (by simp)
        (places_user ..) h.sleepers_of_slist⟩

/-- **The `io_block` case**: the task waits, or is runnable again at once. -/
theorem Owned.ioSwitch {before rest : List τ} (h : q.Owned (before ++ tk :: rest) proc dc (some tk) U loc)
    (hd : (q.task tk).state_ ≠ .done) :
    { q with ioWaitTasks_ := q.ioWaitTasks_ ++ [tk] }.Owned (before ++ rest) proc dc none U
      (update loc tk (some .ioWait)) := by
  have hs : SameTasks q { q with ioWaitTasks_ := q.ioWaitTasks_ ++ [tk] } :=
    ⟨rfl, rfl, rfl, fun _ => rfl⟩
  exact h.park hd hs (l := .ioWait) (by simp) (by simp) (by simp) (places_ioWait ..)
    h.sleepers_of_slist

/-- **The `sleep` case** -/
theorem Owned.sleepSwitch {before rest : List τ}
    (h : q.Owned (before ++ tk :: rest) proc dc (some tk) U loc) (hd : (q.task tk).state_ ≠ .done)
    (id : ℕ) (now : ℤ) :
    (q.sleepSchedulerSwitch tk id now).Owned (before ++ rest) proc dc none U
      (update loc tk (some .sleepWait)) := by
  have hs : SameTasks q (q.sleepSchedulerSwitch tk id now) := ⟨rfl, rfl, rfl, fun _ => rfl⟩
  refine h.park hd hs (l := .sleepWait) (by simp) (by simp) (by simp) (places_sleepWait ..) ?_
  have hperm : (q.sleepSchedulerSwitch tk id now).sleepers.Perm (tk :: q.sleepers) :=
    ((CoTimerMgr.insertDeadline_perm _ _).map Prod.snd).map CoTimer.fn_
  have hnot : tk ∉ q.sleepers := h.notMem_sleepers h.loc_of_slist (by simp)
  refine ⟨hperm.nodup_iff.mpr (nodup_cons.mpr ⟨hnot, h.sleepers.1⟩), fun t ht => ?_⟩
  rcases mem_cons.mp (hperm.mem_iff.mp ht) with rfl | ht
  · rw [if_pos rfl]
  · have htk : t ≠ tk := fun h0 => hnot (h0 ▸ ht)
    rw [if_neg htk]
    exact h.sleepers.2 t ht

end Queues

/-! ### Every step -/

namespace State

/-- The list, the processer and the count of finished tasks of the pass in progress. -/
def slist (s : State τ β) : List τ :=
  match s.phase with
  | .processer _ _ P => P.before ++ P.after
  | _ => []

def passProc (s : State τ β) : Option ℕ :=
  match s.phase with
  | .processer _ _ P => some P.proc
  | _ => none

def doneCount (s : State τ β) : BitVec 32 :=
  match s.phase with
  | .processer _ _ P => P.doneCount
  | _ => 0

/-- Ownership in a state. -/
def OwnedAt (s : State τ β) (U : Finset τ) (loc : τ → Option (Loc β)) : Prop :=
  s.q.Owned s.slist s.passProc s.doneCount (s.atTurn .left) U loc

variable [LinearOrder τ] [DecidableEq β] {s u : State τ β} {tk : τ} {U : Finset τ}
  {loc : τ → Option (Loc β)}

omit [LinearOrder τ] [DecidableEq β] in
theorem atTurn_eq_some {turn : Turn} (h : s.atTurn turn = some tk) :
    ∃ c i P rest, s.phase = .processer c i P ∧ P.turn = turn ∧ P.after = tk :: rest := by
  rw [atTurn] at h
  cases hph : s.phase with
  | processer c i P =>
    simp only [hph] at h
    split_ifs at h with hturn
    obtain ⟨rest, hrest⟩ := List.head?_eq_some_iff.mp h
    exact ⟨c, i, P, rest, rfl, hturn, hrest⟩
  | _ => simp [hph] at h

omit [LinearOrder τ] [DecidableEq β] in
/-- Only the phase and the queues matter. -/
theorem OwnedAt.congr (h : s.OwnedAt U loc) (hq : u.q = s.q) (hph : u.phase = s.phase) :
    u.OwnedAt U loc := by
  rw [OwnedAt, slist, passProc, doneCount, atTurn, hq, hph]
  exact h

omit [DecidableEq β] in
/-- **The task of the turn changes its record** and the turn goes on. -/
theorem OwnedAt.setTurn (h : s.OwnedAt U loc) {turn : Turn} (hturn : turn ≠ .left)
    (hcur : s.atTurn turn = some tk) {f : Task β → Task β}
    (hp : ∀ T, (f T).proc_ = T.proc_) (hi : ∀ T, T.state_.started → (f T).state_.started)
    {turn' : Turn} (hd : ∀ T, (f T).state_ = .done → turn' = .left ∨ T.state_ = .done) :
    ({ s with q := s.q.modifyTask tk f }.setTurn turn').OwnedAt U loc := by
  obtain ⟨c, i, P, rest, hph, rfl, hafter⟩ := atTurn_eq_some hcur
  obtain ⟨q, io, timers, timerMgr_, hook, runProcList_, procCount, phase⟩ := s
  dsimp only at hph
  subst hph
  have h' : q.Owned (P.before ++ P.after) (some P.proc) P.doneCount none U loc := by
    have : q.Owned (P.before ++ P.after) (some P.proc) P.doneCount
      (if P.turn = .left then P.after.head? else none) U loc := h
    rwa [if_neg hturn] at this
  have hl : loc tk = some .slist := (hafter ▸ h').loc_of_slist
  show (q.modifyTask tk f).Owned (P.before ++ P.after) (some P.proc) P.doneCount
    (if turn' = .left then P.after.head? else none) U loc
  refine h'.setTask hl (by simp) (hp _) (hi _ (h'.started hl (by simp)).1) (fun h0 => ?_) (by simp)
  rcases hd _ h0 with hleft | hdone
  · rw [if_pos hleft, hafter, List.head?_cons]
  · simpa using h'.alive (by simp [hl]) hdone

omit [LinearOrder τ] [DecidableEq β] in
theorem userTask_eq_some (h : s.userTask = some tk) :
    s.atTurn .running = some tk ∧ s.hook tk = none := by
  rw [userTask, Option.filter_eq_some_iff, Option.isNone_iff_eq_none] at h
  exact h

omit [DecidableEq β] in
theorem OwnedAt.switchAs (h : s.OwnedAt U loc) (hcur : s.atTurn .running = some tk)
    {f : Task β → Task β} (hp : ∀ T, (f T).proc_ = T.proc_)
    (hi : ∀ T, T.state_.started → (f T).state_.started) : (s.switchAs tk f).OwnedAt U loc :=
  h.setTurn (by simp) hcur hp hi fun _ _ => .inl rfl

omit [DecidableEq β] in
theorem OwnedAt.yield (h : s.OwnedAt U loc) (hcur : s.atTurn .running = some tk) :
    (s.setTurn .left).OwnedAt U loc := by
  have := h.switchAs hcur (f := id) (fun _ => rfl) fun _ hT => hT
  rwa [State.switchAs, Queues.modifyTask, id, update_eq_self] at this

omit [DecidableEq β] in
theorem OwnedAt.sleepSwitch (h : s.OwnedAt U loc) (hcur : s.atTurn .running = some tk) (ms : ℤ) :
    (s.sleepSwitch tk ms).OwnedAt U loc := by
  rw [State.sleepSwitch]
  split_ifs
  · exact h.yield hcur
  · exact h.switchAs hcur (fun _ => rfl) fun _ _ => rfl

theorem OwnedAt.coBlockWait (h : s.OwnedAt U loc) (hcur : s.atTurn .running = some tk) (b : β) :
    (s.coBlockWait tk b).OwnedAt U loc := by
  rw [State.coBlockWait, BlockObject.coBlockWait]
  by_cases hw : 0 < (s.q.block b).wakeup_
  · rw [if_pos hw]
    exact Queues.Owned.setBlock h (BlockObject.decWakeup_waitQueue _)
  · rw [if_neg hw]
    exact h.switchAs hcur (fun _ => rfl) fun _ _ => rfl

omit [DecidableEq β] in
theorem OwnedAt.blockWait (h : s.OwnedAt U loc) (hcur : s.atTurn .running = some tk) (k : WaitKey) :
    (s.blockWait tk k).OwnedAt U loc := by
  refine h.switchAs hcur (fun _ => rfl) fun _ _ => ?_
  dsimp only
  split_ifs <;> rfl

omit [DecidableEq β] in
theorem OwnedAt.enterHook (h : s.OwnedAt U loc) (hcur : s.atTurn .running = some tk) (hk : Hook) :
    (s.enterHook tk hk).OwnedAt U loc := by
  rw [State.enterHook]
  cases hk.start with
  | direct => exact h
  | sleep ms => exact h.sleepSwitch hcur ms
  | io fdsts ms =>
    have h' : ({ s with io := s.io.coSwitch tk fdsts ms
                        hook := update s.hook tk (some hk) } : State τ β).OwnedAt U loc := h
    exact h'.switchAs hcur (fun _ => rfl) fun _ _ => rfl

omit [DecidableEq β] in
theorem cancelIoTimer_frame (s : State τ β) (tk : τ) :
    (s.cancelIoTimer tk).1.q = s.q ∧ (s.cancelIoTimer tk).1.phase = s.phase := by
  rw [cancelIoTimer]
  cases (s.io.task tk).ioBlockTimer_ with
  | none => exact ⟨rfl, rfl⟩
  | some timer =>
    dsimp only
    split_ifs <;> exact ⟨rfl, rfl⟩

omit [DecidableEq β] in
/-- The end of a hooked call: up to the fallback sleep only io data change. -/
theorem leaveHook_cases (s : State τ β) (tk : τ) (hk : Hook) :
    ∃ v : State τ β, v = (if hk.cancelsTimer then (s.cancelIoTimer tk).1 else s) ∧ v.q = s.q ∧
      v.phase = s.phase ∧
      (s.leaveHook tk hk = { v with hook := update v.hook tk none } ∨
        s.leaveHook tk hk =
          { v with hook := update v.hook tk none }.sleepSwitch tk hk.fallbackSleep) := by
  obtain ⟨hq, hph⟩ := cancelIoTimer_frame s tk
  rw [State.leaveHook]
  cases hk.cancelsTimer with
  | true =>
    refine ⟨_, rfl, hq, hph, ?_⟩
    simp only [if_true]
    split_ifs
    · exact .inr rfl
    · exact .inl rfl
  | false =>
    refine ⟨_, rfl, rfl, rfl, ?_⟩
    simp only [Bool.false_eq_true, if_false]
    split_ifs
    · exact .inr rfl
    · exact .inl rfl

omit [DecidableEq β] in
theorem OwnedAt.leaveHook (h : s.OwnedAt U loc) (hcur : s.atTurn .running = some tk) (hk : Hook) :
    (s.leaveHook tk hk).OwnedAt U loc := by
  obtain ⟨v, -, hq, hph, heq⟩ := s.leaveHook_cases tk hk
  have h' : { v with hook := update v.hook tk none }.OwnedAt U loc := h.congr hq hph
  rcases heq with heq | heq
  · rw [heq]
    exact h'
  · rw [heq]
    refine h'.sleepSwitch ?_ _
    rw [← hcur, atTurn, atTurn, hph]

/-! ### Epoll, timers and sleep -/

omit [DecidableEq β] in
theorem cancel_phase (s : State τ β) (tk : τ) (id : BitVec 32) : (s.cancel tk id).phase = s.phase := by
  rw [cancel]
  split_ifs <;> rfl

omit [DecidableEq β] in
theorem ioTimeout_phase (s : State τ β) (timer : CoTimer (τ × BitVec 32)) :
    (s.ioTimeout timer).phase = s.phase := by
  dsimp only [ioTimeout]
  split_ifs
  · exact cancel_phase _ _ _
  · rfl

omit [DecidableEq β] in
theorem endWaitLoop_phase (s : State τ β) (set : List (τ × BitVec 32)) :
    (s.endWaitLoop set).phase = s.phase := by
  have hcancel : ∀ (v : State τ β) (set : List (τ × BitVec 32)),
      (v.cancelAll set).phase = v.phase := fun v set =>
    List.foldlRecOn (motive := fun u : State τ β => u.phase = v.phase) _ _ rfl
      fun u hu st _ => (cancel_phase u st.1 st.2).trans hu
  have htimeout : ∀ v : State τ β, v.runTimeouts.phase = v.phase := fun v =>
    List.foldlRecOn (motive := fun u : State τ β => u.phase = v.phase) _ _ rfl
      fun u hu timer _ => (ioTimeout_phase u timer).trans hu
  exact (htimeout _).trans (hcancel _ _)

omit [DecidableEq β] in
theorem sleepWaitLoop_phase (s : State τ β) (now : ℤ) : (s.sleepWaitLoop now).phase = s.phase := by
  refine List.foldlRecOn (motive := fun u : State τ β => u.phase = s.phase) _ _ rfl
    fun u hu timer _ => ?_
  dsimp only [sleepTimeout]
  split_ifs
  · exact hu
  · exact hu

/-- **`IoWait::Cancel`** -/
theorem OwnedAt.cancel (h : s.OwnedAt U loc) (tk : τ) (id : BitVec 32) :
    ∃ loc', (s.cancel tk id).OwnedAt U loc' := by
  rw [State.cancel]
  split_ifs with hid hmem
  · exact ⟨loc, h⟩
  · obtain ⟨p, hw⟩ := Queues.Owned.ioWakeup h hmem
    exact ⟨_, hw⟩
  · exact ⟨loc, h⟩

theorem OwnedAt.ioTimeout (h : s.OwnedAt U loc) (timer : CoTimer (τ × BitVec 32)) :
    ∃ loc', (s.ioTimeout timer).OwnedAt U loc' := by
  rw [State.ioTimeout, TimerHeap.deactivate]
  dsimp only
  split_ifs
  · have h' : { s with timers := (s.timers.deactivate timer.id_).1 }.OwnedAt U loc := h
    obtain ⟨loc', hc⟩ := h'.cancel timer.fn_.1 timer.fn_.2
    exact ⟨loc', hc⟩
  · exact ⟨loc, h⟩

theorem OwnedAt.endWaitLoop (h : s.OwnedAt U loc) (set : List (τ × BitVec 32)) :
    ∃ loc', (s.endWaitLoop set).OwnedAt U loc' := by
  have hcancel : ∀ (v : State τ β) (set : List (τ × BitVec 32)), (∃ loc', v.OwnedAt U loc') →
      ∃ loc', (v.cancelAll set).OwnedAt U loc' := fun v set hv =>
    List.foldlRecOn (motive := fun v : State τ β => ∃ loc', v.OwnedAt U loc') _ _ hv
      fun _ ⟨_, hs⟩ st _ => hs.cancel st.1 st.2
  have htimeout : ∀ v : State τ β, (∃ loc', v.OwnedAt U loc') →
      ∃ loc', v.runTimeouts.OwnedAt U loc' := fun v hv =>
    List.foldlRecOn (motive := fun v : State τ β => ∃ loc', v.OwnedAt U loc') _ _ hv
      fun _ ⟨_, hs⟩ timer _ => hs.ioTimeout timer
  exact htimeout _ (hcancel _ _ ⟨loc, h⟩)

/-- **`SleepWait::WaitLoop`**: every expired timer is that of a sleeping task. -/
theorem OwnedAt.sleepTimeouts (timers : List (CoTimer τ)) (h : s.OwnedAt U loc)
    (hnd : (timers.map CoTimer.fn_ ++ s.q.sleepers).Nodup)
    (hmem : ∀ timer ∈ timers, loc timer.fn_ = some .sleepWait) :
    ∃ loc', (timers.foldl State.sleepTimeout s).OwnedAt U loc' := by
  induction timers generalizing s loc with
  | nil => exact ⟨loc, h⟩
  | cons timer timers ih =>
    rw [map_cons, cons_append, nodup_cons] at hnd
    rw [foldl_cons, State.sleepTimeout, TimerHeap.deactivate]
    dsimp only
    split_ifs
    · have hl := hmem timer mem_cons_self
      obtain ⟨p, hw⟩ := Queues.Owned.sleepWakeup h hl
        fun h0 => hnd.1 (mem_append_right _ h0)
      have hw' : ({ s with
          timers := { s.timers with active_ := update s.timers.active_ timer.id_ false }
          q := s.q.sleepWakeup timer.fn_ } : State τ β).OwnedAt U
            (update loc timer.fn_ (some (.runnable p))) := hw
      refine ih hw' ?_ ?_
      · show (timers.map CoTimer.fn_ ++ (s.q.sleepWakeup timer.fn_).sleepers).Nodup
        rw [Queues.sleepWakeup, Queues.sleepers_addTaskRunnable]
        exact hnd.2
      · intro timer' ht'
        have hne : timer'.fn_ ≠ timer.fn_ := fun h0 =>
          hnd.1 (mem_append_left _ (h0 ▸ mem_map_of_mem ht'))
        rw [update_of_ne hne]
        exact hmem timer' (mem_cons_of_mem _ ht')
    · exact ih h hnd.2 fun timer' ht' => hmem timer' (mem_cons_of_mem _ ht')

theorem OwnedAt.sleepWaitLoop (h : s.OwnedAt U loc) (now : ℤ) :
    ∃ loc', (s.sleepWaitLoop now).OwnedAt U loc' := by
  have hsplit := congrArg (List.map CoTimer.fn_) (s.q.sleepTimerMgr_.getExpired_append now 128)
  rw [map_append] at hsplit
  obtain ⟨hnd, hmem⟩ := Queues.Owned.sleepers h
  rw [Queues.sleepers, ← hsplit] at hnd hmem
  have h' : { s with q := { s.q with sleepTimerMgr_ := (s.q.sleepTimerMgr_.getExpired now 128).2 } }.OwnedAt U loc := by
    refine Queues.Owned.relocate h ⟨rfl, rfl, rfl, fun _ => rfl⟩ h.places (fun _ => rfl) (fun _ => .rfl)
      (fun _ _ => h.home) (fun _ => h.inPass) (fun _ _ ht => ht) ⟨?_, ?_⟩
    · exact (nodup_append.mp hnd).2.1
    · exact fun t ht => hmem t (mem_append_right _ ht)
  exact h'.sleepTimeouts _ hnd fun timer ht =>
    hmem _ (mem_append_left _ (mem_map_of_mem ht))

/-! ### The switch of `Processer::Run` -/

omit [DecidableEq β] in
theorem ioSchedulerSwitch_frame (s : State τ β) (tk : τ) (now : ℤ) :
    (s.ioSchedulerSwitch tk now).phase = s.phase ∧
      ((s.ioSchedulerSwitch tk now).q = { s.q with ioWaitTasks_ := s.q.ioWaitTasks_ ++ [tk] } ∨
        (s.ioSchedulerSwitch tk now).q
          = { s.q with ioWaitTasks_ := s.q.ioWaitTasks_ ++ [tk] }.ioWakeup tk) := by
  rw [ioSchedulerSwitch]
  dsimp only
  split_ifs with hok hmem
  · exact ⟨rfl, .inr rfl⟩
  · exact ⟨rfl, .inl rfl⟩
  · exact ⟨rfl, .inl rfl⟩
  · exact ⟨rfl, .inl rfl⟩

/-- The switch of a blocked task, and the list of the pass after it. -/
theorem OwnedAt.blockSwitch {P : Pass τ} {rest : List τ}
    (h : s.q.Owned (P.before ++ tk :: rest) (some P.proc) P.doneCount (some tk) U loc)
    (hd : (s.q.task tk).state_ ≠ .done) {c i : ℕ} {keep erase : Pass τ}
    (hk : keep = { P with before := P.before ++ [tk], after := rest, turn := .enter })
    (he : erase = { P with after := rest, turn := .enter }) :
    ∃ loc', { s with
      q := (State.blockSwitch s.q P.proc tk).1
      phase := .processer c i (if (State.blockSwitch s.q P.proc tk).2 then keep else erase) }.OwnedAt
        U loc' := by
  obtain ⟨loc', hb⟩ := h.blockSwitch hd
  refine ⟨loc', ?_⟩
  subst hk he
  cases hkept : (State.blockSwitch s.q P.proc tk).2 with
  | true =>
    rw [hkept, if_pos rfl] at hb
    show (State.blockSwitch s.q P.proc tk).1.Owned (P.before ++ [tk] ++ rest) _ _ none U loc'
    rwa [append_assoc, singleton_append]
  | false =>
    rw [hkept, if_neg (by simp)] at hb
    exact hb

/-- **The switch** places the task that has left its turn. -/
theorem OwnedAt.processerSwitch (h : s.OwnedAt U loc) {c i : ℕ} {P : Pass τ}
    (hph : s.phase = .processer c i P) (hturn : P.turn = .left) {rest : List τ}
    (hafter : P.after = tk :: rest) (now : ℤ) :
    ∃ loc', (s.processerSwitch c i P tk rest now).OwnedAt
      (if (s.q.task tk).state_ = .done then U.erase tk else U) loc' := by
  have h' : s.q.Owned (P.before ++ tk :: rest) (some P.proc) P.doneCount (some tk) U loc := by
    rw [OwnedAt, slist, passProc, doneCount, atTurn, hph] at h
    simp only [hturn, hafter, if_true, List.head?_cons] at h
    exact h
  have hstarted := (h'.started h'.loc_of_slist (by simp)).1
  have hnot : ∀ {st}, (s.q.task tk).state_ = st → st ≠ .done → (s.q.task tk).state_ ≠ .done :=
    fun h0 h1 h2 => h1 (h0 ▸ h2)
  rw [State.processerSwitch]
  cases hst : (s.q.task tk).state_ with
  | done =>
    have hfin := h'.finish hst
    rw [if_pos rfl]
    dsimp only
    split_ifs
    · obtain ⟨loc', hpush⟩ := hfin.pushAll fun _ _ (h0 : none = some _) => h0
      exact ⟨loc', hpush.subDone⟩
    · exact ⟨_, hfin⟩
  | runnable =>
    refine ⟨loc, ?_⟩
    show s.q.Owned (P.before ++ [tk] ++ rest) (some P.proc) P.doneCount none U loc
    rw [append_assoc, singleton_append]
    refine h'.setCur fun t ht hcur => ?_
    rw [Option.some_inj] at hcur
    exact absurd (hcur ▸ ht) (hnot hst (by simp))
  | ioBlock =>
    have hio := h'.ioSwitch (hnot hst (by simp))
    have hframe := ioSchedulerSwitch_frame
      { s with phase := .processer c i { P with after := rest, turn := .enter } } tk now
    obtain ⟨hphase, hq | hq⟩ := hframe
    · have hu : ({ s with
        q := { s.q with ioWaitTasks_ := s.q.ioWaitTasks_ ++ [tk] }
        phase := .processer c i { P with after := rest, turn := .enter } } : State τ β).OwnedAt U _ :=
        hio
      exact ⟨_, hu.congr hq hphase⟩
    · obtain ⟨p, hw⟩ := hio.ioWakeup (mem_append_right _ (mem_singleton_self tk))
      have hu : ({ s with
        q := { s.q with ioWaitTasks_ := s.q.ioWaitTasks_ ++ [tk] }.ioWakeup tk
        phase := .processer c i { P with after := rest, turn := .enter } } : State τ β).OwnedAt U _ :=
        hw
      exact ⟨_, hu.congr hq hphase⟩
  | sleep => exact ⟨_, h'.sleepSwitch (hnot hst (by simp)) _ _⟩
  | sysBlock => exact OwnedAt.blockSwitch h' (hnot hst (by simp)) rfl rfl
  | userBlock => exact OwnedAt.blockSwitch h' (hnot hst (by simp)) rfl rfl
  | init => simp [hst, TaskState.started] at hstarted
  | fatal => simp [hst, TaskState.started] at hstarted

/-! ### Every reachable state -/

omit [LinearOrder τ] [DecidableEq β] in
/-- Outside of `Processer::Run`. -/
theorem ownedAt_iff (hph : ∀ c i P, s.phase ≠ .processer c i P) :
    s.OwnedAt U loc ↔ s.q.Owned [] none 0 none U loc := by
  rw [OwnedAt, slist, passProc, doneCount, atTurn]
  cases hs : s.phase with
  | processer c i P => exact absurd hs (hph c i P)
  | _ => exact .rfl

omit [LinearOrder τ] [DecidableEq β] in
theorem owned_init (h : Init s) : s.OwnedAt ∅ fun _ => none := by
  have hpl : s.q.places [] = fun _ => [] := by
    funext l
    cases l with
    | runTasks => exact h.runTasks
    | runnable p => simp [Queues.places, h.proc p]
    | slist => rfl
    | ioWait => exact h.ioWaitTasks
    | sleepWait => exact h.sleepWaitTasks
    | block b => exact h.block b
    | user k =>
      simp only [Queues.places, h.userWaitTasks, WaitTable.pair_eq]
      rfl
  rw [ownedAt_iff (by simp [h.phase])]
  refine ⟨hpl ▸ places_empty, by simp, by simp, by simp, by simp, by simp, by simp, ?_, by simp,
    ?_, ?_, ?_⟩
  · intro t ht
    simp [h.created] at ht
  · simp [h.taskCount]
  · simp [h.proc]
  · simp [Queues.sleepers, h.sleepTimerMgr, CoTimerMgr.new]

/-- The task that the switch will take out as done. -/
def finishing (s : State τ β) : Option τ :=
  (s.atTurn .left).filter fun tk => decide ((s.q.task tk).state_ = .done)

/-- The unfinished tasks after a step. -/
def unfinishedAfter (s : State τ β) (U : Finset τ) : Act τ β → Finset τ
  | .createTask tk _ => insert tk U
  | .switch _ => match s.finishing with
    | some tk => U.erase tk
    | none => U
  | _ => U

/-- **`IoWait::WaitLoop`**, whatever the events have done to the io data. -/
theorem OwnedAt.doEpoll (h : s.OwnedAt U loc) (hph : s.phase = .doEpoll) (io : IoState τ)
    (set : List (τ × BitVec 32)) :
    ∃ loc', { { s with io := io }.endWaitLoop set with phase := .doTimer }.OwnedAt U loc' := by
  have h' : { s with io := io }.OwnedAt U loc := h
  obtain ⟨loc', hw⟩ := h'.endWaitLoop set
  rw [ownedAt_iff (by simp [endWaitLoop_phase, hph])] at hw
  exact ⟨loc', hw⟩

/-- **Every step keeps ownership.** -/
theorem step_owned {a : Act τ β} (h : s.OwnedAt U loc) (hst : s.step a = some u) :
    ∃ loc', u.OwnedAt (s.unfinishedAfter U a) loc' := by
  cases step_cases hst with
  | run n hph =>
    rw [ownedAt_iff (by simp [hph])] at h
    exact ⟨loc, h⟩
  | @nextProc c i p procs hph hprocs hi =>
    rw [ownedAt_iff (by simp [hph])] at h
    obtain ⟨loc₁, h₁⟩ := h.pickTasks c p
    exact h₁.popAll p
  | endRunnable hph =>
    rw [ownedAt_iff (by simp [hph])] at h
    exact ⟨loc, h⟩
  | @resume tk hcur =>
    have hset : ({ s with q := s.q.modifyTask tk fun T => { T with state_ := .runnable } }.setTurn
        .running).OwnedAt U loc :=
      h.setTurn (by simp) hcur (f := fun T => { T with state_ := .runnable }) (fun _ => rfl)
        (fun _ _ => rfl) (by simp)
    exact ⟨loc, hset⟩
  | coYield hcur => exact ⟨loc, h.yield (userTask_eq_some hcur).1⟩
  | sleepSwitch ms hcur => exact ⟨loc, h.sleepSwitch (userTask_eq_some hcur).1 ms⟩
  | coBlockWait b hcur => exact ⟨loc, h.coBlockWait (userTask_eq_some hcur).1 b⟩
  | userBlockWait k hcur => exact ⟨loc, h.blockWait (userTask_eq_some hcur).1 k⟩
  | enterHook hk hcur => exact ⟨loc, h.enterHook (userTask_eq_some hcur).1 hk⟩
  | @leaveHook tk hk hcur => exact ⟨loc, h.leaveHook hcur hk⟩
  | finish eptr hcur =>
    exact ⟨loc, h.switchAs (userTask_eq_some hcur).1 (fun _ => rfl) fun _ _ => rfl⟩
  | @switch c i P tk rest now hph hturn hafter =>
    have hfin : s.finishing = if (s.q.task tk).state_ = .done then some tk else none := by
      rw [finishing, atTurn, hph]
      by_cases hd : (s.q.task tk).state_ = .done <;> simp [hturn, hafter, hd]
    have hsw := h.processerSwitch hph hturn hafter now
    rw [unfinishedAfter, hfin]
    by_cases hd : (s.q.task tk).state_ = .done
    · rw [if_pos hd] at hsw ⊢
      exact hsw
    · rw [if_neg hd] at hsw ⊢
      exact hsw
  | @endPass c i P hph hafter =>
    have h' : s.q.Owned P.before (some P.proc) P.doneCount none U loc := by
      rw [OwnedAt, slist, passProc, doneCount, atTurn, hph] at h
      simp only [hafter, append_nil, List.head?_nil, ite_self] at h
      exact h
    obtain ⟨loc', hpush⟩ := h'.pushAll fun _ _ (h0 : none = some _) => h0
    exact ⟨loc', hpush.subDone⟩
  | doEpoll nows readEvs writeEvs hph => exact h.doEpoll hph _ _
  | doTimer now hph =>
    rw [ownedAt_iff (by simp [hph])] at h
    exact ⟨loc, h⟩
  | doSleep now hph =>
    obtain ⟨loc', hw⟩ := h.sleepWaitLoop now
    rw [ownedAt_iff (by simp [sleepWaitLoop_phase, hph])] at hw
    exact ⟨loc', hw⟩
  | createTask id hnew => exact ⟨_, Queues.Owned.createTask h hnew⟩
  | wakeup b => exact Queues.Owned.wakeup h b
  | tryBlockWait b =>
    have hobj : (s.q.block b).tryBlockWait.1.waitQueue_ = (s.q.block b).waitQueue_ := by
      rw [BlockObject.tryBlockWait]
      split_ifs
      · rfl
      · exact BlockObject.decWakeup_waitQueue _
    exact ⟨loc, Queues.Owned.setBlock h hobj⟩
  | userBlockWakeup k => exact Queues.Owned.userBlockWakeup h k
  | tryUserBlockWait k =>
    rcases UserWait.tryBlockWait_cases s.q.userWaitTasks_ k with ⟨-, heq⟩ | ⟨-, heq⟩
    · rw [heq]
      exact ⟨loc, Queues.Owned.setCounter h rfl⟩
    · rw [heq]
      exact ⟨loc, h⟩
  | expireAt tp => exact ⟨loc, h⟩
  | openFd status hclosed => exact ⟨loc, h⟩
  | closeFd fd => exact ⟨loc, h⟩

/-- The tasks that have been created and that `Processer::Run` has not taken out as
done. -/
def unfinished (s : State τ β) : Finset τ :=
  s.q.created.filter fun t => (s.q.task t).state_ ≠ .done ∨ s.atTurn .left = some t

omit [DecidableEq β] in
/-- **The unfinished tasks are those in a container.** -/
theorem OwnedAt.unfinished_eq (h : s.OwnedAt U loc) : s.unfinished = U := by
  ext t
  rw [unfinished, Finset.mem_filter]
  refine ⟨fun ⟨hc, ht⟩ => ?_, fun ht => ⟨Queues.Owned.created h ht, ?_⟩⟩
  · by_contra h0
    have hnone : loc t = none := by
      by_contra h1
      exact h0 (Queues.Owned.live h |>.mpr h1)
    rcases ht with ht | ht
    · exact ht (Queues.Owned.finished h hc hnone)
    · -- the task that is leaving its turn is in the list of the pass
      obtain ⟨c, i, P, rest, hph, -, hafter⟩ := atTurn_eq_some ht
      have hmem : t ∈ s.q.places s.slist .slist := by
        show t ∈ s.slist
        rw [slist, hph]
        simp [hafter]
      rw [(Queues.Owned.places h).mem, hnone] at hmem
      exact absurd hmem (by simp)
  · by_cases hd : (s.q.task t).state_ = .done
    · exact .inr (Queues.Owned.alive h (Queues.Owned.live h |>.mp ht) hd)
    · exact .inl hd

theorem reach_owned : ∀ s : State τ β, Reach Init step s → ∃ loc, s.OwnedAt s.unfinished loc := by
  refine ReachIf.invariant (fun s h => ?_) fun s u a ⟨loc, h⟩ _ hst => ?_
  · have h0 := owned_init h
    exact ⟨_, h0.unfinished_eq ▸ h0⟩
  · obtain ⟨loc', h'⟩ := step_owned h hst
    exact ⟨loc', h'.unfinished_eq ▸ h'⟩

/-- The tasks in a container. -/
def tasksAt (s : State τ β) : Loc β → List τ := s.q.places s.slist

/-- Every unfinished task is in exactly one container, processers have only their own
tasks, and the 32-bit counters count the unfinished tasks. -/
structure SingleOwnership (s : State τ β) : Prop where
  somewhere : ∀ t ∈ s.unfinished, ∃ l, t ∈ s.tasksAt l
  alone : ∀ t l l', t ∈ s.tasksAt l → t ∈ s.tasksAt l' → l = l'
  once : ∀ l, (s.tasksAt l).Nodup
  finished : ∀ t l, t ∈ s.tasksAt l → t ∈ s.unfinished
  ownList : ∀ t p, t ∈ s.tasksAt (.runnable p) → (s.q.task t).proc_ = some p
  ownPass : ∀ t, t ∈ s.tasksAt .slist → (s.q.task t).proc_ = s.passProc
  taskCount : (s.q.taskCount_ - s.doneCount).toNat = s.unfinished.card % 2 ^ 32
  procCount : ∀ p, (s.q.proc p).taskCount_.toNat
    = (s.unfinished.filter fun t => (s.q.task t).proc_ = some p).card % 2 ^ 32

/-- **Single ownership**, in every reachable state. -/
theorem single_ownership (hs : Reach Init step s) : s.SingleOwnership := by
  obtain ⟨loc, h⟩ := reach_owned s hs
  have hpl := Queues.Owned.places h
  refine ⟨fun t ht => ?_, fun t l l' => hpl.unique, hpl.nodup, fun t l ht => ?_, fun t p ht => ?_,
    fun t ht => ?_, ?_, fun p => ?_⟩
  · obtain ⟨l, hl⟩ := Option.ne_none_iff_exists'.mp (Queues.Owned.live h |>.mp ht)
    exact ⟨l, hpl.mem.mpr hl⟩
  · exact Queues.Owned.live h |>.mpr (by simp [hpl.mem.mp ht])
  · exact Queues.Owned.home h (hpl.mem.mp ht)
  · exact Queues.Owned.inPass h (hpl.mem.mp ht)
  · rw [Queues.Owned.taskCount h, BitVec.toNat_ofNat]
  · rw [Queues.Owned.procCount h, BitVec.toNat_ofNat]

/-- In the middle of a pass: one task is parked, one has yielded, one is done. -/
def midPass : Option (State ℕ Unit) :=
  exec step (start fun _ => .closed) [.createTask 1 0, .createTask 2 0, .createTask 3 0, .run 1,
    .nextProc, .resume, .coBlockWait (), .switch 0, .resume, .coYield, .switch 0, .resume,
    .finish false, .switch 0]

theorem single_ownership_midPass : ∃ s : State ℕ Unit, Reach Init step s ∧
    s.tasksAt (.block ()) = [1] ∧ s.tasksAt .slist = [2] ∧ s.unfinished = {1, 2} ∧
    s.SingleOwnership := by
  have hrun : midPass = some (midPass.get rfl) := rfl
  have hreach : Reach Init step (midPass.get rfl) := reach_exec _ (.start (init_start _)) hrun
  exact ⟨_, hreach, rfl, rfl, by decide, single_ownership hreach⟩

/-- `n` tasks, all of them new. -/
theorem reach_createTasks (n : ℕ) : ∃ s : State ℕ Unit, Reach Init step s ∧ s.phase = .idle ∧
    s.q.created = Finset.range n ∧ ∀ t, (s.q.task t).state_ = .init := by
  induction n with
  | zero => exact ⟨_, .start (init_start fun _ => .closed), rfl, rfl, fun _ => rfl⟩
  | succ n ih =>
    obtain ⟨s, hs, hph, hcreated, hinit⟩ := ih
    have hst : s.step (.createTask n 0) = some { s with
        q := s.q.createTask n
        io := s.io.modifyTask n fun _ => { ioBlockId_ := 0 } } := by
      rw [step, if_neg (by simp [hcreated])]
    refine ⟨_, .next hs trivial hst, hph, ?_, fun t => ?_⟩
    · rw [Finset.range_add_one, ← hcreated]
      simp [Queues.createTask, Queues.addTaskRunnable]
    · by_cases ht : t = n
      · simp [Queues.createTask, Queues.addTaskRunnable, ht]
      · simp [Queues.createTask, Queues.addTaskRunnable, ht, hinit]

/-- With `2 ^ 32` unfinished tasks `task_count_` is 0. -/
theorem taskCount_wraps : ∃ s : State ℕ Unit, Reach Init step s ∧ s.unfinished.card = 2 ^ 32 ∧
    (s.q.taskCount_ - s.doneCount).toNat = 0 := by
  obtain ⟨s, hs, hph, hcreated, hinit⟩ := reach_createTasks (2 ^ 32)
  obtain ⟨loc, h⟩ := reach_owned s hs
  have hall : s.unfinished = Finset.range (2 ^ 32) := by
    rw [unfinished, ← hcreated]
    exact Finset.filter_true_of_mem fun t _ => .inl (by simp [hinit])
  refine ⟨s, hs, by rw [hall, Finset.card_range], ?_⟩
  rw [Queues.Owned.taskCount h, hall, Finset.card_range, BitVec.toNat_ofNat,
    Nat.mod_self]

end State

end Scheduler
