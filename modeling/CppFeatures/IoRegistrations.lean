/-
Whose registrations `IoWait` removes.

`Cancel` and the roll-back of `SchedulerSwitch` delete by descriptor number.  They hit
the task's own registrations as long as no task registers a descriptor that a waiting
task has in its list without being registered for it.

* `IoState.Registered`, `State.step_registered` — as long as a step keeps to this, each
  registration is of a wait in progress, and each successful `EPOLL_CTL_DEL` removes one of the
  wait it is made for;
* `State.cancel_removes_foreign` — a run with a reused descriptor number in which
  `Cancel` removes another task's registration.
-/
import CppFeatures.IoSteps

namespace IoState

variable {τ : Type*} [DecidableEq τ] {io io' : IoState τ} {waiting : List τ} {tk : τ}

/-- The interests that a task's list stands for. -/
def keys (io : IoState τ) (t : τ) : List (EpollType × ℤ) :=
  (io.task t).waitFds_.map FdStruct.key

/-- Each registration is of the current wait of a waiting task, and no other waiting
task lists its descriptor. -/
structure Registered (io : IoState τ) (waiting : List τ) : Prop where
  unique : io.kernel.Unique
  waits : ∀ e, ∀ r ∈ io.kernel.epoll e, r.tk ∈ waiting
  current : ∀ e, ∀ r ∈ io.kernel.epoll e, r.ioBlockId = (io.task r.tk).ioBlockId_
  listed : ∀ e, ∀ r ∈ io.kernel.epoll e, (e, r.fd) ∈ io.keys r.tk
  alone : ∀ e, ∀ r ∈ io.kernel.epoll e, ∀ u ∈ waiting, (e, r.fd) ∈ io.keys u → u = r.tk
  dels : ∀ d ∈ io.dels, d.Own

/-- The epoll sets, and the waits of the given tasks, are the same. -/
structure SameWaits (waiting : List τ) (io io' : IoState τ) : Prop where
  epoll : io'.kernel.epoll = io.kernel.epoll
  dels : io'.dels = io.dels
  ioBlockId : ∀ t ∈ waiting, (io'.task t).ioBlockId_ = (io.task t).ioBlockId_
  keys : ∀ t ∈ waiting, io'.keys t = io.keys t

omit [DecidableEq τ] in
theorem Registered.congr (h : io.Registered waiting) (hs : SameWaits waiting io io') :
    io'.Registered waiting where
  unique e := hs.epoll ▸ h.unique e
  waits e r hr := h.waits e r (hs.epoll ▸ hr)
  current e r hr := by
    rw [hs.epoll] at hr
    rw [h.current e r hr, hs.ioBlockId _ (h.waits e r hr)]
  listed e r hr := by
    rw [hs.epoll] at hr
    rw [hs.keys _ (h.waits e r hr)]
    exact h.listed e r hr
  alone e r hr u hu hk := by
    rw [hs.epoll] at hr
    rw [hs.keys u hu] at hk
    exact h.alone e r hr u hu hk
  dels := hs.dels ▸ h.dels

omit [DecidableEq τ] in
theorem SameWaits.refl (waiting : List τ) (io : IoState τ) : SameWaits waiting io io :=
  ⟨rfl, rfl, fun _ _ => rfl, fun _ _ => rfl⟩

omit [DecidableEq τ] in
theorem SameWaits.trans {io'' : IoState τ} (h : SameWaits waiting io io')
    (h' : SameWaits waiting io' io'') : SameWaits waiting io io'' where
  epoll := h'.epoll.trans h.epoll
  dels := h'.dels.trans h.dels
  ioBlockId t ht := (h'.ioBlockId t ht).trans (h.ioBlockId t ht)
  keys t ht := (h'.keys t ht).trans (h.keys t ht)

theorem keys_incrementRef (io : IoState τ) (tk t : τ) : (io.incrementRef tk).keys t = io.keys t := by
  by_cases ht : t = tk
  · subst ht
    simp [keys, incrementRef, modifyTask]
  · simp [keys, incrementRef, modifyTask, ht]

theorem ioBlockId_incrementRef (io : IoState τ) (tk t : τ) :
    ((io.incrementRef tk).task t).ioBlockId_ = (io.task t).ioBlockId_ := by
  by_cases ht : t = tk
  · subst ht
    simp [incrementRef, modifyTask]
  · simp [incrementRef, modifyTask, ht]

/-- A change to a task that keeps its wait. -/
theorem sameWaits_modifyTask {f : IoTask τ → IoTask τ}
    (hid : (f (io.task tk)).ioBlockId_ = (io.task tk).ioBlockId_)
    (hkeys : (f (io.task tk)).waitFds_.map FdStruct.key = io.keys tk) :
    SameWaits waiting io (io.modifyTask tk f) := by
  refine ⟨rfl, rfl, fun t _ => ?_, fun t _ => ?_⟩ <;> by_cases ht : t = tk
  · subst ht
    simpa [modifyTask] using hid
  · simp [modifyTask, ht]
  · subst ht
    simpa [modifyTask, keys] using hkeys
  · simp [modifyTask, keys, ht]

/-- Any change to a task that does not wait. -/
theorem sameWaits_of_notMem (hno : tk ∉ waiting) (f : IoTask τ → IoTask τ) :
    SameWaits waiting io (io.modifyTask tk f) := by
  refine ⟨rfl, rfl, fun t ht => ?_, fun t ht => ?_⟩ <;>
    have hne : t ≠ tk := fun h0 => hno (h0 ▸ ht)
  · simp [modifyTask, hne]
  · simp [modifyTask, keys, hne]

theorem sameWaits_decrementRef : SameWaits waiting io (io.decrementRef tk) := by
  rw [decrementRef_eq]
  have h : SameWaits waiting io (io.modifyTask tk fun t => { t with refCount_ := t.refCount_ - 1 }) :=
    sameWaits_modifyTask rfl rfl
  exact ⟨h.epoll, h.dels, h.ioBlockId, h.keys⟩

theorem sameWaits_setTimer (timer : CoTimer (τ × BitVec 32)) :
    SameWaits waiting io (io.setTimer tk timer) := by
  have h : SameWaits waiting io (io.incrementRef tk) := sameWaits_modifyTask rfl rfl
  have h' : SameWaits waiting (io.incrementRef tk)
      { io.incrementRef tk with timerMgr_ := io.timerMgr_.expireAt timer } :=
    ⟨rfl, rfl, fun _ _ => rfl, fun _ _ => rfl⟩
  rw [setTimer]
  exact (h.trans h').trans (sameWaits_modifyTask rfl rfl)

omit [DecidableEq τ] in
theorem collectTimers_sameWaits (nows : List ℤ) : SameWaits waiting io (io.collectTimers nows) := by
  induction nows generalizing io with
  | nil => exact .refl _ _
  | cons now nows ih =>
    rw [collectTimers]
    dsimp only
    split_ifs
    · exact .refl _ _
    · refine SameWaits.trans ?_ ih
      exact ⟨rfl, rfl, fun _ _ => rfl, fun _ _ => rfl⟩

omit [DecidableEq τ] in
/-- Writing a result does not change what is waited for. -/
theorem map_key_modify_revent (fs : List FdStruct) (n : ℕ) (revent : BitVec 32) :
    (fs.modify n fun f => { f with revent := revent }).map FdStruct.key = fs.map FdStruct.key := by
  induction fs generalizing n with
  | nil => simp
  | cons f fs ih => cases n with
    | zero => rfl
    | succ n => simpa using ih n

theorem epollEvent_sameWaits (e : EpollType) (ev : ℤ × BitVec 32) :
    SameWaits waiting io (io.epollEvent e ev).1 := by
  rw [epollEvent]
  split
  · exact .refl _ _
  · dsimp only
    exact sameWaits_modifyTask rfl (map_key_modify_revent _ _ _)

/-! ### Cancelling and starting a wait -/

omit [DecidableEq τ] in
theorem Registered.ownAt (h : io.Registered waiting) (hmem : tk ∈ waiting) {f : FdStruct}
    (hf : f ∈ (io.task tk).waitFds_) :
    Kernel.OwnAt tk (io.task tk).ioBlockId_ io.kernel f.key := by
  intro r hr hfd
  have hkey : (f.key.1, r.fd) ∈ io.keys tk := by
    rw [hfd]
    exact List.mem_map_of_mem hf
  have htk := h.alone _ r hr tk hmem hkey
  exact ⟨htk.symm, htk ▸ h.current _ r hr⟩

/-- The loop of `Cancel` for a waiting task. -/
theorem Registered.clearFds_spec (h : io.Registered waiting) (hmem : tk ∈ waiting) :
    Balanced tk io (io.clearFds tk (io.task tk).ioBlockId_) ∧
      (io.clearFds tk (io.task tk).ioBlockId_).kernel.Unique ∧
      ∀ e r, r ∈ (io.clearFds tk (io.task tk).ioBlockId_).kernel.epoll e ↔
        r ∈ io.kernel.epoll e ∧ (e, r.fd) ∉ io.keys tk := by
  obtain ⟨hu, hbal, hiff⟩ := foldl_delFd h.unique fun f hf => h.ownAt hmem hf
  exact ⟨hbal, hu, hiff⟩

theorem Balanced.keys_eq (h : Balanced tk io io') (t : τ) : io'.keys t = io.keys t := by
  rw [keys, keys, h.task t]

theorem Balanced.ioBlockId_eq (h : Balanced tk io io') (t : τ) :
    (io'.task t).ioBlockId_ = (io.task t).ioBlockId_ := by
  rw [h.task t]

theorem Registered.clearFds (h : io.Registered waiting) (hmem : tk ∈ waiting) :
    (io.clearFds tk (io.task tk).ioBlockId_).Registered (waiting.erase tk) := by
  obtain ⟨hbal, hu, hiff⟩ := h.clearFds_spec hmem
  refine ⟨hu, fun e r hr => ?_, fun e r hr => ?_, fun e r hr => ?_, fun e r hr u hmem' hk => ?_,
    hbal.dels h.dels⟩ <;> obtain ⟨hr, hno⟩ := (hiff e r).mp hr
  · have hne : r.tk ≠ tk := fun h0 => hno (h0 ▸ h.listed e r hr)
    exact (List.mem_erase_of_ne hne).mpr (h.waits e r hr)
  · rw [hbal.ioBlockId_eq]
    exact h.current e r hr
  · rw [hbal.keys_eq]
    exact h.listed e r hr
  · rw [hbal.keys_eq] at hk
    exact h.alone e r hr u (List.mem_of_mem_erase hmem') hk

/-- The loop of `SchedulerSwitch`, with the reference of `ref_guard`. -/
theorem register_spec (h : io.kernel.Unique) (tk : τ) :
    Balanced tk (io.incrementRef tk) (io.register tk).1 ∧
      io.kernel.Added tk (io.task tk).ioBlockId_ (io.task tk).waitFds_ (io.register tk).1.kernel
        (io.register tk).2 := by
  have hinit : io.kernel.Adding tk (io.task tk).ioBlockId_ [] [] (io.incrementRef tk).kernel :=
    .init h tk _
  exact addFds_spec 0 false hinit fun _ => rfl

/-- No waiting task lists a descriptor that the wait of `tk` could add. -/
def NoneTakes (io : IoState τ) (waiting : List τ) (tk : τ) : Prop :=
  ∀ f ∈ (io.task tk).waitFds_, io.kernel.Addable f.key.1 f.key.2 → ∀ u ∈ waiting, f.key ∉ io.keys u

theorem Registered.register (h : io.Registered waiting) (hfree : io.NoneTakes waiting tk) :
    (io.register tk).1.Registered (if (io.register tk).2 then waiting ++ [tk] else waiting) := by
  obtain ⟨hbal, hadded⟩ := register_spec h.unique tk
  have hkeys : ∀ t, (io.register tk).1.keys t = io.keys t := fun t => by
    rw [hbal.keys_eq, keys_incrementRef]
  have hids : ∀ t, ((io.register tk).1.task t).ioBlockId_ = (io.task t).ioBlockId_ := fun t => by
    rw [hbal.ioBlockId_eq, ioBlockId_incrementRef]
  have hdels := hbal.dels h.dels
  cases hok : (io.register tk).2 with
  | false =>
    rw [hok] at hadded
    obtain ⟨hu, hiff⟩ := hadded
    rw [if_neg (by simp)]
    refine ⟨hu, fun e r hr => ?_, fun e r hr => ?_, fun e r hr => ?_, fun e r hr u hmem hk => ?_,
      hdels⟩ <;> rw [hiff] at hr
    · exact h.waits e r hr
    · rw [hids]
      exact h.current e r hr
    · rw [hkeys]
      exact h.listed e r hr
    · rw [hkeys] at hk
      exact h.alone e r hr u hmem hk
  | true =>
    rw [hok] at hadded
    obtain ⟨rb, hadd⟩ := hadded
    have hrb : ∀ {p}, p ∈ rb.map FdStruct.key → p ∈ io.keys tk := fun hp => by
      obtain ⟨f, hf, rfl⟩ := List.mem_map.mp hp
      exact List.mem_map_of_mem (hadd.subset hf)
    rw [if_pos rfl]
    refine ⟨hadd.unique, fun e r hr => ?_, fun e r hr => ?_, fun e r hr => ?_,
      fun e r hr u hmem hk => ?_, hdels⟩
    · rcases hadd.new e r hr with hr | ⟨htk, -⟩
      · exact List.mem_append_left _ (h.waits e r hr)
      · simp [htk]
    · rw [hids]
      rcases hadd.new e r hr with hr | ⟨htk, hid, -⟩
      · exact h.current e r hr
      · rw [htk, hid]
    · rw [hkeys]
      rcases hadd.new e r hr with hr | ⟨htk, -, hp⟩
      · exact h.listed e r hr
      · rw [htk]
        exact hrb hp
    · rw [hkeys] at hk
      rcases List.mem_append.mp hmem with hu | hu
      · rcases hadd.new e r hr with hr | ⟨-, -, hp⟩
        · exact h.alone e r hr u hu hk
        · -- a descriptor that was added is in no other waiting task's list
          obtain ⟨f, hf, heq⟩ := List.mem_map.mp hp
          have hno := hfree f (hadd.subset hf) (hadd.addable f hf) u hu
          rw [heq] at hno
          exact absurd hk hno
      · obtain rfl := List.mem_singleton.mp hu
        obtain ⟨f, hf, heq⟩ := List.mem_map.mp hk
        have hown := hadd.own f hf
        rw [heq] at hown
        exact (hown r hr rfl).1.symm

omit [DecidableEq τ] in
theorem Registered.closeFd (h : io.Registered waiting) (fd : ℤ) :
    { io with kernel := io.kernel.closeFd fd }.Registered waiting where
  unique e := (h.unique e).sublist (List.filter_sublist.map _)
  waits e r hr := h.waits e r (List.mem_of_mem_filter hr)
  current e r hr := h.current e r (List.mem_of_mem_filter hr)
  listed e r hr := h.listed e r (List.mem_of_mem_filter hr)
  alone e r hr := h.alone e r (List.mem_of_mem_filter hr)
  dels := h.dels

end IoState

namespace Scheduler.State

open IoState

variable {τ β : Type*} [LinearOrder τ] [DecidableEq β] {s u : State τ β} {tk : τ} {U : Finset τ}
  {loc : τ → Option (Loc β)}

/-- Registrations are those of the tasks in `wait_tasks_`. -/
def RegisteredAt (s : State τ β) : Prop := s.io.Registered s.q.ioWaitTasks_

omit [DecidableEq β] in
theorem RegisteredAt.cancel (h : s.RegisteredAt) (tk : τ) (id : BitVec 32) :
    (s.cancel tk id).RegisteredAt := by
  rcases s.cancel_cases tk id with ⟨hmem, rfl, heq⟩ | ⟨heq, -⟩
  · show (s.cancel tk _).ioView.io.Registered (s.cancel tk _).ioView.ioWaitTasks_
    rw [heq]
    exact Registered.clearFds h hmem
  · rw [heq]
    exact h

omit [DecidableEq β] in
theorem RegisteredAt.ioTimeout (h : s.RegisteredAt) (timer : CoTimer (τ × BitVec 32)) :
    (s.ioTimeout timer).RegisteredAt := by
  rw [State.ioTimeout]
  dsimp only
  split_ifs
  · have hc := RegisteredAt.cancel (s := { s with timers := (s.timers.deactivate timer.id_).1 }) h
      timer.fn_.1 timer.fn_.2
    exact Registered.congr hc sameWaits_decrementRef
  · exact h

theorem epollEvents_sameWaits {waiting : List τ} {io : IoState τ} (e : EpollType)
    (evs : List (ℤ × BitVec 32)) (set : List (τ × BitVec 32)) :
    SameWaits waiting io (epollEvents e evs io set).1 := by
  induction evs generalizing io set with
  | nil => exact .refl _ _
  | cons ev evs ih =>
    rw [epollEvents]
    exact (epollEvent_sameWaits e ev).trans (ih _)

omit [DecidableEq β] in
/-- **`WaitLoop` keeps registrations with their tasks.** -/
theorem RegisteredAt.endWaitLoop (h : s.RegisteredAt) {io : IoState τ}
    (hio : SameWaits s.q.ioWaitTasks_ s.io io) (set : List (τ × BitVec 32)) :
    ({ s with io := io }.endWaitLoop set).RegisteredAt := by
  have hevents : { s with io := io }.RegisteredAt := Registered.congr h hio
  have hcancel := List.foldlRecOn (motive := fun v : State τ β => v.RegisteredAt) set
    (fun s st => State.cancel s st.1 st.2) hevents fun v hv st _ => hv.cancel st.1 st.2
  have htimeouts := fun v : State τ β => fun hv : v.RegisteredAt =>
    List.foldlRecOn (motive := fun v : State τ β => v.RegisteredAt) v.io.timeoutList_ State.ioTimeout
      (b := { v with io := { v.io with timeoutList_ := [] } })
      (Registered.congr hv ⟨rfl, rfl, fun _ _ => rfl, fun _ _ => rfl⟩)
      fun w hw timer _ => hw.ioTimeout timer
  exact Registered.congr (htimeouts _ hcancel) ⟨rfl, rfl, fun _ _ => rfl, fun _ _ => rfl⟩

omit [DecidableEq β] in
/-- **A new wait** keeps registrations with their tasks, if it takes no descriptor that
a waiting task lists. -/
theorem RegisteredAt.ioSchedulerSwitch (h : s.RegisteredAt) (hno : tk ∉ s.q.ioWaitTasks_)
    (hfree : s.io.NoneTakes s.q.ioWaitTasks_ tk) (now : ℤ) :
    (s.ioSchedulerSwitch tk now).RegisteredAt := by
  have hreg := Registered.register h hfree
  show (s.ioSchedulerSwitch tk now).ioView.io.Registered (s.ioSchedulerSwitch tk now).ioView.ioWaitTasks_
  rcases ioSchedulerSwitch_ioView hno now with heq | ⟨-, heq⟩
  · rw [heq]
    exact hreg.congr sameWaits_decrementRef
  · rw [heq]
    exact hreg.congr ((sameWaits_setTimer _).trans sameWaits_decrementRef)

/-! ### Every run -/

omit [LinearOrder τ] [DecidableEq β] in
theorem OwnedAt.mem_slist {turn : Turn} (h : s.OwnedAt U loc) (hcur : s.atTurn turn = some tk) :
    loc tk = some .slist := by
  obtain ⟨c, i, P, rest, hph, -, hafter⟩ := atTurn_eq_some hcur
  refine (Queues.Owned.places h).mem.mp ?_
  show tk ∈ s.slist
  rw [slist, hph]
  simp [hafter]

omit [LinearOrder τ] [DecidableEq β] in
theorem OwnedAt.notMem_ioWait {turn : Turn} (h : s.OwnedAt U loc) (hcur : s.atTurn turn = some tk) :
    tk ∉ s.q.ioWaitTasks_ := by
  intro hmem
  have hioWait : tk ∈ s.q.places s.slist .ioWait := hmem
  have hloc := (Queues.Owned.places h).mem.mp hioWait
  rw [h.mem_slist hcur] at hloc
  exact absurd hloc (by simp)

omit [LinearOrder τ] [DecidableEq β] in
theorem OwnedAt.unfinished_of_turn {turn : Turn} (h : s.OwnedAt U loc)
    (hcur : s.atTurn turn = some tk) : tk ∈ U :=
  Queues.Owned.live h |>.mpr (by simp [h.mem_slist hcur])

omit [LinearOrder τ] [DecidableEq β] in
theorem OwnedAt.unfinished_of_ioWait (h : s.OwnedAt U loc) (hmem : tk ∈ s.q.ioWaitTasks_) :
    tk ∈ U := by
  have hioWait : tk ∈ s.q.places s.slist .ioWait := hmem
  refine Queues.Owned.live h |>.mpr ?_
  rw [(Queues.Owned.places h).mem.mp hioWait]
  simp

/-- The condition on a step: a task that starts to wait takes no descriptor that a
waiting task lists. -/
def Undisturbed (s : State τ β) : Act τ β → Prop
  | .switch _ => ∀ tk ∈ s.atTurn .left, (s.q.task tk).state_ = .ioBlock →
      s.io.NoneTakes s.q.ioWaitTasks_ tk
  | _ => True

/-- **Every step keeps registrations with their tasks**, under the condition. -/
theorem step_registered {a : Act τ β} (hown : s.OwnedAt U loc) (h : s.RegisteredAt)
    (hok : s.Undisturbed a) (hst : s.step a = some u) : u.RegisteredAt := by
  suffices hview : ∀ v : IoView τ, IoStep s a v → v.io.Registered v.ioWaitTasks_ from
    hview _ (step_io hown hst)
  intro v hv
  cases hv with
  | same => exact h
  | @coSwitch tk _ fdsts ms hcur =>
    have hno := hown.notMem_ioWait (userTask_eq_some hcur).1
    have hsame : SameWaits s.q.ioWaitTasks_ s.io (s.io.coSwitch tk fdsts ms) :=
      sameWaits_of_notMem hno _
    exact Registered.congr h hsame
  | endWait => exact h
  | cancelTimer => exact Registered.congr h sameWaits_decrementRef
  | ioSwitch hleft hstate =>
    exact h.ioSchedulerSwitch (hown.notMem_ioWait hleft) (hok _ hleft hstate) _
  | sleepSwitch => exact h
  | finish => exact Registered.congr h sameWaits_decrementRef
  | doEpoll =>
    exact h.endWaitLoop ((collectTimers_sameWaits _).trans
      ((epollEvents_sameWaits .read _ []).trans (epollEvents_sameWaits .write _ _))) _
  | doTimer => exact h
  | doSleep => exact h
  | @createTask tk id hnew =>
    have hno : tk ∉ s.q.ioWaitTasks_ := fun hmem =>
      hnew (Queues.Owned.created hown (hown.unfinished_of_ioWait hmem))
    have hsame : SameWaits s.q.ioWaitTasks_ s.io (s.io.modifyTask tk fun _ => { ioBlockId_ := id }) :=
      sameWaits_of_notMem hno _
    exact Registered.congr h hsame
  | expireAt => exact h
  | openFd => exact Registered.congr h ⟨rfl, rfl, fun _ _ => rfl, fun _ _ => rfl⟩
  | closeFd => exact Registered.closeFd h _

omit [LinearOrder τ] [DecidableEq β] in
theorem registered_init (h : Init s) : s.RegisteredAt := by
  have hnone : ∀ e, ∀ r, r ∉ s.io.kernel.epoll e := fun e r => by simp [h.epoll]
  refine ⟨fun e => by simp [h.epoll], fun e r hr => ?_, fun e r hr => ?_, fun e r hr => ?_,
    fun e r hr => ?_, by simp [h.dels]⟩ <;> exact absurd hr (hnone e r)

instance (s : State τ β) (a : Act τ β) : Decidable (s.Undisturbed a) := by
  unfold Undisturbed NoneTakes Kernel.Addable
  cases a <;> infer_instance

/-- Task 1 polls the descriptors 5 and 6, of which 5 is not open; then 5 is opened,
task 2 reads from it, and 6 becomes ready. -/
def reusedFd : Option (State ℕ Unit) :=
  exec step (start fun fd => if fd = 6 then .pollable else .closed)
    [.createTask 1 0, .createTask 2 0, .run 1, .nextProc, .resume,
      .enterHook (.poll [(5, POLLIN), (6, POLLIN)] 1000), .switch 0, .openFd 5 .pollable, .resume,
      .enterHook (.readWrite 5 EPOLLIN (-1)), .switch 0, .endPass, .endRunnable,
      .doEpoll [] [(6, EPOLLIN)] []]

/-- `Cancel` of task 1 removes the registration of task 2, which goes on waiting, and
drops a reference of task 1 for it: one is left for the task and its live timer. -/
theorem cancel_removes_foreign : ∃ s : State ℕ Unit, Reach Init step s ∧
    (∃ d ∈ s.io.dels, d.tk = 1 ∧ d.removed.tk = 2) ∧ s.q.ioWaitTasks_ = [2] ∧
    (∀ e, s.io.kernel.epoll e = []) ∧ (s.io.task 1).refCount_ = 1 ∧
    ∃ timer, (s.io.task 1).ioBlockTimer_ = some timer ∧ s.timers.active_ timer.id_ := by
  have hrun : reusedFd = some (reusedFd.get rfl) := rfl
  have hreach : Reach Init step (reusedFd.get rfl) := reach_exec _ (.start (init_start _)) hrun
  refine ⟨_, hreach, ⟨⟨1, 1, ⟨5, EPOLLIN, 2, 1, 0⟩⟩, by decide, rfl, rfl⟩, rfl, ?_, rfl, _, rfl, rfl⟩
  intro e
  cases e <;> rfl

end Scheduler.State
