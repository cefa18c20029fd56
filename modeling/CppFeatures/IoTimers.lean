/-
The entries of `IoWait::timer_mgr_` (coroutine/linux/io_wait.cpp, scheduler.cpp,
linux_glibc_hook.cpp).

`SchedulerSwitch` stores the timer of a wait in `IoWait::timer_mgr_`.  When the hook goes
on, `g_Scheduler.BlockCancelTimer` clears the timer's `active_`, but takes it out of
`Scheduler::timer_mgr_`, where it never was.

* `IoState.SameTimers` — most changes leave the io timers alone;
* `IoView.Stored` — what is known of a stored timer;
* `IoView.AllInWait` — every stored timer belongs to a wait in progress;
* `State.ioTimers_inWait_iff` — it stays so in a run just if no hooked call cancels a timer
  that is still stored;
* `State.cancelled_stays_stored` — a timed read that is woken leaves its timer behind.
-/
import CppFeatures.IoReferences

namespace IoState

variable {τ : Type*} [DecidableEq τ] {io io' io'' : IoState τ} {tk : τ}

/-! ### Changes that leave the io timers alone -/

/-- The io timers, where they are and whose they are, are the same. -/
structure SameTimers (io io' : IoState τ) : Prop where
  mgr : io'.timerMgr_ = io.timerMgr_
  timeoutList : io'.timeoutList_ = io.timeoutList_
  timer : ∀ t, (io'.task t).ioBlockTimer_ = (io.task t).ioBlockTimer_
  timeout : ∀ t, (io'.task t).ioBlockTimeout_ = (io.task t).ioBlockTimeout_

omit [DecidableEq τ] in
theorem SameTimers.refl (io : IoState τ) : SameTimers io io :=
  ⟨rfl, rfl, fun _ => rfl, fun _ => rfl⟩

omit [DecidableEq τ] in
theorem SameTimers.trans (h : SameTimers io io') (h' : SameTimers io' io'') : SameTimers io io'' :=
  ⟨h'.mgr.trans h.mgr, h'.timeoutList.trans h.timeoutList, fun t => (h'.timer t).trans (h.timer t),
    fun t => (h'.timeout t).trans (h.timeout t)⟩

theorem sameTimers_modifyTask {f : IoTask τ → IoTask τ}
    (htimer : ∀ t, (f t).ioBlockTimer_ = t.ioBlockTimer_)
    (htimeout : ∀ t, (f t).ioBlockTimeout_ = t.ioBlockTimeout_) :
    SameTimers io (io.modifyTask tk f) := by
  refine ⟨rfl, rfl, fun t => ?_, fun t => ?_⟩ <;> by_cases ht : t = tk
  · subst ht
    simp [modifyTask, htimer]
  · simp [modifyTask, ht]
  · subst ht
    simp [modifyTask, htimeout]
  · simp [modifyTask, ht]

theorem sameTimers_incrementRef (io : IoState τ) (tk : τ) : SameTimers io (io.incrementRef tk) :=
  sameTimers_modifyTask (fun _ => rfl) fun _ => rfl

theorem sameTimers_decrementRef (io : IoState τ) (tk : τ) : SameTimers io (io.decrementRef tk) := by
  have hcount : SameTimers io (io.modifyTask tk fun t => { t with refCount_ := t.refCount_ - 1 }) :=
    sameTimers_modifyTask (fun _ => rfl) fun _ => rfl
  rw [decrementRef]
  split_ifs
  · exact hcount.trans ⟨rfl, rfl, fun _ => rfl, fun _ => rfl⟩
  · exact hcount

theorem sameTimers_delFd (tk : τ) (id : BitVec 32) (io : IoState τ) (fdst : FdStruct) :
    SameTimers io (delFd tk id io fdst) := by
  rw [delFd]
  split
  · exact .refl io
  · next r k _ =>
    have hkernel : SameTimers io { io with kernel := k, dels := io.dels ++ [⟨tk, id, r⟩] } :=
      ⟨rfl, rfl, fun _ => rfl, fun _ => rfl⟩
    exact hkernel.trans (sameTimers_decrementRef _ tk)

theorem sameTimers_delFds (tk : τ) (id : BitVec 32) (fdsts : List FdStruct) (io : IoState τ) :
    SameTimers io (fdsts.foldl (delFd tk id) io) :=
  List.foldlRecOn (motive := SameTimers io) fdsts _ (.refl io)
    fun _ h fdst _ => h.trans (sameTimers_delFd tk id _ fdst)

theorem sameTimers_addFds (tk : τ) (id : BitVec 32) (slot : ℕ) (fdsts : List FdStruct)
    (io : IoState τ) (rollbackList : List FdStruct) (ok : Bool) :
    SameTimers io (addFds tk id slot fdsts io rollbackList ok).1 := by
  induction fdsts generalizing slot io rollbackList ok with
  | nil => exact .refl io
  | cons fdst rest ih =>
    have hinc := sameTimers_incrementRef io tk
    rw [addFds]
    split
    · refine SameTimers.trans ?_ (ih ..)
      exact hinc.trans ⟨rfl, rfl, fun _ => rfl, fun _ => rfl⟩
    · exact (hinc.trans (sameTimers_decrementRef _ tk)).trans (sameTimers_delFds ..)
    · exact (hinc.trans (sameTimers_decrementRef _ tk)).trans (ih ..)

theorem sameTimers_register (io : IoState τ) (tk : τ) : SameTimers io (io.register tk).1 :=
  (sameTimers_incrementRef io tk).trans (sameTimers_addFds ..)

theorem sameTimers_epollEvent (e : EpollType) (io : IoState τ) (ev : ℤ × BitVec 32) :
    SameTimers io (io.epollEvent e ev).1 := by
  rw [epollEvent]
  split
  · exact .refl io
  · dsimp only
    exact sameTimers_modifyTask (fun _ => rfl) fun _ => rfl

theorem timeoutList_setTimer (io : IoState τ) (tk : τ) (timer : CoTimer (τ × BitVec 32)) :
    (io.setTimer tk timer).timeoutList_ = io.timeoutList_ :=
  rfl

omit [DecidableEq τ] in
/-- The first loop of `WaitLoop` moves timers from the manager to `timeout_list_`. -/
theorem collectTimers_moves (nows : List ℤ) (io : IoState τ) :
    ((io.collectTimers nows).storedTimers).Perm io.storedTimers ∧
    (io.collectTimers nows).timerMgr_.deadlines_.map Prod.snd ⊆ io.timerMgr_.deadlines_.map Prod.snd ∧
    (io.collectTimers nows).task = io.task := by
  induction nows generalizing io with
  | nil => exact ⟨.refl _, List.Subset.refl _, rfl⟩
  | cons now nows ih =>
    rw [collectTimers]
    dsimp only
    split_ifs
    · exact ⟨.refl _, List.Subset.refl _, rfl⟩
    · have happ := io.timerMgr_.getExpired_append now 128
      obtain ⟨hperm, hsub, htask⟩ := ih { io with
        timerMgr_ := (io.timerMgr_.getExpired now 128).2
        timeoutList_ := io.timeoutList_.merge (io.timerMgr_.getExpired now 128).1
          fun a b => decide (io.addr a.id_ ≤ io.addr b.id_) }
      refine ⟨hperm.trans ?_, fun c hc => ?_, htask⟩
      · rw [storedTimers, storedTimers, ← happ, List.append_assoc]
        refine ((List.merge_perm_append ..).append_left _).trans ?_
        rw [← List.append_assoc]
        exact List.perm_append_comm
      · rw [← happ]
        exact List.mem_append_right _ (hsub hc)

end IoState

namespace Scheduler

open List IoState

variable {τ β : Type*} [LinearOrder τ] [DecidableEq β]

namespace IoView

variable {v : IoView τ} {pending : List (CoTimer (τ × BitVec 32))} {tk : τ}

/-! ### What is known of a stored timer -/

/-- The entries of `IoWait::timer_mgr_`. -/
def ioTimers (v : IoView τ) : List (CoTimer (τ × BitVec 32)) :=
  v.io.timerMgr_.deadlines_.map Prod.snd

/-- The timer of a hooked call that has not come back from its wait. -/
def InWait (v : IoView τ) (c : CoTimer (τ × BitVec 32)) : Prop :=
  (v.io.task c.fn_.1).ioBlockTimer_ = some c ∧ (v.hook c.fn_.1).isSome

/-- The io timers in the manager, and those that are collected and still to be called. -/
structure Stored (v : IoView τ) (pending : List (CoTimer (τ × BitVec 32))) : Prop where
  nodup : ((v.ioTimers ++ pending).map CoTimer.id_).Nodup
  old : ∀ c ∈ v.ioTimers ++ pending,
    c.id_ ≤ v.timers.sId ∧ c.id_ ∉ v.otherIds ∧ c.fn_.1 ∈ v.created
  others : ∀ n ∈ v.otherIds, n ≤ v.timers.sId
  own : ∀ t ∈ v.created, ∀ c ∈ (v.io.task t).ioBlockTimer_, c.fn_.1 = t ∧ c.id_ ≤ v.timers.sId ∧
    ∀ c' ∈ v.ioTimers ++ pending, c'.id_ = c.id_ → c' = c
  active : ∀ c ∈ v.ioTimers ++ pending, v.timers.active_ c.id_ = true →
    v.InWait c ∧ ∀ h ∈ v.hook c.fn_.1, h.cancelsTimer
  inWait : ∀ c ∈ v.ioTimers, v.InWait c → v.timers.active_ c.id_ = true

omit [LinearOrder τ] in
/-- A change that leaves the io timers alone. -/
theorem Stored.setIo (h : v.Stored pending) {io' : IoState τ} {waiting : List τ}
    (hio : SameTimers v.io io') : { v with io := io', ioWaitTasks_ := waiting }.Stored pending := by
  have hmgr : { v with io := io', ioWaitTasks_ := waiting }.ioTimers = v.ioTimers := by
    rw [ioTimers, hio.mgr, ioTimers]
  have hwait : ∀ c, { v with io := io', ioWaitTasks_ := waiting }.InWait c ↔ v.InWait c := fun c => by
    rw [InWait, hio.timer, InWait]
  refine ⟨?_, ?_, h.others, ?_, ?_, ?_⟩
  · rw [hmgr]
    exact h.nodup
  · rw [hmgr]
    exact h.old
  · simp only [hmgr, hio.timer]
    exact h.own
  · simp only [hmgr, hwait]
    exact h.active
  · simp only [hmgr, hwait]
    exact h.inWait

omit [LinearOrder τ] in
/-- Timers are collected, or forgotten. -/
theorem Stored.sub (h : v.Stored pending) {io' : IoState τ}
    {pending' : List (CoTimer (τ × BitVec 32))} (htask : io'.task = v.io.task)
    (hnodup : (({ v with io := io' }.ioTimers ++ pending').map CoTimer.id_).Nodup)
    (hall : { v with io := io' }.ioTimers ++ pending' ⊆ v.ioTimers ++ pending)
    (hsub : { v with io := io' }.ioTimers ⊆ v.ioTimers) :
    { v with io := io' }.Stored pending' := by
  have hwait : ∀ c, { v with io := io' }.InWait c ↔ v.InWait c := fun c => by
    rw [InWait, htask, InWait]
  refine ⟨hnodup, fun c hc => h.old c (hall hc), h.others, ?_, fun c hc ha => ?_, fun c hc hw => ?_⟩
  · intro t ht c hc
    rw [htask] at hc
    obtain ⟨hfn, hle, huniq⟩ := h.own t ht c hc
    exact ⟨hfn, hle, fun c' hc' => huniq c' (hall hc')⟩
  · rw [hwait]
    exact h.active c (hall hc) ha
  · exact h.inWait c (hsub hc) ((hwait c).mp hw)

omit [LinearOrder τ] in
/-- A collected timer that is no longer active is dropped. -/
theorem Stored.tail {c : CoTimer (τ × BitVec 32)} (h : v.Stored (c :: pending)) :
    v.Stored pending := by
  have hsub : (v.ioTimers ++ pending).Sublist (v.ioTimers ++ c :: pending) :=
    (List.Sublist.refl _).append (sublist_cons_self ..)
  exact h.sub rfl ((hsub.map _).nodup h.nodup) hsub.subset (List.Subset.refl _)

omit [LinearOrder τ] in
/-- A change to other timers. -/
theorem Stored.setTimers (h : v.Stored pending) {timers : TimerHeap} {sleepMgr : CoTimerMgr τ}
    {userMgr : CoTimerMgr Unit} (hsId : v.timers.sId ≤ timers.sId)
    (hothers : ∀ n ∈ { v with sleepTimerMgr_ := sleepMgr, timerMgr_ := userMgr }.otherIds,
      n ≤ timers.sId ∧ ∀ c ∈ v.ioTimers ++ pending, c.id_ ≠ n)
    (hsame : ∀ c ∈ v.ioTimers ++ pending, timers.active_ c.id_ = v.timers.active_ c.id_) :
    { v with timers := timers, sleepTimerMgr_ := sleepMgr, timerMgr_ := userMgr }.Stored pending := by
  refine ⟨h.nodup, fun c hc => ?_, fun n hn => (hothers n hn).1, fun t ht c hc => ?_,
    fun c hc ha => ?_, fun c hc hw => ?_⟩
  · obtain ⟨hle, -, hmem⟩ := h.old c hc
    exact ⟨hle.trans hsId, fun hn => (hothers _ hn).2 c hc rfl, hmem⟩
  · obtain ⟨hfn, hle, huniq⟩ := h.own t ht c hc
    exact ⟨hfn, hle.trans hsId, huniq⟩
  · exact h.active c hc ((hsame c hc).symm.trans ha)
  · exact (hsame c (mem_append_left _ hc)).trans (h.inWait c hc hw)

omit [LinearOrder τ] in
theorem Stored.other_ne (h : v.Stored pending) {n : ℕ} (hn : n ∈ v.otherIds) :
    ∀ c ∈ v.ioTimers ++ pending, c.id_ ≠ n := by
  rintro c hc rfl
  exact (h.old c hc).2.1 hn

omit [LinearOrder τ] in
/-- A collected timer is called: the others have other ids. -/
theorem Stored.call {c : CoTimer (τ × BitVec 32)} (h : v.Stored (c :: pending)) :
    { v with timers := (v.timers.deactivate c.id_).1 }.Stored pending := by
  have hne : ∀ c' ∈ v.ioTimers ++ pending, c'.id_ ≠ c.id_ := by
    have hnodup := h.nodup
    rw [map_append, map_cons, nodup_middle, nodup_cons, ← map_append] at hnodup
    exact fun c' hc' heq => hnodup.1 (mem_map.mpr ⟨c', hc', heq⟩)
  refine h.tail.setTimers le_rfl (fun n hn => ⟨h.others n hn, h.tail.other_ne hn⟩) fun c' hc' => ?_
  simp [TimerHeap.deactivate, hne c' hc']

omit [LinearOrder τ] in
/-- A new timer of a sleep or of the user. -/
theorem Stored.addOther (h : v.Stored pending) {sleepMgr : CoTimerMgr τ} {userMgr : CoTimerMgr Unit}
    (hothers : ∀ n ∈ { v with sleepTimerMgr_ := sleepMgr, timerMgr_ := userMgr }.otherIds,
      n = v.timers.sId + 1 ∨ n ∈ v.otherIds) :
    { v with
      timers := v.timers.new
      sleepTimerMgr_ := sleepMgr
      timerMgr_ := userMgr }.Stored pending := by
  have hne : ∀ c ∈ v.ioTimers ++ pending, c.id_ ≠ v.timers.sId + 1 := fun c hc => by
    have hle := (h.old c hc).1
    omega
  refine h.setTimers (Nat.le_succ _) (fun n hn => ?_) fun c hc => ?_
  · rcases hothers n hn with rfl | hn
    · exact ⟨le_rfl, hne⟩
    · exact ⟨(h.others n hn).trans (Nat.le_succ _), h.other_ne hn⟩
  · simp [TimerHeap.new, hne c hc]

omit [LinearOrder τ] in
/-- Timers of sleeps and of the user are called. -/
theorem Stored.callOthers {F : Type*} (h : v.Stored pending) (timers : List (CoTimer F))
    {sleepMgr : CoTimerMgr τ} {userMgr : CoTimerMgr Unit}
    (hcalled : ∀ c ∈ timers, c.id_ ∈ v.otherIds)
    (hothers : ∀ n ∈ { v with sleepTimerMgr_ := sleepMgr, timerMgr_ := userMgr }.otherIds,
      n ∈ v.otherIds) :
    { v with
      timers := v.timers.deactivateAll timers
      sleepTimerMgr_ := sleepMgr
      timerMgr_ := userMgr }.Stored pending := by
  have hsId := sId_deactivateAll timers v.timers
  refine h.setTimers hsId.ge (fun n hn => ?_) fun c hc => ?_
  · rw [hsId]
    exact ⟨h.others n (hothers n hn), h.other_ne (hothers n hn)⟩
  · have hno : c.id_ ∉ timers.map CoTimer.id_ := fun hmem => by
      obtain ⟨c', hc', heq⟩ := mem_map.mp hmem
      exact h.other_ne (hcalled c' hc') c hc heq.symm
    simp [active_deactivateAll, hno]

/-- The end of a hooked call, in which at most its own timer is cancelled. -/
theorem Stored.unhook (h : v.Stored pending) {timers : TimerHeap} {userMgr : CoTimerMgr Unit}
    (hsId : timers.sId = v.timers.sId)
    (hothers : ∀ n ∈ { v with timerMgr_ := userMgr }.otherIds, n ∈ v.otherIds)
    (hsame : ∀ c ∈ v.ioTimers ++ pending, c.fn_.1 ≠ tk →
      timers.active_ c.id_ = v.timers.active_ c.id_)
    (hdead : ∀ c ∈ v.ioTimers ++ pending, c.fn_.1 = tk → timers.active_ c.id_ = false) :
    { v with
      timers := timers
      timerMgr_ := userMgr
      hook := Function.update v.hook tk none }.Stored pending := by
  have hwait : ∀ c : CoTimer (τ × BitVec 32), c.fn_.1 ≠ tk →
      ({ v with
        timers := timers
        timerMgr_ := userMgr
        hook := Function.update v.hook tk none }.InWait c ↔ v.InWait c) := by
    intro c hne
    simp [InWait, hne]
  refine ⟨h.nodup, fun c hc => ?_, fun n hn => ?_, fun t ht c hc => ?_, fun c hc ha => ?_,
    fun c hc hw => ?_⟩
  · obtain ⟨hle, hno, hcr⟩ := h.old c hc
    exact ⟨hsId ▸ hle, fun hn => hno (hothers _ hn), hcr⟩
  · exact hsId ▸ h.others n (hothers n hn)
  · rw [hsId]
    exact h.own t ht c hc
  · have hne : c.fn_.1 ≠ tk := fun heq => by
      rw [hdead c hc heq] at ha
      cases ha
    rw [hwait c hne]
    have hact := h.active c hc ((hsame c hc hne).symm.trans ha)
    refine ⟨hact.1, ?_⟩
    simpa [hne] using hact.2
  · have hne : c.fn_.1 ≠ tk := by
      rintro rfl
      simp [InWait] at hw
    exact (hsame c (mem_append_left _ hc) hne).trans (h.inWait c hc ((hwait c hne).mp hw))

/-- A task without an io timer gets a new record without one. -/
theorem Stored.reset (h : v.Stored pending) {f : IoTask τ → IoTask τ} {cr : Finset τ}
    {hook' : τ → Option Hook} (hcr : v.created ⊆ cr) (hcr' : ∀ t ≠ tk, t ∈ cr → t ∈ v.created)
    (hf : (f (v.io.task tk)).ioBlockTimer_ = none) (hhook : ∀ t ≠ tk, hook' t = v.hook t)
    (hdead : ∀ c ∈ v.ioTimers ++ pending, c.fn_.1 = tk → v.timers.active_ c.id_ = false) :
    { v with created := cr, io := v.io.modifyTask tk f, hook := hook' }.Stored pending := by
  have hnone : ((v.io.modifyTask tk f).task tk).ioBlockTimer_ = none := by
    simpa [modifyTask] using hf
  have htask : ∀ t ≠ tk, (v.io.modifyTask tk f).task t = v.io.task t := fun t ht => by
    simp [modifyTask, ht]
  have hwait : ∀ c : CoTimer (τ × BitVec 32), c.fn_.1 ≠ tk →
      ({ v with created := cr, io := v.io.modifyTask tk f, hook := hook' }.InWait c ↔ v.InWait c) := by
    intro c hne
    simp only [InWait, htask _ hne, hhook _ hne]
  refine ⟨h.nodup, fun c hc => ?_, h.others, fun t ht c hc => ?_, fun c hc ha => ?_,
    fun c hc hw => ?_⟩
  · obtain ⟨hle, hno, hmem⟩ := h.old c hc
    exact ⟨hle, hno, hcr hmem⟩
  · have hne : t ≠ tk := by
      rintro rfl
      simp [hnone] at hc
    rw [htask t hne] at hc
    exact h.own t (hcr' t hne ht) c hc
  · have hne : c.fn_.1 ≠ tk := fun heq => by
      have ha' : v.timers.active_ c.id_ = true := ha
      rw [hdead c hc heq] at ha'
      cases ha'
    rw [hwait c hne]
    show v.InWait c ∧ ∀ h ∈ hook' c.fn_.1, h.cancelsTimer
    rw [hhook _ hne]
    exact h.active c hc ha
  · have hne : c.fn_.1 ≠ tk := by
      rintro rfl
      simp [InWait, hnone] at hw
    exact h.inWait c hc ((hwait c hne).mp hw)

/-- The timer of a new wait. -/
theorem Stored.setTimer (h : v.Stored pending) (htk : tk ∈ v.created)
    (hnone : (v.io.task tk).ioBlockTimer_ = none) {hk : Hook} (hhook : v.hook tk = some hk)
    (hcancel : hk.cancelsTimer = true) (id : BitVec 32) (tp : ℤ) :
    { v with
      io := v.io.setTimer tk ⟨v.timers.sId + 1, (tk, id), tp⟩
      timers := v.timers.new }.Stored pending := by
  have hperm := (CoTimerMgr.insertDeadline_perm v.io.timerMgr_.deadlines_
    (tp, ⟨v.timers.sId + 1, (tk, id), tp⟩)).map Prod.snd
  set c₀ : CoTimer (τ × BitVec 32) := ⟨v.timers.sId + 1, (tk, id), tp⟩ with hc₀
  have hmgr : { v with io := v.io.setTimer tk c₀, timers := v.timers.new }.ioTimers.Perm
      (c₀ :: v.ioTimers) := hperm
  have hall := hmgr.append_right pending
  have hnew : ∀ c ∈ v.ioTimers ++ pending, c.id_ ≠ v.timers.sId + 1 := fun c hc => by
    have hle := (h.old c hc).1
    omega
  have hsame : ∀ c ∈ v.ioTimers ++ pending, v.timers.new.active_ c.id_ = v.timers.active_ c.id_ :=
    fun c hc => by simp [TimerHeap.new, hnew c hc]
  have hself : ((v.io.setTimer tk c₀).task tk).ioBlockTimer_ = some c₀ := by
    rw [ioBlockTimer_setTimer, if_pos rfl]
  have hwait : ∀ c : CoTimer (τ × BitVec 32), c.fn_.1 ≠ tk →
      ({ v with io := v.io.setTimer tk c₀, timers := v.timers.new }.InWait c ↔ v.InWait c) := by
    intro c hne
    simp only [InWait, ioBlockTimer_setTimer, if_neg hne]
  refine ⟨?_, fun c hc => ?_, fun n hn => (h.others n hn).trans (Nat.le_succ _), fun t ht c hc => ?_,
    fun c hc ha => ?_, fun c hc hw => ?_⟩
  · refine (hall.map CoTimer.id_).nodup_iff.mpr (nodup_cons.mpr ⟨fun hmem => ?_, h.nodup⟩)
    obtain ⟨c, hc, heq⟩ := mem_map.mp hmem
    exact hnew c hc heq
  · rcases mem_cons.mp (hall.subset hc) with rfl | hc
    · refine ⟨le_rfl, fun hn => ?_, htk⟩
      exact absurd (h.others _ hn) (Nat.not_succ_le_self _)
    · obtain ⟨hle, hno, hmem⟩ := h.old c hc
      exact ⟨hle.trans (Nat.le_succ _), hno, hmem⟩
  · rw [ioBlockTimer_setTimer] at hc
    split_ifs at hc with heq
    · obtain rfl : c₀ = c := Option.some_inj.mp hc
      refine ⟨heq.symm, le_rfl, fun c' hc' hid => ?_⟩
      exact (mem_cons.mp (hall.subset hc')).resolve_right fun hc' => hnew c' hc' hid
    · obtain ⟨hfn, hle, huniq⟩ := h.own t ht c hc
      refine ⟨hfn, hle.trans (Nat.le_succ _), fun c' hc' hid => ?_⟩
      rcases mem_cons.mp (hall.subset hc') with rfl | hc'
      · exact absurd (hid.le.trans hle) (Nat.not_succ_le_self _)
      · exact huniq c' hc' hid
  · rcases mem_cons.mp (hall.subset hc) with rfl | hc
    · refine ⟨⟨hself, ?_⟩, fun h' hh' => ?_⟩
      · show (v.hook tk).isSome
        rw [hhook]
        rfl
      · obtain rfl : hk = h' := Option.some_inj.mp (hhook.symm.trans hh')
        exact hcancel
    · have hact := h.active c hc ((hsame c hc).symm.trans ha)
      have hne : c.fn_.1 ≠ tk := fun heq => by
        have hc' := hact.1.1
        rw [heq, hnone] at hc'
        cases hc'
      exact ⟨(hwait c hne).mpr hact.1, hact.2⟩
  · rcases mem_cons.mp (hmgr.subset hc) with rfl | hc
    · simp [TimerHeap.new, hc₀]
    · have hmem : c ∈ v.ioTimers ++ pending := mem_append_left _ hc
      have hne : c.fn_.1 ≠ tk := fun heq => by
        have hc' : ((v.io.setTimer tk c₀).task c.fn_.1).ioBlockTimer_ = some c := hw.1
        rw [heq, hself] at hc'
        exact hnew c hmem (congrArg CoTimer.id_ (Option.some_inj.mp hc').symm)
      exact (hsame c hmem).trans (h.inWait c hc ((hwait c hne).mp hw))

/-! ### Stored timers without a wait -/

/-- Every stored timer is that of a wait in progress. -/
def AllInWait (v : IoView τ) : Prop := ∀ c ∈ v.ioTimers, v.InWait c

/-- No wait begins or ends, and no timer is added. -/
structure SameWaits (v v' : IoView τ) : Prop where
  sub : v'.ioTimers ⊆ v.ioTimers
  timer : ∀ t, (v'.io.task t).ioBlockTimer_ = (v.io.task t).ioBlockTimer_
  hook : v'.hook = v.hook

section

variable {v' v'' : IoView τ}

omit [LinearOrder τ]

theorem SameWaits.refl (v : IoView τ) : SameWaits v v :=
  ⟨List.Subset.refl _, fun _ => rfl, rfl⟩

theorem SameWaits.trans (h : SameWaits v v') (h' : SameWaits v' v'') : SameWaits v v'' :=
  ⟨fun _ hc => h.sub (h'.sub hc), fun t => (h'.timer t).trans (h.timer t), h'.hook.trans h.hook⟩

theorem SameWaits.of_sameTimers (hio : SameTimers v.io v'.io) (hhook : v'.hook = v.hook) :
    SameWaits v v' := by
  refine ⟨?_, hio.timer, hhook⟩
  rw [ioTimers, hio.mgr]
  exact List.Subset.refl _

theorem AllInWait.mono (hall : v.AllInWait) (h : SameWaits v v') : v'.AllInWait := by
  intro c hc
  rw [InWait, h.timer, h.hook]
  exact hall c (h.sub hc)

end

/-- A task without a stored timer begins anew. -/
theorem AllInWait.reset (hall : v.AllInWait) {f : IoTask τ → IoTask τ} {cr : Finset τ}
    {hook' : τ → Option Hook} (hhook : ∀ t ≠ tk, hook' t = v.hook t)
    (hno : ∀ c ∈ v.ioTimers, c.fn_.1 ≠ tk) :
    { v with created := cr, io := v.io.modifyTask tk f, hook := hook' }.AllInWait := by
  intro c hc
  obtain ⟨htimer, hsome⟩ := hall c hc
  have hne := hno c hc
  refine ⟨?_, ?_⟩
  · simpa [modifyTask, hne] using htimer
  · show (hook' c.fn_.1).isSome
    rw [hhook _ hne]
    exact hsome

omit [LinearOrder τ] in
/-- A hooked call ends, and the waits of the other tasks go on. -/
theorem AllInWait.unhook [DecidableEq τ] (hall : v.AllInWait) (v' : IoView τ)
    (hmgr : v'.ioTimers = v.ioTimers)
    (htimer : ∀ t, (v'.io.task t).ioBlockTimer_ = (v.io.task t).ioBlockTimer_)
    (hnone : v'.hook = Function.update v.hook tk none) :
    v'.AllInWait ↔ ∀ c ∈ v.ioTimers, c.fn_.1 ≠ tk := by
  refine ⟨fun hv c hc heq => ?_, fun hne c hc => ?_⟩
  · have hsome := (hv c (hmgr.symm ▸ hc)).2
    rw [hnone, heq, Function.update_self] at hsome
    cases hsome
  · rw [hmgr] at hc
    obtain ⟨hown, hsome⟩ := hall c hc
    refine ⟨(htimer _).trans hown, ?_⟩
    rw [hnone, Function.update_of_ne (hne c hc)]
    exact hsome

/-- The timer of a new wait. -/
theorem AllInWait.setTimer (hall : v.AllInWait) (hnone : (v.io.task tk).ioBlockTimer_ = none)
    (hhook : (v.hook tk).isSome) (c₀ : CoTimer (τ × BitVec 32)) (hc₀ : c₀.fn_.1 = tk) :
    { v with io := v.io.setTimer tk c₀ }.AllInWait := by
  have hperm := (CoTimerMgr.insertDeadline_perm v.io.timerMgr_.deadlines_
    (c₀.nextTimePoint_, c₀)).map Prod.snd
  intro c hc
  rcases mem_cons.mp (hperm.subset hc) with rfl | hc
  · refine ⟨?_, ?_⟩
    · show ((v.io.setTimer tk c).task c.fn_.1).ioBlockTimer_ = some c
      rw [ioBlockTimer_setTimer, if_pos hc₀]
    · show (v.hook c.fn_.1).isSome
      rw [hc₀]
      exact hhook
  · obtain ⟨htimer, hsome⟩ := hall c hc
    have hne : c.fn_.1 ≠ tk := fun heq => by
      rw [heq, hnone] at htimer
      cases htimer
    refine ⟨?_, hsome⟩
    show ((v.io.setTimer tk c₀).task c.fn_.1).ioBlockTimer_ = some c
    rw [ioBlockTimer_setTimer, if_neg hne]
    exact htimer

end IoView

namespace State

variable {s u : State τ β} {tk : τ} {U : Finset τ} {loc : τ → Option (Loc β)}
  {pending : List (CoTimer (τ × BitVec 32))}

/-! ### Every run -/

omit [DecidableEq β] in
theorem stored_cancel (h : s.ioView.Stored pending) (tk : τ) (id : BitVec 32) :
    (s.cancel tk id).ioView.Stored pending ∧ (s.cancel tk id).io.timeoutList_ = s.io.timeoutList_ := by
  rcases s.cancel_cases tk id with ⟨-, -, heq⟩ | ⟨heq, -⟩
  · have hio := sameTimers_delFds tk id (s.io.task tk).waitFds_ s.io
    refine ⟨?_, (congrArg (fun v => v.io.timeoutList_) heq).trans hio.timeoutList⟩
    rw [heq]
    exact h.setIo hio
  · rw [heq]
    exact ⟨h, rfl⟩

omit [DecidableEq β] in
theorem stored_ioTimeout {c : CoTimer (τ × BitVec 32)} (h : s.ioView.Stored (c :: pending)) :
    (s.ioTimeout c).ioView.Stored pending ∧ (s.ioTimeout c).io.timeoutList_ = s.io.timeoutList_ := by
  obtain ⟨hc, hlist⟩ := stored_cancel h c.fn_.1 c.fn_.2
  have hview := ioView_ioTimeout s c
  have hio : (s.ioTimeout c).io = (s.ioTimeout c).ioView.io := rfl
  rw [hio, hview]
  split_ifs
  · have hcall := hc.call
    simp only [ioView, cancel_timers] at hcall
    have hdec := sameTimers_decrementRef (s.cancel c.fn_.1 c.fn_.2).io c.fn_.1
    exact ⟨hcall.setIo hdec, hdec.timeoutList.trans hlist⟩
  · exact ⟨h.tail, rfl⟩

omit [DecidableEq β] in
theorem stored_runTimeouts (h : s.ioView.Stored s.io.timeoutList_) :
    s.runTimeouts.ioView.Stored s.runTimeouts.io.timeoutList_ := by
  have hfold : ∀ (pending : List (CoTimer (τ × BitVec 32))) (s : State τ β),
      s.ioView.Stored pending → s.io.timeoutList_ = [] →
      (pending.foldl ioTimeout s).ioView.Stored (pending.foldl ioTimeout s).io.timeoutList_ := by
    intro pending
    induction pending with
    | nil =>
      intro s h hlist
      rw [foldl_nil, hlist]
      exact h
    | cons c pending ih =>
      intro s h hlist
      obtain ⟨hc, hlist'⟩ := stored_ioTimeout h
      exact ih _ hc (hlist'.trans hlist)
  have hstart : ({ s with io := { s.io with timeoutList_ := [] } } : State τ β).ioView.Stored
      s.io.timeoutList_ :=
    h.sub rfl h.nodup (List.Subset.refl _) (List.Subset.refl _)
  exact hfold _ _ hstart rfl

omit [DecidableEq β] in
theorem sameTimers_epollEvents (e : EpollType) (evs : List (ℤ × BitVec 32)) (io : IoState τ)
    (set : List (τ × BitVec 32)) : SameTimers io (epollEvents e evs io set).1 := by
  induction evs generalizing io set with
  | nil => exact .refl io
  | cons ev evs ih =>
    rw [epollEvents]
    exact (sameTimers_epollEvent e io ev).trans (ih _ _)

omit [DecidableEq β] in
theorem stored_ioWaitLoop (h : s.ioView.Stored s.io.timeoutList_) (nows : List ℤ)
    (readEvs writeEvs : List (ℤ × BitVec 32)) :
    (s.ioWaitLoop nows readEvs writeEvs).ioView.Stored
      (s.ioWaitLoop nows readEvs writeEvs).io.timeoutList_ := by
  obtain ⟨hperm, hsub, htask⟩ := collectTimers_moves nows s.io
  have hcollect : ({ s with io := s.io.collectTimers nows } : State τ β).ioView.Stored
      (s.io.collectTimers nows).timeoutList_ :=
    h.sub htask ((hperm.map _).nodup_iff.mpr h.nodup) hperm.subset hsub
  have hevents : SameTimers (s.io.collectTimers nows)
      (epollWait (s.io.collectTimers nows) readEvs writeEvs).1 :=
    (sameTimers_epollEvents .read readEvs _ []).trans (sameTimers_epollEvents .write writeEvs _ _)
  have hset : ({ s with io := (epollWait (s.io.collectTimers nows) readEvs writeEvs).1 }
      : State τ β).ioView.Stored
        (epollWait (s.io.collectTimers nows) readEvs writeEvs).1.timeoutList_ := by
    rw [hevents.timeoutList]
    exact hcollect.setIo hevents
  have hcancel := List.foldlRecOn
    (motive := fun v : State τ β => v.ioView.Stored v.io.timeoutList_)
    (epollWait (s.io.collectTimers nows) readEvs writeEvs).2
    (fun s st => State.cancel s st.1 st.2) hset fun v hv st _ => by
      obtain ⟨hc, hlist⟩ := stored_cancel hv st.1 st.2
      rw [hlist]
      exact hc
  exact (stored_runTimeouts hcancel).setIo ⟨rfl, rfl, fun _ => rfl, fun _ => rfl⟩

omit [DecidableEq β] in
theorem stored_ioSchedulerSwitch (h : s.ioView.Stored s.io.timeoutList_) (htk : tk ∈ s.q.created)
    (hno : tk ∉ s.q.ioWaitTasks_) (hnone : (s.io.task tk).ioBlockTimer_ = none)
    (hhook : ∃ hk ∈ s.hook tk, hk.cancelsTimer ∨ (s.io.task tk).ioBlockTimeout_ = -1) (now : ℤ) :
    (s.ioSchedulerSwitch tk now).ioView.Stored (s.ioSchedulerSwitch tk now).ioView.io.timeoutList_ := by
  have hreg := sameTimers_register s.io tk
  have hdec := fun io : IoState τ => sameTimers_decrementRef io tk
  rcases ioSchedulerSwitch_ioView hno now with heq | ⟨htimeout, heq⟩
  · rw [heq, (hreg.trans (hdec _)).timeoutList]
    exact h.setIo (hreg.trans (hdec _))
  · obtain ⟨hk, hmem, hcancel⟩ := hhook
    have hc : hk.cancelsTimer = true :=
      hcancel.resolve_right fun htime => htimeout ((hreg.timeout tk).trans htime)
    have hwait : { s.ioView with io := (s.io.register tk).1 }.Stored s.io.timeoutList_ := h.setIo hreg
    have hset := hwait.setTimer htk ((hreg.timer tk).trans hnone) hmem hc
      ((s.io.register tk).1.task tk).ioBlockId_
      (now + ((s.io.register tk).1.task tk).ioBlockTimeout_)
    rw [heq, (hdec _).timeoutList, timeoutList_setTimer, hreg.timeoutList]
    exact hset.setIo (hdec _)

/-- **Every step** keeps what is known of the stored timers. -/
theorem step_stored {a : Act τ β} (hown : s.OwnedAt U loc) (hturns : s.Turns)
    (h : s.ioView.Stored s.io.timeoutList_) (hst : s.step a = some u) :
    u.ioView.Stored u.io.timeoutList_ := by
  suffices hview : ∀ v : IoView τ, IoStep s a v → v.Stored v.io.timeoutList_ from
    hview _ (step_io hown hst)
  have hturn : ∀ turn tk, s.atTurn turn = some tk → tk ∈ s.q.created := fun turn tk hcur =>
    Queues.Owned.created hown (hown.unfinished_of_turn hcur)
  intro v hv
  cases hv with
  | same hU => exact h
  | @coSwitch tk hk fdsts ms hcur =>
    obtain ⟨hcur, hhook⟩ := userTask_eq_some hcur
    refine h.reset (Finset.Subset.refl _) (fun _ _ ht => ht) rfl (fun t ht => by simp [ht, ioView]) ?_
    rintro c hc rfl
    by_contra hact
    have hw := (h.active c hc (by simpa using hact)).1.2
    simp [ioView, hhook] at hw
  | @endWait tk hk hcur hhook hdead =>
    refine h.unhook rfl (fun _ hn => hn) (fun _ _ _ => rfl) ?_
    rintro c hc rfl
    by_contra hact
    obtain ⟨hw, hcancels⟩ := h.active c hc (by simpa using hact)
    exact hact (hdead (hcancels hk hhook) c hw.1)
  | @cancelTimer tk hk timer hcur hhook htimer hact =>
    obtain ⟨hfn, -, huniq⟩ := h.own tk (hturn _ _ hcur) timer htimer
    have hdec := sameTimers_decrementRef s.io tk
    suffices hun : { s.ioView with
        timers := (s.timers.deactivate timer.id_).1
        timerMgr_ := s.timerMgr_.cancel timer.id_ timer.nextTimePoint_
        hook := Function.update s.hook tk none }.Stored s.io.timeoutList_ from
      hdec.timeoutList ▸ hun.setIo hdec
    refine h.unhook rfl ?_ ?_ ?_
    · intro n hn
      rcases mem_append.mp hn with hn | hn
      · exact mem_append_left _ hn
      · exact mem_append_right _ (ids_cancel _ _ _ n hn)
    · intro c hc hne
      have hid : c.id_ ≠ timer.id_ := fun heq => hne (huniq c hc heq ▸ hfn)
      simp [TimerHeap.deactivate, hid, ioView]
    · intro c hc heq
      by_cases hid : c.id_ = timer.id_
      · simp [TimerHeap.deactivate, hid]
      · by_contra hc'
        have hactive : s.timers.active_ c.id_ = true := by
          simpa [TimerHeap.deactivate, hid] using hc'
        have hown' := (h.active c hc hactive).1.1
        rw [heq] at hown'
        exact hid (congrArg CoTimer.id_ (Option.some_inj.mp (hown'.symm.trans htimer)))
  | ioSwitch hleft hstate =>
    obtain ⟨hnone, hhook⟩ := hturns.ioBlock _ hleft hstate
    exact stored_ioSchedulerSwitch h (hturn _ _ hleft) (hown.notMem_ioWait hleft) hnone hhook _
  | sleepSwitch hleft hstate =>
    refine h.addOther fun n hn => ?_
    simp only [IoView.otherIds, mem_append, ioView, mem_ids_expireAt] at hn ⊢
    rwa [or_assoc] at hn
  | @finish tk now hfin =>
    have hdec := sameTimers_decrementRef s.io tk
    exact hdec.timeoutList ▸ h.setIo hdec
  | doEpoll => exact stored_ioWaitLoop h _ _ _
  | @doTimer now =>
    obtain ⟨hcalled, hleft⟩ := ids_getExpired s.timerMgr_ now 128
    refine h.callOthers _ (fun c hc => mem_append_right _ (hcalled c hc)) fun n hn => ?_
    rcases mem_append.mp hn with hn | hn
    · exact mem_append_left _ hn
    · exact mem_append_right _ (hleft n hn)
  | @doSleep now =>
    obtain ⟨hcalled, hleft⟩ := ids_getExpired s.q.sleepTimerMgr_ now 128
    refine h.callOthers _ (fun c hc => mem_append_left _ (hcalled c hc)) fun n hn => ?_
    rcases mem_append.mp hn with hn | hn
    · exact mem_append_left _ (hleft n hn)
    · exact mem_append_right _ hn
  | @createTask tk id hnew =>
    refine h.reset (Finset.subset_insert _ _) (fun t ht hmem => ?_) rfl (fun _ _ => rfl) ?_
    · exact (Finset.mem_insert.mp hmem).resolve_left ht
    · rintro c hc rfl
      exact absurd (h.old c hc).2.2 hnew
  | expireAt =>
    refine h.addOther fun n hn => ?_
    simp only [IoView.otherIds, mem_append, ioView, mem_ids_expireAt] at hn ⊢
    rwa [or_left_comm] at hn
  | openFd => exact h.setIo ⟨rfl, rfl, fun _ => rfl, fun _ => rfl⟩
  | closeFd => exact h.setIo ⟨rfl, rfl, fun _ => rfl, fun _ => rfl⟩

omit [LinearOrder τ] [DecidableEq β] in
theorem stored_init (h : Init s) : s.ioView.Stored s.io.timeoutList_ := by
  have hothers : s.ioView.otherIds = [] := by
    simp [IoView.otherIds, ioView, h.sleepTimerMgr, h.timerMgr, CoTimerMgr.new]
  have hmgr : s.ioView.ioTimers = [] := by
    simp [IoView.ioTimers, ioView, h.ioTimerMgr, CoTimerMgr.new]
  have hcreated : s.ioView.created = ∅ := h.created
  refine ⟨?_, ?_, ?_, ?_, ?_, ?_⟩ <;> simp [hothers, hmgr, h.timeoutList, hcreated]

theorem reach_stored : ∀ s : State τ β, Reach Init step s → s.ioView.Stored s.io.timeoutList_ :=
  ReachIf.invariant_with (fun s => (∃ loc, s.OwnedAt s.unfinished loc) ∧ s.Turns)
    (fun s hs => ⟨reach_owned s hs, reach_turns s hs⟩) (fun _ => stored_init)
    fun _ _ _ ⟨⟨_, hown⟩, hturns⟩ h _ hst => step_stored hown hturns h hst

/-! ### The waits that the stored timers belong to -/

omit [DecidableEq β] in
theorem sameWaits_cancel (s : State τ β) (tk : τ) (id : BitVec 32) :
    s.ioView.SameWaits (s.cancel tk id).ioView := by
  rcases s.cancel_cases tk id with ⟨-, -, heq⟩ | ⟨heq, -⟩
  · rw [heq]
    exact .of_sameTimers (sameTimers_delFds tk id (s.io.task tk).waitFds_ s.io) rfl
  · rw [heq]
    exact .refl _

omit [DecidableEq β] in
theorem sameWaits_ioTimeout (s : State τ β) (c : CoTimer (τ × BitVec 32)) :
    s.ioView.SameWaits (s.ioTimeout c).ioView := by
  rw [ioView_ioTimeout]
  split_ifs
  · exact (sameWaits_cancel s c.fn_.1 c.fn_.2).trans (.of_sameTimers (sameTimers_decrementRef _ _) rfl)
  · exact .refl _

omit [DecidableEq β] in
/-- `WaitLoop` ends no wait: its tasks have yet to be resumed. -/
theorem sameWaits_ioWaitLoop (s : State τ β) (nows : List ℤ) (readEvs writeEvs : List (ℤ × BitVec 32)) :
    s.ioView.SameWaits (s.ioWaitLoop nows readEvs writeEvs).ioView := by
  obtain ⟨-, hsub, htask⟩ := collectTimers_moves nows s.io
  have hcollect : s.ioView.SameWaits ({ s with io := s.io.collectTimers nows } : State τ β).ioView :=
    ⟨hsub, fun t => congrArg (fun task : τ → IoTask τ => (task t).ioBlockTimer_) htask, rfl⟩
  have hevents : s.ioView.SameWaits
      ({ s with io := (epollWait (s.io.collectTimers nows) readEvs writeEvs).1 } : State τ β).ioView :=
    hcollect.trans (.of_sameTimers ((sameTimers_epollEvents .read readEvs _ []).trans
      (sameTimers_epollEvents .write writeEvs _ _)) rfl)
  have hcancel := List.foldlRecOn (motive := fun v : State τ β => s.ioView.SameWaits v.ioView)
    (epollWait (s.io.collectTimers nows) readEvs writeEvs).2
    (fun s st => State.cancel s st.1 st.2) hevents fun v hv st _ => hv.trans (sameWaits_cancel v ..)
  have hrun : ∀ (pending : List (CoTimer (τ × BitVec 32))) (v : State τ β),
      s.ioView.SameWaits v.ioView → s.ioView.SameWaits (pending.foldl ioTimeout v).ioView :=
    fun pending v hv => List.foldlRecOn (motive := fun v : State τ β => s.ioView.SameWaits v.ioView)
      pending ioTimeout hv fun v hv c _ => hv.trans (sameWaits_ioTimeout v c)
  have htimeouts : s.ioView.SameWaits (({ s with
      io := (epollWait (s.io.collectTimers nows) readEvs writeEvs).1 } : State τ β).cancelAll
        (epollWait (s.io.collectTimers nows) readEvs writeEvs).2).runTimeouts.ioView :=
    hrun _ _ ⟨hcancel.sub, hcancel.timer, hcancel.hook⟩
  exact ⟨htimeouts.sub, htimeouts.timer, htimeouts.hook⟩

/-- The hooked call that ends does not cancel a timer that is stored: it has none, its timer
has expired, or nothing is stored. -/
def CancelsNoStored (s : State τ β) : Act τ β → Prop
  | .leaveHook => ∀ tk ∈ s.atTurn .running, ∀ h ∈ s.hook tk, h.cancelsTimer →
      ∀ timer ∈ (s.io.task tk).ioBlockTimer_, s.timers.active_ timer.id_ → timer ∉ s.ioView.ioTimers
  | _ => True

omit [DecidableEq β] in
/-- **The end of a hooked call** leaves a timer behind if it cancels one that is stored. -/
theorem leaveHook_allInWait {hk : Hook} (htk : tk ∈ s.q.created) (h : s.ioView.Stored s.io.timeoutList_)
    (hall : s.ioView.AllInWait) (hhook : s.hook tk = some hk) :
    (s.leaveHook tk hk).ioView.AllInWait ↔ (hk.cancelsTimer → ∀ timer ∈ (s.io.task tk).ioBlockTimer_,
      s.timers.active_ timer.id_ → timer ∉ s.ioView.ioTimers) := by
  rcases s.leaveHook_ioView tk hk with ⟨hdead, heq⟩ | ⟨timer, hcancels, htimer, hact, heq⟩
  · rw [hall.unhook (s.leaveHook tk hk).ioView (by rw [heq]; rfl) (fun _ => by rw [heq])
      (by rw [heq]; rfl)]
    refine iff_of_true ?_ fun hcancels timer ht ha => ?_
    · rintro c hc rfl
      have hactive := h.inWait c hc (hall c hc)
      have hcancels := (h.active c (mem_append_left _ hc) hactive).2 hk hhook
      have hoff : s.timers.active_ c.id_ = false := hdead hcancels c (hall c hc).1
      cases hoff.symm.trans hactive
    · cases (hdead hcancels timer ht).symm.trans ha
  · have hdec := sameTimers_decrementRef s.io tk
    rw [hall.unhook (s.leaveHook tk hk).ioView
      (by rw [heq]; exact congrArg (fun mgr => mgr.deadlines_.map Prod.snd) hdec.mgr)
      (fun t => by rw [heq]; exact hdec.timer t) (by rw [heq]; rfl)]
    constructor
    · intro hne _ timer' ht' _ hstored
      exact hne timer' hstored (h.own tk htk timer' ht').1
    · rintro hno c hc rfl
      exact hno hcancels c (hall c hc).1 (h.inWait c hc (hall c hc)) hc

/-- **Every other step** keeps all stored timers with waits in progress. -/
theorem step_allInWait {a : Act τ β} (ha : a ≠ .leaveHook) (hown : s.OwnedAt U loc) (hturns : s.Turns)
    (h : s.ioView.Stored s.io.timeoutList_) (hall : s.ioView.AllInWait) (hst : s.step a = some u) :
    u.ioView.AllInWait := by
  suffices hview : ∀ v : IoView τ, IoStep s a v → v.AllInWait from hview _ (step_io hown hst)
  intro v hv
  cases hv with
  | same => exact hall
  | @coSwitch tk hk fdsts ms hcur =>
    obtain ⟨-, hhook⟩ := userTask_eq_some hcur
    refine hall.reset (fun t ht => Function.update_of_ne ht ..) fun c hc heq => ?_
    have hsome : (s.hook c.fn_.1).isSome := (hall c hc).2
    rw [heq, hhook] at hsome
    cases hsome
  | endWait => exact absurd rfl ha
  | cancelTimer => exact absurd rfl ha
  | @ioSwitch tk now hleft hstate =>
    obtain ⟨hnone, hk, hhook, -⟩ := hturns.ioBlock _ hleft hstate
    have hreg := sameTimers_register s.io tk
    rcases ioSchedulerSwitch_ioView (hown.notMem_ioWait hleft) now with heq | ⟨-, heq⟩
    · rw [heq]
      exact hall.mono (.of_sameTimers (hreg.trans (sameTimers_decrementRef _ tk)) rfl)
    · rw [heq]
      have hwait : { s.ioView with io := (s.io.register tk).1 }.AllInWait :=
        hall.mono (.of_sameTimers hreg rfl)
      have hset := hwait.setTimer ((hreg.timer tk).trans hnone) (Option.isSome_of_mem hhook)
        ⟨s.timers.sId + 1, (tk, ((s.io.register tk).1.task tk).ioBlockId_),
          now + ((s.io.register tk).1.task tk).ioBlockTimeout_⟩ rfl
      exact hset.mono (.of_sameTimers (sameTimers_decrementRef _ tk) rfl)
  | sleepSwitch => exact hall
  | finish hfin =>
    exact hall.mono (.of_sameTimers (sameTimers_decrementRef s.io _) rfl)
  | doEpoll => exact hall.mono (sameWaits_ioWaitLoop s ..)
  | doTimer => exact hall
  | doSleep => exact hall
  | @createTask tk id hnew =>
    refine hall.reset (fun _ _ => rfl) fun c hc heq => ?_
    exact hnew (heq ▸ (h.old c (mem_append_left _ hc)).2.2)
  | expireAt => exact hall
  | openFd => exact hall
  | closeFd => exact hall

/-- **The entries of `IoWait::timer_mgr_`.**  In every state of a run they are all timers of
waits in progress, if and only if no hooked call of the run cancels a timer that is still
stored: a hook that cancels the timer of its wait leaves it in the manager. -/
theorem ioTimers_inWait_iff (h0 : Init s) (acts : List (Act τ β)) :
    Along step (fun s => s.ioView.AllInWait) s acts ↔ StepsOk step CancelsNoStored s acts := by
  have hmgr : s.ioView.ioTimers = [] := by
    simp [IoView.ioTimers, ioView, h0.ioTimerMgr, CoTimerMgr.new]
  refine along_iff_stepsOk (Reach Init step) (fun s s' a hs hst => hs.next trivial hst)
    (fun s s' a hs hall hst => ?_) (.start h0) (fun c hc => ?_) acts
  · obtain ⟨loc, hown⟩ := reach_owned s hs
    have hstored := reach_stored s hs
    by_cases ha : a = .leaveHook
    · subst ha
      obtain ⟨tk, hcur, hst⟩ := Option.bind_eq_some_iff.mp hst
      obtain ⟨hk, hhook, rfl⟩ := Option.map_eq_some_iff.mp hst
      have htk : tk ∈ s.q.created := Queues.Owned.created hown (hown.unfinished_of_turn hcur)
      rw [leaveHook_allInWait htk hstored hall hhook]
      constructor
      · rintro hno tk' htk' hk' hhk'
        obtain rfl := Option.some_inj.mp (hcur.symm.trans htk')
        obtain rfl := Option.some_inj.mp (hhook.symm.trans hhk')
        exact hno
      · exact fun hno => hno tk hcur hk hhook
    · refine iff_of_true (step_allInWait ha hown (reach_turns s hs) hstored hall hst) ?_
      cases a with
      | leaveHook => exact absurd rfl ha
      | _ => trivial
  · rw [hmgr] at hc
    cases hc

/-- Task 1 reads from descriptor 6 with a time-out. -/
def timedRead : List (Act ℕ Unit) :=
  [.createTask 1 0, .run 1, .nextProc, .resume, .enterHook (.readWrite 6 EPOLLIN 1000), .switch 0]

/-- The descriptor becomes ready at once, and the task goes on. -/
def readReturns : List (Act ℕ Unit) :=
  [.endPass, .endRunnable, .doEpoll [] [(6, EPOLLIN)] [], .doTimer 0, .doSleep 0, .run 1, .nextProc,
    .resume, .leaveHook]

def runFrom (acts : List (Act ℕ Unit)) : Option (State ℕ Unit) :=
  exec step (start fun fd => if fd = 6 then .pollable else .closed) acts

/-- `WaitLoop` is called when the time-out has passed. -/
def readExpires : State ℕ Unit := (runFrom (timedRead ++ [.endPass, .endRunnable])).get rfl

/-- It has collected the timer. -/
def readExpired : State ℕ Unit :=
  { readExpires with
    io := { readExpires.io with
      timerMgr_ := (readExpires.io.timerMgr_.getExpired 1000 128).2
      timeoutList_ := (readExpires.io.timerMgr_.getExpired 1000 128).1 } }

theorem step_readExpires : readExpires.step (.doEpoll [1000, 1000] [] [])
    = some { readExpired.ioWaitLoop [1000] [] [] with phase := .doTimer } := by
  have hone : (readExpires.io.timerMgr_.getExpired 1000 128).1.length = 1 := rfl
  have hcollect : readExpires.io.collectTimers [1000, 1000] = readExpired.io.collectTimers [1000] :=
    collectTimers_first rfl (ne_nil_of_length_eq_add_one hone) [1000]
  have hloop : readExpires.ioWaitLoop [1000, 1000] [] [] = readExpired.ioWaitLoop [1000] [] [] := by
    rw [ioWaitLoop, hcollect]
    rfl
  show some ({ readExpires.ioWaitLoop [1000, 1000] [] [] with phase := .doTimer } : State ℕ Unit) = _
  rw [hloop]

/-- The callback has woken the task, which is resumed. -/
def readResumed : State ℕ Unit :=
  (exec step { readExpired.ioWaitLoop [1000] [] [] with phase := .doTimer }
    [.doTimer 1000, .doSleep 1000, .run 1, .nextProc, .resume]).get rfl

theorem ioTimers_inWait_timesOut : (readResumed.step .leaveHook).isSome ∧
    Along step (fun s => s.ioView.AllInWait) (start fun fd => if fd = 6 then .pollable else .closed)
      (timedRead ++ [.endPass, .endRunnable] ++ .doEpoll [1000, 1000] [] [] ::
        ([.doTimer 1000, .doSleep 1000, .run 1, .nextProc, .resume] ++ [.leaveHook])) := by
  refine ⟨rfl, (ioTimers_inWait_iff (init_start _) _).mpr ?_⟩
  have hstart : exec step (start fun fd => if fd = 6 then .pollable else .closed)
      (timedRead ++ [.endPass, .endRunnable]) = some readExpires := rfl
  have hresume : exec step { readExpired.ioWaitLoop [1000] [] [] with phase := .doTimer }
      [.doTimer 1000, .doSleep 1000, .run 1, .nextProc, .resume] = some readResumed := rfl
  refine .append hstart (stepsOk_of_forall (by simp [timedRead, CancelsNoStored]) _) ?_
  refine .cons step_readExpires trivial ?_
  refine .append hresume (stepsOk_of_forall (by simp [CancelsNoStored]) _) fun s' _ => ⟨?_, trivial⟩
  -- the timer of the read is no longer active
  intro tk htk h _ _ timer htimer hact
  obtain rfl : tk = 1 := Option.some_inj.mp htk.symm
  obtain rfl : timer = ⟨1, (1, 1), 1000⟩ := Option.some_inj.mp htimer.symm
  cases hact

/-- The read has returned and its timer is cancelled, but still stored. -/
theorem cancelled_stays_stored : ∃ (s : State ℕ Unit) (c : CoTimer (ℕ × BitVec 32)),
    Reach Init step s ∧ (s.io.task 1).ioBlockTimer_ = some c ∧ s.timers.active_ c.id_ = false ∧
    s.hook 1 = none ∧ s.ioView.ioTimers = [c] := by
  have hrun : runFrom (timedRead ++ readReturns)
      = some ((runFrom (timedRead ++ readReturns)).get rfl) := rfl
  have hreach : Reach Init step ((runFrom (timedRead ++ readReturns)).get rfl) :=
    reach_exec _ (.start (init_start _)) hrun
  exact ⟨_, ⟨1, (1, 1), 1000⟩, hreach, rfl, rfl, rfl, rfl⟩

end State

end Scheduler
