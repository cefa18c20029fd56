/-
The references of tasks in io waits.

A task holds one reference until it is done, one for each registration, and one for
its timer until the callback has run or the hook has cancelled it.  The descriptors
of the process stay as they are.

* `IoView.Ledger` — the accounts: which timer is whose, and what each reference is for;
* `State.step_ledger` — every step keeps them;
* `State.references_balance` — `ref_count_` in every reachable state, and how a task
  comes into `s_delete_list`.
-/
import CppFeatures.IoRegistrations

namespace IoState

variable {τ : Type*} [DecidableEq τ] {io io' io'' : IoState τ} {waiting : List τ} {tk : τ}

/-! ### Descriptors that stay as they are -/

/-- A descriptor that a waiting task lists is registered, unless epoll does not take it. -/
def Covered (io : IoState τ) (waiting : List τ) : Prop :=
  ∀ u ∈ waiting, ∀ p ∈ io.keys u, io.kernel.status p.2 = .pollable →
    ∃ r ∈ io.kernel.epoll p.1, r.fd = p.2

omit [DecidableEq τ] in
/-- Then no wait can take it from the task. -/
theorem Covered.noneTakes (h : io.Covered waiting) (tk : τ) : io.NoneTakes waiting tk := by
  intro f _ hadd u hu hkey
  obtain ⟨r, hr, hfd⟩ := h u hu f.key hkey hadd.2
  exact hadd.1 r hr hfd

omit [DecidableEq τ] in
theorem Covered.congr (h : io.Covered waiting) (hs : SameWaits waiting io io')
    (hst : io'.kernel.status = io.kernel.status) : io'.Covered waiting := by
  intro u hu p hp hpoll
  rw [hs.keys u hu] at hp
  rw [hst] at hpoll
  rw [hs.epoll]
  exact h u hu p hp hpoll

theorem Covered.clearFds (h : io.Covered waiting) (hreg : io.Registered waiting)
    (hnodup : waiting.Nodup) (hmem : tk ∈ waiting) :
    (io.clearFds tk (io.task tk).ioBlockId_).Covered (waiting.erase tk) := by
  obtain ⟨hbal, -, hiff⟩ := hreg.clearFds_spec hmem
  intro u hu p hp hpoll
  obtain ⟨hne, hu⟩ := hnodup.mem_erase_iff.mp hu
  rw [hbal.keys_eq] at hp
  rw [hbal.status] at hpoll
  obtain ⟨r, hr, hfd⟩ := h u hu p hp hpoll
  have hp' : p = (p.1, r.fd) := by rw [hfd]
  refine ⟨r, (hiff _ r).mpr ⟨hr, fun hk => hne ?_⟩, hfd⟩
  -- an entry that both list is of both
  have hu' := hreg.alone _ r hr u hu (hp' ▸ hp)
  have htk := hreg.alone _ r hr tk hmem hk
  exact hu'.trans htk.symm

theorem Covered.register (h : io.Covered waiting) (hreg : io.Registered waiting) :
    (io.register tk).1.Covered (if (io.register tk).2 then waiting ++ [tk] else waiting) := by
  obtain ⟨hbal, hadded⟩ := register_spec hreg.unique tk
  have hkeys : ∀ t, (io.register tk).1.keys t = io.keys t := fun t => by
    rw [hbal.keys_eq, keys_incrementRef]
  have hst : (io.register tk).1.kernel.status = io.kernel.status := hbal.status
  cases hok : (io.register tk).2 with
  | false =>
    rw [hok] at hadded
    rw [if_neg (by simp)]
    intro u hu p hp hpoll
    rw [hkeys] at hp
    rw [hst] at hpoll
    obtain ⟨r, hr, hfd⟩ := h u hu p hp hpoll
    exact ⟨r, (hadded.2 _ r).mpr hr, hfd⟩
  | true =>
    rw [hok] at hadded
    obtain ⟨rb, hadd⟩ := hadded
    rw [if_pos rfl]
    intro u hu p hp hpoll
    rw [hkeys] at hp
    rcases List.mem_append.mp hu with hu | hu
    · rw [hst] at hpoll
      obtain ⟨r, hr, hfd⟩ := h u hu p hp hpoll
      exact ⟨r, hadd.old _ r hr, hfd⟩
    · obtain rfl := List.mem_singleton.mp hu
      obtain ⟨f, hf, rfl⟩ := List.mem_map.mp hp
      exact hadd.covered f hf hpoll

/-! ### Changes that keep the accounts -/

/-- The timers that `IoWait` will still call. -/
def storedTimers (io : IoState τ) : List (CoTimer (τ × BitVec 32)) :=
  io.timerMgr_.deadlines_.map Prod.snd ++ io.timeoutList_

/-- References, timers and the delete list are the same. -/
structure SameRefs (io io' : IoState τ) : Prop where
  slack : ∀ t, io'.slack t = io.slack t
  timer : ∀ t, (io'.task t).ioBlockTimer_ = (io.task t).ioBlockTimer_
  lists : ∀ t, (io'.sDeleteList ++ io'.deleted).count t = (io.sDeleteList ++ io.deleted).count t
  stored : ∀ c ∈ io'.storedTimers, c ∈ io.storedTimers
  status : io'.kernel.status = io.kernel.status

theorem SameRefs.refl (io : IoState τ) : SameRefs io io :=
  ⟨fun _ => rfl, fun _ => rfl, fun _ => rfl, fun _ h => h, rfl⟩

theorem SameRefs.trans (h : SameRefs io io') (h' : SameRefs io' io'') : SameRefs io io'' where
  slack t := (h'.slack t).trans (h.slack t)
  timer t := (h'.timer t).trans (h.timer t)
  lists t := (h'.lists t).trans (h.lists t)
  stored c hc := h.stored c (h'.stored c hc)
  status := h'.status.trans h.status

theorem Balanced.sameRefs (h : Balanced tk io io') (hpos : 0 < io.slack tk) : SameRefs io io' where
  slack := h.slack
  timer t := by rw [h.task t]
  lists t := by rw [h.sDeleteList hpos, h.deleted]
  stored c hc := by rwa [storedTimers, h.timerMgr, h.timeoutList] at hc
  status := h.status

theorem collectTimers_sameRefs (nows : List ℤ) : SameRefs io (io.collectTimers nows) := by
  induction nows generalizing io with
  | nil => exact .refl io
  | cons now nows ih =>
    rw [collectTimers]
    dsimp only
    split_ifs
    · exact .refl io
    · refine SameRefs.trans ?_ ih
      refine ⟨fun _ => rfl, fun _ => rfl, fun _ => rfl, fun c hc => ?_, rfl⟩
      have happ := io.timerMgr_.getExpired_append now 128
      rw [storedTimers, ← happ]
      simp only [storedTimers, List.mem_append, List.mem_merge] at hc ⊢
      tauto

theorem slack_decrementRef (io : IoState τ) (tk t : τ) :
    (io.decrementRef tk).slack t = io.slack t - if t = tk then 1 else 0 := by
  rw [decrementRef_eq]
  by_cases ht : t = tk
  · subst ht
    simp only [IoState.slack, modifyTask, Function.update_self, registrations, if_true]
    omega
  · simp [IoState.slack, modifyTask, registrations, ht]

theorem ioBlockTimer_decrementRef (io : IoState τ) (tk t : τ) :
    ((io.decrementRef tk).task t).ioBlockTimer_ = (io.task t).ioBlockTimer_ := by
  rw [decrementRef_eq]
  by_cases ht : t = tk
  · subst ht
    simp [modifyTask]
  · simp [modifyTask, ht]

theorem decrementRef_rest (io : IoState τ) (tk : τ) : (io.decrementRef tk).deleted = io.deleted ∧
    (io.decrementRef tk).storedTimers = io.storedTimers ∧
    (io.decrementRef tk).kernel.status = io.kernel.status := by
  rw [decrementRef_eq]
  exact ⟨rfl, rfl, rfl⟩

/-- A reference that is not the last one. -/
theorem sDeleteList_decrementRef (h : 1 < io.slack tk) :
    (io.decrementRef tk).sDeleteList = io.sDeleteList := by
  have hcount := io.refCount_eq tk
  have hne : (io.task tk).refCount_ ≠ 1 := by omega
  rw [decrementRef_eq]
  exact if_neg hne

theorem slack_incrementRef (io : IoState τ) (tk t : τ) :
    (io.incrementRef tk).slack t = io.slack t + if t = tk then 1 else 0 := by
  by_cases ht : t = tk
  · subst ht
    simp only [IoState.slack, incrementRef, modifyTask, Function.update_self, registrations, if_true]
    omega
  · simp [IoState.slack, incrementRef, modifyTask, registrations, ht]

theorem ioBlockTimer_incrementRef (io : IoState τ) (tk t : τ) :
    ((io.incrementRef tk).task t).ioBlockTimer_ = (io.task t).ioBlockTimer_ := by
  by_cases ht : t = tk
  · subst ht
    simp [incrementRef, modifyTask]
  · simp [incrementRef, modifyTask, ht]

/-- `SchedulerSwitch` without a timer; the reference of `ref_guard` is given back. -/
theorem register_sameRefs (hreg : io.Registered waiting) (hpos : 0 < io.slack tk) :
    1 < (io.register tk).1.slack tk ∧ SameRefs io ((io.register tk).1.decrementRef tk) := by
  obtain ⟨hbal, -⟩ := register_spec hreg.unique tk
  have hinc : 0 < (io.incrementRef tk).slack tk := by
    rw [slack_incrementRef, if_pos rfl]
    omega
  have hs := hbal.sameRefs hinc
  obtain ⟨hdel, hst, hstatus⟩ := (io.register tk).1.decrementRef_rest tk
  have hguard : 1 < (io.register tk).1.slack tk := by
    rw [hs.slack, slack_incrementRef, if_pos rfl]
    omega
  refine ⟨hguard, fun t => ?_, fun t => ?_, fun t => ?_, fun c hc => ?_, hstatus.trans hs.status⟩
  · rw [slack_decrementRef, hs.slack, slack_incrementRef]
    omega
  · rw [ioBlockTimer_decrementRef, hs.timer, ioBlockTimer_incrementRef]
  · rw [sDeleteList_decrementRef hguard, hdel]
    exact hs.lists t
  · rw [hst] at hc
    exact hs.stored c hc

/-- The guard's reference may as well be given back before the timer is set. -/
theorem setTimer_decrementRef (h : 1 < io.slack tk) (c : CoTimer (τ × BitVec 32)) :
    (io.setTimer tk c).decrementRef tk = (io.decrementRef tk).setTimer tk c := by
  have hcount := io.refCount_eq tk
  have hne : (io.task tk).refCount_ ≠ 1 := by omega
  have hne' : ((io.setTimer tk c).task tk).refCount_ ≠ 1 := by
    simp only [setTimer, incrementRef, modifyTask, Function.update_self]
    omega
  rw [decrementRef_eq, decrementRef_eq, if_neg hne, if_neg hne']
  simp [setTimer, incrementRef, modifyTask]

theorem mem_storedTimers_setTimer {c c' : CoTimer (τ × BitVec 32)} :
    c' ∈ (io.setTimer tk c).storedTimers ↔ c' = c ∨ c' ∈ io.storedTimers := by
  have hperm := CoTimerMgr.insertDeadline_perm io.timerMgr_.deadlines_ (c.nextTimePoint_, c)
  have hmem : c' ∈ (io.setTimer tk c).timerMgr_.deadlines_.map Prod.snd ↔
      c' = c ∨ c' ∈ io.timerMgr_.deadlines_.map Prod.snd := by
    have hmap := (hperm.map Prod.snd).mem_iff (a := c')
    rw [List.map_cons, List.mem_cons] at hmap
    exact hmap
  rw [storedTimers, storedTimers, List.mem_append, List.mem_append, hmem, or_assoc]
  rfl

theorem slack_setTimer (io : IoState τ) (tk t : τ) (c : CoTimer (τ × BitVec 32)) :
    (io.setTimer tk c).slack t = io.slack t + if t = tk then 1 else 0 := by
  rw [← slack_incrementRef]
  by_cases ht : t = tk
  · subst ht
    simp [IoState.slack, setTimer, modifyTask, registrations]
  · simp [IoState.slack, setTimer, modifyTask, registrations, ht]

theorem ioBlockTimer_setTimer (io : IoState τ) (tk t : τ) (c : CoTimer (τ × BitVec 32)) :
    ((io.setTimer tk c).task t).ioBlockTimer_
      = if t = tk then some c else (io.task t).ioBlockTimer_ := by
  by_cases ht : t = tk
  · subst ht
    simp [setTimer, modifyTask]
  · simp [setTimer, incrementRef, modifyTask, ht]

/-- A change to a task that leaves its references alone. -/
theorem sameRefs_modifyTask {f : IoTask τ → IoTask τ}
    (href : (f (io.task tk)).refCount_ = (io.task tk).refCount_)
    (htimer : (f (io.task tk)).ioBlockTimer_ = (io.task tk).ioBlockTimer_) :
    SameRefs io (io.modifyTask tk f) := by
  refine ⟨fun t => ?_, fun t => ?_, fun _ => rfl, fun _ h => h, rfl⟩ <;> by_cases ht : t = tk
  · subst ht
    simpa [IoState.slack, modifyTask, registrations] using href
  · simp [IoState.slack, modifyTask, registrations, ht]
  · subst ht
    simpa [modifyTask] using htimer
  · simp [modifyTask, ht]

theorem epollEvent_sameRefs (e : EpollType) (ev : ℤ × BitVec 32) :
    SameRefs io (io.epollEvent e ev).1 := by
  rw [epollEvent]
  split
  · exact .refl io
  · dsimp only
    exact sameRefs_modifyTask rfl rfl

end IoState

namespace Scheduler

open List IoState

variable {τ β : Type*} [LinearOrder τ] [DecidableEq β]

/-! ### The accounts -/

namespace IoView

variable {v : IoView τ} {U : Finset τ} {tk t : τ}

/-- The io timer of a task has neither been called nor cancelled. -/
def live (v : IoView τ) (t : τ) : Bool :=
  (v.io.task t).ioBlockTimer_.any fun c => v.timers.active_ c.id_

/-- The timers of sleeps and of the user. -/
def otherIds (v : IoView τ) : List ℕ :=
  v.sleepTimerMgr_.deadlines_.map (fun d => d.2.id_) ++ v.timerMgr_.deadlines_.map fun d => d.2.id_

/-- An io timer that is still active is that of its task. -/
def OwnTimer (v : IoView τ) (c : CoTimer (τ × BitVec 32)) : Prop :=
  c.id_ ≤ v.timers.sId ∧
    (v.timers.active_ c.id_ = true → c.fn_.1 ∈ v.created ∧ (v.io.task c.fn_.1).ioBlockTimer_ = some c)

/-- Which timer is whose. -/
structure Timers (v : IoView τ) : Prop where
  old : ∀ t ∈ v.created, ∀ c ∈ (v.io.task t).ioBlockTimer_, c.id_ ≤ v.timers.sId
  distinct : ∀ t ∈ v.created, ∀ t' ∈ v.created, ∀ c ∈ (v.io.task t).ioBlockTimer_,
    ∀ c' ∈ (v.io.task t').ioBlockTimer_, c.id_ = c'.id_ → t = t'
  others : ∀ n ∈ v.otherIds, n ≤ v.timers.sId
  apart : ∀ t ∈ v.created, ∀ c ∈ (v.io.task t).ioBlockTimer_, c.id_ ∉ v.otherIds
  stored : ∀ c ∈ v.io.storedTimers, v.OwnTimer c

/-- What the references are for; `U` are the unfinished tasks. -/
structure Refs (v : IoView τ) (U : Finset τ) : Prop where
  slack : ∀ t ∈ v.created, v.io.slack t = (if t ∈ U then 1 else 0) + if v.live t then 1 else 0
  lists : ∀ t, (v.io.sDeleteList ++ v.io.deleted).count t = if t ∈ v.created ∧ t ∉ U then 1 else 0
  -- a live timer is waited for by a hook that will cancel it
  hooked : ∀ t ∈ v.created, v.live t → ∃ h ∈ v.hook t, h.cancelsTimer
  inHook : ∀ t, v.hook t ≠ none → t ∈ U

/-- **The accounts of io waits.** -/
structure Ledger (v : IoView τ) (U : Finset τ) : Prop where
  registered : v.io.Registered v.ioWaitTasks_
  covered : v.io.Covered v.ioWaitTasks_
  nodup : v.ioWaitTasks_.Nodup
  waiting : ∀ t ∈ v.ioWaitTasks_, t ∈ U
  created : U ⊆ v.created
  timers : v.Timers
  refs : v.Refs U

omit [LinearOrder τ] in
theorem live_eq_true : v.live t = true ↔
    ∃ c ∈ (v.io.task t).ioBlockTimer_, v.timers.active_ c.id_ = true := by
  rw [live]
  cases (v.io.task t).ioBlockTimer_ <;> simp

omit [LinearOrder τ] in
/-- Timers may be called, cancelled and forgotten. -/
theorem Timers.mono {v' : IoView τ} (h : v.Timers) (hc : v'.created = v.created)
    (ht : ∀ t, (v'.io.task t).ioBlockTimer_ = (v.io.task t).ioBlockTimer_)
    (hid : v'.timers.sId = v.timers.sId)
    (hact : ∀ n, v'.timers.active_ n = true → v.timers.active_ n = true)
    (hothers : ∀ n ∈ v'.otherIds, n ∈ v.otherIds)
    (hstored : ∀ c ∈ v'.io.storedTimers, c ∈ v.io.storedTimers) : v'.Timers where
  old := by
    simp only [hc, ht, hid]
    exact h.old
  distinct := by
    simp only [hc, ht]
    exact h.distinct
  others n hn := hid ▸ h.others n (hothers n hn)
  apart t := by
    simp only [hc, ht]
    exact fun hmem c hcm hn => h.apart t hmem c hcm (hothers _ hn)
  stored c hcm := by
    obtain ⟨hle, hown⟩ := h.stored c (hstored c hcm)
    rw [OwnTimer, hid, hc, ht]
    exact ⟨hle, fun ha => hown (hact _ ha)⟩

/-- A task without a live timer gets a new record without one. -/
theorem Timers.reset (h : v.Timers) (hdead : t ∈ v.created → v.live t = false)
    {f : IoTask τ → IoTask τ} (hf : (f (v.io.task t)).ioBlockTimer_ = none) {cr : Finset τ}
    (hcr : ∀ t', t' ≠ t → (t' ∈ cr ↔ t' ∈ v.created)) (hmono : v.created ⊆ cr) :
    { v with created := cr, io := v.io.modifyTask t f }.Timers := by
  have hnone : ((v.io.modifyTask t f).task t).ioBlockTimer_ = none := by
    simpa [modifyTask] using hf
  have hother : ∀ t', t' ≠ t → (v.io.modifyTask t f).task t' = v.io.task t' := fun t' ht => by
    simp [modifyTask, ht]
  -- a task with a timer is another one
  have hne : ∀ t' c, c ∈ ((v.io.modifyTask t f).task t').ioBlockTimer_ → t' ≠ t := by
    rintro t' c hcm rfl
    simp [hnone] at hcm
  have hback : ∀ t' ∈ cr, ∀ c ∈ ((v.io.modifyTask t f).task t').ioBlockTimer_,
      t' ∈ v.created ∧ c ∈ (v.io.task t').ioBlockTimer_ := fun t' ht' c hcm =>
    ⟨(hcr t' (hne t' c hcm)).mp ht', hother t' (hne t' c hcm) ▸ hcm⟩
  refine ⟨fun t' ht' c hcm => ?_, fun t₁ h₁ t₂ h₂ c hc₁ c' hc₂ heq => ?_, h.others,
    fun t' ht' c hcm => ?_, fun c hcm => ?_⟩
  · obtain ⟨h₁, h₂⟩ := hback t' ht' c hcm
    exact h.old t' h₁ c h₂
  · obtain ⟨h₁, hc₁⟩ := hback t₁ h₁ c hc₁
    obtain ⟨h₂, hc₂⟩ := hback t₂ h₂ c' hc₂
    exact h.distinct t₁ h₁ t₂ h₂ c hc₁ c' hc₂ heq
  · obtain ⟨h₁, h₂⟩ := hback t' ht' c hcm
    exact h.apart t' h₁ c h₂
  · obtain ⟨hle, hown⟩ := h.stored c hcm
    refine ⟨hle, fun ha => ?_⟩
    obtain ⟨hmem, htimer⟩ := hown ha
    have hct : c.fn_.1 ≠ t := by
      rintro rfl
      have hlive : v.live c.fn_.1 = true := live_eq_true.mpr ⟨c, htimer, ha⟩
      rw [hdead hmem] at hlive
      exact absurd hlive (by simp)
    exact ⟨hmono hmem, by
      show ((v.io.modifyTask t f).task c.fn_.1).ioBlockTimer_ = some c
      rw [hother _ hct]
      exact htimer⟩

omit [LinearOrder τ] in
/-- A new timer of a sleep or of the user. -/
theorem Timers.addOther {v' : IoView τ} (h : v.Timers) (hc : v'.created = v.created)
    (hio : v'.io = v.io) (htimers : v'.timers = v.timers.new)
    (hothers : ∀ n, n ∈ v'.otherIds ↔ n = v.timers.sId + 1 ∨ n ∈ v.otherIds) : v'.Timers where
  old t ht c hcm := by
    rw [hc] at ht
    rw [hio] at hcm
    rw [htimers]
    exact (h.old t ht c hcm).trans (Nat.le_succ _)
  distinct := by
    rw [hc, hio]
    exact h.distinct
  others n hn := by
    rw [htimers]
    rcases (hothers n).mp hn with rfl | hn
    · exact le_rfl
    · exact (h.others n hn).trans (Nat.le_succ _)
  apart t ht c hcm hn := by
    rw [hc] at ht
    rw [hio] at hcm
    rcases (hothers _).mp hn with heq | hn
    · have := h.old t ht c hcm
      omega
    · exact h.apart t ht c hcm hn
  stored c hcm := by
    rw [hio] at hcm
    obtain ⟨hle, hown⟩ := h.stored c hcm
    have hne : c.id_ ≠ v.timers.sId + 1 := by omega
    rw [OwnTimer, hc, hio, htimers]
    refine ⟨hle.trans (Nat.le_succ _), fun ha => hown ?_⟩
    simpa [TimerHeap.new, hne] using ha

omit [LinearOrder τ] in
/-- A new timer does not touch those of the tasks. -/
theorem Timers.live_new {v' : IoView τ} (h : v.Timers) (hio : v'.io = v.io)
    (htimers : v'.timers = v.timers.new) (ht : t ∈ v.created) : v'.live t = v.live t := by
  rw [live, live, hio, htimers]
  cases hc : (v.io.task t).ioBlockTimer_ with
  | none => rfl
  | some c =>
    have hle := h.old t ht c hc
    have hne : c.id_ ≠ v.timers.sId + 1 := by omega
    simp [TimerHeap.new, hne]

theorem Refs.congr {v' : IoView τ} (h : v.Refs U) (hc : v'.created = v.created)
    (hslack : ∀ t, v'.io.slack t = v.io.slack t)
    (hlists : ∀ t, (v'.io.sDeleteList ++ v'.io.deleted).count t
      = (v.io.sDeleteList ++ v.io.deleted).count t)
    (hlive : ∀ t ∈ v.created, v'.live t = v.live t) (hhook : v'.hook = v.hook) : v'.Refs U where
  slack t ht := by
    rw [hc] at ht
    rw [hslack, hlive t ht]
    exact h.slack t ht
  lists t := by
    rw [hlists, hc]
    exact h.lists t
  hooked t ht hl := by
    rw [hc] at ht
    rw [hlive t ht] at hl
    rw [hhook]
    exact h.hooked t ht hl
  inHook := hhook ▸ h.inHook

/-- A change that keeps the accounts. -/
theorem Ledger.setIo (h : v.Ledger U) {io' : IoState τ} {waiting : List τ} (hs : SameRefs v.io io')
    (hreg : io'.Registered waiting) (hcov : io'.Covered waiting) (hnodup : waiting.Nodup)
    (hsub : ∀ t ∈ waiting, t ∈ U) : { v with io := io', ioWaitTasks_ := waiting }.Ledger U where
  registered := hreg
  covered := hcov
  nodup := hnodup
  waiting := hsub
  created := h.created
  timers := h.timers.mono rfl hs.timer rfl (fun _ h => h) (fun _ h => h) hs.stored
  refs := h.refs.congr rfl hs.slack hs.lists (fun t _ => by simp only [live, hs.timer]) rfl

theorem Ledger.slack_pos (h : v.Ledger U) (ht : t ∈ U) : 0 < v.io.slack t := by
  rw [h.refs.slack t (h.created ht), if_pos ht]
  split_ifs <;> omega

/-- A waiting task whose descriptors are cleared. -/
theorem Ledger.clearFds (h : v.Ledger U) (hmem : tk ∈ v.ioWaitTasks_) :
    { v with
      io := v.io.clearFds tk (v.io.task tk).ioBlockId_
      ioWaitTasks_ := v.ioWaitTasks_.erase tk }.Ledger U := by
  obtain ⟨hbal, -, -⟩ := h.registered.clearFds_spec hmem
  exact h.setIo (hbal.sameRefs (h.slack_pos (h.waiting tk hmem))) (h.registered.clearFds hmem)
    (h.covered.clearFds h.registered h.nodup hmem) (h.nodup.erase tk)
    fun t ht => h.waiting t (mem_of_mem_erase ht)

/-- The timer of a task in a hook is called or cancelled, with its reference. -/
theorem Ledger.dropTimer (h : v.Ledger U) (ht : t ∈ v.created) {c : CoTimer (τ × BitVec 32)}
    (hc : (v.io.task t).ioBlockTimer_ = some c) (hact : v.timers.active_ c.id_ = true) :
    { v with
      io := v.io.decrementRef t
      timers := (v.timers.deactivate c.id_).1 }.Ledger U := by
  have hlive : v.live t = true := live_eq_true.mpr ⟨c, hc, hact⟩
  obtain ⟨hk, hhook, -⟩ := h.refs.hooked t ht hlive
  have htU : t ∈ U := h.refs.inHook t (by simp [Option.mem_def.mp hhook])
  have hslack := h.refs.slack t ht
  rw [if_pos htU, if_pos hlive] at hslack
  obtain ⟨hdel, hst, hstatus⟩ := v.io.decrementRef_rest t
  have hsame : SameWaits v.ioWaitTasks_ v.io (v.io.decrementRef t) := sameWaits_decrementRef
  have hoff : ∀ n, (v.timers.deactivate c.id_).1.active_ n = true → v.timers.active_ n = true := by
    intro n hn
    by_cases h0 : n = c.id_
    · rwa [h0]
    · simpa [TimerHeap.deactivate, h0] using hn
  have hself : ((v.io.decrementRef t).task t).ioBlockTimer_ = some c := by
    rw [ioBlockTimer_decrementRef, hc]
  -- the timers of other tasks have other ids
  have hother : ∀ t' ∈ v.created, t' ≠ t → { v with
      io := v.io.decrementRef t, timers := (v.timers.deactivate c.id_).1 }.live t' = v.live t' := by
    intro t' ht' hne
    simp only [live, ioBlockTimer_decrementRef]
    cases hc' : (v.io.task t').ioBlockTimer_ with
    | none => rfl
    | some c' =>
      have hid : c'.id_ ≠ c.id_ := fun h0 => hne (h.timers.distinct t' ht' t ht c' hc' c hc h0)
      simp [TimerHeap.deactivate, hid]
  have hdead : { v with
      io := v.io.decrementRef t, timers := (v.timers.deactivate c.id_).1 }.live t = false := by
    simp [live, hself, TimerHeap.deactivate]
  refine ⟨h.registered.congr hsame, h.covered.congr hsame hstatus, h.nodup, h.waiting, h.created,
    h.timers.mono rfl (v.io.ioBlockTimer_decrementRef t) rfl hoff (fun _ h => h)
      (fun _ hcm => hst ▸ hcm), ⟨fun t' ht' => ?_, fun t' => ?_, fun t' ht' hl => ?_, h.refs.inHook⟩⟩
  · rw [slack_decrementRef]
    by_cases h0 : t' = t
    · subst h0
      rw [hdead, hslack, if_pos rfl, if_pos htU]
      rfl
    · rw [hother t' ht' h0, if_neg h0, sub_zero]
      exact h.refs.slack t' ht'
  · rw [sDeleteList_decrementRef (by omega), hdel]
    exact h.refs.lists t'
  · by_cases h0 : t' = t
    · rw [h0, hdead] at hl
      exact absurd hl (by simp)
    · rw [hother t' ht' h0] at hl
      exact h.refs.hooked t' ht' hl

/-- The end of a hooked call. -/
theorem Ledger.unhook (h : v.Ledger U) (hdead : v.live t = false) :
    { v with hook := Function.update v.hook t none }.Ledger U := by
  refine ⟨h.registered, h.covered, h.nodup, h.waiting, h.created,
    h.timers.mono rfl (fun _ => rfl) rfl (fun _ h => h) (fun _ h => h) (fun _ h => h),
    h.refs.slack, h.refs.lists, fun t' ht' hl => ?_, fun t' hne => ?_⟩
  · have hne : t' ≠ t := by
      rintro rfl
      exact absurd hl (by simpa [live] using hdead)
    simpa [hne] using h.refs.hooked t' ht' hl
  · by_cases h0 : t' = t
    · subst h0
      simp at hne
    · exact h.refs.inHook t' (by simpa [h0] using hne)

/-- A change to the timers of sleeps and of the user. -/
theorem Ledger.setTimers (h : v.Ledger U) {timers : TimerHeap} {sleepMgr : CoTimerMgr τ}
    {userMgr : CoTimerMgr Unit}
    (ht : { v with timers := timers, sleepTimerMgr_ := sleepMgr, timerMgr_ := userMgr }.Timers)
    (hlive : ∀ t ∈ v.created,
      { v with timers := timers, sleepTimerMgr_ := sleepMgr, timerMgr_ := userMgr }.live t = v.live t) :
    { v with timers := timers, sleepTimerMgr_ := sleepMgr, timerMgr_ := userMgr }.Ledger U :=
  ⟨h.registered, h.covered, h.nodup, h.waiting, h.created, ht,
    h.refs.congr rfl (fun _ => rfl) (fun _ => rfl) hlive rfl⟩

omit [LinearOrder τ] in
theorem active_deactivateAll {F : Type*} (timers : List (CoTimer F)) (heap : TimerHeap) (n : ℕ) :
    (heap.deactivateAll timers).active_ n
      = (heap.active_ n && decide (n ∉ timers.map CoTimer.id_)) := by
  induction timers generalizing heap with
  | nil => simp [TimerHeap.deactivateAll]
  | cons timer timers ih =>
    have hstep : heap.deactivateAll (timer :: timers)
        = (heap.deactivate timer.id_).1.deactivateAll timers := rfl
    rw [hstep, ih]
    by_cases hn : n = timer.id_
    · simp [TimerHeap.deactivate, hn]
    · simp [TimerHeap.deactivate, hn]

omit [LinearOrder τ] in
theorem sId_deactivateAll {F : Type*} (timers : List (CoTimer F)) (heap : TimerHeap) :
    (heap.deactivateAll timers).sId = heap.sId :=
  List.foldlRecOn (motive := fun h' : TimerHeap => h'.sId = heap.sId) timers _ rfl
    fun _ hb _ _ => hb

/-- Timers of sleeps and of the user are called. -/
theorem Ledger.callOthers {F : Type*} (h : v.Ledger U) (timers : List (CoTimer F))
    {sleepMgr : CoTimerMgr τ} {userMgr : CoTimerMgr Unit}
    (hcalled : ∀ c ∈ timers, c.id_ ∈ v.otherIds)
    (hothers : ∀ n ∈ { v with sleepTimerMgr_ := sleepMgr, timerMgr_ := userMgr }.otherIds,
      n ∈ v.otherIds) :
    { v with
      timers := v.timers.deactivateAll timers
      sleepTimerMgr_ := sleepMgr
      timerMgr_ := userMgr }.Ledger U := by
  refine h.setTimers ?_ fun t ht => ?_
  · refine h.timers.mono rfl (fun _ => rfl) (sId_deactivateAll _ _) (fun n hn => ?_) hothers
      fun _ h => h
    rw [active_deactivateAll, Bool.and_eq_true] at hn
    exact hn.1
  · simp only [live, active_deactivateAll]
    cases hc : (v.io.task t).ioBlockTimer_ with
    | none => rfl
    | some c =>
      have hno : c.id_ ∉ timers.map CoTimer.id_ := by
        intro hmem
        obtain ⟨c', hc', heq⟩ := mem_map.mp hmem
        exact h.timers.apart t ht c hc (heq ▸ hcalled c' hc')
      simp only [Option.any_some, hno, not_false_eq_true, decide_true, Bool.and_true]

/-- A task starts a wait. -/
theorem Ledger.coSwitch (h : v.Ledger U) (htU : tk ∈ U) (hno : tk ∉ v.ioWaitTasks_)
    (hhook : v.hook tk = none) (hk : Hook) (fdsts : List FdStruct) (ms : ℤ) :
    { v with
      io := v.io.coSwitch tk fdsts ms
      hook := Function.update v.hook tk (some hk) }.Ledger U := by
  have hdead : v.live tk = false := by
    by_contra hl
    obtain ⟨h', hm, -⟩ := h.refs.hooked tk (h.created htU) (by simpa using hl)
    simp [hhook] at hm
  have hsame : SameWaits v.ioWaitTasks_ v.io (v.io.coSwitch tk fdsts ms) := sameWaits_of_notMem hno _
  have hlive : ∀ t, { v with
      io := v.io.coSwitch tk fdsts ms
      hook := Function.update v.hook tk (some hk) }.live t = v.live t := by
    intro t
    by_cases ht : t = tk
    · subst ht
      rw [hdead]
      simp [live, IoState.coSwitch, modifyTask]
    · simp [live, IoState.coSwitch, modifyTask, ht]
  have hslack : ∀ t, (v.io.coSwitch tk fdsts ms).slack t = v.io.slack t := by
    intro t
    by_cases ht : t = tk
    · subst ht
      simp [IoState.slack, IoState.coSwitch, modifyTask, registrations]
    · simp [IoState.slack, IoState.coSwitch, modifyTask, registrations, ht]
  have htimers : { v with created := v.created, io := v.io.coSwitch tk fdsts ms }.Timers :=
    h.timers.reset (fun _ => hdead) rfl (fun _ _ => .rfl) (Finset.Subset.refl _)
  refine ⟨h.registered.congr hsame, h.covered.congr hsame rfl, h.nodup, h.waiting, h.created,
    ⟨htimers.old, htimers.distinct, htimers.others, htimers.apart, htimers.stored⟩,
    fun t ht => ?_, h.refs.lists, fun t ht hl => ?_, fun t hne => ?_⟩
  · rw [hlive]
    exact (hslack t).trans (h.refs.slack t ht)
  · rw [hlive] at hl
    have hne : t ≠ tk := by
      rintro rfl
      rw [hdead] at hl
      exact absurd hl (by simp)
    simpa [hne] using h.refs.hooked t ht hl
  · by_cases ht : t = tk
    · rw [ht]
      exact htU
    · exact h.refs.inHook t (by simpa [ht] using hne)

/-- A new task. -/
theorem Ledger.createTask (h : v.Ledger U) (hnew : tk ∉ v.created) (id : BitVec 32) :
    { v with
      created := insert tk v.created
      io := v.io.modifyTask tk fun _ => { ioBlockId_ := id } }.Ledger (insert tk U) := by
  have htU : tk ∉ U := fun h0 => hnew (h.created h0)
  have hno : tk ∉ v.ioWaitTasks_ := fun h0 => htU (h.waiting tk h0)
  have hsame : SameWaits v.ioWaitTasks_ v.io (v.io.modifyTask tk fun _ => { ioBlockId_ := id }) :=
    sameWaits_of_notMem hno _
  have hzero : v.io.registrations tk = 0 :=
    registrations_eq_zero fun e r hr h0 => hno (h0 ▸ h.registered.waits e r hr)
  have hlive : ∀ t, t ≠ tk → { v with
      created := insert tk v.created
      io := v.io.modifyTask tk fun _ => { ioBlockId_ := id } }.live t = v.live t := by
    intro t ht
    simp [live, modifyTask, ht]
  refine ⟨h.registered.congr hsame, h.covered.congr hsame rfl, h.nodup,
    fun t ht => Finset.mem_insert_of_mem (h.waiting t ht), Finset.insert_subset_insert _ h.created,
    h.timers.reset (fun h0 => absurd h0 hnew) rfl (fun t ht => by simp [ht])
      (Finset.subset_insert _ _), fun t ht => ?_, fun t => ?_, fun t ht hl => ?_,
    fun t hne => Finset.mem_insert_of_mem (h.refs.inHook t hne)⟩
  · by_cases h0 : t = tk
    · subst h0
      have hslack : (v.io.modifyTask t fun _ => { ioBlockId_ := id }).slack t = 1 := by
        have hreg : (v.io.modifyTask t fun _ => { ioBlockId_ := id }).registrations t = 0 := hzero
        rw [IoState.slack, hreg]
        simp [modifyTask]
      rw [hslack]
      simp [live, modifyTask]
    · have hslack : (v.io.modifyTask tk fun _ => { ioBlockId_ := id }).slack t = v.io.slack t := by
        simp [IoState.slack, modifyTask, registrations, h0]
      rw [hslack, hlive t h0, h.refs.slack t ((Finset.mem_insert.mp ht).resolve_left h0)]
      simp [h0]
  · have hcount := h.refs.lists t
    refine hcount.trans ?_
    by_cases h0 : t = tk
    · subst h0
      simp [hnew]
    · simp [h0]
  · have h0 : t ≠ tk := by
      rintro rfl
      simp [live, modifyTask] at hl
    rw [hlive t h0] at hl
    exact h.refs.hooked t ((Finset.mem_insert.mp ht).resolve_left h0) hl

/-- A task is done: its last reference goes. -/
theorem Ledger.finish (h : v.Ledger U) (htU : tk ∈ U) (hno : tk ∉ v.ioWaitTasks_)
    (hhook : v.hook tk = none) : { v with io := v.io.decrementRef tk }.Ledger (U.erase tk) := by
  have hc := h.created htU
  have hdead : v.live tk = false := by
    by_contra hl
    obtain ⟨h', hm, -⟩ := h.refs.hooked tk hc (by simpa using hl)
    simp [hhook] at hm
  have hsame : SameWaits v.ioWaitTasks_ v.io (v.io.decrementRef tk) := sameWaits_decrementRef
  obtain ⟨hdel, hst, hstatus⟩ := v.io.decrementRef_rest tk
  have hslack := h.refs.slack tk hc
  rw [if_pos htU, hdead] at hslack
  have hlast : (v.io.task tk).refCount_ = 1 := by
    have hzero : v.io.registrations tk = 0 :=
      registrations_eq_zero fun e r hr h0 => hno (h0 ▸ h.registered.waits e r hr)
    rw [refCount_eq, hslack, hzero]
    rfl
  have hlist : (v.io.decrementRef tk).sDeleteList = v.io.sDeleteList ++ [tk] := by
    rw [decrementRef_eq]
    exact if_pos hlast
  have hlive : ∀ t, { v with io := v.io.decrementRef tk }.live t = v.live t := fun t => by
    simp only [live, ioBlockTimer_decrementRef]
  refine ⟨h.registered.congr hsame, h.covered.congr hsame hstatus, h.nodup, fun t ht => ?_,
    (Finset.erase_subset _ _).trans h.created,
    h.timers.mono rfl (v.io.ioBlockTimer_decrementRef tk) rfl (fun _ h => h) (fun _ h => h)
      (fun _ hcm => hst ▸ hcm), fun t ht => ?_, fun t => ?_, fun t ht hl => ?_, fun t hne => ?_⟩
  · exact Finset.mem_erase.mpr ⟨fun h0 => hno (h0 ▸ ht), h.waiting t ht⟩
  · rw [slack_decrementRef, hlive, h.refs.slack t ht]
    by_cases h0 : t = tk
    · subst h0
      simp [htU]
    · simp [h0]
  · have hcount := h.refs.lists t
    rw [count_append] at hcount
    rw [hlist, hdel, count_append, count_append]
    by_cases h0 : t = tk
    · subst h0
      rw [if_neg (by simp [htU])] at hcount
      rw [if_pos (by simp [hc])]
      simp only [count_singleton_self]
      omega
    · have hzero : [tk].count t = 0 := count_eq_zero.mpr (by simpa using h0)
      rw [hzero, add_zero, hcount]
      simp [h0]
  · rw [hlive] at hl
    exact h.refs.hooked t ht hl
  · refine Finset.mem_erase.mpr ⟨?_, h.refs.inHook t hne⟩
    rintro rfl
    exact hne hhook

/-- A wait is set up. -/
theorem Ledger.register (h : v.Ledger U) (htU : tk ∈ U) (hno : tk ∉ v.ioWaitTasks_) :
    { v with
      io := (v.io.register tk).1.decrementRef tk
      ioWaitTasks_ := if (v.io.register tk).2 then v.ioWaitTasks_ ++ [tk] else v.ioWaitTasks_
      }.Ledger U := by
  obtain ⟨-, hs⟩ := register_sameRefs h.registered (h.slack_pos htU)
  have hstatus := ((v.io.register tk).1.decrementRef_rest tk).2.2
  refine h.setIo hs ((h.registered.register (h.covered.noneTakes tk)).congr sameWaits_decrementRef)
    ((h.covered.register h.registered).congr sameWaits_decrementRef hstatus) ?_ ?_
  · split_ifs
    · refine nodup_append.mpr ⟨h.nodup, nodup_singleton tk, ?_⟩
      rintro t ht _ hmem rfl
      exact hno (mem_singleton.mp hmem ▸ ht)
    · exact h.nodup
  · intro t ht
    split_ifs at ht
    · rcases mem_append.mp ht with ht | ht
      · exact h.waiting t ht
      · rw [mem_singleton.mp ht]
        exact htU
    · exact h.waiting t ht

/-- A timer for a wait of a hook that will cancel it. -/
theorem Ledger.setTimer (h : v.Ledger U) (htU : tk ∈ U) (hnone : (v.io.task tk).ioBlockTimer_ = none)
    {hk : Hook} (hhook : v.hook tk = some hk) (hcancel : hk.cancelsTimer = true) (id : BitVec 32)
    (tp : ℤ) :
    { v with
      io := v.io.setTimer tk ⟨v.timers.sId + 1, (tk, id), tp⟩
      timers := v.timers.new }.Ledger U := by
  have hc := h.created htU
  have hsame : SameWaits v.ioWaitTasks_ v.io (v.io.setTimer tk ⟨v.timers.sId + 1, (tk, id), tp⟩) :=
    sameWaits_setTimer _
  -- what is stored, or in another task's record, is older
  have hold : ∀ n ≤ v.timers.sId, v.timers.new.active_ n = v.timers.active_ n := by
    intro n hn
    have hne : n ≠ v.timers.sId + 1 := by omega
    simp [TimerHeap.new, hne]
  have hself : { v with
      io := v.io.setTimer tk ⟨v.timers.sId + 1, (tk, id), tp⟩
      timers := v.timers.new }.live tk = true := by
    simp [live, ioBlockTimer_setTimer, TimerHeap.new]
  have hother : ∀ t ∈ v.created, t ≠ tk → { v with
      io := v.io.setTimer tk ⟨v.timers.sId + 1, (tk, id), tp⟩
      timers := v.timers.new }.live t = v.live t := by
    intro t ht hne
    simp only [live, ioBlockTimer_setTimer, if_neg hne]
    cases hct : (v.io.task t).ioBlockTimer_ with
    | none => rfl
    | some c => exact hold _ (h.timers.old t ht c hct)
  have hdead : v.live tk = false := by simp [live, hnone]
  refine ⟨h.registered.congr hsame, h.covered.congr hsame rfl, h.nodup, h.waiting, h.created,
    ⟨fun t ht c hcm => ?_, fun t ht t' ht' c hcm c' hcm' heq => ?_, fun n hn => ?_,
      fun t ht c hcm hn => ?_, fun c hcm => ?_⟩,
    fun t ht => ?_, h.refs.lists, fun t ht hl => ?_, h.refs.inHook⟩
  · rw [ioBlockTimer_setTimer] at hcm
    split_ifs at hcm with h0
    · rw [← Option.some_inj.mp hcm]
      exact le_rfl
    · exact (h.timers.old t ht c hcm).trans (Nat.le_succ _)
  · rw [ioBlockTimer_setTimer] at hcm hcm'
    split_ifs at hcm hcm' with h0 h1 h1
    · rw [h0, h1]
    · have hle := h.timers.old t' ht' c' hcm'
      rw [← Option.some_inj.mp hcm] at heq
      dsimp only at heq
      omega
    · have hle := h.timers.old t ht c hcm
      rw [← Option.some_inj.mp hcm'] at heq
      dsimp only at heq
      omega
    · exact h.timers.distinct t ht t' ht' c hcm c' hcm' heq
  · exact (h.timers.others n hn).trans (Nat.le_succ _)
  · rw [ioBlockTimer_setTimer] at hcm
    split_ifs at hcm with h0
    · have hle := h.timers.others c.id_ hn
      rw [← Option.some_inj.mp hcm] at hle
      dsimp only at hle
      omega
    · exact h.timers.apart t ht c hcm hn
  · rcases mem_storedTimers_setTimer.mp hcm with rfl | hcm
    · refine ⟨le_rfl, fun _ => ⟨hc, ?_⟩⟩
      rw [ioBlockTimer_setTimer, if_pos rfl]
    · obtain ⟨hle, hown⟩ := h.timers.stored c hcm
      refine ⟨hle.trans (Nat.le_succ _), fun ha => ?_⟩
      obtain ⟨hmem, htimer⟩ := hown ((hold _ hle).symm.trans ha)
      refine ⟨hmem, ?_⟩
      have hne : c.fn_.1 ≠ tk := by
        intro h0
        rw [h0, hnone] at htimer
        exact absurd htimer (by simp)
      rw [ioBlockTimer_setTimer, if_neg hne]
      exact htimer
  · rw [slack_setTimer, h.refs.slack t ht]
    by_cases h0 : t = tk
    · subst h0
      rw [hself, hdead]
      simp
    · rw [hother t ht h0, if_neg h0, add_zero]
  · by_cases h0 : t = tk
    · rw [h0]
      exact ⟨hk, hhook, hcancel⟩
    · rw [hother t ht h0] at hl
      exact h.refs.hooked t ht hl

end IoView

namespace State

variable {s u : State τ β} {tk : τ} {U : Finset τ} {loc : τ → Option (Loc β)}

/-! ### `WaitLoop` -/

omit [DecidableEq β] in
theorem ledger_cancel (h : s.ioView.Ledger U) (tk : τ) (id : BitVec 32) :
    (s.cancel tk id).ioView.Ledger U := by
  rcases s.cancel_cases tk id with ⟨hmem, rfl, heq⟩ | ⟨heq, -⟩
  · rw [heq]
    exact h.clearFds hmem
  · rw [heq]
    exact h

omit [DecidableEq β] in
/-- `Cancel` leaves the timers of the tasks alone. -/
theorem ownTimer_cancel {c : CoTimer (τ × BitVec 32)} (h : s.ioView.Ledger U)
    (hc : s.ioView.OwnTimer c) (tk : τ) (id : BitVec 32) : (s.cancel tk id).ioView.OwnTimer c := by
  rcases s.cancel_cases tk id with ⟨hmem, rfl, heq⟩ | ⟨heq, -⟩
  · obtain ⟨hbal, -⟩ := h.registered.clearFds_spec hmem
    rw [heq]
    refine ⟨hc.1, fun ha => ⟨(hc.2 ha).1, ?_⟩⟩
    have htask := hbal.task c.fn_.1
    exact (congrArg IoTask.ioBlockTimer_ htask).trans (hc.2 ha).2
  · rw [heq]
    exact hc

omit [DecidableEq β] in
theorem cancel_setTimers (s : State τ β) (timers : TimerHeap) (tk : τ) (id : BitVec 32) :
    { s with timers := timers }.cancel tk id = { s.cancel tk id with timers := timers } := by
  rw [State.cancel, State.cancel]
  split_ifs <;> rfl

omit [DecidableEq β] in
theorem cancel_timers (s : State τ β) (tk : τ) (id : BitVec 32) :
    (s.cancel tk id).timers = s.timers := by
  rw [State.cancel]
  split_ifs <;> rfl

omit [DecidableEq β] in
/-- The callback of an io timer. -/
theorem ioView_ioTimeout (s : State τ β) (c : CoTimer (τ × BitVec 32)) :
    (s.ioTimeout c).ioView = if s.timers.active_ c.id_ then
      { (s.cancel c.fn_.1 c.fn_.2).ioView with
        io := (s.cancel c.fn_.1 c.fn_.2).io.decrementRef c.fn_.1
        timers := (s.timers.deactivate c.id_).1 }
    else s.ioView := by
  rw [State.ioTimeout]
  dsimp only [TimerHeap.deactivate]
  split_ifs
  · rw [cancel_setTimers]
    rfl
  · rfl

omit [DecidableEq β] in
theorem ledger_ioTimeout {c : CoTimer (τ × BitVec 32)} (h : s.ioView.Ledger U)
    (hc : s.ioView.OwnTimer c) : (s.ioTimeout c).ioView.Ledger U := by
  rw [ioView_ioTimeout]
  split_ifs with hact
  · have h' := ledger_cancel h c.fn_.1 c.fn_.2
    have hact' : (s.cancel c.fn_.1 c.fn_.2).timers.active_ c.id_ = true := by rwa [cancel_timers]
    obtain ⟨hmem, htimer⟩ := (ownTimer_cancel h hc c.fn_.1 c.fn_.2).2 hact'
    have hdrop := h'.dropTimer hmem htimer hact'
    simp only [ioView, cancel_timers] at hdrop ⊢
    exact hdrop
  · exact h

omit [DecidableEq β] in
theorem ownTimer_ioTimeout {c d : CoTimer (τ × BitVec 32)} (h : s.ioView.Ledger U)
    (hd : s.ioView.OwnTimer d) : (s.ioTimeout c).ioView.OwnTimer d := by
  rw [ioView_ioTimeout]
  split_ifs
  · obtain ⟨hle, hown⟩ := ownTimer_cancel h hd c.fn_.1 c.fn_.2
    refine ⟨hd.1, fun ha => ?_⟩
    have hact : (s.cancel c.fn_.1 c.fn_.2).timers.active_ d.id_ = true := by
      rw [cancel_timers]
      by_cases h0 : d.id_ = c.id_
      · simp [TimerHeap.deactivate, h0] at ha
      · simpa [TimerHeap.deactivate, h0] using ha
    rw [ioBlockTimer_decrementRef]
    exact hown hact
  · exact hd

omit [LinearOrder τ] [DecidableEq β] in
theorem epollEvents_sameRefs [LinearOrder τ] {io : IoState τ} (e : EpollType)
    (evs : List (ℤ × BitVec 32)) (set : List (τ × BitVec 32)) :
    SameRefs io (epollEvents e evs io set).1 := by
  induction evs generalizing io set with
  | nil => exact .refl io
  | cons ev evs ih =>
    rw [epollEvents]
    exact (epollEvent_sameRefs e ev).trans (ih _)

omit [DecidableEq β] in
/-- The timers that are called are those that were stored. -/
theorem ledger_runTimeouts (h : s.ioView.Ledger U) : s.runTimeouts.ioView.Ledger U := by
  have hempty : ({ s with io := { s.io with timeoutList_ := [] } } : State τ β).ioView.Ledger U := by
    refine h.setIo ⟨fun _ => rfl, fun _ => rfl, fun _ => rfl, fun c hc => ?_, rfl⟩
      (h.registered.congr ⟨rfl, rfl, fun _ _ => rfl, fun _ _ => rfl⟩)
      (h.covered.congr ⟨rfl, rfl, fun _ _ => rfl, fun _ _ => rfl⟩ rfl) h.nodup h.waiting
    rw [storedTimers, append_nil] at hc
    exact mem_append_left _ hc
  have hpending : ∀ c ∈ s.io.timeoutList_,
      ({ s with io := { s.io with timeoutList_ := [] } } : State τ β).ioView.OwnTimer c :=
    fun c hc => h.timers.stored c (mem_append_right _ hc)
  have hfold := List.foldlRecOn
    (motive := fun w : State τ β => w.ioView.Ledger U ∧ ∀ c ∈ s.io.timeoutList_, w.ioView.OwnTimer c)
    s.io.timeoutList_ State.ioTimeout ⟨hempty, hpending⟩ fun w hw c hc =>
      ⟨ledger_ioTimeout hw.1 (hw.2 c hc), fun d hd => ownTimer_ioTimeout hw.1 (hw.2 d hd)⟩
  exact hfold.1

omit [DecidableEq β] in
theorem ledger_deleteTasks (h : s.ioView.Ledger U) :
    ({ s with io := s.io.deleteTasks } : State τ β).ioView.Ledger U := by
  refine h.setIo ⟨fun _ => rfl, fun _ => rfl, fun t => ?_, fun _ hc => hc, rfl⟩
    (h.registered.congr ⟨rfl, rfl, fun _ _ => rfl, fun _ _ => rfl⟩)
    (h.covered.congr ⟨rfl, rfl, fun _ _ => rfl, fun _ _ => rfl⟩ rfl) h.nodup h.waiting
  show ([] ++ (s.io.deleted ++ s.io.sDeleteList)).count t = (s.io.sDeleteList ++ s.io.deleted).count t
  rw [nil_append, count_append, count_append, Nat.add_comm]

omit [DecidableEq β] in
/-- **`WaitLoop` keeps the accounts.** -/
theorem ledger_ioWaitLoop (h : s.ioView.Ledger U) (nows : List ℤ)
    (readEvs writeEvs : List (ℤ × BitVec 32)) :
    (s.ioWaitLoop nows readEvs writeEvs).ioView.Ledger U := by
  have hrefs : SameRefs s.io (epollWait (s.io.collectTimers nows) readEvs writeEvs).1 :=
    ((collectTimers_sameRefs nows).trans (epollEvents_sameRefs .read readEvs [])).trans
      (epollEvents_sameRefs .write writeEvs _)
  have hwaits : SameWaits s.q.ioWaitTasks_ s.io
      (epollWait (s.io.collectTimers nows) readEvs writeEvs).1 :=
    ((collectTimers_sameWaits nows).trans (epollEvents_sameWaits .read readEvs [])).trans
      (epollEvents_sameWaits .write writeEvs _)
  have h₁ : ({ s with io := (epollWait (s.io.collectTimers nows) readEvs writeEvs).1 }
      : State τ β).ioView.Ledger U :=
    h.setIo hrefs (h.registered.congr hwaits) (h.covered.congr hwaits hrefs.status) h.nodup h.waiting
  have h₂ := List.foldlRecOn (motive := fun v : State τ β => v.ioView.Ledger U)
    (epollWait (s.io.collectTimers nows) readEvs writeEvs).2
    (fun s st => State.cancel s st.1 st.2) h₁ fun v hv st _ => ledger_cancel hv st.1 st.2
  exact ledger_deleteTasks (ledger_runTimeouts h₂)

/-! ### The task at the iterator -/

/-- What is known of the task that runs, or that has left its turn. -/
structure Turns (s : State τ β) : Prop where
  running : ∀ tk, s.atTurn .running = some tk → (s.q.task tk).state_ = .runnable
  done : ∀ tk, s.atTurn .left = some tk → (s.q.task tk).state_ = .done → s.hook tk = none
  ioBlock : ∀ tk, s.atTurn .left = some tk → (s.q.task tk).state_ = .ioBlock →
    (s.io.task tk).ioBlockTimer_ = none ∧
      ∃ h ∈ s.hook tk, h.cancelsTimer ∨ (s.io.task tk).ioBlockTimeout_ = -1

omit [LinearOrder τ] [DecidableEq β] in
theorem Turns.of_none (hr : s.atTurn .running = none) (hl : s.atTurn .left = none) : s.Turns :=
  ⟨fun tk h => by simp [hr] at h, fun tk h => by simp [hl] at h, fun tk h => by simp [hl] at h⟩

omit [LinearOrder τ] [DecidableEq β] in
/-- Other tasks may be made runnable. -/
theorem Turns.congr (h : s.Turns) (hph : u.phase = s.phase)
    (hstate : ∀ turn t, s.atTurn turn = some t →
      (u.q.task t).state_ = (s.q.task t).state_ ∨ (u.q.task t).state_ = .runnable)
    (hhook : u.hook = s.hook) (hio : ∀ turn t, s.atTurn turn = some t → u.io.task t = s.io.task t) :
    u.Turns := by
  have hat : ∀ turn, u.atTurn turn = s.atTurn turn := fun turn => by rw [atTurn, atTurn, hph]
  refine ⟨fun tk hcur => ?_, fun tk hcur hd => ?_, fun tk hcur hb => ?_⟩ <;> rw [hat] at hcur
  · rcases hstate _ tk hcur with heq | heq
    · rw [heq]
      exact h.running tk hcur
    · exact heq
  · rw [hhook]
    rcases hstate _ tk hcur with heq | heq
    · exact h.done tk hcur (heq ▸ hd)
    · rw [heq] at hd
      exact absurd hd (by simp)
  · rw [hhook, hio _ tk hcur]
    rcases hstate _ tk hcur with heq | heq
    · exact h.ioBlock tk hcur (heq ▸ hb)
    · rw [heq] at hb
      exact absurd hb (by simp)

omit [LinearOrder τ] [DecidableEq β] in
theorem atTurn_setTurn {turn turn' turn'' : Turn} (h : s.atTurn turn = some tk) :
    (s.setTurn turn').atTurn turn'' = if turn' = turn'' then some tk else none := by
  obtain ⟨c, i, P, rest, hph, hturn, hafter⟩ := atTurn_eq_some h
  rw [setTurn, hph]
  simp [atTurn, hafter]

omit [LinearOrder τ] [DecidableEq β] in
theorem setTurn_frame (s : State τ β) (turn : Turn) : (s.setTurn turn).q = s.q ∧
    (s.setTurn turn).io = s.io ∧ (s.setTurn turn).hook = s.hook := by
  rw [setTurn]
  split <;> exact ⟨rfl, rfl, rfl⟩

omit [LinearOrder τ] [DecidableEq β] in
/-- A task leaves its turn. -/
theorem turns_left (h : s.atTurn .running = some tk)
    (hd : (s.q.task tk).state_ = .done → s.hook tk = none)
    (hb : (s.q.task tk).state_ = .ioBlock → (s.io.task tk).ioBlockTimer_ = none ∧
      ∃ h ∈ s.hook tk, h.cancelsTimer ∨ (s.io.task tk).ioBlockTimeout_ = -1) :
    (s.setTurn .left).Turns := by
  obtain ⟨hq, hio, hhook⟩ := s.setTurn_frame .left
  refine ⟨fun t ht => ?_, fun t ht => ?_, fun t ht => ?_⟩ <;> rw [atTurn_setTurn h] at ht
  · simp at ht
  · obtain rfl : tk = t := by simpa using ht
    rw [hq, hhook]
    exact hd
  · obtain rfl : tk = t := by simpa using ht
    rw [hq, hhook, hio]
    exact hb

omit [DecidableEq β] in
/-- A task marks a state that is neither `done` nor `io_block`, and leaves. -/
theorem turns_switchAs (h : s.atTurn .running = some tk) {f : Task β → Task β}
    (hd : (f (s.q.task tk)).state_ ≠ .done) (hb : (f (s.q.task tk)).state_ ≠ .ioBlock) :
    (s.switchAs tk f).Turns := by
  have htask : ({ s with q := s.q.modifyTask tk f }.q.task tk) = f (s.q.task tk) := by
    simp [Queues.modifyTask]
  refine turns_left (s := { s with q := s.q.modifyTask tk f }) h (fun h0 => ?_) fun h0 => ?_
  · rw [htask] at h0
    exact absurd h0 hd
  · rw [htask] at h0
    exact absurd h0 hb

omit [DecidableEq β] in
theorem turns_sleepSwitch (h : s.atTurn .running = some tk) (hrun : (s.q.task tk).state_ = .runnable)
    (ms : ℤ) : (s.sleepSwitch tk ms).Turns := by
  rw [sleepSwitch]
  split_ifs
  · exact turns_left h (fun h0 => by simp [hrun] at h0) fun h0 => by simp [hrun] at h0
  · exact turns_switchAs h (by simp) (by simp)

omit [DecidableEq β] in
theorem state_addTaskRunnable (q : Queues τ β) (tk t : τ) :
    ((q.addTaskRunnable tk).task t).state_ = (q.task t).state_ ∨
      ((q.addTaskRunnable tk).task t).state_ = .runnable := by
  rw [Queues.addTaskRunnable]
  split
  · by_cases ht : t = tk
    · subst ht
      refine .inr ?_
      rw [Queues.procAddTaskRunnable]
      split_ifs <;> simp [Queues.pushRunnable, Queues.setState, Queues.modifyTask]
    · refine .inl ?_
      rw [Queues.procAddTaskRunnable]
      split_ifs <;> simp [Queues.pushRunnable, Queues.setState, Queues.modifyTask, ht]
  · exact .inl rfl

theorem state_wakeup (q : Queues τ β) (b : β) (t : τ) :
    ((q.wakeup b).task t).state_ = (q.task t).state_ ∨ ((q.wakeup b).task t).state_ = .runnable := by
  rw [Queues.wakeup]
  dsimp only
  split
  · exact .inl rfl
  · exact state_addTaskRunnable _ _ t

omit [DecidableEq β] in
theorem state_userBlockWakeup (q : Queues τ β) (k : WaitKey) (t : τ) :
    ((q.userBlockWakeup k).task t).state_ = (q.task t).state_ ∨
      ((q.userBlockWakeup k).task t).state_ = .runnable := by
  rw [Queues.userBlockWakeup]
  refine List.foldlRecOn (motive := fun q' : Queues τ β => (q'.task t).state_ = (q.task t).state_ ∨
    (q'.task t).state_ = .runnable) _ _ (.inl rfl) fun q' h tk _ => ?_
  rcases state_addTaskRunnable q' tk t with heq | heq
  · rw [heq]
    exact h
  · exact .inr heq

omit [LinearOrder τ] [DecidableEq β] in
theorem atTurn_left_of_running (hcur : s.atTurn .running = some tk) : s.atTurn .left = none := by
  obtain ⟨c, i, P, rest, hph, hturn, -⟩ := atTurn_eq_some hcur
  rw [atTurn, hph]
  simp [hturn]

omit [DecidableEq β] in
theorem turns_leaveHook {h : Hook} (hcur : s.atTurn .running = some tk)
    (hrun : (s.q.task tk).state_ = .runnable) : (s.leaveHook tk h).Turns := by
  obtain ⟨v, -, hq, hph, heq⟩ := s.leaveHook_cases tk h
  have hat : ∀ turn, { v with hook := Function.update v.hook tk none }.atTurn turn
      = s.atTurn turn := fun turn => by
    rw [atTurn, atTurn, ← hph]
  have hleft := atTurn_left_of_running hcur
  rcases heq with heq | heq
  · rw [heq]
    refine ⟨fun t ht => ?_, fun t ht => ?_, fun t ht => ?_⟩ <;> rw [hat] at ht
    · obtain rfl : tk = t := by simpa [hcur] using ht
      show (v.q.task tk).state_ = .runnable
      rw [hq]
      exact hrun
    · simp [hleft] at ht
    · simp [hleft] at ht
  · rw [heq]
    exact turns_sleepSwitch ((hat .running).trans hcur) (hq ▸ hrun) _

omit [LinearOrder τ] [DecidableEq β] in
/-- Outside of `Processer::Run`. -/
theorem atTurn_of_phase (hph : ∀ c i P, s.phase ≠ .processer c i P) (turn : Turn) :
    s.atTurn turn = none := by
  rw [atTurn]
  split
  · exact absurd ‹_› (hph _ _ _)
  · rfl

omit [LinearOrder τ] [DecidableEq β] in
theorem Turns.of_phase (hph : ∀ c i P, s.phase ≠ .processer c i P) : s.Turns :=
  .of_none (atTurn_of_phase hph _) (atTurn_of_phase hph _)

omit [LinearOrder τ] [DecidableEq β] in
/-- Before the next task is resumed. -/
theorem atTurn_of_enter {c i : ℕ} {P : Pass τ} (hph : s.phase = .processer c i P)
    (hturn : P.turn = .enter) {turn : Turn} (hne : turn ≠ .enter) : s.atTurn turn = none := by
  rw [atTurn, hph]
  dsimp only
  rw [hturn, if_neg hne.symm]

omit [LinearOrder τ] [DecidableEq β] in
theorem Turns.of_enter {c i : ℕ} {P : Pass τ} (hph : s.phase = .processer c i P)
    (hturn : P.turn = .enter) : s.Turns :=
  .of_none (atTurn_of_enter hph hturn (by simp)) (atTurn_of_enter hph hturn (by simp))

theorem atTurn_processerSwitch (c i : ℕ) (P : Pass τ) (tk : τ) (rest : List τ) (now : ℤ) {turn : Turn}
    (hne : turn ≠ .enter) : (s.processerSwitch c i P tk rest now).atTurn turn = none := by
  rw [processerSwitch]
  cases (s.q.task tk).state_ with
  | runnable => exact atTurn_of_enter rfl rfl hne
  | ioBlock => exact atTurn_of_enter (ioSchedulerSwitch_frame _ tk now).1 rfl hne
  | sleep => exact atTurn_of_enter rfl rfl hne
  | sysBlock =>
    refine atTurn_of_enter rfl ?_ hne
    split_ifs <;> rfl
  | userBlock =>
    refine atTurn_of_enter rfl ?_ hne
    split_ifs <;> rfl
  | _ =>
    dsimp only
    split_ifs
    · exact atTurn_of_phase (by simp) turn
    · exact atTurn_of_enter rfl rfl hne

/-- **Every step keeps what is known of the task at the iterator.** -/
theorem step_turns {a : Act τ β} (hown : s.OwnedAt U loc) (h : s.Turns) (hst : s.step a = some u) :
    u.Turns := by
  cases step_cases hst with
  | run n hph => exact .of_phase (by simp)
  | nextProc hph hprocs hi => exact .of_enter rfl rfl
  | endRunnable hph => exact .of_phase (by simp)
  | @resume tk hcur =>
    have hcur' : { s with q := s.q.setState tk .runnable }.atTurn .enter = some tk := hcur
    obtain ⟨hq, -⟩ := { s with q := s.q.setState tk .runnable }.setTurn_frame .running
    refine ⟨fun t ht => ?_, fun t ht => ?_, fun t ht => ?_⟩ <;> rw [atTurn_setTurn hcur'] at ht
    · obtain rfl : tk = t := by simpa using ht
      rw [hq]
      simp [Queues.setState, Queues.modifyTask]
    · simp at ht
    · simp at ht
  | @coYield tk hcur =>
    obtain ⟨hcur, -⟩ := userTask_eq_some hcur
    have hrun := h.running tk hcur
    exact turns_left hcur (fun h0 => by simp [hrun] at h0) fun h0 => by simp [hrun] at h0
  | @sleepSwitch tk ms hcur =>
    obtain ⟨hcur, -⟩ := userTask_eq_some hcur
    exact turns_sleepSwitch hcur (h.running tk hcur) ms
  | coBlockWait b hcur =>
    obtain ⟨hcur, -⟩ := userTask_eq_some hcur
    rw [coBlockWait]
    dsimp only
    split_ifs
    · exact h.congr rfl (fun _ _ _ => .inl rfl) rfl fun _ _ _ => rfl
    · exact turns_switchAs hcur (by simp) (by simp)
  | userBlockWait k hcur =>
    obtain ⟨hcur, -⟩ := userTask_eq_some hcur
    refine turns_switchAs hcur ?_ ?_ <;> dsimp only <;> split_ifs <;> simp
  | @enterHook tk hk hcur =>
    obtain ⟨hcur, -⟩ := userTask_eq_some hcur
    rw [enterHook]
    cases hstart : hk.start with
    | direct => exact h
    | sleep ms => exact turns_sleepSwitch hcur (h.running tk hcur) ms
    | io fdsts ms =>
      refine turns_left (s := { s with
        io := s.io.coSwitch tk fdsts ms
        hook := Function.update s.hook tk (some hk)
        q := s.q.modifyTask tk fun t => { t with state_ := .ioBlock } }) hcur (fun h0 => ?_) fun _ => ?_
      · simp [Queues.modifyTask] at h0
      · refine ⟨by simp [IoState.coSwitch, modifyTask], hk, by simp, ?_⟩
        by_cases hc : hk.cancelsTimer = true
        · exact .inl hc
        · refine .inr ?_
          simp only [IoState.coSwitch, modifyTask, Function.update_self]
          exact Hook.start_of_not_cancelsTimer (by simpa using hc) hstart
  | @leaveHook tk hk hcur => exact turns_leaveHook hcur (h.running tk hcur)
  | @finish tk eptr hcur =>
    obtain ⟨hcur, hhook⟩ := userTask_eq_some hcur
    refine turns_left (s := { s with
      q := s.q.modifyTask tk fun t => { t with eptr_ := eptr, state_ := .done } }) hcur
      (fun _ => hhook) fun h0 => ?_
    simp [Queues.modifyTask] at h0
  | @switch c i P tk rest now =>
    exact .of_none (atTurn_processerSwitch c i P tk rest now (by simp))
      (atTurn_processerSwitch c i P tk rest now (by simp))
  | endPass hph hafter => exact .of_phase (by simp)
  | doEpoll nows readEvs writeEvs hph => exact .of_phase (by simp)
  | doTimer now hph => exact .of_phase (by simp)
  | doSleep now hph => exact .of_phase (by simp)
  | @createTask tk id hnew =>
    -- the task at the iterator is not the new one
    have hne : ∀ turn t, s.atTurn turn = some t → t ≠ tk := by
      rintro turn t hcur rfl
      exact hnew (Queues.Owned.created hown (hown.unfinished_of_turn hcur))
    refine h.congr rfl (fun turn t hcur => ?_) rfl fun turn t hcur => ?_
    · rcases state_addTaskRunnable { s.q with
        created := insert tk s.q.created
        task := Function.update s.q.task tk {}
        taskCount_ := s.q.taskCount_ + 1 } tk t with heq | heq
      · refine .inl (heq.trans ?_)
        simp [hne turn t hcur]
      · exact .inr heq
    · simp [modifyTask, hne turn t hcur]
  | wakeup b => exact h.congr rfl (fun _ t _ => state_wakeup s.q b t) rfl fun _ _ _ => rfl
  | tryBlockWait b => exact h.congr rfl (fun _ _ _ => .inl rfl) rfl fun _ _ _ => rfl
  | userBlockWakeup k =>
    exact h.congr rfl (fun _ t _ => state_userBlockWakeup s.q k t) rfl fun _ _ _ => rfl
  | tryUserBlockWait k => exact h.congr rfl (fun _ _ _ => .inl rfl) rfl fun _ _ _ => rfl
  | expireAt tp => exact h.congr rfl (fun _ _ _ => .inl rfl) rfl fun _ _ _ => rfl
  | openFd status hclosed => exact h.congr rfl (fun _ _ _ => .inl rfl) rfl fun _ _ _ => rfl
  | closeFd fd => exact h.congr rfl (fun _ _ _ => .inl rfl) rfl fun _ _ _ => rfl

/-! ### Every run -/

omit [DecidableEq β] in
/-- **A new wait keeps the accounts.** -/
theorem ledger_ioSchedulerSwitch (h : s.ioView.Ledger U) (htU : tk ∈ U) (hno : tk ∉ s.q.ioWaitTasks_)
    (hnone : (s.io.task tk).ioBlockTimer_ = none)
    (hhook : ∃ hk ∈ s.hook tk, hk.cancelsTimer ∨ (s.io.task tk).ioBlockTimeout_ = -1) (now : ℤ) :
    (s.ioSchedulerSwitch tk now).ioView.Ledger U := by
  have hregs : s.io.Registered s.q.ioWaitTasks_ := h.registered
  obtain ⟨hguard, hs⟩ := register_sameRefs hregs (h.slack_pos htU)
  obtain ⟨hbal, -⟩ := register_spec hregs.unique tk
  have hreg := h.register htU hno
  rcases ioSchedulerSwitch_ioView hno now with heq | ⟨htimeout, heq⟩
  · rw [heq]
    exact hreg
  · obtain ⟨hk, hmem, hcancel⟩ := hhook
    have htime : ((s.io.register tk).1.task tk).ioBlockTimeout_ = (s.io.task tk).ioBlockTimeout_ := by
      rw [hbal.task tk]
      simp [incrementRef, modifyTask]
    have hc : hk.cancelsTimer = true := hcancel.resolve_right (htime ▸ htimeout)
    have hnone' : (((s.io.register tk).1.decrementRef tk).task tk).ioBlockTimer_ = none :=
      (hs.timer tk).trans hnone
    rw [heq, setTimer_decrementRef hguard]
    exact hreg.setTimer htU hnone' hmem hc _ _

/-- The descriptors of the process stay as they are. -/
def FixedFds : State τ β → Act τ β → Prop
  | _, .openFd _ _ => False
  | _, .closeFd _ => False
  | _, _ => True

omit [LinearOrder τ] in
theorem mem_ids_expireAt {F : Type*} (m : CoTimerMgr F) (c : CoTimer F) (n : ℕ) :
    n ∈ (m.expireAt c).deadlines_.map (fun d => d.2.id_) ↔
      n = c.id_ ∨ n ∈ m.deadlines_.map fun d => d.2.id_ := by
  have hperm := CoTimerMgr.insertDeadline_perm m.deadlines_ (c.nextTimePoint_, c)
  have hmem := (hperm.map fun d => d.2.id_).mem_iff (a := n)
  rw [map_cons, mem_cons] at hmem
  exact hmem

omit [LinearOrder τ] in
theorem ids_getExpired {F : Type*} (m : CoTimerMgr F) (now : ℤ) (k : ℕ) :
    (∀ c ∈ (m.getExpired now k).1, c.id_ ∈ m.deadlines_.map fun d => d.2.id_) ∧
      ∀ n ∈ (m.getExpired now k).2.deadlines_.map (fun d => d.2.id_),
        n ∈ m.deadlines_.map fun d => d.2.id_ := by
  have happ := congrArg (List.map CoTimer.id_) (m.getExpired_append now k)
  rw [map_append, map_map, map_map] at happ
  refine ⟨fun c hc => ?_, fun n hn => ?_⟩
  · show c.id_ ∈ m.deadlines_.map (CoTimer.id_ ∘ Prod.snd)
    rw [← happ]
    exact mem_append_left _ (mem_map_of_mem hc)
  · show n ∈ m.deadlines_.map (CoTimer.id_ ∘ Prod.snd)
    rw [← happ]
    exact mem_append_right _ hn

omit [LinearOrder τ] in
theorem ids_cancel {F : Type*} (m : CoTimerMgr F) (id : ℕ) (tp : ℤ) (n : ℕ)
    (hn : n ∈ (m.cancel id tp).deadlines_.map fun d => d.2.id_) :
    n ∈ m.deadlines_.map fun d => d.2.id_ := by
  rw [CoTimerMgr.cancel] at hn
  split at hn
  · exact hn
  · exact (eraseP_sublist.map _).subset hn

/-- **Every step keeps the accounts**, if the descriptors stay as they are. -/
theorem step_ledger {a : Act τ β} (hown : s.OwnedAt U loc) (hturns : s.Turns)
    (h : s.ioView.Ledger U) (hok : s.FixedFds a) (hst : s.step a = some u) :
    u.ioView.Ledger (s.unfinishedAfter U a) := by
  suffices hview : ∀ v : IoView τ, IoStep s a v → v.Ledger (s.unfinishedAfter U a) from
    hview _ (step_io hown hst)
  intro v hv
  cases hv with
  | same hU =>
    rw [hU]
    exact h
  | coSwitch hcur =>
    obtain ⟨hcur, hhook⟩ := userTask_eq_some hcur
    exact h.coSwitch (hown.unfinished_of_turn hcur) (hown.notMem_ioWait hcur) hhook _ _ _
  | @endWait tk hk hcur hhook hdead =>
    refine h.unhook ?_
    have hc := h.created (hown.unfinished_of_turn hcur)
    by_contra hl
    -- a live timer belongs to a hook that cancels it, and has been cancelled
    obtain ⟨hk', hmem, hcancel⟩ := h.refs.hooked tk hc (by simpa using hl)
    obtain rfl : hk = hk' := Option.some_inj.mp (hhook.symm.trans hmem)
    obtain ⟨c, hcm, hact⟩ := IoView.live_eq_true.mp (by simpa using hl)
    exact absurd ((hdead hcancel c hcm).symm.trans hact) (by simp)
  | @cancelTimer tk hk timer hcur hhook htimer hact =>
    have hc := h.created (hown.unfinished_of_turn hcur)
    have hdrop := h.dropTimer hc htimer hact
    have hdead : { s.ioView with
        io := s.io.decrementRef tk, timers := (s.timers.deactivate timer.id_).1 }.live tk = false := by
      simp [IoView.live, ioBlockTimer_decrementRef, htimer, TimerHeap.deactivate]
    have hun := hdrop.unhook hdead
    refine hun.setTimers (hun.timers.mono rfl (fun _ => rfl) rfl (fun _ h => h) (fun n hn => ?_)
      fun _ h => h) fun _ _ => rfl
    rcases mem_append.mp hn with hn | hn
    · exact mem_append_left _ hn
    · exact mem_append_right _ (ids_cancel _ _ _ n hn)
  | ioSwitch hleft hstate =>
    rw [unfinishedAfter_switch hleft (by simp [hstate])]
    obtain ⟨hnone, hhook⟩ := hturns.ioBlock _ hleft hstate
    exact ledger_ioSchedulerSwitch h (hown.unfinished_of_turn hleft) (hown.notMem_ioWait hleft) hnone
      hhook _
  | sleepSwitch hleft hstate =>
    rw [unfinishedAfter_switch hleft (by simp [hstate])]
    refine h.setTimers (h.timers.addOther rfl rfl rfl fun n => ?_) fun t ht =>
      h.timers.live_new rfl rfl ht
    simp only [IoView.otherIds, mem_append, ioView]
    rw [mem_ids_expireAt, or_assoc]
  | @finish tk now hfin =>
    obtain ⟨hleft, hd⟩ := Option.filter_eq_some_iff.mp hfin
    rw [unfinishedAfter, hfin]
    exact h.finish (hown.unfinished_of_turn hleft) (hown.notMem_ioWait hleft)
      (hturns.done tk hleft (by simpa using hd))
  | doEpoll => exact ledger_ioWaitLoop h _ _ _
  | @doTimer now =>
    obtain ⟨hcalled, hleft⟩ := ids_getExpired s.timerMgr_ now 128
    refine h.callOthers _ (fun c hc => mem_append_right _ (hcalled c hc)) fun n hn => ?_
    rcases mem_append.mp hn with hn | hn
    · exact mem_append_left _ hn
    · exact mem_append_right _ (hleft n hn)
  | @doSleep now =>
    obtain ⟨hcalled, hleft⟩ := ids_getExpired s.q.sleepTimerMgr_ now 128
    refine h.callOthers _ (fun c hc => mem_append_left _ (hcalled c hc)) fun n hn => ?_
    rcases mem_append.mp hn with hn | hn
    · exact mem_append_left _ (hleft n hn)
    · exact mem_append_right _ hn
  | createTask hnew => exact h.createTask hnew _
  | expireAt =>
    refine h.setTimers (h.timers.addOther rfl rfl rfl fun n => ?_) fun t ht =>
      h.timers.live_new rfl rfl ht
    simp only [IoView.otherIds, mem_append, ioView]
    rw [mem_ids_expireAt, or_left_comm]
  | openFd => exact hok.elim
  | closeFd => exact hok.elim

omit [LinearOrder τ] [DecidableEq β] in
theorem turns_init (h : Init s) : s.Turns := .of_phase (by simp [h.phase])

omit [DecidableEq β] in
theorem ledger_init (h : Init s) : s.ioView.Ledger ∅ := by
  have hc : ∀ t, t ∉ s.ioView.created := fun t => by simp [ioView, h.created]
  have hw : s.ioView.ioWaitTasks_ = [] := h.ioWaitTasks
  have hothers : s.ioView.otherIds = [] := by
    simp [IoView.otherIds, ioView, h.sleepTimerMgr, h.timerMgr, CoTimerMgr.new]
  have hstored : s.ioView.io.storedTimers = [] := by
    simp [storedTimers, ioView, h.ioTimerMgr, h.timeoutList, CoTimerMgr.new]
  refine ⟨registered_init h, fun u hu => by simp [hw] at hu, by simp [hw], by simp [hw],
    Finset.empty_subset _, ⟨fun t ht => absurd ht (hc t), fun t ht => absurd ht (hc t),
      by simp [hothers], fun t ht => absurd ht (hc t), by simp [hstored]⟩,
    ⟨fun t ht => absurd ht (hc t), fun t => ?_, fun t ht => absurd ht (hc t), fun t hne => ?_⟩⟩
  · simp [ioView, h.created, h.sDeleteList, h.deleted]
  · exact absurd (h.hook t) hne

theorem reach_turns : ∀ s : State τ β, Reach Init step s → s.Turns :=
  ReachIf.invariant_with (fun s => ∃ loc, s.OwnedAt s.unfinished loc) reach_owned
    (fun _ => turns_init) fun _ _ _ ⟨_, hown⟩ h _ hst => step_turns hown h hst

theorem reach_ledger :
    ∀ s : State τ β, ReachIf Init step FixedFds s → s.ioView.Ledger s.unfinished := by
  refine ReachIf.invariant_with (fun s => (∃ loc, s.OwnedAt s.unfinished loc) ∧ s.Turns)
    (fun s hs => ?_) (fun s h => ?_) fun s u a ⟨⟨loc, hown⟩, hturns⟩ h hok hst => ?_
  · have hreach : Reach Init step s := hs.mono fun _ _ _ => trivial
    exact ⟨reach_owned s hreach, reach_turns s hreach⟩
  · rw [(owned_init h).unfinished_eq]
    exact ledger_init h
  · obtain ⟨loc', hown'⟩ := step_owned hown hst
    rw [hown'.unfinished_eq]
    exact step_ledger hown hturns h hok hst

/-- The io timer of the task has neither run its callback nor been cancelled. -/
def liveTimer (s : State τ β) (t : τ) : Bool :=
  (s.io.task t).ioBlockTimer_.any fun timer => s.timers.active_ timer.id_

/-- **References balance across io waits.**  Each reference of a task is for the task
itself until it is done, for a registration, or for its live timer; the task enters
`s_delete_list` once it is done, once, and with nothing of these left. -/
theorem references_balance (hs : ReachIf Init step FixedFds s) :
    (∀ t ∈ s.q.created, (s.io.task t).refCount_ = (if t ∈ s.unfinished then 1 else 0)
      + s.io.registrations t + if s.liveTimer t then 1 else 0) ∧
    (∀ t, (s.io.sDeleteList ++ s.io.deleted).count t
      = if t ∈ s.q.created ∧ t ∉ s.unfinished then 1 else 0) ∧
    ∀ t ∈ s.io.sDeleteList ++ s.io.deleted, (s.io.task t).refCount_ = 0 ∧
      s.io.registrations t = 0 ∧ s.liveTimer t = false := by
  have h := reach_ledger s hs
  have hrefs : ∀ t ∈ s.q.created, (s.io.task t).refCount_ = (if t ∈ s.unfinished then 1 else 0)
      + s.io.registrations t + if s.liveTimer t then 1 else 0 := by
    intro t ht
    have hslack : s.io.slack t = (if t ∈ s.unfinished then 1 else 0) + if s.liveTimer t then 1 else 0 :=
      h.refs.slack t ht
    rw [s.io.refCount_eq t, hslack, add_right_comm]
  refine ⟨hrefs, h.refs.lists, fun t ht => ?_⟩
  have hcount : (s.io.sDeleteList ++ s.io.deleted).count t
      = if t ∈ s.q.created ∧ t ∉ s.unfinished then 1 else 0 := h.refs.lists t
  have hpos := count_pos_iff.mpr ht
  obtain ⟨hc, hU⟩ : t ∈ s.q.created ∧ t ∉ s.unfinished := by
    by_contra h0
    rw [hcount, if_neg h0] at hpos
    exact absurd hpos (by simp)
  -- a task that is done does not wait, and is in no hook
  have hreg : s.io.registrations t = 0 :=
    registrations_eq_zero fun e r hr h0 => hU (h0 ▸ h.waiting _ (h.registered.waits e r hr))
  have hlive : s.liveTimer t = false := by
    by_contra h0
    obtain ⟨hk, hmem, -⟩ := h.refs.hooked t hc (Bool.not_eq_false _ ▸ h0)
    exact hU (h.refs.inHook t (by simp [Option.mem_def.mp hmem]))
  refine ⟨?_, hreg, hlive⟩
  rw [hrefs t hc, if_neg hU, hreg, hlive]
  rfl

instance (s : State τ β) (a : Act τ β) : Decidable (s.FixedFds a) :=
  decidable_of_bool (match a with | .openFd _ _ | .closeFd _ => false | _ => true)
    (by cases a <;> simp [FixedFds])

/-- Task 1 polls the descriptors 5, which is not open, and 6; task 2 is done. -/
def pollAndDone : Option (State ℕ Unit) :=
  execIf step FixedFds (start fun fd => if fd = 6 then .pollable else .closed)
    [.createTask 1 0, .createTask 2 0, .run 1, .nextProc, .resume,
      .enterHook (.poll [(5, POLLIN), (6, POLLIN)] 1000), .switch 0, .resume, .finish false, .switch 0]

theorem references_balance_pollAndDone : ∃ s : State ℕ Unit, ReachIf Init step FixedFds s ∧
    (s.io.task 1).refCount_ = 3 ∧ s.io.registrations 1 = 1 ∧ s.liveTimer 1 = true ∧
    s.io.sDeleteList = [2] ∧
    (∀ t ∈ s.q.created, (s.io.task t).refCount_ = (if t ∈ s.unfinished then 1 else 0)
      + s.io.registrations t + if s.liveTimer t then 1 else 0) := by
  have hrun : pollAndDone = some (pollAndDone.get rfl) := rfl
  have hreach : ReachIf Init step FixedFds (pollAndDone.get rfl) :=
    reachIf_exec _ (.start (init_start _)) hrun
  exact ⟨_, hreach, rfl, rfl, rfl, rfl, (references_balance hreach).1⟩

end State

end Scheduler
