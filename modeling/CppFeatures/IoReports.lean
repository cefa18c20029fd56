/-
What `IoWait::WaitLoop` stores in the tasks that wait (coroutine/linux/io_wait.cpp).

For every event of `epoll_wait` the loop writes `revent` into one entry of the task's
`wait_fds_` and counts it in `wait_successful_`.  The events are recorded here in a log,
one list for each task, which `CoSwitch` empties when a new wait begins.

* `Reports` — the entries and the counter of a task agree with its log;
* `IoState.Logged` — every registration stands for an entry of a waiting task;
* `IoState.Logged.clearFds`, `register` — the end and the beginning of a wait;
* `IoState.Collecting` — the loop over the events, in which no entry is reported twice.
-/
import CppFeatures.IoRegistrations
import CppFeatures.PollSelect

/-! ### The log of one task -/

/-- The events that the log has for an entry, 0 if there are none. -/
def reported (log : List (ℕ × BitVec 32)) (i : ℕ) : BitVec 32 :=
  ((log.find? fun p => decide (p.1 = i)).map Prod.snd).getD 0

section Reported

variable {log : List (ℕ × BitVec 32)} {i : ℕ} {p : ℕ × BitVec 32}

theorem reported_append_of_ne (hne : p.1 ≠ i) : reported (log ++ [p]) i = reported log i := by
  rw [reported, List.find?_append, List.find?_singleton, if_neg (by simpa using hne), Option.or_none]
  rfl

theorem find?_eq_none_of_notMem (hno : i ∉ log.map Prod.fst) :
    log.find? (fun p => decide (p.1 = i)) = none := by
  refine List.find?_eq_none.mpr fun p hp => ?_
  have hne : p.1 ≠ i := fun he => hno (he ▸ List.mem_map_of_mem hp)
  simpa using hne

theorem reported_of_notMem (hno : i ∉ log.map Prod.fst) : reported log i = 0 := by
  rw [reported, find?_eq_none_of_notMem hno]
  rfl

theorem reported_append_self (hno : p.1 ∉ log.map Prod.fst) : reported (log ++ [p]) p.1 = p.2 := by
  rw [reported, List.find?_append, find?_eq_none_of_notMem hno, Option.none_or, List.find?_singleton,
    if_pos (decide_eq_true rfl)]
  rfl

end Reported

section Reports

open List

variable {rep : BitVec 32 → BitVec 32 → Prop} {waitFds : List FdStruct} {successful : BitVec 32}
  {log : List (ℕ × BitVec 32)}

/-- The entries of a task and its `wait_successful_` say what is in the log: one report
for an entry, of events that `rep` allows for the events it asks for. -/
structure Reports (rep : BitVec 32 → BitVec 32 → Prop) (waitFds : List FdStruct)
    (successful : BitVec 32) (log : List (ℕ × BitVec 32)) : Prop where
  once : (log.map Prod.fst).Nodup
  slots : ∀ p ∈ log, p.1 < waitFds.length
  revent : ∀ i f, waitFds[i]? = some f → f.revent = reported log i
  reportable : ∀ f ∈ waitFds, f.revent ≠ 0 → rep f.revent f.event
  -- a report without an event would not be seen in the entry
  nonzero : (∀ x y, rep x y → x ≠ 0) →
    waitFds.countP (fun f => decide (f.revent ≠ 0)) = log.length
  count : successful = BitVec.ofNat 32 log.length

theorem reports_nil {fds : List FdStruct} (h : ∀ f ∈ fds, f.revent = 0) : Reports rep fds 0 [] where
  once := nodup_nil
  slots := by simp
  revent i f hf := h f (mem_of_getElem? hf)
  reportable f hf hne := absurd (h f hf) hne
  nonzero _ := countP_eq_zero.mpr fun f hf => by simp [h f hf]
  count := rfl

theorem Reports.length_le (h : Reports rep waitFds successful log) : log.length ≤ waitFds.length := by
  have hsub : log.map Prod.fst ⊆ List.range waitFds.length := by
    intro i hi
    obtain ⟨p, hp, rfl⟩ := mem_map.mp hi
    exact mem_range.mpr (h.slots p hp)
  have hle := (subperm_of_subset h.once hsub).length_le
  rwa [length_map, length_range] at hle

theorem countP_modify {α : Type*} {p : α → Bool} {f : α → α} {l : List α} {i : ℕ} {a : α}
    (ha : l[i]? = some a) (hbefore : p a = false) (hafter : p (f a) = true) :
    (l.modify i f).countP p = l.countP p + 1 := by
  induction l generalizing i with
  | nil => simp at ha
  | cons b l ih =>
    cases i with
    | zero =>
      obtain rfl : b = a := by simpa using ha
      rw [modify_zero_cons, countP_cons_of_pos hafter,
        countP_cons_of_neg (by simp [hbefore])]
    | succ i =>
      rw [modify_succ_cons, countP_cons, countP_cons, ih (by simpa using ha)]
      omega

/-- **A report** for an entry that has none. -/
theorem Reports.report (h : Reports rep waitFds successful log) {slot : ℕ} {f : FdStruct}
    {events : BitVec 32} (hf : waitFds[slot]? = some f) (hfresh : slot ∉ log.map Prod.fst)
    (hrep : rep events f.event) :
    Reports rep (waitFds.modify slot fun f => { f with revent := events }) (successful + 1)
      (log ++ [(slot, events)]) := by
  have hzero : f.revent = 0 := (h.revent slot f hf).trans (reported_of_notMem hfresh)
  constructor
  · rw [map_append, nodup_append]
    refine ⟨h.once, nodup_singleton _, ?_⟩
    rintro a ha b hb rfl
    rw [map_singleton, mem_singleton] at hb
    rw [hb] at ha
    exact hfresh ha
  · intro p hp
    rw [length_modify]
    rcases mem_append.mp hp with hp | hp
    · exact h.slots p hp
    · rw [mem_singleton.mp hp]
      exact (List.getElem?_eq_some_iff.mp hf).1
  · intro i g hg
    rw [List.getElem?_modify] at hg
    by_cases hi : slot = i
    · subst hi
      simp only [hf, Option.map_eq_map, Option.map_some, if_true, Option.some_inj] at hg
      rw [← hg, reported_append_self hfresh]
    · simp only [if_neg hi, Option.map_eq_map, Option.map_id_fun', id_eq] at hg
      rw [reported_append_of_ne hi]
      exact h.revent i g hg
  · intro g hg hne
    obtain ⟨i, hg⟩ := mem_iff_getElem?.mp hg
    rw [List.getElem?_modify] at hg
    by_cases hi : slot = i
    · subst hi
      simp only [hf, Option.map_eq_map, Option.map_some, if_true, Option.some_inj] at hg
      rw [← hg]
      exact hrep
    · simp only [if_neg hi, Option.map_eq_map, Option.map_id_fun', id_eq] at hg
      exact h.reportable g (mem_of_getElem? hg) hne
  · intro hrep0
    have hne : events ≠ 0 := hrep0 _ _ hrep
    rw [countP_modify hf (by simp [hzero]) (by simpa using hne), h.nonzero hrep0, length_append]
    rfl
  · rw [h.count, length_append, BitVec.ofNat_add]
    rfl

end Reports

namespace IoState

open Function List

variable {τ : Type*} [DecidableEq τ] {io io' io'' : IoState τ} {tk : τ} {id : BitVec 32}

/-! ### Changes that keep the waits -/

/-- The waits of all tasks are the same, and no registration is new. -/
structure KeepsWaits (io io' : IoState τ) : Prop where
  waitFds : ∀ t, (io'.task t).waitFds_ = (io.task t).waitFds_
  successful : ∀ t, (io'.task t).waitSuccessful_ = (io.task t).waitSuccessful_
  ioBlockId : ∀ t, (io'.task t).ioBlockId_ = (io.task t).ioBlockId_
  epoll : ∀ e, ∀ r ∈ io'.kernel.epoll e, r ∈ io.kernel.epoll e
  unique : io.kernel.Unique → io'.kernel.Unique

omit [DecidableEq τ] in
theorem KeepsWaits.refl (io : IoState τ) : KeepsWaits io io :=
  ⟨fun _ => rfl, fun _ => rfl, fun _ => rfl, fun _ _ hr => hr, fun hu => hu⟩

omit [DecidableEq τ] in
theorem KeepsWaits.trans (h : KeepsWaits io io') (h' : KeepsWaits io' io'') : KeepsWaits io io'' where
  waitFds t := (h'.waitFds t).trans (h.waitFds t)
  successful t := (h'.successful t).trans (h.successful t)
  ioBlockId t := (h'.ioBlockId t).trans (h.ioBlockId t)
  epoll e r hr := h.epoll e r (h'.epoll e r hr)
  unique hu := h'.unique (h.unique hu)

omit [DecidableEq τ] in
theorem keepsWaits_kernel (htask : io'.task = io.task)
    (hepoll : ∀ e, (io'.kernel.epoll e).Sublist (io.kernel.epoll e)) : KeepsWaits io io' where
  waitFds t := by rw [htask]
  successful t := by rw [htask]
  ioBlockId t := by rw [htask]
  epoll e _ hr := (hepoll e).subset hr
  unique hu e := (hu e).sublist ((hepoll e).map _)

omit [DecidableEq τ] in
theorem keepsWaits_of_eq (htask : io'.task = io.task) (hkernel : io'.kernel.epoll = io.kernel.epoll) :
    KeepsWaits io io' :=
  keepsWaits_kernel htask fun e => by rw [hkernel]

theorem keepsWaits_modifyTask {f : IoTask τ → IoTask τ}
    (hfds : (f (io.task tk)).waitFds_ = (io.task tk).waitFds_)
    (hsucc : (f (io.task tk)).waitSuccessful_ = (io.task tk).waitSuccessful_)
    (hid : (f (io.task tk)).ioBlockId_ = (io.task tk).ioBlockId_) :
    KeepsWaits io (io.modifyTask tk f) := by
  refine ⟨fun t => ?_, fun t => ?_, fun t => ?_, fun _ _ hr => hr, fun hu => hu⟩ <;>
    by_cases ht : t = tk
  · subst ht
    simpa [modifyTask] using hfds
  · simp [modifyTask, ht]
  · subst ht
    simpa [modifyTask] using hsucc
  · simp [modifyTask, ht]
  · subst ht
    simpa [modifyTask] using hid
  · simp [modifyTask, ht]

theorem keepsWaits_decrementRef (io : IoState τ) (tk : τ) : KeepsWaits io (io.decrementRef tk) := by
  rw [decrementRef_eq]
  have hmod : KeepsWaits io (io.modifyTask tk fun t => { t with refCount_ := t.refCount_ - 1 }) :=
    keepsWaits_modifyTask rfl rfl rfl
  exact hmod.trans (keepsWaits_of_eq rfl rfl)

theorem keepsWaits_setTimer (timer : CoTimer (τ × BitVec 32)) :
    KeepsWaits io (io.setTimer tk timer) := by
  have hinc : KeepsWaits io (io.incrementRef tk) := keepsWaits_modifyTask rfl rfl rfl
  rw [setTimer]
  refine KeepsWaits.trans ?_ (keepsWaits_modifyTask rfl rfl rfl)
  exact hinc.trans (keepsWaits_of_eq rfl rfl)

omit [DecidableEq τ] in
theorem keepsWaits_collectTimers (nows : List ℤ) : KeepsWaits io (io.collectTimers nows) := by
  induction nows generalizing io with
  | nil => exact .refl io
  | cons now nows ih =>
    rw [collectTimers]
    dsimp only
    split_ifs
    · exact .refl io
    · refine KeepsWaits.trans ?_ ih
      exact keepsWaits_of_eq rfl rfl

/-- A deletion, whoever the entry belongs to. -/
theorem keepsWaits_delFd (tk : τ) (id : BitVec 32) (io : IoState τ) (f : FdStruct) :
    KeepsWaits io (delFd tk id io f) ∧
    ∀ e, ∀ r ∈ (delFd tk id io f).kernel.epoll e, (e, r.fd) ≠ f.key := by
  rw [delFd, Kernel.epollCtlDel]
  cases hfind : (io.kernel.epoll (chooseEpoll f.event)).find? fun r => decide (r.fd = f.fd) with
  | none =>
    refine ⟨.refl io, fun e r hr heq => ?_⟩
    obtain ⟨rfl, hfd⟩ := Prod.ext_iff.mp heq
    exact List.find?_eq_none.mp hfind r hr (decide_eq_true hfd)
  | some r =>
    dsimp only
    refine ⟨KeepsWaits.trans ?_ (keepsWaits_decrementRef _ tk), ?_⟩
    · refine keepsWaits_kernel rfl fun e => ?_
      show (update io.kernel.epoll (chooseEpoll f.event) _ e).Sublist _
      by_cases he : e = chooseEpoll f.event
      · subst he
        rw [update_self]
        exact filter_sublist
      · rw [update_of_ne he]
    · rw [decrementRef_eq]
      intro e r' hr'
      exact (Kernel.mem_del.mp hr').2

theorem keepsWaits_foldl_delFd (tk : τ) (id : BitVec 32) (fs : List FdStruct) (io : IoState τ) :
    KeepsWaits io (fs.foldl (delFd tk id) io) ∧
      ∀ e, ∀ r ∈ (fs.foldl (delFd tk id) io).kernel.epoll e, (e, r.fd) ∉ fs.map FdStruct.key := by
  induction fs generalizing io with
  | nil => exact ⟨.refl io, fun e r _ => by simp⟩
  | cons f fs ih =>
    obtain ⟨hkeep, hgone⟩ := keepsWaits_delFd tk id io f
    obtain ⟨hkeep', hgone'⟩ := ih (delFd tk id io f)
    refine ⟨hkeep.trans hkeep', fun e r hr => ?_⟩
    rw [map_cons, mem_cons, not_or]
    exact ⟨hgone e r (hkeep'.epoll e r hr), hgone' e r hr⟩

/-! ### Registrations and entries -/

variable {rep : BitVec 32 → BitVec 32 → Prop} {made : Finset τ} {waiting : List τ}
  {log : τ → List (ℕ × BitVec 32)}

/-- Each registration is of the current wait of a waiting task, and stands for the entry
at its slot; and the tasks agree with their logs. -/
structure Logged (io : IoState τ) (rep : BitVec 32 → BitVec 32 → Prop) (made : Finset τ)
    (waiting : List τ) (log : τ → List (ℕ × BitVec 32)) : Prop where
  unique : io.kernel.Unique
  nodup : waiting.Nodup
  mem_made : ∀ t ∈ waiting, t ∈ made
  waits : ∀ e, ∀ r ∈ io.kernel.epoll e, r.tk ∈ waiting
  current : ∀ e, ∀ r ∈ io.kernel.epoll e, r.ioBlockId = (io.task r.tk).ioBlockId_
  slot : ∀ e, ∀ r ∈ io.kernel.epoll e,
    ∃ f, (io.task r.tk).waitFds_[r.slot]? = some f ∧ f.key = (e, r.fd) ∧ f.event = r.event
  reports : ∀ t ∈ made, Reports rep (io.task t).waitFds_ (io.task t).waitSuccessful_ (log t)

omit [DecidableEq τ] in
theorem Logged.keep (h : io.Logged rep made waiting log) (hk : KeepsWaits io io') :
    io'.Logged rep made waiting log where
  unique := hk.unique h.unique
  nodup := h.nodup
  mem_made := h.mem_made
  waits e r hr := h.waits e r (hk.epoll e r hr)
  current e r hr := by rw [h.current e r (hk.epoll e r hr), hk.ioBlockId]
  slot e r hr := by
    rw [hk.waitFds]
    exact h.slot e r (hk.epoll e r hr)
  reports t ht := by
    rw [hk.waitFds, hk.successful]
    exact h.reports t ht

omit [DecidableEq τ] in
/-- Two registrations of a task at one slot are the same. -/
theorem Logged.key_eq (h : io.Logged rep made waiting log) {e e' : EpollType} {r r' : Registration τ}
    (hr : r ∈ io.kernel.epoll e) (hr' : r' ∈ io.kernel.epoll e') (htk : r'.tk = r.tk)
    (hslot : r'.slot = r.slot) : (e', r'.fd) = (e, r.fd) := by
  obtain ⟨f, hf, hkey, -⟩ := h.slot e r hr
  obtain ⟨f', hf', hkey', -⟩ := h.slot e' r' hr'
  rw [htk, hslot, hf, Option.some_inj] at hf'
  rw [← hkey', ← hkey, hf']

/-- **The end of a wait**: no registration of the task is left. -/
theorem Logged.clearFds (h : io.Logged rep made waiting log) (tk : τ) (id : BitVec 32) :
    (io.clearFds tk id).Logged rep made (waiting.erase tk) log := by
  obtain ⟨hkeep, hgone⟩ := keepsWaits_foldl_delFd tk id (io.task tk).waitFds_ io
  have hlogged := h.keep hkeep
  refine ⟨hlogged.unique, h.nodup.erase tk, fun t ht => h.mem_made t (mem_of_mem_erase ht), ?_,
    hlogged.current, hlogged.slot, hlogged.reports⟩
  intro e r hr
  have hne : r.tk ≠ tk := by
    rintro rfl
    obtain ⟨f, hf, hkey, -⟩ := h.slot e r (hkeep.epoll e r hr)
    exact hgone e r hr (hkey ▸ mem_map_of_mem (mem_of_getElem? hf))
  exact (mem_erase_of_ne hne).mpr (h.waits e r (hkeep.epoll e r hr))

/-- The registrations that the loop of `SchedulerSwitch` makes. -/
theorem mem_addFds {fs rb : List FdStruct} {slot : ℕ} {ok : Bool} {e : EpollType}
    {r : Registration τ} (hr : r ∈ (addFds tk id slot fs io rb ok).1.kernel.epoll e) :
    r ∈ io.kernel.epoll e ∨
      ∃ j f, fs[j]? = some f ∧ f.key.1 = e ∧ r = ⟨f.fd, f.event, tk, id, slot + j⟩ := by
  induction fs generalizing slot io rb ok with
  | nil => exact .inl hr
  | cons f fs ih =>
    have hnext : ∀ {j g}, fs[j]? = some g → (f :: fs)[j + 1]? = some g := fun hg => hg
    have hkernel : ((io.incrementRef tk).decrementRef tk).kernel = io.kernel := by
      rw [decrementRef_eq]
      rfl
    rw [addFds] at hr
    cases hadd : (io.incrementRef tk).kernel.epollCtlAdd (chooseEpoll f.event)
        ⟨f.fd, f.event, tk, id, slot⟩ with
    | ok k =>
      rw [hadd] at hr
      -- the sets of `k` have one entry more
      have hk : ∀ r', r' ∈ k.epoll e → r' ∈ io.kernel.epoll e ∨
          e = f.key.1 ∧ r' = ⟨f.fd, f.event, tk, id, slot⟩ := by
        intro r' hr'
        rw [Kernel.epollCtlAdd] at hadd
        split_ifs at hadd
        cases hadd
        exact Kernel.mem_add.mp hr'
      rcases ih hr with hr | ⟨j, g, hg, he, heq⟩
      · rcases hk r hr with hr | ⟨he, heq⟩
        · exact .inl hr
        · exact .inr ⟨0, f, rfl, he.symm, heq⟩
      · exact .inr ⟨j + 1, g, hnext hg, he, by rw [heq, Nat.add_assoc, Nat.add_comm 1]⟩
    | error err =>
      rw [hadd] at hr
      cases err with
      | eexist =>
        have hsub := (keepsWaits_foldl_delFd tk id rb
          ((io.incrementRef tk).decrementRef tk)).1.epoll e r hr
        exact .inl (hkernel ▸ hsub)
      | other =>
        rcases ih hr with hr | ⟨j, g, hg, he, heq⟩
        · exact .inl (hkernel ▸ hr)
        · exact .inr ⟨j + 1, g, hnext hg, he, by rw [heq, Nat.add_assoc, Nat.add_comm 1]⟩

/-- **The beginning of a wait.** -/
theorem Logged.register (h : io.Logged rep made waiting log) (hno : tk ∉ waiting) (hmade : tk ∈ made) :
    (io.register tk).1.Logged rep made (if (io.register tk).2 then waiting ++ [tk] else waiting) log := by
  obtain ⟨hbal, hadded⟩ := register_spec h.unique tk
  have htask : ∀ t, ((io.register tk).1.task t).waitFds_ = (io.task t).waitFds_ ∧
      ((io.register tk).1.task t).waitSuccessful_ = (io.task t).waitSuccessful_ ∧
      ((io.register tk).1.task t).ioBlockId_ = (io.task t).ioBlockId_ := by
    have hinc : KeepsWaits io (io.incrementRef tk) := keepsWaits_modifyTask rfl rfl rfl
    intro t
    rw [hbal.task t]
    exact ⟨hinc.waitFds t, hinc.successful t, hinc.ioBlockId t⟩
  have hreports : ∀ t ∈ made, Reports rep ((io.register tk).1.task t).waitFds_
      ((io.register tk).1.task t).waitSuccessful_ (log t) := by
    intro t ht
    rw [(htask t).1, (htask t).2.1]
    exact h.reports t ht
  cases hok : (io.register tk).2 with
  | false =>
    -- what had been added is taken out again
    rw [hok] at hadded
    obtain ⟨hu, hiff⟩ := hadded
    rw [if_neg (by simp)]
    refine ⟨hu, h.nodup, h.mem_made, fun e r hr => ?_, fun e r hr => ?_, fun e r hr => ?_, hreports⟩ <;>
      rw [hiff] at hr
    · exact h.waits e r hr
    · rw [(htask _).2.2]
      exact h.current e r hr
    · rw [(htask _).1]
      exact h.slot e r hr
  | true =>
    rw [hok] at hadded
    obtain ⟨rb, hadd⟩ := hadded
    have hnew : ∀ e, ∀ r ∈ (io.register tk).1.kernel.epoll e, r ∈ io.kernel.epoll e ∨
        ∃ j f, (io.task tk).waitFds_[j]? = some f ∧ f.key.1 = e ∧
          r = ⟨f.fd, f.event, tk, (io.task tk).ioBlockId_, j⟩ := by
      intro e r hr
      rcases mem_addFds hr with hr | ⟨j, f, hf, he, heq⟩
      · exact .inl hr
      · exact .inr ⟨j, f, hf, he, by rw [heq, Nat.zero_add]⟩
    rw [if_pos rfl]
    refine ⟨hadd.unique, ?_, fun t ht => ?_, fun e r hr => ?_, fun e r hr => ?_, fun e r hr => ?_,
      hreports⟩
    · refine nodup_append.mpr ⟨h.nodup, nodup_singleton tk, fun a ha b hb heq => hno ?_⟩
      rwa [← mem_singleton.mp hb, ← heq]
    · rcases mem_append.mp ht with ht | ht
      · exact h.mem_made t ht
      · rwa [mem_singleton.mp ht]
    · rcases hnew e r hr with hr | ⟨j, f, -, -, rfl⟩
      · exact mem_append_left _ (h.waits e r hr)
      · simp
    · rcases hnew e r hr with hr | ⟨j, f, -, -, rfl⟩
      · rw [(htask _).2.2]
        exact h.current e r hr
      · rw [(htask _).2.2]
    · rw [(htask _).1]
      rcases hnew e r hr with hr | ⟨j, f, hf, he, rfl⟩
      · exact h.slot e r hr
      · exact ⟨f, hf, by rw [← he]; rfl, rfl⟩

/-- The task, which does not wait, gets new entries. -/
theorem Logged.modifyTask (h : io.Logged rep made waiting log) (hno : tk ∉ waiting) (made' : Finset τ)
    (hmade : ∀ t, t ∈ made' ↔ t = tk ∨ t ∈ made) {f : IoTask τ → IoTask τ}
    {l : List (ℕ × BitVec 32)}
    (hreports : Reports rep (f (io.task tk)).waitFds_ (f (io.task tk)).waitSuccessful_ l) :
    (io.modifyTask tk f).Logged rep made' waiting (update log tk l) := by
  have hother : ∀ {t}, t ≠ tk → (io.modifyTask tk f).task t = io.task t := fun hne =>
    update_of_ne hne ..
  have hreg : ∀ e, ∀ r ∈ io.kernel.epoll e, r.tk ≠ tk := fun e r hr heq => hno (heq ▸ h.waits e r hr)
  refine ⟨h.unique, h.nodup, fun t ht => (hmade t).mpr (.inr (h.mem_made t ht)), h.waits, ?_, ?_, ?_⟩
  · intro e r hr
    rw [hother (hreg e r hr)]
    exact h.current e r hr
  · intro e r hr
    rw [hother (hreg e r hr)]
    exact h.slot e r hr
  · intro t ht
    by_cases htk : t = tk
    · subst htk
      rw [update_self, show (io.modifyTask t f).task t = f (io.task t) from
        update_self ..]
      exact hreports
    · rw [update_of_ne htk, hother htk]
      exact h.reports t (((hmade t).mp ht).resolve_left htk)

/-! ### The events of one call of `epoll_wait` -/

/-- The entries of a task for which there are events, with the events. -/
def reportsOf (k : Kernel τ) (e : EpollType) (evs : List (ℤ × BitVec 32)) (t : τ) :
    List (ℕ × BitVec 32) :=
  evs.filterMap fun ev => ((k.epoll e).find? fun r => decide (r.fd = ev.1)).bind fun r =>
    if r.tk = t then some (r.slot, ev.2) else none

theorem reportsOf_cons {k : Kernel τ} {e : EpollType} {ev : ℤ × BitVec 32}
    {evs : List (ℤ × BitVec 32)} {r : Registration τ}
    (hfind : (k.epoll e).find? (fun r => decide (r.fd = ev.1)) = some r) (t : τ) :
    reportsOf k e (ev :: evs) t =
      (if r.tk = t then [(r.slot, ev.2)] else []) ++ reportsOf k e evs t := by
  rw [reportsOf, filterMap_cons, hfind, Option.bind_some]
  by_cases ht : r.tk = t
  · rw [if_pos ht, if_pos ht]
    rfl
  · rw [if_neg ht, if_neg ht]
    rfl

/-- `WaitLoop` after the events for the descriptors `done`: every waiting task with a
report is noted in `set`. -/
structure Collecting (io : IoState τ) (rep : BitVec 32 → BitVec 32 → Prop) (made : Finset τ)
    (waiting : List τ)
    (log : τ → List (ℕ × BitVec 32)) (done : List (EpollType × ℤ)) (set : List (τ × BitVec 32)) :
    Prop where
  logged : io.Logged rep made waiting log
  fresh : ∀ e, ∀ r ∈ io.kernel.epoll e, r.slot ∈ (log r.tk).map Prod.fst → (e, r.fd) ∈ done
  current : ∀ st ∈ set, st.2 = (io.task st.1).ioBlockId_
  noted : ∀ t ∈ waiting, log t ≠ [] → ∃ st ∈ set, st.1 = t

omit [DecidableEq τ] in
theorem Logged.collecting (h : io.Logged rep made waiting log) (hquiet : ∀ t ∈ waiting, log t = []) :
    io.Collecting rep made waiting log [] [] where
  logged := h
  fresh e r hr hmem := by
    rw [hquiet _ (h.waits e r hr)] at hmem
    cases hmem
  current := by simp
  noted t ht hne := absurd (hquiet t ht) hne

section Events

variable {τ : Type*} [LinearOrder τ] {io : IoState τ} {rep : BitVec 32 → BitVec 32 → Prop}
  {made : Finset τ} {waiting : List τ} {log : τ → List (ℕ × BitVec 32)} {done : List (EpollType × ℤ)} {set : List (τ × BitVec 32)}
  {e : EpollType}

theorem mem_insertEpollWaitSt {st st' : τ × BitVec 32} (h : st' ∈ insertEpollWaitSt set st) :
    st' = st ∨ st' ∈ set := by
  rw [insertEpollWaitSt] at h
  split_ifs at h
  · exact .inr h
  · exact (mem_orderedInsert ..).mp h

theorem subset_insertEpollWaitSt (st : τ × BitVec 32) : set ⊆ insertEpollWaitSt set st := by
  intro st' h
  rw [insertEpollWaitSt]
  split_ifs
  · exact h
  · exact (mem_orderedInsert ..).mpr (.inr h)

theorem exists_mem_insertEpollWaitSt (st : τ × BitVec 32) :
    ∃ st' ∈ insertEpollWaitSt set st, st'.1 = st.1 := by
  rw [insertEpollWaitSt]
  split_ifs with hex
  · exact hex
  · exact ⟨st, (mem_orderedInsert ..).mpr (.inl rfl), rfl⟩

/-- The wait of the task of a registration after its event. -/
theorem Collecting.event (h : io.Collecting rep made waiting log done set) {r : Registration τ}
    {ev : ℤ × BitVec 32} (hr : r ∈ io.kernel.epoll e) (hfd : r.fd = ev.1)
    (hrep : rep ev.2 r.event) (hnew : (e, ev.1) ∉ done) :
    Collecting (io.modifyTask r.tk fun t => { t with
        waitSuccessful_ := t.waitSuccessful_ + 1
        waitFds_ := t.waitFds_.modify r.slot fun f => { f with revent := ev.2 } })
      rep made waiting (update log r.tk (log r.tk ++ [(r.slot, ev.2)])) (done ++ [(e, ev.1)])
      (insertEpollWaitSt set (r.tk, r.ioBlockId)) := by
  obtain ⟨f, hf, hkey, hevent⟩ := h.logged.slot e r hr
  have hfresh : r.slot ∉ (log r.tk).map Prod.fst := fun hmem =>
    hnew (hfd ▸ h.fresh e r hr hmem)
  have hids : ∀ t, ((io.modifyTask r.tk fun t => { t with
      waitSuccessful_ := t.waitSuccessful_ + 1
      waitFds_ := t.waitFds_.modify r.slot fun f => { f with revent := ev.2 } }).task t).ioBlockId_
        = (io.task t).ioBlockId_ := by
    intro t
    by_cases ht : t = r.tk
    · simp [modifyTask, ht]
    · simp [modifyTask, ht]
  constructor
  · refine ⟨h.logged.unique, h.logged.nodup, h.logged.mem_made, h.logged.waits, ?_, ?_, ?_⟩
    · intro e' r' hr'
      rw [hids]
      exact h.logged.current e' r' hr'
    · intro e' r' hr'
      obtain ⟨f', hf', hkey', hevent'⟩ := h.logged.slot e' r' hr'
      by_cases ht : r'.tk = r.tk
      · -- the entry is the same, up to `revent`
        rw [ht] at hf' ⊢
        refine ⟨if r.slot = r'.slot then { f' with revent := ev.2 } else f', ?_, ?_, ?_⟩
        · simp [modifyTask, List.getElem?_modify, hf']
        · rw [← hkey']
          split_ifs <;> rfl
        · rw [← hevent']
          split_ifs <;> rfl
      · refine ⟨f', ?_, hkey', hevent'⟩
        simpa [modifyTask, ht] using hf'
    · intro t ht
      by_cases htk : t = r.tk
      · subst htk
        simp only [modifyTask, update_self]
        exact (h.logged.reports _ ht).report hf hfresh (hevent ▸ hrep)
      · simp only [modifyTask, update_of_ne htk]
        exact h.logged.reports t ht
  · intro e' r' hr' hmem
    rw [mem_append]
    by_cases ht : r'.tk = r.tk
    · rw [ht, update_self, map_append, mem_append, ← ht] at hmem
      rcases hmem with hmem | hmem
      · exact .inl (h.fresh e' r' hr' hmem)
      · -- a registration with the same slot is the same
        have hslot : r'.slot = r.slot := by simpa using hmem
        rw [h.logged.key_eq hr hr' ht hslot, hfd]
        exact .inr (mem_singleton_self _)
    · rw [update_of_ne ht] at hmem
      exact .inl (h.fresh e' r' hr' hmem)
  · intro st hst
    rw [hids]
    rcases mem_insertEpollWaitSt hst with rfl | hst
    · exact h.logged.current e r hr
    · exact h.current st hst
  · intro t ht hne
    by_cases htk : t = r.tk
    · rw [htk]
      exact exists_mem_insertEpollWaitSt _
    · rw [update_of_ne htk] at hne
      obtain ⟨st, hst, heq⟩ := h.noted t ht hne
      exact ⟨st, subset_insertEpollWaitSt _ hst, heq⟩

/-- **The loop over the events** of one set, each of which is for another registration. -/
theorem Collecting.events (h : io.Collecting rep made waiting log done set)
    {evs : List (ℤ × BitVec 32)} (honce : (evs.map Prod.fst).Nodup)
    (hnew : ∀ ev ∈ evs, (e, ev.1) ∉ done)
    (hevs : ∀ ev ∈ evs, ∃ r ∈ io.kernel.epoll e, r.fd = ev.1 ∧ rep ev.2 r.event) :
    Collecting (Scheduler.State.epollEvents e evs io set).1 rep made waiting
      (fun t => log t ++ reportsOf io.kernel e evs t) (done ++ evs.map fun ev => (e, ev.1))
      (Scheduler.State.epollEvents e evs io set).2 ∧
    (Scheduler.State.epollEvents e evs io set).1.kernel = io.kernel := by
  induction evs generalizing io log done set with
  | nil =>
    refine ⟨?_, rfl⟩
    simpa [Scheduler.State.epollEvents, reportsOf] using h
  | cons ev evs ih =>
    rw [forall_mem_cons] at hnew hevs
    obtain ⟨hnot, honce⟩ := nodup_cons.mp honce
    obtain ⟨r, hr, hfd, hrep⟩ := hevs.1
    have hfind : (io.kernel.epoll e).find? (fun r' => decide (r'.fd = ev.1)) = some r :=
      hfd ▸ find?_key (h.logged.unique e) hr
    rw [Scheduler.State.epollEvents, epollEvent, hfind]
    dsimp only
    have hnew' : ∀ ev' ∈ evs, (e, ev'.1) ∉ done ++ [(e, ev.1)] := by
      intro ev' hev'
      rw [mem_append, mem_singleton, not_or]
      refine ⟨hnew.2 ev' hev', fun heq => hnot ?_⟩
      have hfst : ev'.1 = ev.1 := (Prod.ext_iff.mp heq).2
      rw [← hfst]
      exact mem_map_of_mem hev'
    obtain ⟨hrest, hkernel⟩ := ih (h.event hr hfd hrep hnew.1) honce hnew' hevs.2
    have hlog : (fun t => update log r.tk (log r.tk ++ [(r.slot, ev.2)]) t ++
        reportsOf io.kernel e evs t) = fun t => log t ++ reportsOf io.kernel e (ev :: evs) t := by
      funext t
      rw [reportsOf_cons hfind, ← append_assoc]
      by_cases ht : r.tk = t
      · rw [if_pos ht, ← ht, update_self]
      · rw [if_neg ht, append_nil, update_of_ne (Ne.symm ht)]
    rw [map_cons, append_cons, ← hlog]
    exact ⟨hrest, hkernel⟩

end Events

end IoState
