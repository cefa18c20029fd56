/-
Registrations and references of io waits.

A registration made for a task holds one reference on it.  The loops of `IoWait`
that add and delete descriptors keep the two in step, as long as every deletion hits
a registration of the task it is made for.

* `IoState.slack` — the references on a task beyond those of its registrations;
* `IoState.Balanced` — what such a loop changes: registrations of one task together
  with their references;
* `IoState.Registered` — each registration belongs to a waiting task that lists it,
  and to no other task that lists it;
* `foldl_delFd`, `addFds_spec` — the loops.
-/
import CppFeatures.IoWait
import Mathlib.Data.List.Perm.Lattice
import Mathlib.Algebra.Order.Ring.Int

/-- What has a key is what is found for it, if the keys are distinct. -/
theorem find?_key {α κ : Type*} [DecidableEq κ] {key : α → κ} {l : List α} {a : α}
    (h : (l.map key).Nodup) (ha : a ∈ l) : l.find? (fun b => decide (key b = key a)) = some a := by
  cases hf : l.find? fun b => decide (key b = key a) with
  | none =>
    rw [List.find?_eq_none] at hf
    simpa using hf a ha
  | some b =>
    have hkey : key b = key a := by simpa using List.find?_some hf
    rw [List.inj_on_of_nodup_map h (List.mem_of_find?_eq_some hf) ha hkey]

/-! ### One epoll set -/

section Epoll

variable {τ : Type*} {l : List (Registration τ)} {r r' : Registration τ} {fd : ℤ}

/-- Removing a descriptor takes out its one entry. -/
theorem perm_cons_filter_fd (h : (l.map Registration.fd).Nodup) (hr : r ∈ l) :
    l.Perm (r :: l.filter fun r' => decide (r'.fd ≠ r.fd)) := by
  induction l with
  | nil => simp at hr
  | cons x xs ih =>
    rw [List.map_cons, List.nodup_cons] at h
    rcases List.mem_cons.mp hr with rfl | hmem
    · have hall : xs.filter (fun r' => decide (r'.fd ≠ r.fd)) = xs := by
        refine List.filter_eq_self.mpr fun y hy => ?_
        have : y.fd ≠ r.fd := fun h0 => h.1 (h0 ▸ List.mem_map_of_mem hy)
        simpa using this
      rw [List.filter_cons_of_neg (by simp), hall]
    · have hne : x.fd ≠ r.fd := fun h0 => h.1 (h0 ▸ List.mem_map_of_mem hmem)
      rw [List.filter_cons_of_pos (by simpa using hne)]
      exact ((ih h.2 hmem).cons x).trans (.swap ..)

end Epoll

namespace Kernel

open List

variable {τ : Type*} {k : Kernel τ} {e e' : EpollType} {fd : ℤ} {r r' : Registration τ}

/-- The descriptor is free in the set, and epoll takes it. -/
def Addable (k : Kernel τ) (e : EpollType) (fd : ℤ) : Prop :=
  (∀ r ∈ k.epoll e, r.fd ≠ fd) ∧ k.status fd = .pollable

theorem epollCtlAdd_of_addable (h : k.Addable e r.fd) : k.epollCtlAdd e r
    = .ok { k with epoll := Function.update k.epoll e (k.epoll e ++ [r]) } := by
  have hno : ¬ ∃ r' ∈ k.epoll e, r'.fd = r.fd := fun ⟨r', hr', hfd⟩ => h.1 r' hr' hfd
  rw [epollCtlAdd, if_neg hno, if_pos h.2]

theorem mem_add : r' ∈ Function.update k.epoll e (k.epoll e ++ [r]) e' ↔
    r' ∈ k.epoll e' ∨ e' = e ∧ r' = r := by
  by_cases he : e' = e
  · subst he
    simp
  · simp [he]

theorem epollCtlDel_none (h : ∀ r ∈ k.epoll e, r.fd ≠ fd) : k.epollCtlDel e fd = none := by
  have hfind : (k.epoll e).find? (fun r => decide (r.fd = fd)) = none := by
    rw [List.find?_eq_none]
    simpa using h
  rw [epollCtlDel, hfind]

theorem epollCtlDel_some (h : ((k.epoll e).map Registration.fd).Nodup) (hr : r ∈ k.epoll e) :
    k.epollCtlDel e r.fd = some (r, { k with
      epoll := Function.update k.epoll e
        ((k.epoll e).filter fun r' => decide (r'.fd ≠ r.fd)) }) := by
  rw [epollCtlDel, find?_key h hr]

theorem mem_del : r' ∈ Function.update k.epoll e
      ((k.epoll e).filter fun r' => decide (r'.fd ≠ fd)) e' ↔
    r' ∈ k.epoll e' ∧ (e', r'.fd) ≠ (e, fd) := by
  by_cases he : e' = e
  · subst he
    simp
  · simp [he]

/-- No descriptor is twice in one epoll set. -/
def Unique (k : Kernel τ) : Prop := ∀ e, ((k.epoll e).map Registration.fd).Nodup

/-- What the sets hold for a descriptor was added for the wait `id` of `tk`. -/
def OwnAt (tk : τ) (id : BitVec 32) (k : Kernel τ) (p : EpollType × ℤ) : Prop :=
  ∀ r ∈ k.epoll p.1, r.fd = p.2 → r.tk = tk ∧ r.ioBlockId = id

variable {k₀ : Kernel τ} {tk : τ} {id : BitVec 32} {f : FdStruct} {pre rb : List FdStruct}

/-- The loop of `SchedulerSwitch` after the descriptors `pre`, started with the sets of
`k₀`: it has added those of `rb`. -/
structure Adding (k₀ : Kernel τ) (tk : τ) (id : BitVec 32) (pre rb : List FdStruct)
    (k : Kernel τ) : Prop where
  subset : rb ⊆ pre
  unique : Unique k
  status : k.status = k₀.status
  old : ∀ e, ∀ r ∈ k₀.epoll e, r ∈ k.epoll e
  new : ∀ e, ∀ r ∈ k.epoll e, r ∈ k₀.epoll e ∨
    r.tk = tk ∧ r.ioBlockId = id ∧ (e, r.fd) ∈ rb.map FdStruct.key
  addable : ∀ f ∈ rb, k₀.Addable f.key.1 f.key.2
  own : ∀ f ∈ pre, OwnAt tk id k f.key
  covered : ∀ f ∈ pre, k.status f.fd = .pollable → ∃ r ∈ k.epoll f.key.1, r.fd = f.fd

theorem Adding.init (h : Unique k₀) (tk : τ) (id : BitVec 32) : Adding k₀ tk id [] [] k₀ where
  subset := List.Subset.refl []
  unique := h
  status := rfl
  old _ _ hr := hr
  new _ _ := .inl
  addable := by simp
  own := by simp
  covered := by simp

/-- A descriptor that epoll takes. -/
theorem Adding.add (h : Adding k₀ tk id pre rb k)
    (hadd : k.Addable f.key.1 f.fd) (hfd : r.fd = f.fd) (htk : r.tk = tk) (hid : r.ioBlockId = id) :
    Adding k₀ tk id (pre ++ [f]) (rb ++ [f])
      { k with epoll := Function.update k.epoll f.key.1 (k.epoll f.key.1 ++ [r]) } where
  subset := by
    exact append_subset.mpr ⟨List.Subset.trans h.subset (subset_append_left ..),
      subset_append_right ..⟩
  unique e := by
    by_cases he : e = f.key.1
    · subst he
      simp only [Function.update_self, map_append]
      rw [nodup_append]
      refine ⟨h.unique _, nodup_singleton _, ?_⟩
      rintro _ hmem _ hr rfl
      obtain ⟨r', hr', heq⟩ := mem_map.mp hmem
      rw [map_singleton, mem_singleton] at hr
      exact hadd.1 r' hr' (heq.trans (hr.trans hfd))
    · simp only [Function.update_of_ne he]
      exact h.unique e
  status := h.status
  old e r' hr' := mem_add.mpr (.inl (h.old e r' hr'))
  new e r' hr' := by
    rw [map_append, mem_append]
    rcases mem_add.mp hr' with hr' | ⟨rfl, rfl⟩
    · exact (h.new e r' hr').imp_right fun ⟨h₁, h₂, h₃⟩ => ⟨h₁, h₂, .inl h₃⟩
    · exact .inr ⟨htk, hid, .inr (by simp [FdStruct.key, hfd])⟩
  addable g hg := by
    rcases mem_append.mp hg with hg | hg
    · exact h.addable g hg
    · rw [mem_singleton.mp hg]
      exact ⟨fun r' hr' => hadd.1 r' (h.old _ r' hr'), h.status ▸ hadd.2⟩
  own g hg r' hr' hg' := by
    rcases mem_add.mp hr' with hr' | ⟨-, rfl⟩
    · rcases mem_append.mp hg with hg | hg
      · exact h.own g hg r' hr' hg'
      · rw [mem_singleton.mp hg] at hr' hg'
        exact absurd hg' (hadd.1 r' hr')
    · exact ⟨htk, hid⟩
  covered g hg hst := by
    rcases mem_append.mp hg with hg | hg
    · obtain ⟨r', hr', hg'⟩ := h.covered g hg hst
      exact ⟨r', mem_add.mpr (.inl hr'), hg'⟩
    · rw [mem_singleton.mp hg]
      exact ⟨r, mem_add.mpr (.inr ⟨rfl, rfl⟩), hfd⟩

/-- A descriptor that is in no epoll set and that epoll does not take. -/
theorem Adding.skip (h : Adding k₀ tk id pre rb k)
    (hno : ∀ r ∈ k.epoll f.key.1, r.fd ≠ f.fd) (hst : k.status f.fd ≠ .pollable) :
    Adding k₀ tk id (pre ++ [f]) rb k :=
  { h with
    subset := List.Subset.trans h.subset (subset_append_left ..)
    own := by
      intro g hg r hr hfd
      rcases mem_append.mp hg with hg | hg
      · exact h.own g hg r hr hfd
      · rw [mem_singleton.mp hg] at hr hfd
        exact absurd hfd (hno r hr)
    covered := by
      intro g hg hpoll
      rcases mem_append.mp hg with hg | hg
      · exact h.covered g hg hpoll
      · rw [mem_singleton.mp hg] at hpoll
        exact absurd hpoll hst }

/-- The sets hold what they held before the loop. -/
theorem Adding.mem_iff (h : Adding k₀ tk id pre rb k) :
    r ∈ k.epoll e ∧ (e, r.fd) ∉ rb.map FdStruct.key ↔ r ∈ k₀.epoll e := by
  constructor
  · rintro ⟨hr, hno⟩
    exact (h.new e r hr).resolve_right fun hnew => hno hnew.2.2
  · intro hr
    refine ⟨h.old e r hr, fun hmem => ?_⟩
    obtain ⟨g, hg, heq⟩ := mem_map.mp hmem
    have hadd := h.addable g hg
    rw [heq] at hadd
    exact hadd.1 r hr rfl

/-- The sets after a loop over the descriptors `fs` that returns `ok`: all are treated,
or what had been added is taken out again. -/
def Added (k₀ : Kernel τ) (tk : τ) (id : BitVec 32) (fs : List FdStruct) (k : Kernel τ) :
    Bool → Prop
  | true => ∃ rb, Adding k₀ tk id fs rb k
  | false => Unique k ∧ ∀ e r, r ∈ k.epoll e ↔ r ∈ k₀.epoll e

theorem Adding.added {ok : Bool} (h : Adding k₀ tk id pre rb k) (hok : ok = false → rb = []) :
    Added k₀ tk id pre k ok := by
  cases ok with
  | true => exact ⟨rb, h⟩
  | false =>
    rw [hok rfl] at h
    exact ⟨h.unique, fun e r => by simpa using h.mem_iff (e := e) (r := r)⟩

end Kernel

/-- The entry was added for the wait that deletes it. -/
def Deletion.Own {τ : Type*} (d : Deletion τ) : Prop :=
  d.removed.tk = d.tk ∧ d.removed.ioBlockId = d.id

namespace IoState

open Function

variable {τ : Type*} [DecidableEq τ] {io io' io'' : IoState τ} {tk : τ} {id : BitVec 32}
  {f : FdStruct}

/-! ### References -/

/-- The number of registrations made for a task. -/
def registrations (io : IoState τ) (t : τ) : ℕ :=
  (io.kernel.epoll .read).countP (fun r => decide (r.tk = t)) +
    (io.kernel.epoll .write).countP fun r => decide (r.tk = t)

/-- The references on a task that no registration accounts for. -/
def slack (io : IoState τ) (t : τ) : ℤ := (io.task t).refCount_ - io.registrations t

/-- **References and registrations of `tk` change together**, and nothing else does. -/
structure Balanced (tk : τ) (io io' : IoState τ) : Prop where
  task : ∀ t, io'.task t = { io.task t with refCount_ := (io'.task t).refCount_ }
  slack : ∀ t, io'.slack t = io.slack t
  sDeleteList : 0 < io.slack tk → io'.sDeleteList = io.sDeleteList
  deleted : io'.deleted = io.deleted
  timerMgr : io'.timerMgr_ = io.timerMgr_
  timeoutList : io'.timeoutList_ = io.timeoutList_
  status : io'.kernel.status = io.kernel.status
  dels : (∀ d ∈ io.dels, d.Own) → ∀ d ∈ io'.dels, d.Own

theorem Balanced.refl (tk : τ) (io : IoState τ) : Balanced tk io io :=
  ⟨fun _ => rfl, fun _ => rfl, fun _ => rfl, rfl, rfl, rfl, rfl, id⟩

theorem Balanced.trans (h : Balanced tk io io') (h' : Balanced tk io' io'') :
    Balanced tk io io'' where
  task t := by rw [h'.task t, h.task t]
  slack t := (h'.slack t).trans (h.slack t)
  sDeleteList hpos := (h'.sDeleteList (h.slack tk ▸ hpos)).trans (h.sDeleteList hpos)
  deleted := h'.deleted.trans h.deleted
  timerMgr := h'.timerMgr.trans h.timerMgr
  timeoutList := h'.timeoutList.trans h.timeoutList
  status := h'.status.trans h.status
  dels := h'.dels ∘ h.dels

/-- `DecrementRef`, with the delete list. -/
theorem decrementRef_eq (io : IoState τ) (tk : τ) : io.decrementRef tk =
    { io.modifyTask tk (fun t => { t with refCount_ := t.refCount_ - 1 }) with
      sDeleteList := if (io.task tk).refCount_ = 1 then io.sDeleteList ++ [tk]
        else io.sDeleteList } := by
  have hiff : (io.task tk).refCount_ - 1 = 0 ↔ (io.task tk).refCount_ = 1 := by omega
  simp only [decrementRef, modifyTask, update_self, hiff]
  split_ifs <;> rfl

theorem refCount_eq (io : IoState τ) (t : τ) :
    (io.task t).refCount_ = io.slack t + io.registrations t := by
  rw [IoState.slack]
  omega

theorem registrations_update {e : EpollType} {l : List (Registration τ)}
    (h : io'.kernel.epoll = update io.kernel.epoll e l) (t : τ) :
    io'.registrations t + (io.kernel.epoll e).countP (fun r => decide (r.tk = t))
      = io.registrations t + l.countP fun r => decide (r.tk = t) := by
  rw [registrations, registrations, h]
  cases e with
  | read =>
    rw [update_self, update_of_ne (by decide)]
    omega
  | write =>
    rw [update_self, update_of_ne (by decide)]
    omega

theorem registrations_pos {e : EpollType} {r : Registration τ} (hr : r ∈ io.kernel.epoll e) :
    0 < io.registrations r.tk := by
  have hpos : 0 < (io.kernel.epoll e).countP fun r' => decide (r'.tk = r.tk) :=
    List.countP_pos_iff.mpr ⟨r, hr, by simp⟩
  rw [registrations]
  cases e <;> omega

theorem registrations_eq_zero {t : τ} (h : ∀ e, ∀ r ∈ io.kernel.epoll e, r.tk ≠ t) :
    io.registrations t = 0 := by
  have hzero : ∀ e, (io.kernel.epoll e).countP (fun r => decide (r.tk = t)) = 0 := fun e =>
    List.countP_eq_zero.mpr fun r hr => by simpa using h e r hr
  rw [registrations, hzero, hzero]

/-- `io'` differs from `io` in the epoll sets, the log, and the references of `tk`,
which are `n` more. -/
structure RefStep (tk : τ) (n : ℤ) (io io' : IoState τ) : Prop where
  task : io'.task = update io.task tk { io.task tk with
    refCount_ := (io.task tk).refCount_ + n }
  sDeleteList : 0 < io.slack tk → io'.sDeleteList = io.sDeleteList
  deleted : io'.deleted = io.deleted
  timerMgr : io'.timerMgr_ = io.timerMgr_
  timeoutList : io'.timeoutList_ = io.timeoutList_
  status : io'.kernel.status = io.kernel.status
  dels : (∀ d ∈ io.dels, d.Own) → ∀ d ∈ io'.dels, d.Own

/-- Such a step is balanced if `tk` has as many more registrations. -/
theorem RefStep.balanced {n : ℤ} (h : RefStep tk n io io')
    (hreg : ∀ t, (io'.registrations t : ℤ) = io.registrations t + if tk = t then n else 0) :
    Balanced tk io io' where
  task t := by
    rw [h.task]
    by_cases ht : t = tk
    · subst ht
      simp
    · simp [ht]
  slack t := by
    rw [IoState.slack, IoState.slack, hreg, h.task]
    by_cases ht : t = tk
    · subst ht
      rw [if_pos rfl, update_self]
      dsimp only
      omega
    · rw [if_neg (Ne.symm ht), update_of_ne ht, add_zero]
  sDeleteList := h.sDeleteList
  deleted := h.deleted
  timerMgr := h.timerMgr
  timeoutList := h.timeoutList
  status := h.status
  dels := h.dels

/-- A failed `EPOLL_CTL_ADD`: the reference is given back. -/
theorem balanced_inc_dec (io : IoState τ) (tk : τ) :
    Balanced tk io ((io.incrementRef tk).decrementRef tk) := by
  rw [decrementRef_eq]
  refine RefStep.balanced (n := 0) ⟨?_, ?_, rfl, rfl, rfl, rfl, id⟩ fun t => ?_
  · simp [incrementRef, modifyTask]
  · intro hpos
    have := io.refCount_eq tk
    have hne : ((io.incrementRef tk).task tk).refCount_ ≠ 1 := by
      simp only [incrementRef, modifyTask, update_self]
      omega
    exact if_neg hne
  · rw [ite_self, add_zero]
    rfl

/-- A successful `EPOLL_CTL_ADD`, with its reference. -/
theorem RefStep.balanced_add {e : EpollType} {r : Registration τ} (h : RefStep tk 1 io io')
    (htk : r.tk = tk)
    (hepoll : io'.kernel.epoll = update io.kernel.epoll e (io.kernel.epoll e ++ [r])) :
    Balanced tk io io' := by
  refine h.balanced fun t => ?_
  have hcount := registrations_update hepoll t
  simp only [List.countP_append, List.countP_singleton, htk, decide_eq_true_eq] at hcount
  split_ifs at hcount ⊢ <;> omega

/-- A successful `EPOLL_CTL_DEL`, with its reference. -/
theorem RefStep.balanced_del {e : EpollType} {r : Registration τ} (h : RefStep tk (-1) io io')
    (htk : r.tk = tk) (hu : ((io.kernel.epoll e).map Registration.fd).Nodup)
    (hr : r ∈ io.kernel.epoll e)
    (hepoll : io'.kernel.epoll = update io.kernel.epoll e
      ((io.kernel.epoll e).filter fun r' => decide (r'.fd ≠ r.fd))) :
    Balanced tk io io' := by
  refine h.balanced fun t => ?_
  have hcount := registrations_update hepoll t
  rw [(perm_cons_filter_fd hu hr).countP_eq] at hcount
  simp only [List.countP_cons, htk, decide_eq_true_eq] at hcount
  split_ifs at hcount ⊢ <;> omega

/-! ### Deleting descriptors -/

variable {fs : List FdStruct}

open Kernel

theorem delFd_spec (hu : Unique io.kernel) (hown : OwnAt tk id io.kernel f.key) :
    Unique (delFd tk id io f).kernel ∧ Balanced tk io (delFd tk id io f) ∧
      ∀ e r, r ∈ (delFd tk id io f).kernel.epoll e ↔
        r ∈ io.kernel.epoll e ∧ (e, r.fd) ≠ f.key := by
  by_cases hex : ∃ r ∈ io.kernel.epoll (chooseEpoll f.event), r.fd = f.fd
  · obtain ⟨r, hr, hfd⟩ := hex
    obtain ⟨htk, hid⟩ := hown r hr hfd
    have hdel := epollCtlDel_some (hu _) hr
    rw [hfd] at hdel
    rw [delFd, hdel]
    dsimp only
    rw [decrementRef_eq]
    refine ⟨fun e => ?_, ?_, fun e r' => mem_del⟩
    · by_cases he : e = chooseEpoll f.event
      · subst he
        simp only [modifyTask, update_self]
        exact (hu _).sublist (List.filter_sublist.map _)
      · simp only [modifyTask, update_of_ne he]
        exact hu e
    · refine RefStep.balanced_del (r := r) ⟨rfl, ?_, rfl, rfl, rfl, rfl, ?_⟩ htk (hu _) hr ?_
      · intro hpos
        have hcount := io.refCount_eq tk
        have hreg := registrations_pos hr
        rw [htk] at hreg
        have hne : (io.task tk).refCount_ ≠ 1 := by omega
        exact if_neg hne
      · intro h d hd
        rcases List.mem_append.mp hd with hd | hd
        · exact h d hd
        · rw [List.mem_singleton.mp hd]
          exact ⟨htk, hid⟩
      · rw [hfd]
        rfl
  · have hnone : ∀ r ∈ io.kernel.epoll (chooseEpoll f.event), r.fd ≠ f.fd :=
      fun r hr hfd => hex ⟨r, hr, hfd⟩
    rw [delFd, epollCtlDel_none hnone]
    refine ⟨hu, .refl tk io, fun e r => ⟨fun hr => ⟨hr, ?_⟩, And.left⟩⟩
    rintro heq
    obtain ⟨rfl, hfd⟩ := Prod.ext_iff.mp heq
    exact hnone r hr hfd

/-- **The loop over descriptors to delete.** -/
theorem foldl_delFd (hu : Unique io.kernel) (hown : ∀ f ∈ fs, OwnAt tk id io.kernel f.key) :
    Unique (fs.foldl (delFd tk id) io).kernel ∧ Balanced tk io (fs.foldl (delFd tk id) io) ∧
      ∀ e r, r ∈ (fs.foldl (delFd tk id) io).kernel.epoll e ↔
        r ∈ io.kernel.epoll e ∧ (e, r.fd) ∉ fs.map FdStruct.key := by
  induction fs generalizing io with
  | nil => exact ⟨hu, .refl tk io, fun e r => by simp⟩
  | cons f fs ih =>
    rw [List.forall_mem_cons] at hown
    obtain ⟨hu', hbal, hmem⟩ := delFd_spec hu hown.1
    obtain ⟨hu'', hbal', hmem'⟩ := ih hu' fun g hg r hr =>
      hown.2 g hg r ((hmem _ r).mp hr).1
    refine ⟨hu'', hbal.trans hbal', fun e r => ?_⟩
    rw [List.foldl_cons, hmem', hmem, List.map_cons, List.mem_cons, not_or, and_assoc]

/-! ### Adding descriptors -/

variable {k₀ : Kernel τ} {pre rb : List FdStruct}

/-- **The loop over descriptors to add.** -/
theorem addFds_spec (slot : ℕ) (ok : Bool) (h : Adding k₀ tk id pre rb io.kernel)
    (hok : ok = false → rb = []) :
    Balanced tk io (addFds tk id slot fs io rb ok).1 ∧
      Added k₀ tk id (pre ++ fs) (addFds tk id slot fs io rb ok).1.kernel
        (addFds tk id slot fs io rb ok).2 := by
  induction fs generalizing slot io rb ok pre with
  | nil =>
    rw [addFds, List.append_nil]
    exact ⟨.refl tk io, h.added hok⟩
  | cons f fs ih =>
    have hkernel : ((io.incrementRef tk).decrementRef tk).kernel = io.kernel := by
      rw [decrementRef_eq]
      rfl
    rw [addFds, show (io.incrementRef tk).kernel = io.kernel from rfl, List.append_cons pre f fs]
    by_cases hex : ∃ r ∈ io.kernel.epoll f.key.1, r.fd = f.fd
    · -- `EEXIST`: the roll-back
      have hctl : io.kernel.epollCtlAdd (chooseEpoll f.event) ⟨f.fd, f.event, tk, id, slot⟩
          = .error .eexist := if_pos hex
      have hunique : Unique ((io.incrementRef tk).decrementRef tk).kernel := hkernel ▸ h.unique
      have hrb : ∀ g ∈ rb, OwnAt tk id ((io.incrementRef tk).decrementRef tk).kernel g.key :=
        fun g hg => hkernel ▸ h.own g (h.subset hg)
      obtain ⟨hu, hbal, hmem⟩ := foldl_delFd hunique hrb
      rw [hctl]
      refine ⟨(balanced_inc_dec io tk).trans hbal, hu, fun e r => ?_⟩
      rw [hmem, hkernel, h.mem_iff]
    have hno : ∀ r ∈ io.kernel.epoll f.key.1, r.fd ≠ f.fd := fun r hr hfd => hex ⟨r, hr, hfd⟩
    by_cases hst : io.kernel.status f.fd = .pollable
    · have hctl : io.kernel.epollCtlAdd (chooseEpoll f.event) ⟨f.fd, f.event, tk, id, slot⟩ = _ :=
        epollCtlAdd_of_addable ⟨hno, hst⟩
      rw [hctl]
      have hadd : Adding k₀ tk id (pre ++ [f]) (rb ++ [f])
          ({ io.incrementRef tk with kernel := _ } : IoState τ).kernel :=
        h.add (r := ⟨f.fd, f.event, tk, id, slot⟩) ⟨hno, hst⟩ rfl rfl rfl
      obtain ⟨hbal, hadded⟩ := ih (slot + 1) true hadd (by simp)
      refine ⟨.trans ?_ hbal, hadded⟩
      exact RefStep.balanced_add ⟨rfl, fun _ => rfl, rfl, rfl, rfl, rfl, fun h => h⟩ rfl rfl
    · have hctl : io.kernel.epollCtlAdd (chooseEpoll f.event) ⟨f.fd, f.event, tk, id, slot⟩
          = .error .other := (if_neg hex).trans (if_neg hst)
      rw [hctl]
      have hskip : Adding k₀ tk id (pre ++ [f]) rb ((io.incrementRef tk).decrementRef tk).kernel :=
        hkernel ▸ h.skip hno hst
      obtain ⟨hbal, hadded⟩ := ih (slot + 1) ok hskip hok
      exact ⟨(balanced_inc_dec io tk).trans hbal, hadded⟩

end IoState
