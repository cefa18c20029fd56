/-
Duplicates of descriptors, over runs of the scheduler (coroutine/linux/io_wait.cpp).

An entry of an epoll set is for a descriptor number and an open file, and `close` drops it
only with the last descriptor of the file.  While a duplicate is open the entry stays and is
reported; but its number is free for other files, and no `EPOLL_CTL_DEL` reaches the entry
until `dup2` puts its file back under its number.

* `Files` — the scheduler, the open files, and the entries that `epoll_ctl` does not reach;
* `Files.step_st` — what a step is to the scheduler, if it puts no such entry back;
* `Files.own_deletions` — in every run that keeps to this, and in which no task takes a
  descriptor that a waiting task lists, `IoWait` removes its own registrations only;
* `Files.poll_assertion_holds` — the last assertion of `poll`.
-/
import CppFeatures.PollReports

namespace Scheduler

/-- A scheduler in a process whose descriptors may have duplicates.  The epoll sets of `st` are
the entries whose descriptor stands for their file. -/
structure Files (τ β : Type*) where
  st : State τ β
  -- the open file of a descriptor
  file : ℤ → ℕ
  -- how many descriptors a file has, in any process
  count : ℕ → ℕ
  -- the other entries, with their files
  stale : EpollType → List (ℕ × Registration τ)

/-- An event of `epoll_wait`, for the entry of a descriptor; with the file, if the descriptor
stands for it no longer. -/
structure FileEvent where
  file : Option ℕ
  fd : ℤ
  events : BitVec 32
deriving DecidableEq, Repr

/-- The event of an entry in one of the epoll sets of `st`. -/
def FileEvent.plain (ev : FileEvent) : ℤ × BitVec 32 := (ev.fd, ev.events)

/-- The steps of the scheduler, with duplicates of descriptors.  A `dup2` over an open
descriptor is a `close` and a `dup`. -/
inductive FileAct (τ β : Type*)
  | act (a : Act τ β)
  | openFd (fd : ℤ) (status : FdStatus) (f : ℕ)
  | dup (old new : ℤ)
  | closeFd (fd : ℤ)
  | doEpoll (nows : List ℤ) (readEvs writeEvs : List FileEvent)

-- the steps that are replaced
def Act.onFds {τ β : Type*} : Act τ β → Bool
  | .openFd _ _ | .closeFd _ | .doEpoll _ _ _ => true
  | _ => false

namespace Files

variable {τ β : Type*} [LinearOrder τ] [DecidableEq β]

/-- An event for an entry that is not in the sets of `st`: its `EpollPtr` may be in the list of
a wait that is over. -/
def staleEvent (l : List (ℕ × Registration τ)) (io : IoState τ) (f : ℕ) (ev : ℤ × BitVec 32) :
    IoState τ × Option (τ × BitVec 32) :=
  match l.find? fun x => decide (x.1 = f ∧ x.2.fd = ev.1) with
  | none => (io, none)
  | some (_, r) =>
    (io.modifyTask r.tk fun t => { t with
      waitSuccessful_ := t.waitSuccessful_ + 1
      waitFds_ :=
        if r.ioBlockId = t.ioBlockId_ then t.waitFds_.modify r.slot fun f => { f with revent := ev.2 }
        else t.waitFds_ },
    some (r.tk, r.ioBlockId))

def epollEvent (s : Files τ β) (e : EpollType) (io : IoState τ) (ev : FileEvent) :
    IoState τ × Option (τ × BitVec 32) :=
  match ev.file with
  | none => io.epollEvent e ev.plain
  | some f => staleEvent (s.stale e) io f ev.plain

/-- The events of one `epoll_wait`, and the tasks noted in `epollwait_tasks_`. -/
def epollEvents (s : Files τ β) (e : EpollType) : List FileEvent → IoState τ →
    List (τ × BitVec 32) → IoState τ × List (τ × BitVec 32)
  | [], io, set => (io, set)
  | ev :: evs, io, set =>
    let (io, st) := s.epollEvent e io ev
    s.epollEvents e evs io (match st with | none => set | some st => insertEpollWaitSt set st)

/-- Both `epoll_wait` calls of `WaitLoop`. -/
def epollWait (s : Files τ β) (io : IoState τ) (readEvs writeEvs : List FileEvent) :
    IoState τ × List (τ × BitVec 32) :=
  let (io, set) := s.epollEvents .read readEvs io []
  s.epollEvents .write writeEvs io set

/-- `IoWait::WaitLoop` -/
def ioWaitLoop (s : Files τ β) (nows : List ℤ) (readEvs writeEvs : List FileEvent) : State τ β :=
  let (io, set) := s.epollWait (s.st.io.collectTimers nows) readEvs writeEvs
  { s.st with io := io }.endWaitLoop set

def has (s : Files τ β) (e : EpollType) (ev : FileEvent) : Bool :=
  match ev.file with
  | none => (s.st.io.kernel.epoll e).any fun r => decide (r.fd = ev.fd)
  | some f => (s.stale e).any fun x => decide (x.1 = f ∧ x.2.fd = ev.fd)

/-- `epoll_wait` on one set: the events are for entries of it, each at most once. -/
def EventsOf (s : Files τ β) (e : EpollType) (evs : List FileEvent) : Prop :=
  (evs.map fun ev => (ev.file, ev.fd)).Nodup ∧ ∀ ev ∈ evs, s.has e ev = true

instance (s : Files τ β) (e : EpollType) (evs : List FileEvent) : Decidable (s.EventsOf e evs) :=
  inferInstanceAs (Decidable (_ ∧ _))

/-- The entries that `epoll_ctl` reaches again when `new` stands for the file of `old`. -/
def back (s : Files τ β) (old new : ℤ) (e : EpollType) : List (Registration τ) :=
  ((s.stale e).filter fun x => decide (x.1 = s.file old ∧ x.2.fd = new)).map Prod.snd

def setEpoll (st : State τ β) (epoll : EpollType → List (Registration τ)) : State τ β :=
  { st with io := { st.io with kernel := { st.io.kernel with epoll := epoll } } }

def step (s : Files τ β) : FileAct τ β → Option (Files τ β)
  | .act a => if a.onFds then none else (s.st.step a).map fun st => { s with st := st }
  | .openFd fd status f =>
    if s.count f = 0 then
      (s.st.step (.openFd fd status)).map fun st => { s with
        st := st
        file := Function.update s.file fd f
        count := Function.update s.count f 1 }
    else none
  | .dup old new =>
    if s.st.io.kernel.status old = .closed then none
    else (s.st.step (.openFd new (s.st.io.kernel.status old))).map fun st => { s with
      st := setEpoll st fun e => st.io.kernel.epoll e ++ s.back old new e
      file := Function.update s.file new (s.file old)
      count := Function.update s.count (s.file old) (s.count (s.file old) + 1)
      stale := fun e => (s.stale e).filter fun x => decide (¬(x.1 = s.file old ∧ x.2.fd = new)) }
  | .closeFd fd =>
    if s.st.io.kernel.status fd = .closed then none
    else (s.st.step (.closeFd fd)).map fun st =>
      let f := s.file fd
      { s with
        st := st
        count := Function.update s.count f (s.count f - 1)
        stale := fun e =>
          if s.count f > 1 then s.stale e ++
            ((s.st.io.kernel.epoll e).filter fun r => decide (r.fd = fd)).map fun r => (f, r)
          else (s.stale e).filter fun x => decide (x.1 ≠ f) }
  | .doEpoll nows readEvs writeEvs => match s.st.phase with
    | .doEpoll =>
      if s.EventsOf .read readEvs ∧ s.EventsOf .write writeEvs then
        some { s with st := { s.ioWaitLoop nows readEvs writeEvs with phase := .doTimer } }
      else none
    | _ => none

structure Init (s : Files τ β) : Prop where
  st : s.st.Init
  stale : ∀ e, s.stale e = []

variable {s u : Files τ β} {tk : τ}

/-! ### What a step is to the scheduler -/

/-- No file is put back under a number under which it is still in an epoll set. -/
def NothingBack (s : Files τ β) : FileAct τ β → Prop
  | .dup old new => ∀ e ∈ [EpollType.read, .write], s.back old new e = []
  | _ => True

instance (s : Files τ β) (a : FileAct τ β) : Decidable (s.NothingBack a) := by
  unfold NothingBack
  cases a <;> infer_instance

/-- The scheduler makes a step of its own, or its `WaitLoop` finds any of the events. -/
inductive StStep (s : Files τ β) : FileAct τ β → State τ β → Prop
  | act {a : Act τ β} {st : State τ β} (ha : a.onFds = false) (hst : s.st.step a = some st) :
      StStep s (.act a) st
  | fds {a : FileAct τ β} (a' : Act τ β) {st : State τ β} (hev : ∀ e, a'.events e = [])
      (hfree : s.st.Undisturbed a') (hst : s.st.step a' = some st) : StStep s a st
  | doEpoll {nows : List ℤ} {readEvs writeEvs : List FileEvent} (hph : s.st.phase = .doEpoll)
      (hread : s.EventsOf .read readEvs) (hwrite : s.EventsOf .write writeEvs) :
      StStep s (.doEpoll nows readEvs writeEvs)
        { s.ioWaitLoop nows readEvs writeEvs with phase := .doTimer }

theorem step_st {a : FileAct τ β} (hback : s.NothingBack a) (hst : s.step a = some u) :
    StStep s a u.st := by
  cases a with
  | act a =>
    rw [step] at hst
    split_ifs at hst with ha
    obtain ⟨st, hbase, rfl⟩ := Option.map_eq_some_iff.mp hst
    exact .act (Bool.eq_false_iff.mpr ha) hbase
  | openFd fd status f =>
    rw [step] at hst
    split_ifs at hst
    obtain ⟨st, hbase, rfl⟩ := Option.map_eq_some_iff.mp hst
    exact .fds (.openFd fd status) (fun _ => rfl) trivial hbase
  | dup old new =>
    rw [step] at hst
    split_ifs at hst
    obtain ⟨st, hbase, rfl⟩ := Option.map_eq_some_iff.mp hst
    refine .fds (.openFd new _) (fun _ => rfl) trivial (hbase.trans (congrArg some ?_))
    have hnone : (fun e => st.io.kernel.epoll e ++ s.back old new e) = st.io.kernel.epoll := by
      funext e
      rw [hback e (by cases e <;> simp), List.append_nil]
    show st = setEpoll st _
    rw [hnone]
    rfl
  | closeFd fd =>
    rw [step] at hst
    split_ifs at hst
    obtain ⟨st, hbase, rfl⟩ := Option.map_eq_some_iff.mp hst
    exact .fds (.closeFd fd) (fun _ => rfl) trivial hbase
  | doEpoll nows readEvs writeEvs =>
    rw [step] at hst
    cases hph : s.st.phase with
    | doEpoll =>
      simp only [hph] at hst
      split_ifs at hst with hev
      cases hst
      exact .doEpoll hph hev.1 hev.2
    | _ => simp [hph] at hst

/-! ### Whose registrations are removed -/

omit [DecidableEq β] in
theorem epollEvents_sameWaits {waiting : List τ} (e : EpollType) (evs : List FileEvent)
    {io : IoState τ} (set : List (τ × BitVec 32)) :
    IoState.SameWaits waiting io (s.epollEvents e evs io set).1 := by
  have hone : ∀ (io : IoState τ) (ev : FileEvent),
      IoState.SameWaits waiting io (s.epollEvent e io ev).1 := by
    intro io ev
    rw [epollEvent]
    split
    · exact IoState.epollEvent_sameWaits e _
    · rw [staleEvent]
      split
      · exact .refl _ _
      · dsimp only
        refine IoState.sameWaits_modifyTask rfl ?_
        dsimp only
        split_ifs
        · exact IoState.map_key_modify_revent _ _ _
        · rfl
  induction evs generalizing io set with
  | nil => exact .refl _ _
  | cons ev evs ih =>
    rw [epollEvents]
    exact (hone io ev).trans (ih _)

/-- The condition on a step: a task that starts to wait takes no descriptor that a waiting task
lists, and no file is put back under a number under which it is still in an epoll set. -/
def Undisturbed (s : Files τ β) : FileAct τ β → Prop
  | .act a => s.st.Undisturbed a
  | a => s.NothingBack a

instance (s : Files τ β) (a : FileAct τ β) : Decidable (s.Undisturbed a) := by
  unfold Undisturbed
  cases a <;> infer_instance

/-- Tasks have one owner, and registrations are those of the tasks in `wait_tasks_`. -/
def Inv (s : Files τ β) : Prop := (∃ U loc, s.st.OwnedAt U loc) ∧ s.st.RegisteredAt

omit [LinearOrder τ] [DecidableEq β] in
theorem Undisturbed.nothingBack {a : FileAct τ β} (h : s.Undisturbed a) : s.NothingBack a := by
  cases a with
  | act a => trivial
  | _ => exact h

theorem step_inv {a : FileAct τ β} (h : s.Inv) (hok : s.Undisturbed a) (hst : s.step a = some u) :
    u.Inv := by
  obtain ⟨⟨U, loc, hown⟩, hreg⟩ := h
  have hstep := step_st hok.nothingBack hst
  rw [Inv]
  generalize u.st = st at hstep ⊢
  cases hstep with
  | act ha hst =>
    exact ⟨⟨_, State.step_owned hown hst⟩, State.step_registered hown hreg hok hst⟩
  | fds a' hev hfree hst =>
    exact ⟨⟨_, State.step_owned hown hst⟩, State.step_registered hown hreg hfree hst⟩
  | doEpoll hph =>
    refine ⟨⟨U, hown.doEpoll hph _ _⟩, hreg.endWaitLoop ?_ _⟩
    exact (IoState.collectTimers_sameWaits _).trans
      ((epollEvents_sameWaits .read _ []).trans (epollEvents_sameWaits .write _ _))

/-- **`IoWait` only touches its own registrations**, in every run of steps that meet the
condition: every successful `EPOLL_CTL_DEL` of `Cancel` or of a roll-back removes an entry that
was added for the same wait, and no entry is left that one could reach when the wait is over. -/
theorem own_deletions (hs : ReachIf Init step Undisturbed s) :
    (∀ d ∈ s.st.io.dels, d.Own) ∧
      ∀ e, ∀ r ∈ s.st.io.kernel.epoll e, r.tk ∈ s.st.q.ioWaitTasks_ := by
  have hinv : ∀ s : Files τ β, ReachIf Init step Undisturbed s → s.Inv :=
    ReachIf.invariant (fun s h => ⟨⟨_, _, State.owned_init h.st⟩, State.registered_init h.st⟩)
      fun s u a h hok hst => step_inv h hok hst
  exact ⟨(hinv s hs).2.dels, (hinv s hs).2.waits⟩

/-- A process with the descriptors 6 and 8. -/
def start : Files ℕ Unit :=
  ⟨.start fun fd => if fd = 6 ∨ fd = 8 then .pollable else .closed, Int.toNat,
    fun f => if f = 6 ∨ f = 8 then 1 else 0, fun _ => []⟩

-- task 1 polls both; 6 is duplicated and closed, and 8 can be read
def pollAndDup : List (FileAct ℕ Unit) :=
  [.act (.createTask 1 0), .act (.run 1), .act .nextProc, .act .resume,
    .act (.enterHook (.poll [(6, POLLIN), (8, POLLIN)] (-1))), .act (.switch 0), .act .endPass,
    .act .endRunnable, .dup 6 7, .closeFd 6, .doEpoll [] [⟨none, 8, EPOLLIN⟩] [], .act (.doTimer 0),
    .act (.doSleep 0)]

-- the number 6 is used again, and task 2 reads; the first file can be read, too
def readReused : List (FileAct ℕ Unit) :=
  [.openFd 6 .pollable 0, .act (.createTask 2 0), .act (.run 1), .act .nextProc, .act .resume,
    .act .leaveHook, .act (.finish false), .act (.switch 0), .act .resume,
    .act (.enterHook (.readWrite 6 EPOLLIN (-1))), .act (.switch 0), .act .endPass,
    .act .endRunnable, .doEpoll [] [⟨some 6, 6, EPOLLIN⟩, ⟨none, 6, EPOLLIN⟩] []]

def dupAndReuse : Option (Files ℕ Unit) :=
  execIf step Undisturbed start (pollAndDup ++ readReused)

/-- Each `Cancel` has removed what its own wait had added, and could remove. -/
theorem own_deletions_dupAndReuse : ∃ s, dupAndReuse = some s ∧
    s.st.io.dels = [⟨1, 1, ⟨8, EPOLLIN, 1, 1, 1⟩⟩, ⟨2, 1, ⟨6, EPOLLIN, 2, 1, 0⟩⟩] ∧
    s.stale .read = [(6, ⟨6, EPOLLIN, 1, 1, 0⟩)] ∧ ∀ d ∈ s.st.io.dels, d.Own := by
  have hrun : dupAndReuse = some (dupAndReuse.get rfl) := rfl
  have hreach : ReachIf Init step Undisturbed (dupAndReuse.get rfl) :=
    reachIf_exec _ (.start ⟨State.init_start _, fun _ => rfl⟩) hrun
  exact ⟨_, hrun, rfl, rfl, (own_deletions hreach).1⟩

/-! ### The assertion of `poll` -/

/-- The condition on a step: epoll reports entries of descriptors that stand for their file, as
it may, and no file is put back under a number under which it is still in an epoll set. -/
def EpollReports (s : Files τ β) : FileAct τ β → Prop
  | .doEpoll nows readEvs writeEvs => (∀ ev ∈ readEvs ++ writeEvs, ev.file = none) ∧
      s.st.EpollReports (.doEpoll nows (readEvs.map FileEvent.plain) (writeEvs.map FileEvent.plain))
  | a => s.NothingBack a

instance (s : Files τ β) (a : FileAct τ β) : Decidable (s.EpollReports a) := by
  unfold EpollReports
  cases a <;> infer_instance

omit [LinearOrder τ] [DecidableEq β] in
theorem EpollReports.nothingBack {a : FileAct τ β} (h : s.EpollReports a) : s.NothingBack a := by
  cases a with
  | doEpoll nows readEvs writeEvs => trivial
  | _ => exact h

omit [DecidableEq β] in
theorem epollEvents_plain {e : EpollType} {evs : List FileEvent} (h : ∀ ev ∈ evs, ev.file = none)
    (io : IoState τ) (set : List (τ × BitVec 32)) :
    s.epollEvents e evs io set = State.epollEvents e (evs.map FileEvent.plain) io set := by
  induction evs generalizing io set with
  | nil => rfl
  | cons ev evs ih =>
    rw [List.forall_mem_cons] at h
    rw [epollEvents, epollEvent, h.1]
    exact ih h.2 _ _

omit [LinearOrder τ] [DecidableEq β] in
theorem EventsOf.plain {e : EpollType} {evs : List FileEvent} (h : s.EventsOf e evs)
    (hplain : ∀ ev ∈ evs, ev.file = none) : s.st.EventsOf e (evs.map FileEvent.plain) := by
  have hkeys : evs.map (fun ev => (ev.file, ev.fd))
      = ((evs.map FileEvent.plain).map Prod.fst).map fun fd => ((none : Option ℕ), fd) := by
    rw [List.map_map, List.map_map]
    exact List.map_congr_left fun ev hev => Prod.ext (hplain ev hev) rfl
  refine ⟨.of_map _ (hkeys ▸ h.1), fun ev hev => ?_⟩
  obtain ⟨ev, hmem, rfl⟩ := List.mem_map.mp hev
  have hhas := h.2 ev hmem
  rw [has, hplain ev hmem] at hhas
  obtain ⟨r, hr, hfd⟩ := List.any_eq_true.mp hhas
  exact ⟨r, hr, of_decide_eq_true hfd⟩

/-- **Without them, duplicates are nothing to the scheduler**: it could make the same run with
none. -/
theorem reach_st : ∀ s : Files τ β, ReachIf Init step EpollReports s →
    ReachIf State.Init State.step State.EpollReports s.st := by
  refine ReachIf.invariant (fun s h => .start h.st) fun s u a h hok hst => ?_
  have hstep := step_st hok.nothingBack hst
  generalize u.st = st at hstep ⊢
  cases hstep with
  | @act a st ha hst =>
    refine h.next (State.reportsOnly_of_events fun e => ?_) hst
    cases a with
    | doEpoll => cases ha
    | _ => rfl
  | fds a' hev hfree hst => exact h.next (State.reportsOnly_of_events hev) hst
  | @doEpoll nows readEvs writeEvs hph hread hwrite =>
    obtain ⟨hplain, hrep⟩ := hok
    rw [List.forall_mem_append] at hplain
    refine h.next hrep ?_
    rw [State.step, hph]
    dsimp only
    rw [if_pos ⟨hread.plain hplain.1, hwrite.plain hplain.2⟩, ioWaitLoop, epollWait,
      epollEvents_plain hplain.1, State.ioWaitLoop, State.epollWait]
    dsimp only
    rw [epollEvents_plain hplain.2]

variable {fds : List (ℤ × BitVec 16)} {timeout : ℤ} {revents : List (BitVec 16)}

/-- **The assertion of `poll` holds**, for arrays that an `int` can count, in every run of steps
that meet the condition: the number of entries with non-zero `revents` is `wait_successful_`. -/
theorem poll_assertion_holds (hs : ReachIf Init step EpollReports s)
    (hhook : s.st.hook tk = some (.poll fds timeout)) (hfew : fds.length < 2 ^ 31)
    (hlen : revents.length = fds.length) :
    ∃ revents', pollLoop (pollEntries (s.st.io.task tk).waitFds_) revents 0
        = (revents', (s.st.io.task tk).waitSuccessful_) ∧
      (s.st.io.task tk).waitSuccessful_.toInt = revents'.countP fun r => decide (r ≠ 0) :=
  State.pollLoop_counts (reach_st s hs) hhook hfew hlen

-- task 1 is resumed and is about to return from its `poll`
def pollResumed : Option (Files ℕ Unit) :=
  execIf step EpollReports start
    (pollAndDup ++ [.openFd 6 .pollable 0, .act (.run 1), .act .nextProc, .act .resume])

theorem poll_assertion_holds_afterDup : ∃ s, pollResumed = some s ∧
    s.st.atTurn .running = some 1 ∧ (s.st.io.task 1).waitSuccessful_ = 1 ∧
    ∃ revents', pollLoop (pollEntries (s.st.io.task 1).waitFds_) [0, 0] 0
      = (revents', (s.st.io.task 1).waitSuccessful_) := by
  have hrun : pollResumed = some (pollResumed.get rfl) := rfl
  have hhook : (pollResumed.get rfl).st.hook 1
      = some (.poll [(6, POLLIN), (8, POLLIN)] (-1)) := rfl
  obtain ⟨revents', heq, -⟩ := poll_assertion_holds
    (reachIf_exec _ (.start ⟨State.init_start _, fun _ => rfl⟩) hrun)
    hhook (by decide) (show [0, 0].length = 2 from rfl)
  exact ⟨_, hrun, rfl, rfl, revents', heq⟩

end Files

end Scheduler
