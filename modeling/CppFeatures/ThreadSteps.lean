/-
What one step of the threads can do.

`Phase` has many positions, but a step looks at few things a thread holds there: the
processer, the list of its pass, a task in its hand, the sleep timers it was given.

* `Phase.proc`, `slist`, `given`, `hand`, `timers` — what a thread holds;
* `Phase.Same` — two positions at which it holds the same;
* `Queues.Puts` — a change to one container of tasks;
* `System.Step` — the steps, each with what it takes and where it puts it;
* `System.step_cases` — `step` makes no others, as long as the loop of `BlockWakeup` finds the
  end of its list behind a task that it has queued.
-/
import CppFeatures.Ownership
import CppFeatures.Threads

namespace Scheduler

/-! ### Changes of the queues -/

namespace Queues

variable {τ β : Type*} [DecidableEq β]

/-- `q'` has `xs` in the container `l`; the other containers, the records of the tasks and the
sleep timers are those of `q`. -/
structure Puts (q : Queues τ β) (l : Loc β) (xs : List τ) (q' : Queues τ β) : Prop where
  places : q'.places [] = Function.update (q.places []) l xs
  task : q'.task = q.task
  created : q'.created = q.created
  sleepTimerMgr : q'.sleepTimerMgr_ = q.sleepTimerMgr_

variable (q : Queues τ β)

theorem puts_same (l : Loc β) : q.Puts l (q.places [] l) q :=
  ⟨(Function.update_eq_self l (q.places [])).symm, rfl, rfl, rfl⟩

theorem puts_ioWait (xs : List τ) : q.Puts .ioWait xs { q with ioWaitTasks_ := xs } :=
  ⟨places_ioWait .., rfl, rfl, rfl⟩

theorem puts_sleepWait (xs : List τ) : q.Puts .sleepWait xs { q with sleepWaitTasks_ := xs } :=
  ⟨places_sleepWait .., rfl, rfl, rfl⟩

variable {q}

theorem puts_block {b : β} {obj : BlockObject τ} {xs : List τ} (h : obj.waitQueue_ = xs) :
    q.Puts (.block b) xs { q with block := Function.update q.block b obj } :=
  ⟨h ▸ places_block .., rfl, rfl, rfl⟩

theorem puts_user {k : WaitKey} {p : WaitPair (List τ)} {xs : List τ} (h : p.second = xs) :
    q.Puts (.user k) xs { q with userWaitTasks_ := q.userWaitTasks_.commit List.isEmpty k p } :=
  ⟨h ▸ places_user .., rfl, rfl, rfl⟩

end Queues

namespace Threads

variable {θ τ β : Type*}

/-! ### What a thread holds -/

namespace Phase

/-- The processer that was popped from `run_proc_list_`. -/
def proc : Phase τ → Option ℕ
  | .pick _ _ p => some p
  | .average _ _ p => some p
  | .picking _ _ p _ _ => some p
  | .give _ _ p _ _ _ => some p
  | .popAll _ _ p => some p
  | .pass _ _ P => some P.proc
  | .parking _ _ P _ _ => some P.proc
  | .pushList _ _ P _ => some P.proc
  | .subDone _ _ p _ _ => some p
  | .putBack _ _ p _ => some p
  | _ => none

/-- The list of `Processer::Run`. -/
def slist : Phase τ → List τ
  | .pass _ _ P => P.before ++ P.after
  | .parking _ _ P _ _ => P.before ++ P.after
  | .pushList _ _ P _ => P.before ++ P.after
  | _ => []

-- a task popped from `run_tasks_`
def given : Phase τ → List τ
  | .give _ _ _ _ _ tk => [tk]
  | _ => []

/-- A task that was taken out of its list and not queued yet. -/
def hand : Phase τ → List τ
  | .parking _ _ _ tk .wake => [tk]
  | .parking _ _ _ tk .repush => [tk]
  | .waking tk _ => [tk]
  | _ => []

/-- The task `SchedulerSwitch` or `AddWaitTask` has just queued, while the thread still
works on it. -/
def touched : Phase τ → Option τ
  | .parking _ _ _ tk _ => some tk
  | _ => none

-- a task in `SleepWait::wait_tasks_` that has no timer yet
def untimed : Phase τ → List τ
  | .parking _ _ _ tk .timer => [tk]
  | _ => []

/-- The sleep timers from `GetExpired`. -/
def timers : Phase τ → List (CoTimer τ)
  | .expiring ts => ts
  | .waking _ ts => ts
  | _ => []

/-- In the critical section of `proc_init_lock_`, with the loop counter. -/
def adding : Phase τ → Option (Option ℕ)
  | .recheck => some none
  | .create i => some (some i)
  | .unlock => some none
  | _ => none

/-- The thread holds the same at both positions; it may be done with a task it had
queued. -/
structure Same (x y : Phase τ) : Prop where
  proc : y.proc = x.proc
  slist : y.slist = x.slist
  given : y.given = x.given
  hand : y.hand = x.hand
  untimed : y.untimed = x.untimed
  timers : y.timers = x.timers
  adding : y.adding = x.adding
  touched : y.touched = none ∨ y.touched = x.touched

end Phase

variable [DecidableEq β]

/-- Where `Processer::Run` puts a task `tk` that it has taken out of its list: the next
position of the thread, and what the container `l` holds then. -/
inductive Parks (c i : ℕ) (P : Pass τ) (tk : τ) (places : Loc β → List τ) :
    Phase τ → Loc β → List τ → Prop
  | io : Parks c i P tk places (.parking c i P tk .register) .ioWait (places .ioWait ++ [tk])
  | sleep : Parks c i P tk places (.parking c i P tk .timer) .sleepWait (places .sleepWait ++ [tk])
  | block (b : β) :
    Parks c i P tk places (.parking c i P tk .unblock) (.block b) (places (.block b) ++ [tk])
  | refused (l : Loc β) : Parks c i P tk places (.parking c i P tk .repush) l (places l)
  | user (k : WaitKey) : Parks c i P tk places (.pass c i P) (.user k) (places (.user k) ++ [tk])

variable [DecidableEq θ] [LinearOrder τ]

namespace System

/-- What one step can do. -/
inductive Step (s : System θ τ β) : System θ τ β → Prop
  | setCount (n : ℕ) : Step s { s with processerCount := n }
  -- permits come and go, or nothing happens
  | permit (l : Loc β) (q : Queues τ β) (hq : s.q.Puts l (s.q.places [] l) q) :
    Step s { s with q := q }
  | jump (t : θ) (x ph : Phase τ) (hph : s.threads.pc t = x) (hsame : x.Same ph) : Step s (s.goto t ph)
  -- adding processers
  | lock (t : θ) (hph : s.threads.pc t = .tryLock) (hl : s.procInitLock_ = false) :
    Step s { s.goto t .recheck with procInitLock_ := true }
  | beginCreate (t : θ) (hph : s.threads.pc t = .recheck) (hlt : s.procCount < s.processerCount) :
    Step s (s.goto t (.create s.procCount))
  | create (t : θ) (i : ℕ) (hph : s.threads.pc t = .create i) (hi : i < s.processerCount) :
    Step s { s.goto t (.create (i + 1)) with
      runProcList_ := s.runProcList_ ++ [s.sId + 1]
      sId := s.sId + 1 }
  | endCreate (t : θ) (i : ℕ) (hph : s.threads.pc t = .create i) :
    Step s { s.goto t .unlock with procCount := i }
  | unlock (t : θ) (hph : s.threads.pc t = .unlock) :
    Step s { s.goto t .size with procInitLock_ := false }
  -- processers
  | popProc (t : θ) (c i p : ℕ) (procs : List ℕ) (hph : s.threads.pc t = .loop c i)
      (hprocs : s.runProcList_ = p :: procs) :
    Step s { s.goto t (.pick c i p) with runProcList_ := procs }
  | subDone (t : θ) (c i p : ℕ) (dc : BitVec 32) (raised : Bool)
      (hph : s.threads.pc t = .subDone c i p dc raised) :
    Step s { s.goto t (.putBack c i p raised) with
      q := { s.q with taskCount_ := s.q.taskCount_ - dc } }
  | putBack (t : θ) (c i p : ℕ) (raised : Bool) (hph : s.threads.pc t = .putBack c i p raised) :
    Step s { s.goto t (if raised then .idle else .loop c (i + 1)) with
      runProcList_ := s.runProcList_ ++ [p] }
  -- new tasks and processers
  | popTask (t : θ) (c i p ti avg : ℕ) (tk : τ) (rest : List τ)
      (hph : s.threads.pc t = .picking c i p ti avg) (htasks : s.q.runTasks_ = tk :: rest) :
    Step s { s.goto t (.give c i p ti avg tk) with q := { s.q with runTasks_ := rest } }
  | give (t : θ) (c i p ti avg : ℕ) (tk : τ) (hph : s.threads.pc t = .give c i p ti avg tk) :
    Step s ((s.goto t (.picking c i p (ti + 1) avg)).procAdd p tk)
  | giveFailed (t : θ) (c i p ti avg : ℕ) (tk : τ) (hph : s.threads.pc t = .give c i p ti avg tk) :
    Step s { s.goto t .idle with
      ended := insert tk s.ended
      failed := s.failed + 1
      lost := s.lost ++ [p]
      fault := s.fault || !addAsserts s.q p tk }
  -- the list of a pass
  | popAll (t : θ) (c i p : ℕ) (hph : s.threads.pc t = .popAll c i p) :
    Step s { s.goto t (.pass c i ⟨p, [], (s.q.proc p).runnableList_, .enter, 0⟩) with
      q := s.q.popAll p }
  | pushList (t : θ) (c i : ℕ) (P : Pass τ) (raised : Bool)
      (hph : s.threads.pc t = .pushList c i P raised) :
    Step s { s.goto t (.subDone c i P.proc P.doneCount raised) with
      q := s.q.pushAll P.proc (P.before ++ P.after) }
  -- a task of the list or one that was just queued is rewritten
  | record (t : θ) (x ph : Phase τ) (tk : τ) (T : Task β) (l : Loc β) (q : Queues τ β)
      (hph : s.threads.pc t = x) (hsame : x.Same ph) (htk : tk ∈ x.slist ∨ x.touched = some tk)
      (hproc : T.proc_ = (s.q.task tk).proc_)
      (hstate : (s.q.task tk).state_.started → T.state_.started)
      (hq : Queues.Puts { s.q with task := Function.update s.q.task tk T } l (s.q.places [] l) q) :
    Step s { s.goto t ph with q := q }
  -- the task at the iterator
  | park (t : θ) (c i : ℕ) (P : Pass τ) (tk : τ) (rest : List τ) (ph : Phase τ) (l : Loc β)
      (xs : List τ) (q : Queues τ β) (hph : s.threads.pc t = .pass c i P)
      (hafter : P.after = tk :: rest)
      (hpark : Parks c i { P with after := rest, turn := .enter } tk (s.q.places []) ph l xs)
      (hq : s.q.Puts l xs q) :
    Step s { s.goto t ph with q := q }
  | done (t : θ) (c i : ℕ) (P P' : Pass τ) (tk : τ) (rest : List τ) (ph : Phase τ)
      (hph : s.threads.pc t = .pass c i P) (hafter : P.after = tk :: rest)
      (hP : P' = { P with after := rest, turn := .enter, doneCount := P.doneCount + 1 })
      (hph' : ph = .pushList c i P' true ∨ ph = .pass c i P') :
    Step s { s.goto t ph with q := s.q.decTaskCount P.proc, ended := insert tk s.ended }
  -- the rest of a switch
  | timer (t : θ) (c i : ℕ) (P : Pass τ) (tk : τ) (timePoint : ℤ)
      (hph : s.threads.pc t = .parking c i P tk .timer) :
    Step s { s.goto t (.pass c i P) with
      q := { s.q with
        sleepTimerMgr_ := s.q.sleepTimerMgr_.expireAt ⟨s.timers.sId + 1, tk, timePoint⟩ }
      timers := s.timers.new }
  | registerFailed (t : θ) (c i : ℕ) (P : Pass τ) (tk : τ)
      (hph : s.threads.pc t = .parking c i P tk .register) (hmem : tk ∈ s.q.ioWaitTasks_) :
    Step s { s.goto t (.parking c i P tk .wake) with
      q := { s.q with ioWaitTasks_ := s.q.ioWaitTasks_.erase tk } }
  | parkWake (t : θ) (c i : ℕ) (P : Pass τ) (tk : τ)
      (hph : s.threads.pc t = .parking c i P tk .wake) :
    Step s ((s.goto t (.pass c i P)).addRunnable tk)
  | repush (t : θ) (c i : ℕ) (P : Pass τ) (tk : τ)
      (hph : s.threads.pc t = .parking c i P tk .repush) :
    Step s { s.goto t (.parking c i P tk .unblock) with q := s.q.pushRunnable P.proc tk }
  -- `DoSleep`
  | doSleep (t : θ) (now : ℤ) (hph : s.threads.pc t = .doSleep) :
    Step s { s.goto t (.expiring (s.q.sleepTimerMgr_.getExpired now 128).1) with
      q := { s.q with sleepTimerMgr_ := (s.q.sleepTimerMgr_.getExpired now 128).2 } }
  | expire (t : θ) (T : CoTimer τ) (timers : List (CoTimer τ))
      (hph : s.threads.pc t = .expiring (T :: timers)) :
    Step s { s.goto t (.waking T.fn_ timers) with
      q := { s.q with sleepWaitTasks_ := s.q.sleepWaitTasks_.erase T.fn_ }
      timers := (s.timers.deactivate T.id_).1
      fault := s.fault || !s.q.sleepWaitTasks_.contains T.fn_ }
  | expireDead (t : θ) (T : CoTimer τ) (timers : List (CoTimer τ))
      (hph : s.threads.pc t = .expiring (T :: timers)) (hdead : s.timers.active_ T.id_ = false) :
    Step s (s.goto t (.expiring timers))
  | sleepWake (t : θ) (tk : τ) (timers : List (CoTimer τ))
      (hph : s.threads.pc t = .waking tk timers) :
    Step s ((s.goto t (.expiring timers)).addRunnable tk)
  -- calls from anyone
  | createTask (t : θ) (tk : τ) (hcall : s.call t = .none) (hnew : tk ∉ s.q.created) :
    Step s { s.setCall t (.creating tk) with
      q := { s.q with
        created := insert tk s.q.created
        task := Function.update s.q.task tk {}
        taskCount_ := s.q.taskCount_ + 1 } }
  | takeOut (t : θ) (tk : τ) (inLoop : Bool) (l : Loc β) (xs : List τ) (q : Queues τ β)
      (hcall : s.call t = .none) (hl : l = .ioWait ∨ ∃ k, l = .user k)
      (htk : (s.q.places [] l).Perm (tk :: xs)) (hq : s.q.Puts l xs q) :
    Step s { s.setCall t (.waking tk inLoop) with q := q }
  | endCreateTask (t : θ) (tk : τ) (hcall : s.call t = .creating tk) :
    Step s ((s.setCall t .none).addRunnable tk)
  | endWakeup (t : θ) (tk : τ) (inLoop : Bool) (hcall : s.call t = .waking tk inLoop) :
    Step s ((s.setCall t .none).addRunnable tk)
  | wakeup (b : β) (tk : τ) (rest : List τ) (q : Queues τ β)
      (hqueue : (s.q.block b).waitQueue_ = tk :: rest) (hq : s.q.Puts (.block b) rest q) :
    Step s (addRunnable { s with q := q } tk)

/-! ### The steps of `step` -/

variable {s s' : System θ τ β} {t : θ}

theorem Step.stutter : Step s s := .permit .slist s.q (s.q.puts_same .slist)

omit [DecidableEq θ] [LinearOrder τ] [DecidableEq β] in
theorem waitQueue_addWaitTask (o : BlockObject τ) (tk : τ) :
    (o.addWaitTask tk).2 = true ∧ (o.addWaitTask tk).1.waitQueue_ = o.waitQueue_ ++ [tk] ∨
      (o.addWaitTask tk).2 = false ∧ (o.addWaitTask tk).1.waitQueue_ = o.waitQueue_ := by
  rw [BlockObject.addWaitTask]
  split_ifs
  · exact .inr ⟨rfl, BlockObject.decWakeup_waitQueue o⟩
  · exact .inl ⟨rfl, rfl⟩

theorem switch_step {c i : ℕ} {P : Pass τ} {tk : τ} {rest : List τ}
    (hph : s.threads.pc t = .pass c i P) (hafter : P.after = tk :: rest) :
    Step s (s.switch t c i P tk rest) := by
  have hmem : tk ∈ P.before ++ P.after := List.mem_append_right _ (hafter ▸ List.mem_cons_self)
  -- the task stays in the list, behind the iterator
  have hkeep : (Phase.pass c i P).Same
      (.pass c i { P with before := P.before ++ [tk], after := rest, turn := .enter }) := by
    refine ⟨rfl, ?_, rfl, rfl, rfl, rfl, rfl, .inl rfl⟩
    simp [Phase.slist, hafter]
  rw [switch]
  cases hst : (s.q.task tk).state_ with
  | runnable => exact .jump t _ _ hph hkeep
  | ioBlock => exact .park t c i P tk rest _ _ _ _ hph hafter .io (s.q.puts_ioWait _)
  | sleep => exact .park t c i P tk rest _ _ _ _ hph hafter .sleep (s.q.puts_sleepWait _)
  | sysBlock | userBlock =>
    cases hb : (s.q.task tk).block_ with
    | some b =>
      rcases waitQueue_addWaitTask (s.q.block b) tk with ⟨hr, hq⟩ | ⟨hr, hq⟩
      · simp only [hr, if_true]
        exact .park t c i P tk rest _ _ _ _ hph hafter (.block b) (Queues.puts_block hq)
      · simp only [hr]
        exact .park t c i P tk rest _ _ _ _ hph hafter (.refused (.block b))
          (Queues.puts_block hq)
    | none =>
      dsimp only
      rcases UserWait.switch_cases s.q.userWaitTasks_
        ((s.q.task tk).userWaitType_, (s.q.task tk).userWaitId_) tk with ⟨-, heq⟩ | ⟨-, heq⟩
      · simp only [heq]
        exact .record t _ _ tk { s.q.task tk with state_ := .runnable } (.user _) _ hph hkeep
          (.inl hmem) rfl (fun _ => rfl) (Queues.puts_user rfl)
      · simp only [heq, if_true]
        exact .park t c i P tk rest _ _ _ _ hph hafter (.user _) (Queues.puts_user rfl)
  | done | init | fatal =>
    refine .done t c i P _ tk rest _ hph hafter rfl ?_
    dsimp only
    split_ifs
    · exact .inl rfl
    · exact .inr rfl

/-- The state of the running task, or of one that is about to run, is marked. -/
theorem mark_step {c i : ℕ} {P : Pass τ} {tk : τ} {rest : List τ} (turn : Turn)
    (f : Task β → Task β) (hph : s.threads.pc t = .pass c i P) (hafter : P.after = tk :: rest)
    (hproc : (f (s.q.task tk)).proc_ = (s.q.task tk).proc_)
    (hstate : (s.q.task tk).state_.started → (f (s.q.task tk)).state_.started) :
    Step s { s.goto t (.pass c i { P with turn := turn }) with q := s.q.modifyTask tk f } :=
  .record t _ _ tk (f (s.q.task tk)) .slist _ hph ⟨rfl, rfl, rfl, rfl, rfl, rfl, rfl, .inl rfl⟩
    (.inl (List.mem_append_right _ (hafter ▸ List.mem_cons_self))) hproc hstate (Queues.puts_same _ _)

theorem leave_step {f : Task β → Task β} (h : s.leave t f = some s')
    (hproc : ∀ T, (f T).proc_ = T.proc_)
    (hstate : ∀ T : Task β, T.state_.started → (f T).state_.started) : Step s s' := by
  obtain ⟨⟨c, i, P, tk⟩, hrun, rfl⟩ := Option.map_eq_some_iff.mp h
  rw [running] at hrun
  split at hrun
  · rename_i c' i' P' hph
    split at hrun
    · rename_i tk' rest hturn hafter hcall
      obtain ⟨rfl, rfl, rfl, rfl⟩ : c' = c ∧ i' = i ∧ P' = P ∧ tk' = tk := by simpa using hrun
      exact mark_step .left f hph hafter (hproc _) (hstate _)
    · contradiction
  · contradiction

theorem advance_step {now : ℤ} (h : s.advance t now = some s') : Step s s' := by
  rw [advance] at h
  cases hph : s.threads.pc t <;> simp only [hph, Option.some_inj, reduceCtorEq] at h
  case checkCount | pick =>
    refine h ▸ .jump t _ _ hph ?_
    split_ifs <;> exact ⟨rfl, rfl, rfl, rfl, rfl, rfl, rfl, .inl rfl⟩
  case size | average => exact h ▸ .jump t _ _ hph ⟨rfl, rfl, rfl, rfl, rfl, rfl, rfl, .inl rfl⟩
  case tryLock =>
    split_ifs at h with hl
    · exact Option.some_inj.mp h ▸ .jump t _ _ hph ⟨rfl, rfl, rfl, rfl, rfl, rfl, rfl, .inl rfl⟩
    · exact Option.some_inj.mp h ▸ .lock t hph (Bool.eq_false_iff.mpr hl)
  case recheck =>
    split_ifs at h with hlt
    · exact h ▸ .beginCreate t hph hlt
    · exact h ▸ .jump t _ _ hph ⟨rfl, rfl, rfl, rfl, rfl, rfl, rfl, .inl rfl⟩
  case create i =>
    split_ifs at h with hi
    · exact Option.some_inj.mp h ▸ .create t i hph hi
    · exact Option.some_inj.mp h ▸ .endCreate t i hph
  case unlock => exact h ▸ .unlock t hph
  case loop c i =>
    have hsleep : Step s (s.goto t .doSleep) :=
      .jump t _ _ hph ⟨rfl, rfl, rfl, rfl, rfl, rfl, rfl, .inl rfl⟩
    split_ifs at h with hi
    · cases hprocs : s.runProcList_ with
      | nil =>
        simp only [hprocs, Option.some_inj] at h
        exact h ▸ hsleep
      | cons p procs =>
        simp only [hprocs, Option.some_inj] at h
        exact h ▸ .popProc t c i p procs hph hprocs
    · exact Option.some_inj.mp h ▸ hsleep
  case picking c i p ti avg =>
    have hpop : Step s (s.goto t (.popAll c i p)) :=
      .jump t _ _ hph ⟨rfl, rfl, rfl, rfl, rfl, rfl, rfl, .inl rfl⟩
    split_ifs at h with hti
    · cases htasks : s.q.runTasks_ with
      | nil =>
        simp only [htasks, Option.some_inj] at h
        exact h ▸ hpop
      | cons tk rest =>
        simp only [htasks, Option.some_inj] at h
        exact h ▸ .popTask t c i p ti avg tk rest hph htasks
    · exact Option.some_inj.mp h ▸ hpop
  case give c i p ti avg tk => exact h ▸ .give t c i p ti avg tk hph
  case popAll c i p => exact h ▸ .popAll t c i p hph
  case pass c i P =>
    obtain ⟨p, before, after, turn, dc⟩ := P
    cases turn <;> cases after <;> simp only [Option.some_inj, reduceCtorEq] at h
    case enter.nil => exact h ▸ .jump t _ _ hph ⟨rfl, rfl, rfl, rfl, rfl, rfl, rfl, .inl rfl⟩
    case enter.cons tk rest =>
      exact h ▸ mark_step .running (fun T => { T with state_ := .runnable }) hph rfl rfl fun _ => rfl
    case left.cons tk rest => exact h ▸ switch_step hph rfl
  case parking c i P tk k =>
    cases k <;> simp only [Option.some_inj, reduceCtorEq] at h
    case timer => exact h ▸ .timer t c i P tk _ hph
    case wake => exact h ▸ .parkWake t c i P tk hph
    case repush => exact h ▸ .repush t c i P tk hph
    case unblock =>
      exact h ▸ .record t _ _ tk { s.q.task tk with block_ := none } .slist _ hph
        ⟨rfl, rfl, rfl, rfl, rfl, rfl, rfl, .inl rfl⟩ (.inr rfl) rfl id (Queues.puts_same _ _)
  case pushList c i P raised => exact h ▸ .pushList t c i P raised hph
  case subDone c i p dc raised => exact h ▸ .subDone t c i p dc raised hph
  case putBack c i p raised => exact h ▸ .putBack t c i p raised hph
  case doSleep => exact h ▸ .doSleep t now hph
  case expiring ts =>
    cases ts with
    | nil => exact Option.some_inj.mp h ▸ .jump t _ _ hph ⟨rfl, rfl, rfl, rfl, rfl, rfl, rfl, .inl rfl⟩
    | cons T ts =>
      dsimp only at h
      by_cases hactive : (s.timers.deactivate T.id_).2 = true
      · rw [if_pos hactive, Option.some_inj] at h
        exact h ▸ .expire t T ts hph
      · rw [if_neg hactive, Option.some_inj] at h
        exact h ▸ .expireDead t T ts hph (Bool.eq_false_iff.mpr hactive)
  case waking tk ts => exact h ▸ .sleepWake t tk ts hph

omit [DecidableEq θ] [LinearOrder τ] [DecidableEq β] in
theorem waitQueue_coBlockWait (o : BlockObject τ) : o.coBlockWait.1.waitQueue_ = o.waitQueue_ := by
  rw [BlockObject.coBlockWait]
  split_ifs
  · exact BlockObject.decWakeup_waitQueue o
  · rfl

theorem wakeup_step (s : System θ τ β) (b : β) : Step s (s.wakeup b) := by
  rw [wakeup, BlockObject.wakeup]
  cases hqueue : (s.q.block b).waitQueue_ with
  | nil =>
    dsimp only
    split_ifs
    · exact .permit (.block b) _ (Queues.puts_block rfl)
    · exact .permit (.block b) _ (Queues.puts_block (by rw [BlockObject.incWakeup]; rfl))
  | cons tk rest => exact .wakeup b tk rest _ hqueue (Queues.puts_block rfl)

/-- The loop of `BlockWakeup` finds the end of its list. -/
def readsEnd : Act θ τ β → Bool
  | .endCall _ (some _) => false
  | _ => true

/-- **`step` makes no other steps.** -/
theorem step_cases {a : Act θ τ β} (hend : readsEnd a = true) (h : s.step a = some s') : Step s s' := by
  cases a with
  | setProcesserCount n =>
    rw [step, Option.some_inj] at h
    exact h ▸ .setCount n
  | run t =>
    rw [step] at h
    cases hph : s.threads.pc t with
    | idle =>
      simp only [hph, Option.some_inj] at h
      exact h ▸ .jump t _ _ hph ⟨rfl, rfl, rfl, rfl, rfl, rfl, rfl, .inl rfl⟩
    | _ => simp [hph] at h
  | advance t n => exact advance_step h
  | getcontextFailed t =>
    rw [step] at h
    cases hph : s.threads.pc t with
    | give c i p ti avg tk =>
      simp only [hph, Option.some_inj] at h
      exact h ▸ .giveFailed t c i p ti avg tk hph
    | _ => simp [hph] at h
  | register t ok =>
    rw [step] at h
    cases hph : s.threads.pc t with
    | parking c i P tk k =>
      cases k with
      | register =>
        simp only [hph] at h
        split_ifs at h with hc
        · rw [Bool.and_eq_true, List.contains_iff_mem] at hc
          exact Option.some_inj.mp h ▸ .registerFailed t c i P tk hph hc.2
        · exact Option.some_inj.mp h ▸ .jump t _ _ hph ⟨rfl, rfl, rfl, rfl, rfl, rfl, rfl, .inl rfl⟩
      | _ => simp [hph] at h
    | _ => simp [hph] at h
  | coYield t => exact leave_step h (fun _ => rfl) fun _ hT => hT
  | sleepSwitch t ms =>
    rw [step] at h
    split_ifs at h
    · exact leave_step h (fun _ => rfl) fun _ hT => hT
    · exact leave_step h (fun _ => rfl) fun _ _ => rfl
  | coBlockWait t b =>
    rw [step] at h
    dsimp only at h
    split_ifs at h with hgranted
    · obtain ⟨x, -, rfl⟩ := Option.map_eq_some_iff.mp h
      exact .permit (.block b) _ (Queues.puts_block (waitQueue_coBlockWait _))
    · exact leave_step h (fun _ => rfl) fun _ _ => rfl
  | userBlockWait t k =>
    refine leave_step h (fun _ => rfl) fun _ _ => ?_
    dsimp only
    split_ifs <;> rfl
  | ioSwitch t | finish t eptr => exact leave_step h (fun _ => rfl) fun _ _ => rfl
  | createTask t tk =>
    rw [step] at h
    cases hcall : s.call t with
    | none =>
      simp only [hcall] at h
      split_ifs at h with hnew
      exact Option.some_inj.mp h ▸ .createTask t tk hcall hnew
    | _ => simp [hcall] at h
  | userBlockWakeup t k =>
    rw [step] at h
    cases hcall : s.call t with
    | none =>
      simp only [hcall] at h
      rcases UserWait.blockWakeup_one_cases s.q.userWaitTasks_ k with
        ⟨tk, rest, hqueue, heq⟩ | ⟨hqueue, heq⟩
      · simp only [heq, Option.some_inj] at h
        exact h ▸ .takeOut t tk true (.user k) rest _ hcall (.inr ⟨k, rfl⟩) (.of_eq hqueue)
          (Queues.puts_user rfl)
      · simp only [heq, Option.some_inj] at h
        exact h ▸ .permit (.user k) _ (Queues.puts_user hqueue.symm)
    | _ => simp [hcall] at h
  | ioCancel t tk =>
    rw [step] at h
    cases hcall : s.call t with
    | none =>
      simp only [hcall] at h
      split_ifs at h with hmem
      · exact Option.some_inj.mp h ▸ .takeOut t tk false .ioWait _ _ hcall (.inl rfl)
          (List.perm_cons_erase (List.contains_iff_mem.mp hmem)) (s.q.puts_ioWait _)
      · exact Option.some_inj.mp h ▸ .stutter
    | _ => simp [hcall] at h
  | endCall t next =>
    cases next with
    | some tk => cases hend
    | none =>
      rw [step] at h
      cases hcall : s.call t with
      | none => simp [hcall] at h
      | creating tk =>
        simp only [hcall, Option.isNone_none, if_true, Option.some_inj] at h
        exact h ▸ .endCreateTask t tk hcall
      | waking tk inLoop =>
        simp only [hcall, Option.some_inj] at h
        exact h ▸ .endWakeup t tk inLoop hcall
  | wakeup b =>
    rw [step, Option.some_inj] at h
    exact h ▸ wakeup_step s b
  | tryBlockWait b =>
    rw [step, Option.some_inj] at h
    refine h ▸ .permit (.block b) _ (Queues.puts_block ?_)
    rw [BlockObject.tryBlockWait_eq]
    exact waitQueue_coBlockWait _
  | tryUserBlockWait k =>
    rw [step, Option.some_inj] at h
    rcases UserWait.tryBlockWait_cases s.q.userWaitTasks_ k with ⟨-, heq⟩ | ⟨-, heq⟩
    · rw [heq] at h
      exact h ▸ .permit (.user k) _ (Queues.puts_user rfl)
    · rw [heq] at h
      exact h ▸ .stutter

/-- `BlockWakeup` finds another task behind the one that it has queued. -/
theorem step_readsOn {a : Act θ τ β} (hon : readsEnd a = false) (h : s.step a = some s') :
    ∃ t tk tk', s' = (s.setCall t (.waking tk' true)).addRunnable tk := by
  cases a with
  | endCall t next =>
    cases next with
    | none => cases hon
    | some tk' =>
      rw [step] at h
      cases hcall : s.call t with
      | none => simp [hcall] at h
      | creating tk => simp [hcall] at h
      | waking tk inLoop =>
        simp only [hcall] at h
        split_ifs at h
        exact ⟨t, tk, tk', (Option.some_inj.mp h).symm⟩
  | _ => cases hon

end System

end Threads

end Scheduler
