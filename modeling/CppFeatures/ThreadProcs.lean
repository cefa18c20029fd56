/-
The processers of the threads.

Several threads may find `proc_count` too low at once; `proc_init_lock_` lets one of them add
processers, and the others go on.  A thread pops a processer from `run_proc_list_`, runs it
and pushes it back.

* `System.ProcsPlaced` — every processer is in the list, with one thread, or lost when
  `getcontext` failed; one thread at most adds to them;
* `System.procs_exclusive` — in every reachable state, with no more processers than the
  largest `processer_count` that was ever set.
-/
import CppFeatures.Placement
import CppFeatures.ThreadSteps

namespace Scheduler.Threads

open Function

/-- Where a processer is. -/
inductive ProcAt (θ : Type*)
  | list
  | held (t : θ)
  | lost
deriving DecidableEq

variable {θ τ β : Type*}

namespace System

/-- No task and no processer yet, and nobody in `Run`. -/
structure Init (s : System θ τ β) : Prop where
  created : s.q.created = ∅
  taskCount : s.q.taskCount_ = 0
  places : ∀ l, s.q.places [] l = []
  proc : ∀ p, (s.q.proc p).taskCount_ = 0
  sleepTimerMgr : s.q.sleepTimerMgr_.deadlines_ = []
  runProcList : s.runProcList_ = []
  procCount : s.procCount = 0
  procInitLock : s.procInitLock_ = false
  sId : s.sId = 0
  idle : ∀ t, s.threads.pc t = .idle
  call : ∀ t, s.call t = .none
  ended : s.ended = ∅
  failed : s.failed = 0
  lost : s.lost = []
  fault : s.fault = false

/-- A new scheduler, with the option `processer_count`. -/
def start (processerCount : ℕ) : System θ τ β where
  q := ⟨∅, fun _ => {}, 0, [], fun _ => ⟨[], 0⟩, fun _ => .new 0 1, ∅, [], [], .new⟩
  timers := ⟨0, fun _ => false⟩
  runProcList_ := []
  procCount := 0
  procInitLock_ := false
  sId := 0
  processerCount := processerCount
  threads := .empty
  call _ := .none
  ended := ∅
  failed := 0
  lost := []
  fault := false

theorem init_start (n : ℕ) : Init (start n : System θ τ β) := by
  constructor
  case places =>
    intro l
    cases l <;> rfl
  all_goals first | rfl | exact fun _ => rfl

/-- The processers at each place. -/
def procs (s : System θ τ β) : ProcAt θ → List ℕ
  | .list => s.runProcList_
  | .held t => (s.threads.pc t).proc.toList
  | .lost => s.lost

structure ProcsPlaced (s : System θ τ β) (loc : ℕ → Option (ProcAt θ)) : Prop where
  places : Places s.procs loc
  all : ∀ p, loc p ≠ none ↔ 1 ≤ p ∧ p ≤ s.sId
  -- the critical section
  locked : ∀ {t}, (s.threads.pc t).adding ≠ none → s.procInitLock_ = true
  alone : ∀ {t u}, (s.threads.pc t).adding ≠ none → (s.threads.pc u).adding ≠ none → t = u
  counted : (∀ t i, (s.threads.pc t).adding ≠ some (some i)) → s.sId = s.procCount
  counting : ∀ {t i}, (s.threads.pc t).adding = some (some i) → s.sId = i

variable [DecidableEq θ] {s s' : System θ τ β} {loc : ℕ → Option (ProcAt θ)} {t : θ} {p : ℕ}
  {ph : Phase τ}

/-- What does not change for the thread that moves does not change for any. -/
theorem view_set {γ : Type*} (f : Phase τ → γ) {P : Pool θ (Phase τ)} {ph : Phase τ}
    (h : f ph = f (P.pc t)) (u : θ) : f ((P.set t ph).pc u) = f (P.pc u) := by
  rw [Pool.pc_set]
  split_ifs with hu
  · rw [hu, h]
  · rfl

theorem procs_goto (hlist : s'.runProcList_ = s.runProcList_) (hlost : s'.lost = s.lost)
    (hthreads : s'.threads = s.threads.set t ph) (hproc : ph.proc = (s.threads.pc t).proc) :
    s'.procs = s.procs := by
  funext l
  cases l with
  | list => exact hlist
  | lost => exact hlost
  | held u =>
    rw [procs, hthreads]
    exact congrArg Option.toList (view_set Phase.proc hproc u)

omit [DecidableEq θ] in
/-- Processers change their places, and nobody enters or leaves the critical section. -/
theorem ProcsPlaced.relocate (h : s.ProcsPlaced loc) {loc' : ℕ → Option (ProcAt θ)}
    (hpl : Places s'.procs loc') (hsome : ∀ p, loc' p ≠ none ↔ loc p ≠ none) (hid : s'.sId = s.sId)
    (hcount : s'.procCount = s.procCount) (hlock : s'.procInitLock_ = s.procInitLock_)
    (hadding : ∀ u, (s'.threads.pc u).adding = (s.threads.pc u).adding) : s'.ProcsPlaced loc' := by
  refine ⟨hpl, ?_, ?_, ?_, ?_, ?_⟩
  · intro p
    rw [hid, hsome]
    exact h.all p
  · intro t
    rw [hadding, hlock]
    exact h.locked
  · intro t u
    rw [hadding, hadding]
    exact h.alone
  · simp only [hadding, hid, hcount]
    exact h.counted
  · intro t i
    rw [hadding, hid]
    exact h.counting

/-- A thread moves with the processer it has. -/
theorem ProcsPlaced.goto (h : s.ProcsPlaced loc) (hlist : s'.runProcList_ = s.runProcList_)
    (hlost : s'.lost = s.lost) (hid : s'.sId = s.sId) (hcount : s'.procCount = s.procCount)
    (hlock : s'.procInitLock_ = s.procInitLock_) (hthreads : s'.threads = s.threads.set t ph)
    (hproc : ph.proc = (s.threads.pc t).proc) (hadding : ph.adding = (s.threads.pc t).adding) :
    s'.ProcsPlaced loc := by
  refine h.relocate (procs_goto hlist hlost hthreads hproc ▸ h.places) (fun _ => .rfl) hid hcount hlock
    fun u => ?_
  rw [hthreads]
  exact view_set Phase.adding hadding u

/-- A processer changes its place. -/
theorem ProcsPlaced.move (h : s.ProcsPlaced loc) {i j : ProcAt θ} {xs : List ℕ}
    (hij : j ≠ i) (hi : (s.procs i).Perm (p :: xs))
    (hpl : s'.procs = update (update s.procs i xs) j (s.procs j ++ [p]))
    (hid : s'.sId = s.sId) (hcount : s'.procCount = s.procCount)
    (hlock : s'.procInitLock_ = s.procInitLock_) (hthreads : s'.threads = s.threads.set t ph)
    (hadding : ph.adding = (s.threads.pc t).adding) :
    s'.ProcsPlaced (update loc p (some j)) := by
  have hp : loc p = some i := h.places.mem.mp (hi.mem_iff.mpr List.mem_cons_self)
  refine h.relocate (hpl ▸ h.places.move hij hi) (fun p' => ?_) hid hcount hlock fun u => ?_
  · rw [update_apply]
    split_ifs with hpp
    · simp [hpp, hp]
    · rfl
  · rw [hthreads]
    exact view_set Phase.adding hadding u

/-- The thread that took `proc_init_lock_` is the only one in the critical section. -/
theorem ProcsPlaced.lock (h : s.ProcsPlaced loc) (hph : s.threads.pc t = .tryLock)
    (hl : s.procInitLock_ = false) :
    ProcsPlaced { s.goto t .recheck with procInitLock_ := true } loc := by
  have hnone : ∀ u, (s.threads.pc u).adding = none := by
    intro u
    by_contra hu
    have := h.locked hu
    rw [hl] at this
    exact Bool.noConfusion this
  have hadd : ∀ u, ((s.threads.set t .recheck).pc u).adding ≠ none → u = t := by
    intro u hu
    by_contra hne
    rw [Pool.pc_set_of_ne _ hne] at hu
    exact hu (hnone u)
  have hnot : ∀ u i, ((s.threads.set t .recheck).pc u).adding ≠ some (some i) := by
    intro u i
    rw [Pool.pc_set]
    split_ifs
    · simp [Phase.adding]
    · simp [hnone]
  have hprocs : { s.goto t .recheck with procInitLock_ := true }.procs = s.procs :=
    procs_goto rfl rfl rfl (by rw [hph]; rfl)
  refine ⟨hprocs ▸ h.places, h.all, fun _ => rfl, fun hu hv => (hadd _ hu).trans (hadd _ hv).symm,
    fun _ => h.counted fun u i => ?_, fun hi => absurd hi (hnot _ _)⟩
  rw [hnone]
  simp

/-- The thread in the critical section moves on, and the others are not in it. -/
theorem ProcsPlaced.inside (h : s.ProcsPlaced loc) (ht : (s.threads.pc t).adding ≠ none)
    {loc' : ℕ → Option (ProcAt θ)} (hthreads : s'.threads = s.threads.set t ph)
    (hpl : Places s'.procs loc') (hall : ∀ p, loc' p ≠ none ↔ 1 ≤ p ∧ p ≤ s'.sId)
    (hlock : ph.adding ≠ none → s'.procInitLock_ = true)
    (hcounted : (∀ i, ph.adding ≠ some (some i)) → s'.sId = s'.procCount)
    (hcounting : ∀ i, ph.adding = some (some i) → s'.sId = i) : s'.ProcsPlaced loc' := by
  have hother : ∀ u, u ≠ t → (s'.threads.pc u).adding = none := by
    intro u hu
    rw [hthreads, Pool.pc_set_of_ne _ hu]
    by_contra hne
    exact hu (h.alone hne ht)
  have hself : (s'.threads.pc t).adding = ph.adding := by rw [hthreads, Pool.pc_set_self]
  have honly : ∀ u, (s'.threads.pc u).adding ≠ none → u = t := by
    intro u hu
    by_contra hne
    exact hu (hother u hne)
  refine ⟨hpl, hall, fun {u} hu => ?_, fun hu hv => (honly _ hu).trans (honly _ hv).symm, fun hn => ?_,
    fun {u i} hu => ?_⟩
  · rw [honly u hu, hself] at hu
    exact hlock hu
  · refine hcounted fun i => ?_
    rw [← hself]
    exact hn t i
  · have hut : u = t := honly u (by rw [hu]; simp)
    rw [hut, hself] at hu
    exact hcounting i hu

omit [DecidableEq θ] in
/-- While nobody creates processers, `proc_count` is their number. -/
theorem ProcsPlaced.counted_of (h : s.ProcsPlaced loc)
    (ht : (s.threads.pc t).adding = some none) : s.sId = s.procCount := by
  refine h.counted fun u i hu => ?_
  have hut : u = t := h.alone (by simp [hu]) (by simp [ht])
  rw [hut, ht] at hu
  simp at hu

/-- A new processer. -/
theorem ProcsPlaced.create (h : s.ProcsPlaced loc) {i : ℕ} (ht : (s.threads.pc t).adding ≠ none)
    (hph : s.threads.pc t = .create i) (hid : s.sId = i) :
    ProcsPlaced { s.goto t (.create (i + 1)) with
      runProcList_ := s.runProcList_ ++ [s.sId + 1]
      sId := s.sId + 1 } (update loc (s.sId + 1) (some .list)) := by
  have hnew : loc (s.sId + 1) = none := by
    by_contra hne
    have := ((h.all _).mp hne).2
    omega
  have hprocs : { s.goto t (.create (i + 1)) with
      runProcList_ := s.runProcList_ ++ [s.sId + 1]
      sId := s.sId + 1 }.procs = update s.procs .list (s.procs .list ++ [s.sId + 1]) := by
    funext l
    cases l with
    | list => rfl
    | lost => rfl
    | held u =>
      rw [update_of_ne (by simp)]
      exact congrArg Option.toList (view_set Phase.proc (by rw [hph]; rfl) u)
  refine h.inside ht rfl (hprocs ▸ h.places.push hnew) (fun p => ?_) (fun _ => h.locked ht)
    (fun hn => absurd rfl (hn (i + 1))) fun j hj => ?_
  · have hall := h.all p
    show _ ↔ 1 ≤ p ∧ p ≤ s.sId + 1
    rw [update_apply]
    split_ifs with hp
    · simp [hp]
    · rw [hall]
      omega
  · rw [Phase.adding, Option.some_inj, Option.some_inj] at hj
    rw [← hj, ← hid]

theorem procs_held (hthreads : s'.threads = s.threads.set t ph) (u : θ) :
    s'.procs (.held u) = if u = t then ph.proc.toList else s.procs (.held u) := by
  rw [procs, hthreads, Pool.pc_set]
  split_ifs <;> rfl

/-- A processer goes from the list to a thread that has none. -/
theorem procs_take (procs : List ℕ) (hnone : (s.threads.pc t).proc = none) (hp : ph.proc = some p) :
    { s.goto t ph with runProcList_ := procs }.procs
      = update (update s.procs .list procs) (.held t) (s.procs (.held t) ++ [p]) := by
  funext l
  cases l with
  | list => rfl
  | lost => rfl
  | held u =>
    rw [procs_held rfl, update_apply]
    simp only [ProcAt.held.injEq]
    split_ifs with hu
    · simp [System.procs, hnone, hp]
    · simp

/-- A processer goes from a thread to the end of the list, or is lost. -/
theorem procs_drop {l : ProcAt θ} (hs' : s'.procs l = s.procs l ++ [p])
    (hother : ∀ l', l' ≠ l → (∀ u, l' ≠ .held u) → s'.procs l' = s.procs l')
    (hthreads : s'.threads = s.threads.set t ph) (hnone : ph.proc = none) :
    s'.procs = update (update s.procs (.held t) []) l (s.procs l ++ [p]) := by
  funext l'
  by_cases hll : l' = l
  · rw [hll, update_self, hs']
  · rw [update_of_ne hll]
    cases l' with
    | held u =>
      rw [procs_held hthreads, update_apply]
      simp only [ProcAt.held.injEq]
      split_ifs
      · simp [hnone]
      · rfl
    | _ => rw [update_of_ne (by simp), hother _ hll (by simp)]

variable [LinearOrder τ] [DecidableEq β]

/-- **One step** keeps the processers where they belong. -/
theorem step_procs (h : s.ProcsPlaced loc) (hst : Step s s') : ∃ loc', s'.ProcsPlaced loc' := by
  cases hst with
  | lock t hph hl => exact ⟨loc, h.lock hph hl⟩
  | beginCreate t hph hlt =>
    have ht : (s.threads.pc t).adding ≠ none := by simp [hph, Phase.adding]
    have hprocs : (s.goto t (.create s.procCount)).procs = s.procs :=
      procs_goto rfl rfl rfl (by rw [hph]; rfl)
    refine ⟨loc, h.inside ht rfl (hprocs ▸ h.places) h.all (fun _ => h.locked ht)
      (fun hn => absurd rfl (hn s.procCount)) fun i hi => ?_⟩
    rw [Phase.adding, Option.some_inj, Option.some_inj] at hi
    exact (h.counted_of (by rw [hph]; rfl)).trans hi
  | create t i hph hi =>
    have ht : (s.threads.pc t).adding ≠ none := by simp [hph, Phase.adding]
    have hid : s.sId = i := h.counting (t := t) (by rw [hph]; rfl)
    exact ⟨_, h.create ht hph hid⟩
  | endCreate t i hph =>
    have ht : (s.threads.pc t).adding ≠ none := by simp [hph, Phase.adding]
    have hprocs : { s.goto t .unlock with procCount := i }.procs = s.procs :=
      procs_goto rfl rfl rfl (by rw [hph]; rfl)
    refine ⟨loc, h.inside ht rfl (hprocs ▸ h.places) h.all (fun _ => h.locked ht) (fun _ => ?_)
      fun j hj => nomatch hj⟩
    exact h.counting (t := t) (by rw [hph]; rfl)
  | unlock t hph =>
    have ht : (s.threads.pc t).adding ≠ none := by simp [hph, Phase.adding]
    have hprocs : { s.goto t .size with procInitLock_ := false }.procs = s.procs :=
      procs_goto rfl rfl rfl (by rw [hph]; rfl)
    exact ⟨loc, h.inside ht rfl (hprocs ▸ h.places) h.all (fun hn => absurd rfl hn)
      (fun _ => h.counted_of (by rw [hph]; rfl)) fun j hj => nomatch hj⟩
  | popProc t c i p procs hph hprocs =>
    exact ⟨_, h.move (i := .list) (j := .held t) (by simp) (.of_eq hprocs)
      (procs_take procs (by rw [hph]; rfl) rfl) rfl rfl rfl rfl (by rw [hph]; rfl)⟩
  | putBack t c i p raised hph =>
    have hheld : s.procs (.held t) = [p] := by rw [procs, hph]; rfl
    refine ⟨_, h.move (i := .held t) (j := .list) (by simp) (.of_eq hheld)
      (procs_drop rfl ?_ rfl ?_) rfl rfl rfl rfl ?_⟩
    · intro l' hl hu
      cases l' with
      | list => exact absurd rfl hl
      | held u => exact absurd rfl (hu u)
      | lost => rfl
    · split_ifs <;> rfl
    · rw [hph]
      split_ifs <;> rfl
  | giveFailed t c i p ti avg tk hph =>
    have hheld : s.procs (.held t) = [p] := by rw [procs, hph]; rfl
    refine ⟨_, h.move (i := .held t) (j := .lost) (by simp) (.of_eq hheld)
      (procs_drop rfl ?_ rfl rfl) rfl rfl rfl rfl (by rw [hph]; rfl)⟩
    intro l' hl hu
    cases l' with
    | list => rfl
    | held u => exact absurd rfl (hu u)
    | lost => exact absurd rfl hl
  | jump t _ ph hph hsame =>
    exact ⟨loc, h.goto rfl rfl rfl rfl rfl rfl (hph ▸ hsame.proc) (hph ▸ hsame.adding)⟩
  | record t _ ph _ _ _ _ hph hsame =>
    exact ⟨loc, h.goto rfl rfl rfl rfl rfl rfl (hph ▸ hsame.proc) (hph ▸ hsame.adding)⟩
  | park t _ _ _ _ _ _ _ _ _ hph _ hpark =>
    refine ⟨loc, h.goto rfl rfl rfl rfl rfl rfl ?_ ?_⟩ <;> rw [hph] <;> cases hpark <;> rfl
  | done t c i P P' tk rest ph hph hafter hP hph' =>
    have hproc : ph.proc = some P.proc ∧ ph.adding = none := by
      rcases hph' with rfl | rfl <;> exact ⟨by rw [hP]; rfl, rfl⟩
    exact ⟨loc, h.goto rfl rfl rfl rfl rfl rfl (by rw [hph, hproc.1]; rfl) (by rw [hph, hproc.2]; rfl)⟩
  | setCount | permit | createTask | takeOut | endCreateTask | endWakeup | wakeup =>
    exact ⟨loc, h.relocate h.places (fun _ => .rfl) rfl rfl rfl fun _ => rfl⟩
  | subDone t _ _ _ _ _ hph | popTask t _ _ _ _ _ _ _ hph | give t _ _ _ _ _ _ hph
  | popAll t _ _ _ hph | pushList t _ _ _ _ hph | timer t _ _ _ _ _ hph
  | registerFailed t _ _ _ _ hph | parkWake t _ _ _ _ hph | repush t _ _ _ _ hph | doSleep t _ hph
  | expire t _ _ hph | expireDead t _ _ hph | sleepWake t _ _ hph =>
    exact ⟨loc, h.goto rfl rfl rfl rfl rfl rfl (by rw [hph]; rfl) (by rw [hph]; rfl)⟩

omit [DecidableEq θ] [LinearOrder τ] [DecidableEq β] in
theorem procs_init (h : Init s) : s.ProcsPlaced fun _ => none := by
  have hprocs : s.procs = fun _ => [] := by
    funext l
    cases l with
    | list => exact h.runProcList
    | held u => rw [procs, h.idle]; rfl
    | lost => exact h.lost
  have hadding : ∀ t, (s.threads.pc t).adding = none := fun t => by rw [h.idle]; rfl
  refine ⟨hprocs ▸ places_empty, fun p => ?_, fun ht => absurd (hadding _) ht,
    fun ht => absurd (hadding _) ht, fun _ => by rw [h.sId, h.procCount], fun {t i} ht => ?_⟩
  · rw [h.sId]
    refine iff_of_false (fun hn => hn rfl) ?_
    omega
  · rw [hadding] at ht
    contradiction

/-- A step adds at most one processer, and only below `processer_count`. -/
theorem sId_step (h : s.ProcsPlaced loc) (hst : Step s s') :
    s'.sId = s.sId ∨ s'.sId ≤ s.processerCount := by
  cases hst with
  | create t i hph hi =>
    have hid : s.sId = i := h.counting (t := t) (by rw [hph]; rfl)
    right
    show s.sId + 1 ≤ s.processerCount
    omega
  | _ => exact .inl rfl

theorem reach_procs_le (N : ℕ) : ∀ s : System θ τ β,
    ReachIf (fun s => Init s ∧ s.processerCount ≤ N) step
      (fun s a => ∀ s' ∈ s.step a, s'.processerCount ≤ N) s →
    (∃ loc, s.ProcsPlaced loc) ∧ s.sId ≤ N ∧ s.processerCount ≤ N := by
  refine ReachIf.invariant (fun s h => ?_) fun s s' a hinv hok hst => ?_
  · exact ⟨⟨_, procs_init h.1⟩, by rw [h.1.sId]; exact Nat.zero_le N, h.2⟩
  · obtain ⟨⟨loc, h⟩, hN, hc⟩ := hinv
    have hc' : s'.processerCount ≤ N := hok s' hst
    cases hend : readsEnd a with
    | true =>
      have hstep := step_cases hend hst
      refine ⟨step_procs h hstep, ?_, hc'⟩
      rcases sId_step h hstep with hid | hid <;> omega
    | false =>
      obtain ⟨t, tk, tk', rfl⟩ := step_readsOn hend hst
      exact ⟨⟨loc, h.relocate h.places (fun _ => .rfl) rfl rfl rfl fun _ => rfl⟩, hN, hc⟩

/-- **Processers are exclusive.**  With any number of threads in `Run`, every processer that
was made is in `run_proc_list_` or held by a thread (or lost with an exception), and in one
place only; so no two threads run one processer.  At most one thread adds processers, and
when none does `proc_count` is their number.  There are never more than the largest
`processer_count` there was. -/
theorem procs_exclusive (N : ℕ) (hs : ReachIf (fun s => Init s ∧ s.processerCount ≤ N) step
      (fun s a => ∀ s' ∈ s.step a, s'.processerCount ≤ N) s) :
    (∀ p, 1 ≤ p → p ≤ s.sId → ∃! l, p ∈ s.procs l) ∧
      (∀ l, (s.procs l).Nodup) ∧ (∀ l, ∀ p ∈ s.procs l, 1 ≤ p ∧ p ≤ s.sId) ∧
      (∀ t u, (s.threads.pc t).adding ≠ none → (s.threads.pc u).adding ≠ none → t = u) ∧
      ((∀ t i, s.threads.pc t ≠ .create i) → s.sId = s.procCount) ∧ s.sId ≤ N := by
  obtain ⟨⟨loc, h⟩, hN, -⟩ := reach_procs_le N s hs
  refine ⟨fun p h1 hp => ?_, h.places.nodup, fun l p hp => ?_, fun t u => h.alone, fun hn => ?_, hN⟩
  · obtain ⟨l, hl⟩ := Option.ne_none_iff_exists'.mp ((h.all p).mpr ⟨h1, hp⟩)
    exact ⟨l, h.places.mem.mpr hl, fun l' hl' => h.places.unique hl' (h.places.mem.mpr hl)⟩
  · exact (h.all p).mp (by simp [h.places.mem.mp hp])
  · refine h.counted fun t i hi => hn t i ?_
    cases hph : s.threads.pc t with
    | create j => simpa [hph, Phase.adding] using hi
    | _ => simp [hph, Phase.adding] at hi

instance (N : ℕ) (s : System θ τ β) (a : Act θ τ β) :
    Decidable (∀ s' ∈ s.step a, s'.processerCount ≤ N) :=
  decidable_of_iff ((s.step a).all fun s' => decide (s'.processerCount ≤ N)) (by
    cases s.step a <;> simp)

-- both threads find `proc_count` too low, one adds, and the other takes the first processer
-- before the second is there
def raceToAdd : List (Act ℕ ℕ Unit) :=
  [.run 0, .run 1, .advance 0 0, .advance 1 0, .advance 0 0, .advance 0 0, .advance 0 0,
    .advance 1 0, .advance 1 0, .advance 1 0, .advance 0 0]

theorem procs_exclusive_race : ∃ s : System ℕ ℕ Unit,
    execIf step (fun s a => ∀ s' ∈ s.step a, s'.processerCount ≤ 2) (start 2) raceToAdd = some s ∧
      s.procs .list = [2] ∧ s.procs (.held 1) = [1] ∧ (∀ l, (s.procs l).Nodup) ∧ s.sId ≤ 2 := by
  refine ⟨_, rfl, rfl, rfl, ?_⟩
  have h := procs_exclusive (β := Unit) 2
    (reachIf_exec raceToAdd (.start ⟨init_start 2, Nat.le_refl 2⟩) rfl)
  exact ⟨h.2.1, h.2.2.2.2.2⟩

end System

end Scheduler.Threads
