/-
The tasks of the threads.

A task that has been created is in one queue, in the list of one pass, or in the hand of one
thread.  Waking a task only needs its queue, so another thread may wake it while the thread
that has just parked it still works on it.

* `System.Owned` — where each task is, and whose it is;
* `System.Owned.put` — one task comes, goes, moves or changes;
* `System.step_owned` — one step keeps this, and fails no assertion.
-/
import CppFeatures.ThreadProcs

namespace Scheduler.Threads

open Function

/-- What a thread has a task for: in the list of its pass, popped from `run_tasks_`, on the
way to a processer, created, or taken out of a wait structure. -/
inductive Hold
  | slist
  | given
  | hand
  | creating
  | waking
deriving DecidableEq

/-- Where a task is: in a shared queue, or with a thread. -/
inductive Place (θ β : Type*)
  | shared (l : Loc β)
  | held (t : θ) (k : Hold)
deriving DecidableEq

-- the places of tasks that have a processer and are not in its pass
def Place.away {θ β : Type*} : Place θ β → Bool
  | .shared .runTasks => false
  | .shared _ => true
  | .held _ .hand => true
  | .held _ .waking => true
  | _ => false

variable {θ τ β : Type*}

namespace UserCall

def created : UserCall τ → List τ
  | .creating tk => [tk]
  | _ => []

def woken : UserCall τ → List τ
  | .waking tk _ => [tk]
  | _ => []

end UserCall

/-- A thread keeps its processer as long as it has a list, and works on the task it had
queued, or on `new`, which was in its list. -/
structure Phase.Goes (new : Option τ) (x y : Phase τ) : Prop where
  proc : y.slist = [] ∨ y.proc = x.proc
  touched : ∀ tk, y.touched = some tk →
    y.proc = x.proc ∧ (x.touched = some tk ∨ new = some tk ∧ tk ∈ x.slist)

theorem Phase.Goes.refl {new : Option τ} (x : Phase τ) : x.Goes new x :=
  ⟨.inr rfl, fun _ h => ⟨rfl, .inl h⟩⟩

theorem Phase.Same.goes {x y : Phase τ} (h : x.Same y) : x.Goes none y := by
  refine ⟨.inr h.proc, fun tk hx => ⟨h.proc, .inl ?_⟩⟩
  rcases h.touched with hn | ht
  · rw [hn] at hx
    contradiction
  · exact ht ▸ hx

namespace System

def holds (s : System θ τ β) (t : θ) : Hold → List τ
  | .slist => (s.threads.pc t).slist
  | .given => (s.threads.pc t).given
  | .hand => (s.threads.pc t).hand
  | .creating => (s.call t).created
  | .waking => (s.call t).woken

/-- The tasks at each place. -/
def places (s : System θ τ β) : Place θ β → List τ
  | .shared l => s.q.places [] l
  | .held t k => s.holds t k

/-- The record of a task that is at a place. -/
def Fits (s : System θ τ β) (T : Task β) : Place θ β → Prop
  | .shared .runTasks | .held _ .given | .held _ .creating => T.state_ = .init ∧ T.proc_ = none
  | .shared (.runnable p) => T.state_.started ∧ T.proc_ = some p
  | .held t .slist => T.state_.started ∧ T.proc_ = (s.threads.pc t).proc ∧ T.proc_ ≠ none
  | _ => T.state_.started ∧ T.proc_ ≠ none

/-- **Ownership.**  `loc` says where each task is that was created and not given up. -/
structure Owned (s : System θ τ β) (loc : τ → Option (Place θ β)) : Prop where
  places : Places s.places loc
  live : ∀ {tk}, loc tk ≠ none ↔ tk ∈ s.q.created ∧ tk ∉ s.ended
  ended : s.ended ⊆ s.q.created
  fits : ∀ {tk w}, loc tk = some w → s.Fits (s.q.task tk) w
  -- a task that was parked or woken again, and not resumed
  touched : ∀ {tk t}, (s.threads.pc t).touched = some tk →
    (∃ w, loc tk = some w ∧ w.away = true) ∧ (s.q.task tk).proc_ = (s.threads.pc t).proc

variable {s s' : System θ τ β} {loc : τ → Option (Place θ β)} {t : θ} {tk : τ} {ph : Phase τ}
  {w : Place θ β} {z : Option (Place θ β)} {xs : List τ} {new : Option τ} {T : Task β}

theorem Fits.started (h : s.Fits T w) (hw : w.away = true ∨ ∃ t, w = .held t .slist) :
    T.state_.started ∧ T.proc_ ≠ none := by
  unfold Fits at h
  grind [Place.away]

theorem Fits.congr (h : s.Fits T w) {T' : Task β}
    (hstate : T'.state_ = T.state_ ∨ T.state_.started ∧ T'.state_.started) (hproc : T'.proc_ = T.proc_)
    (hp : ∀ u, w = .held u .slist → (s'.threads.pc u).proc = (s.threads.pc u).proc) :
    s'.Fits T' w := by
  unfold Fits at h ⊢
  grind [TaskState.started]

/-- No record changes, and no task is created or given up. -/
structure SameTasks (s s' : System θ τ β) : Prop where
  task : s'.q.task = s.q.task
  created : s'.q.created = s.q.created
  ended : s'.ended = s.ended

/-- **Tasks move** to other places that fit them. -/
theorem Owned.relocate (h : s.Owned loc) {loc' : τ → Option (Place θ β)} (hsame : s.SameTasks s')
    (hpl : Places s'.places loc') (hlive : ∀ x, loc' x = none ↔ loc x = none)
    (hfits : ∀ x w, loc' x = some w → loc x = some w ∨ s'.Fits (s.q.task x) w)
    (hgo : ∀ u, (s.threads.pc u).Goes none (s'.threads.pc u))
    (haway : ∀ u x w, (s'.threads.pc u).touched = some x → loc x = some w → w.away = true →
      ∃ w', loc' x = some w' ∧ w'.away = true) : s'.Owned loc' := by
  refine ⟨hpl, fun {x} => ?_, ?_, fun {x w} hx => ?_, fun {x u} hx => ?_⟩
  · rw [hsame.created, hsame.ended, Ne, hlive]
    exact h.live
  · rw [hsame.created, hsame.ended]
    exact h.ended
  · rw [hsame.task]
    rcases hfits x w hx with hw | hw
    · refine (h.fits hw).congr (.inl rfl) rfl ?_
      rintro u rfl
      refine (hgo u).proc.resolve_left fun hnil => ?_
      have hmem := hpl.mem.mpr hx
      rw [System.places, holds, hnil] at hmem
      exact List.not_mem_nil hmem
    · exact hw
  · obtain ⟨hproc, htouched | ⟨hn, -⟩⟩ := (hgo u).touched x hx
    · obtain ⟨⟨w, hw, ha⟩, hp⟩ := h.touched htouched
      rw [hsame.task, hproc]
      exact ⟨haway u x w hx hw ha, hp⟩
    · contradiction

/-- Nothing moves. -/
theorem Owned.congr (h : s.Owned loc) (hsame : s.SameTasks s')
    (hpl : ∀ v, (s'.places v).Perm (s.places v))
    (hgo : ∀ u, (s.threads.pc u).Goes none (s'.threads.pc u)) : s'.Owned loc :=
  h.relocate hsame (h.places.perm hpl) (fun _ => .rfl) (fun _ _ => .inl) hgo fun _ _ w _ hx hw => ⟨w, hx, hw⟩

/-- No thread moves. -/
theorem Owned.still (h : s.Owned loc) (hsame : s.SameTasks s') (hthreads : s'.threads = s.threads)
    (hcall : s'.call = s.call) (hq : s'.q.places [] = s.q.places []) : s'.Owned loc := by
  refine h.congr hsame (fun v => .of_eq ?_) fun u => hthreads ▸ .refl _
  cases v with
  | shared l => exact congrFun hq l
  | held u k => cases k <;> simp only [System.places, holds, hthreads, hcall]

/-- The task at the iterator of a pass. -/
theorem Owned.mem_slist (h : s.Owned loc) {c i : ℕ} {P : Pass τ} {rest : List τ}
    (hph : s.threads.pc t = .pass c i P) (hafter : P.after = tk :: rest) :
    loc tk = some (.held t .slist) :=
  h.places.mem.mp (by simp [System.places, holds, Phase.slist, hph, hafter])

variable [DecidableEq θ]

/-- Only thread `t` does something. -/
structure Acts (s s' : System θ τ β) (t : θ) : Prop where
  pc : ∀ u, u ≠ t → s'.threads.pc u = s.threads.pc u
  call : ∀ u, u ≠ t → s'.call u = s.call u

theorem acts_goto (hthreads : s'.threads = s.threads.set t ph) (hcall : s'.call = s.call) :
    s.Acts s' t :=
  ⟨fun u hu => by rw [hthreads, Pool.pc_set_of_ne _ hu], fun u _ => congrFun hcall u⟩

theorem acts_call {x : UserCall τ} (hthreads : s'.threads = s.threads)
    (hcall : s'.call = update s.call t x) : s.Acts s' t :=
  ⟨fun u _ => by rw [hthreads], fun u hu => by rw [hcall, update_of_ne hu]⟩

/-- What is at the places after thread `t` did something. -/
theorem forall_places {C : Place θ β → List τ → List τ → Prop} (hact : s.Acts s' t)
    (hshared : ∀ l, C (.shared l) (s.q.places [] l) (s'.q.places [] l))
    (hheld : ∀ k, C (.held t k) (s.holds t k) (s'.holds t k))
    (hother : ∀ u k, u ≠ t → C (.held u k) (s.holds u k) (s.holds u k)) (v : Place θ β) :
    C v (s.places v) (s'.places v) := by
  cases v with
  | shared l => exact hshared l
  | held u k =>
    by_cases hu : u = t
    · rw [hu]
      exact hheld k
    · have hsame : s'.holds u k = s.holds u k := by
        cases k <;> simp only [holds, hact.pc u hu, hact.call u hu]
      rw [System.places, System.places, hsame]
      exact hother u k hu

theorem goes_goto (h : (s.threads.pc t).Goes new ph) (hthreads : s'.threads = s.threads.set t ph)
    (u : θ) : (s.threads.pc u).Goes new (s'.threads.pc u) := by
  rw [hthreads, Pool.pc_set]
  split_ifs with hu
  · rw [hu]
    exact h
  · exact .refl _

/-- A thread moves and keeps the tasks it has. -/
theorem perm_goto (hthreads : s'.threads = s.threads.set t ph) (hcall : s'.call = s.call)
    (hq : s'.q.places [] = s.q.places []) (hview : ph.slist = (s.threads.pc t).slist ∧
      ph.given = (s.threads.pc t).given ∧ ph.hand = (s.threads.pc t).hand) (v : Place θ β) :
    (s'.places v).Perm (s.places v) := by
  refine forall_places (C := fun _ xs ys => ys.Perm xs) (acts_goto hthreads hcall) (fun l => ?_)
    (fun k => ?_) (fun _ _ _ => .refl _) v
  · rw [hq]
  · cases k <;> simp [holds, hthreads, hcall, hview]

theorem Owned.goto (h : s.Owned loc) (hsame : s.SameTasks s')
    (hthreads : s'.threads = s.threads.set t ph) (hcall : s'.call = s.call)
    (hq : s'.q.places [] = s.q.places []) (hview : ph.slist = (s.threads.pc t).slist ∧
      ph.given = (s.threads.pc t).given ∧ ph.hand = (s.threads.pc t).hand)
    (hgo : (s.threads.pc t).Goes none ph) : s'.Owned loc :=
  h.congr hsame (perm_goto hthreads hcall hq hview) (goes_goto hgo hthreads)

variable [DecidableEq β]

/-- What is at a place before and after a step that takes `tk` from `w` to `z`. -/
def Balanced (tk : τ) (w z : Option (Place θ β)) (v : Place θ β) (xs ys : List τ) : Prop :=
  (ys ++ if w = some v then [tk] else []).Perm (xs ++ if z = some v then [tk] else [])

-- the queue `l` and what thread `t` has
def Place.Near (t : θ) (l : Loc β) : Place θ β → Prop
  | .shared l' => l' = l
  | .held u _ => u = t

/-- `tk` goes from one place to another, each of them the queue `l₀` or with thread `t`. -/
theorem balanced {w z : Option (Place θ β)} {l₀ : Loc β} (hact : s.Acts s' t)
    (hq : s'.q.places [] = update (s.q.places []) l₀ xs)
    (hw : ∀ v, w = some v → Place.Near t l₀ v) (hz : ∀ v, z = some v → Place.Near t l₀ v)
    (hl₀ : Balanced tk w z (.shared l₀) (s.q.places [] l₀) xs)
    (hheld : ∀ k, Balanced tk w z (.held t k) (s.holds t k) (s'.holds t k)) (v : Place θ β) :
    Balanced tk w z v (s.places v) (s'.places v) := by
  have hother : ∀ v, ¬Place.Near t l₀ v → ∀ xs, Balanced tk w z v xs xs := by
    intro v hv xs
    rw [Balanced, if_neg (mt (hw v) hv), if_neg (mt (hz v) hv)]
  refine forall_places hact (fun l => ?_) hheld (fun u k hu => hother (.held u k) hu _) v
  rw [hq]
  by_cases hl : l = l₀
  · rw [hl, update_self]
    exact hl₀
  · rw [update_of_ne hl]
    exact hother (.shared l) hl _

attribute [local simp] Balanced Place.away holds Phase.slist Phase.given Phase.hand Phase.touched
  Phase.proc UserCall.created UserCall.woken Place.Near goto setCall

/-- **A container is emptied** into another: a pass begins or ends. -/
theorem Owned.splice (h : s.Owned loc) (w z : Place θ β) (hne : z ≠ w) (hsame : s.SameTasks s')
    (hthreads : s'.threads = s.threads.set t ph) (hcall : s'.call = s.call)
    (hshared : ∀ l, (s'.q.places [] l).Perm (update (update s.places w []) z
      (s.places z ++ s.places w) (.shared l)))
    (hheld : ∀ k, (s'.holds t k).Perm (update (update s.places w []) z
      (s.places z ++ s.places w) (.held t k)))
    (hother : ∀ u k, u ≠ t → .held u k ≠ w ∧ .held u k ≠ z)
    (hfits : ∀ x, loc x = some w → s'.Fits (s.q.task x) z) (hgo : (s.threads.pc t).Goes none ph)
    (haway : ∀ u x, (s.threads.pc u).touched = some x → loc x = some w → z.away = true) :
    ∃ loc', s'.Owned loc' := by
  have hpl := forall_places (C := fun v _ ys => ys.Perm (update (update s.places w [])
    z (s.places z ++ s.places w) v)) (acts_goto hthreads hcall) hshared hheld fun u k hu => by
      rw [update_of_ne (hother u k hu).2, update_of_ne (hother u k hu).1]
      rfl
  refine ⟨_, h.relocate hsame ((h.places.splice hne).perm hpl) (fun x => ?_) (fun x v hx => ?_)
    (goes_goto hgo hthreads) fun u x v hx hv ha => ?_⟩
  · split_ifs with hx <;> simp [hx]
  · split_ifs at hx with hxw
    · exact .inr (Option.some_inj.mp hx ▸ hfits x hxw)
    · exact .inl hx
  · split_ifs with hxw
    · have ht := ((goes_goto hgo hthreads u).touched x hx).2.resolve_right (by simp)
      exact ⟨z, rfl, haway u x ht hxw⟩
    · exact ⟨v, hv, ha⟩

/-- **A pass begins**: the processer's list is taken.  No thread still works on one of its
tasks, since that thread would hold the processer. -/
theorem Owned.popAll (h : s.Owned loc) {ploc : ℕ → Option (ProcAt θ)} (hp : s.ProcsPlaced ploc)
    {c i p : ℕ} (hph : s.threads.pc t = .popAll c i p) :
    ∃ loc', Owned { s.goto t (.pass c i ⟨p, [], (s.q.proc p).runnableList_, .enter, 0⟩) with
      q := s.q.popAll p } loc' := by
  have hq : (s.q.popAll p).places [] = update (s.q.places []) (.runnable p) [] :=
    Queues.places_runnable ..
  refine h.splice (.shared (.runnable p)) (.held t .slist) (by simp) ⟨rfl, rfl, rfl⟩ rfl rfl
    (fun l => ?_) (fun k => ?_) (fun u k hu => ?_) (fun x hx => ?_) ?_ fun u x hx hxp => ?_
  · by_cases hl : l = .runnable p <;> simp [hq, hl, System.places]
  · cases k <;> simp [hph, System.places, Queues.places]
  · simp [hu]
  · obtain ⟨hst, hproc⟩ := h.fits hx
    simp [Fits, hst, hproc]
  · rw [hph]
    exact ⟨.inr rfl, by simp⟩
  · have hheld : (s.threads.pc u).proc = some p := by rw [← (h.touched hx).2, (h.fits hxp).2]
    have hut : (.held u : ProcAt θ) = .held t :=
      hp.places.unique (a := p) (by simp [procs, hheld, -Phase.proc]) (by simp [procs, hph])
    rw [ProcAt.held.inj hut, hph] at hx
    contradiction

/-- **A pass ends**: what is left in its list goes back. -/
theorem Owned.pushList (h : s.Owned loc) {c i : ℕ} {P : Pass τ} {raised : Bool}
    (hph : s.threads.pc t = .pushList c i P raised) :
    ∃ loc', Owned { s.goto t (.subDone c i P.proc P.doneCount raised) with
      q := s.q.pushAll P.proc (P.before ++ P.after) } loc' := by
  have hq : (s.q.pushAll P.proc (P.before ++ P.after)).places [] = update (s.q.places [])
      (.runnable P.proc) (s.q.places [] (.runnable P.proc) ++ (P.before ++ P.after)) :=
    Queues.places_runnable ..
  refine h.splice (.held t .slist) (.shared (.runnable P.proc)) (by simp) ⟨rfl, rfl, rfl⟩ rfl rfl
    (fun l => ?_) (fun k => ?_) (fun u k hu => ?_) (fun x hx => ?_) ?_ fun _ _ _ _ => rfl
  · by_cases hl : l = .runnable P.proc <;> simp [hq, hl, System.places, hph]
  · cases k <;> simp [hph, System.places]
  · simp [hu]
  · obtain ⟨hst, hproc, -⟩ := h.fits hx
    exact ⟨hst, by rw [hproc, hph]; rfl⟩
  · rw [hph]
    exact ⟨.inr rfl, by simp⟩

variable [LinearOrder τ]

/-- **One task** comes, goes, moves or changes. -/
theorem Owned.put (h : s.Owned loc) (tk : τ) (z : Option (Place θ β)) (new : Option τ)
    (hpl : ∀ v, Balanced tk (loc tk) z v (s.places v) (s'.places v))
    (hrest : ∀ x, x ≠ tk → s'.q.task x = s.q.task x ∧ (x ∈ s'.q.created ↔ x ∈ s.q.created) ∧
      (x ∈ s'.ended ↔ x ∈ s.ended))
    (hin : tk ∈ s'.q.created) (hz : z = none ↔ tk ∈ s'.ended)
    (hfits : ∀ w, z = some w → s'.Fits (s'.q.task tk) w)
    (hgo : ∀ u, (s.threads.pc u).Goes new (s'.threads.pc u)) (hnew : ∀ x, new = some x → x = tk)
    (htk : (∃ w, loc tk = some w ∧ w.away = true) ∨ new = some tk →
      (∃ w, z = some w ∧ w.away = true) ∧ (s'.q.task tk).proc_ = (s.q.task tk).proc_) :
    s'.Owned (update loc tk z) := by
  have hplaces : Places s'.places (update loc tk z) := h.places.relocate hpl
  refine ⟨hplaces, fun {x} => ?_, fun x hx => ?_, fun {x w} hx => ?_, fun {x u} hx => ?_⟩
  · by_cases hxt : x = tk
    · simp [hxt, hin, ← hz]
    · rw [update_of_ne hxt, h.live, (hrest x hxt).2.1, (hrest x hxt).2.2]
  · by_cases hxt : x = tk
    · rwa [hxt]
    · exact (hrest x hxt).2.1.mpr (h.ended ((hrest x hxt).2.2.mp hx))
  · by_cases hxt : x = tk
    · rw [hxt, update_self] at hx
      rw [hxt]
      exact hfits w hx
    · have hmem := hplaces.mem.mpr hx
      rw [update_of_ne hxt] at hx
      rw [(hrest x hxt).1]
      refine (h.fits hx).congr (.inl rfl) rfl ?_
      rintro u rfl
      refine (hgo u).proc.resolve_left fun hnil => ?_
      rw [System.places, holds, hnil] at hmem
      exact List.not_mem_nil hmem
  · -- a task that is newly worked on was in the list of its thread
    obtain ⟨hproc, htouched | ⟨hn, hmem⟩⟩ := (hgo u).touched x hx
    · obtain ⟨hw, hp⟩ := h.touched htouched
      by_cases hxt : x = tk
      · subst hxt
        obtain ⟨hw', hp'⟩ := htk (.inl hw)
        rw [update_self, hp', hproc]
        exact ⟨hw', hp⟩
      · rw [update_of_ne hxt, (hrest x hxt).1, hproc]
        exact ⟨hw, hp⟩
    · obtain rfl := hnew x hn
      obtain ⟨hw', hp'⟩ := htk (.inr hn)
      have hl : loc x = some (.held u .slist) := h.places.mem.mp hmem
      rw [update_self, hp', hproc]
      exact ⟨hw', (h.fits hl).2.1⟩

/-- **A task moves**, by what thread `t` does. -/
theorem Owned.take (h : s.Owned loc) (hl : loc tk = some w) (z : Place θ β) {l₀ : Loc β}
    (new : Option τ) (hsame : s.SameTasks s') (hact : s.Acts s' t)
    (hq : s'.q.places [] = update (s.q.places []) l₀ xs)
    (hnear : Place.Near t l₀ w ∧ Place.Near t l₀ z)
    (hl₀ : Balanced tk (some w) (some z) (.shared l₀) (s.q.places [] l₀) xs)
    (hheld : ∀ k, Balanced tk (some w) (some z) (.held t k) (s.holds t k) (s'.holds t k))
    (hfits : s'.Fits (s.q.task tk) z) (hgo : ∀ u, (s.threads.pc u).Goes new (s'.threads.pc u))
    (hnew : ∀ x, new = some x → x = tk) (haway : w.away = true ∨ new = some tk → z.away = true) :
    ∃ loc', s'.Owned loc' := by
  obtain ⟨hcreated, hended⟩ := h.live.mp (by simp [hl] : loc tk ≠ none)
  refine ⟨_, h.put tk (some z) new ?_ (fun x _ => ?_) (hsame.created ▸ hcreated)
    (by simp [hsame.ended, hended]) ?_ hgo hnew fun hw => ?_⟩
  · rw [hl]
    exact balanced hact hq (by simpa using hnear.1) (by simpa using hnear.2) hl₀ hheld
  · rw [hsame.task, hsame.created, hsame.ended]
    exact ⟨rfl, .rfl, .rfl⟩
  · rintro _ ⟨⟩
    rw [hsame.task]
    exact hfits
  · rw [hsame.task]
    exact ⟨⟨z, rfl, haway (by simpa [hl] using hw)⟩, rfl⟩

/-- **`AddTaskRunnable`** on a task that has been taken out of its place: it goes to its own
processer, and the assertions hold. -/
theorem Owned.wake (h : s.Owned loc) {r : System θ τ β} (hsame : s.SameTasks r)
    (hl : loc tk = some w) (hw : w.away = true)
    (hpl : ∀ v, Balanced tk (some w) none v (s.places v) (r.places v))
    (hgo : ∀ u, (s.threads.pc u).Goes none (r.threads.pc u)) :
    (∃ loc', (r.addRunnable tk).Owned loc') ∧ (r.addRunnable tk).fault = r.fault := by
  obtain ⟨hstarted, hne⟩ := (h.fits hl).started (.inl hw)
  obtain ⟨hcreated, hended⟩ := h.live.mp (by simp [hl] : loc tk ≠ none)
  obtain ⟨p, hp⟩ := Option.ne_none_iff_exists'.mp hne
  rw [← hsame.task] at hp hstarted
  have hq : (r.addRunnable tk).q = (r.q.pushRunnable p tk).setState tk .runnable :=
    Queues.addTaskRunnable_started hp hstarted
  have htask : (r.addRunnable tk).q.task
      = update r.q.task tk { r.q.task tk with state_ := .runnable } := by rw [hq]; rfl
  refine ⟨⟨_, h.put tk (some (.shared (.runnable p))) none (fun v => ?_) (fun x hx => ?_)
    ?_ ?_ ?_ hgo (by simp) fun _ => ?_⟩, ?_⟩
  · have hv : (r.addRunnable tk).places v
        = r.places v ++ if v = .shared (.runnable p) then [tk] else [] := by
      cases v with
      | shared l =>
        rw [System.places, hq]
        refine (congrFun (Queues.places_setTask (r.q.pushRunnable p tk) [] _) l).trans ?_
        rw [Queues.places_pushRunnable, update_apply]
        split_ifs <;> simp_all [System.places]
      | held u k =>
        rw [if_neg (by simp), List.append_nil]
        cases k <;> rfl
    rw [Balanced, hv, hl, List.append_assoc]
    refine (List.perm_append_comm.append_left _).trans ?_
    have hr := (hpl v).append_right (if v = .shared (.runnable p) then [tk] else [])
    rw [← List.append_assoc]
    simpa [eq_comm] using hr
  · rw [htask, update_of_ne hx, hq, hsame.task]
    exact ⟨rfl, by rw [← hsame.created]; rfl, by rw [← hsame.ended]; rfl⟩
  · rw [hq]
    exact hsame.created ▸ hcreated
  · simp [addRunnable, hsame.ended, hended]
  · rintro _ ⟨⟩
    rw [htask, update_self]
    exact ⟨rfl, hp⟩
  · rw [htask, update_self, hsame.task]
    exact ⟨⟨_, rfl, rfl⟩, rfl⟩
  · have hinit : (r.q.task tk).state_ ≠ .init := fun h0 => by simp [h0, TaskState.started] at hstarted
    simp [addRunnable, hp, addAsserts, hinit]

/-- **The record of a task changes** and the task stays where it is. -/
theorem Owned.setTask (h : s.Owned loc) (hl : loc tk = some w)
    (htask : s'.q.task = update s.q.task tk T) (hcreated : s'.q.created = s.q.created)
    (hended : s'.ended = s.ended) (hproc : T.proc_ = (s.q.task tk).proc_) (hfits : s'.Fits T w)
    (hpl : ∀ v, (s'.places v).Perm (s.places v))
    (hgo : ∀ u, (s.threads.pc u).Goes none (s'.threads.pc u)) : s'.Owned loc := by
  have hlive := h.live.mp (by simp [hl] : loc tk ≠ none)
  have hput : s'.Owned (update loc tk (loc tk)) := by
    refine h.put tk (loc tk) none (fun v => (hpl v).append_right _) (fun x hx => ?_)
      (hcreated ▸ hlive.1) ?_ ?_ hgo (by simp) fun hw => ?_
    · rw [htask, update_of_ne hx, hcreated, hended]
      exact ⟨rfl, .rfl, .rfl⟩
    · simp [hl, hended, hlive.2]
    · rw [htask, update_self, hl]
      rintro _ ⟨⟩
      exact hfits
    · rw [htask, update_self]
      exact ⟨hw.resolve_right (by simp), hproc⟩
  rwa [update_eq_self] at hput

/-- **A task is parked**: it leaves the list of the pass for a wait structure, or for the
hand of the thread. -/
theorem Owned.park (h : s.Owned loc) {c i : ℕ} {P : Pass τ} {rest : List τ} {l : Loc β}
    {q : Queues τ β} (hph : s.threads.pc t = .pass c i P) (hafter : P.after = tk :: rest)
    (hpark : Parks c i { P with after := rest, turn := .enter } tk (s.q.places []) ph l xs)
    (hq : s.q.Puts l xs q) : ∃ loc', Owned { s.goto t ph with q := q } loc' := by
  have hl := h.mem_slist hph hafter
  obtain ⟨hstarted, -, hne⟩ := h.fits hl
  have hperm : (P.before ++ (rest ++ [tk])).Perm (P.before ++ tk :: rest) :=
    (List.perm_append_singleton tk rest).append_left _
  have hgo : (s.threads.pc t).Goes (some tk) ph := by
    have hmem : tk ∈ P.before ++ P.after := by simp [hafter]
    rw [hph]
    cases hpark with
    | user k => exact ⟨.inr rfl, by simp [Phase.touched]⟩
    | _ => exact ⟨.inr rfl, fun x hx => ⟨rfl, .inr ⟨hx, Option.some_inj.mp hx ▸ hmem⟩⟩⟩
  have htake : ∀ z : Place θ β, z.away = true → (∀ s' : System θ τ β, s'.Fits (s.q.task tk) z) →
      Place.Near t l z → Balanced tk (some (.held t .slist)) (some z) (.shared l) (s.q.places [] l) xs →
      (∀ k, Balanced tk (some (.held t .slist)) (some z) (.held t k) (s.holds t k)
        ((s.goto t ph).holds t k)) → ∃ loc', Owned { s.goto t ph with q := q } loc' :=
    fun z hz hfits hnear hl₀ hheld => h.take hl z (some tk) ⟨hq.task, hq.created, rfl⟩
      (acts_goto rfl rfl) hq.places ⟨rfl, hnear⟩ hl₀ hheld (hfits _) (goes_goto hgo rfl) (by simp)
      fun _ => hz
  cases hpark with
  | refused l =>
    refine htake (.held t .hand) rfl (fun _ => ⟨hstarted, hne⟩) rfl (by simp) fun k => ?_
    cases k <;> simp [hph, hafter, hperm]
  | _ =>
    refine htake (.shared _) rfl (fun _ => by exact ⟨hstarted, hne⟩) rfl (by simp) fun k => ?_
    cases k <;> simp [hph, hafter, hperm]

omit [DecidableEq θ] [DecidableEq β] in
/-- `Processer::AddTaskRunnable` on a new task. -/
theorem procAddTaskRunnable_init {q : Queues τ β} {p : ℕ} (hinit : (q.task tk).state_ = .init) :
    q.procAddTaskRunnable p tk = { q with
      task := update q.task tk { q.task tk with proc_ := some p, state_ := .runnable }
      proc := update q.proc p
        ⟨(q.proc p).runnableList_ ++ [tk], (q.proc p).taskCount_ + 1⟩ } := by
  simp [Queues.procAddTaskRunnable, hinit, Queues.setState, Queues.modifyTask, Queues.pushRunnable]

/-- **A processer gets a new task.** -/
theorem Owned.give (h : s.Owned loc) {c i p ti avg : ℕ}
    (hph : s.threads.pc t = .give c i p ti avg tk) :
    (∃ loc', ((s.goto t (.picking c i p (ti + 1) avg)).procAdd p tk).Owned loc') ∧
      ((s.goto t (.picking c i p (ti + 1) avg)).procAdd p tk).fault = s.fault := by
  have hl : loc tk = some (.held t .given) := h.places.mem.mp (by simp [System.places, hph])
  obtain ⟨hinit, hnone⟩ := h.fits hl
  obtain ⟨hcreated, hended⟩ := h.live.mp (by simp [hl] : loc tk ≠ none)
  have hq : ((s.goto t (.picking c i p (ti + 1) avg)).procAdd p tk).q = _ :=
    procAddTaskRunnable_init hinit
  refine ⟨⟨_, h.put tk (some (.shared (.runnable p))) none ?_ (fun x hx => ?_)
    ?_ (by simp [procAdd, hended]) ?_ (goes_goto ?_ rfl) (by simp) (by simp [hl])⟩, ?_⟩
  · rw [hl]
    have hplaces : ((s.goto t (.picking c i p (ti + 1) avg)).procAdd p tk).q.places []
        = update (s.q.places []) (.runnable p) (s.q.places [] (.runnable p) ++ [tk]) := by
      rw [hq]
      exact (Queues.places_setTask _ [] _).trans (Queues.places_runnable ..)
    refine balanced (acts_goto rfl rfl) hplaces (by simp) (by simp) (by simp) fun k => ?_
    cases k <;> simp [procAdd, hph]
  · rw [hq]
    exact ⟨update_of_ne hx _ _, .rfl, .rfl⟩
  · rw [hq]
    exact hcreated
  · rintro _ ⟨⟩
    rw [hq]
    simp [Fits, TaskState.started]
  · rw [hph]
    exact ⟨.inl rfl, by simp⟩
  · simp [procAdd, addAsserts, hinit, hnone]

/-- **The context of a new task cannot be made**: the task is deleted. -/
theorem Owned.giveFailed (h : s.Owned loc) {c i p ti avg : ℕ}
    (hph : s.threads.pc t = .give c i p ti avg tk) :
    (∃ loc', Owned { s.goto t .idle with
      ended := insert tk s.ended
      failed := s.failed + 1
      lost := s.lost ++ [p]
      fault := s.fault || !addAsserts s.q p tk } loc') ∧
      (s.fault || !addAsserts s.q p tk) = s.fault := by
  have hl : loc tk = some (.held t .given) := h.places.mem.mp (by simp [System.places, hph])
  obtain ⟨hinit, hnone⟩ := h.fits hl
  refine ⟨⟨_, h.put tk none none ?_ (fun x hx => ⟨rfl, .rfl, by simp [hx]⟩)
    (h.live.mp (by simp [hl])).1 (by simp) (by simp) (goes_goto ?_ rfl) (by simp) (by simp [hl])⟩, ?_⟩
  · rw [hl]
    refine balanced (acts_goto rfl rfl) (s.q.puts_same .slist).places (by simp) (by simp) (by simp)
      fun k => ?_
    cases k <;> simp [hph]
  · rw [hph]
    exact ⟨.inl rfl, by simp⟩
  · simp [addAsserts, hinit, hnone]

/-- **A task is done** and leaves the pass. -/
theorem Owned.done (h : s.Owned loc) {c i : ℕ} {P P' : Pass τ} {rest : List τ}
    (hph : s.threads.pc t = .pass c i P) (hafter : P.after = tk :: rest)
    (hP : P' = { P with after := rest, turn := .enter, doneCount := P.doneCount + 1 })
    (hph' : ph = .pushList c i P' true ∨ ph = .pass c i P') :
    ∃ loc', Owned { s.goto t ph with
      q := s.q.decTaskCount P.proc
      ended := insert tk s.ended } loc' := by
  have hl := h.mem_slist hph hafter
  have hq : (s.q.decTaskCount P.proc).places [] = _ := Queues.places_runnable s.q [] P.proc
      ⟨(s.q.proc P.proc).runnableList_, (s.q.proc P.proc).taskCount_ - 1⟩
  refine ⟨_, h.put tk none none ?_ (fun x hx => ⟨rfl, .rfl, by simp [hx]⟩)
    (h.live.mp (by simp [hl])).1 (by simp) (by simp) (goes_goto ?_ rfl) (by simp) (by simp [hl])⟩
  · have hperm : (P.before ++ (rest ++ [tk])).Perm (P.before ++ tk :: rest) :=
      (List.perm_append_singleton tk rest).append_left _
    rw [hl]
    refine balanced (acts_goto rfl rfl) hq (by simp) (by simp) (by simp [Queues.places]) fun k => ?_
    rcases hph' with rfl | rfl <;> cases k <;> simp [hph, hP, hafter, hperm]
  · rw [hph]
    rcases hph' with rfl | rfl <;> exact ⟨.inr (by simp [hP]), by simp⟩

/-- **`CreateTask`** up to the counter: the task is in the hand of its creator. -/
theorem Owned.createTask (h : s.Owned loc) (hcall : s.call t = .none) (hnew : tk ∉ s.q.created) :
    ∃ loc', Owned { s.setCall t (.creating tk) with
      q := { s.q with
        created := insert tk s.q.created
        task := update s.q.task tk {}
        taskCount_ := s.q.taskCount_ + 1 } } loc' := by
  have hl : loc tk = none := by
    by_contra hne
    exact hnew (h.live.mp hne).1
  refine ⟨_, h.put tk (some (.held t .creating)) none ?_
    (fun x hx => ⟨update_of_ne hx _ _, by simp [hx], .rfl⟩) (by simp)
    (by simp [mt (@h.ended tk) hnew]) ?_ (fun _ => .refl _) (by simp) (by simp [hl])⟩
  · rw [hl]
    refine balanced (acts_call rfl rfl) (s.q.puts_same .slist).places (by simp) (by simp) (by simp)
      fun k => ?_
    cases k <;> simp [hcall]
  · rintro _ ⟨⟩
    simp [Fits]

/-- A thread gives the task in its hand to its processer. -/
theorem Owned.wakeHand (h : s.Owned loc) (hhand : (s.threads.pc t).hand = [tk])
    (hview : ph.slist = (s.threads.pc t).slist ∧ ph.given = (s.threads.pc t).given ∧ ph.hand = [])
    (hproc : ph.proc = (s.threads.pc t).proc) (htouched : ph.touched = none) :
    (∃ loc', ((s.goto t ph).addRunnable tk).Owned loc') ∧
      ((s.goto t ph).addRunnable tk).fault = s.fault := by
  have hl : loc tk = some (.held t .hand) := by
    refine h.places.mem.mp ?_
    rw [System.places, holds, hhand]
    exact List.mem_singleton_self tk
  refine h.wake ⟨rfl, rfl, rfl⟩ hl rfl ?_ (goes_goto ⟨.inr hproc, fun x hx => ?_⟩ rfl)
  · refine balanced (acts_goto rfl rfl) (s.q.puts_same .slist).places (by simp) (by simp) (by simp)
      fun k => ?_
    cases k <;> simp [hview, hhand, -Phase.slist, -Phase.given, -Phase.hand]
  · rw [htouched] at hx
    contradiction

/-- **A call ends**: the task goes to its processer, or to `run_tasks_` if it is new. -/
theorem Owned.endCreate (h : s.Owned loc) (hcall : s.call t = .creating tk) :
    (∃ loc', ((s.setCall t .none).addRunnable tk).Owned loc') ∧
      ((s.setCall t .none).addRunnable tk).fault = s.fault := by
  have hl : loc tk = some (.held t .creating) := h.places.mem.mp (by simp [System.places, hcall])
  have hadd : (s.setCall t .none).addRunnable tk
      = { s.setCall t .none with q := { s.q with runTasks_ := s.q.runTasks_ ++ [tk] } } := by
    simp [addRunnable, Queues.addTaskRunnable, (h.fits hl).2]
  rw [hadd]
  refine ⟨h.take hl (.shared .runTasks) none ⟨rfl, rfl, rfl⟩ (acts_call rfl rfl)
    (Queues.places_runTasks ..) ⟨rfl, rfl⟩
    (by simp [Queues.places]) (fun k => ?_) (h.fits hl) (fun _ => .refl _) (by simp) (by simp), rfl⟩
  cases k <;> simp [hcall]

theorem Owned.endWakeup (h : s.Owned loc) {inLoop : Bool} (hcall : s.call t = .waking tk inLoop) :
    (∃ loc', ((s.setCall t .none).addRunnable tk).Owned loc') ∧
      ((s.setCall t .none).addRunnable tk).fault = s.fault := by
  have hl : loc tk = some (.held t .waking) := h.places.mem.mp (by simp [System.places, hcall])
  refine h.wake ⟨rfl, rfl, rfl⟩ hl rfl (balanced (acts_call rfl rfl) (s.q.puts_same .slist).places
    (by simp) (by simp) (by simp) fun k => ?_) fun _ => .refl _
  cases k <;> simp [hcall]

/-- **A task is taken** out of a wait structure, by a thread or a call that is to wake it. -/
theorem Owned.takeOut (h : s.Owned loc) {l : Loc β} (hl : (s.q.places [] l).Perm (tk :: xs))
    (haway : (Place.shared l : Place θ β).away = true) (k : Hold) (hk : k = .hand ∨ k = .waking)
    (hsame : s.SameTasks s') (hact : s.Acts s' t)
    (hq : s'.q.places [] = update (s.q.places []) l xs)
    (hheld : ∀ k', s'.holds t k' = s.holds t k' ++ if k' = k then [tk] else [])
    (hgo : ∀ u, (s.threads.pc u).Goes none (s'.threads.pc u)) : ∃ loc', s'.Owned loc' := by
  have hloc : loc tk = some (.shared l) := h.places.mem.mp (hl.mem_iff.mpr List.mem_cons_self)
  have hfits : s'.Fits (s.q.task tk) (.held t k) := by
    rcases hk with rfl | rfl <;> exact (h.fits hloc).started (.inl haway)
  refine h.take hloc (.held t k) none hsame hact hq ⟨rfl, rfl⟩ ?_ (fun k' => ?_) hfits hgo (by simp)
    fun _ => by rcases hk with rfl | rfl <;> rfl
  · simpa using (List.perm_append_singleton tk xs).trans hl.symm
  · simp [hheld, -holds, eq_comm]

/-- **A refused task** goes back to its processer. -/
theorem Owned.repush (h : s.Owned loc) {c i : ℕ} {P : Pass τ}
    (hph : s.threads.pc t = .parking c i P tk .repush) :
    ∃ loc', Owned { s.goto t (.parking c i P tk .unblock) with
      q := s.q.pushRunnable P.proc tk } loc' := by
  have hl : loc tk = some (.held t .hand) := h.places.mem.mp (by simp [System.places, hph])
  have hproc : (s.q.task tk).proc_ = some P.proc := by
    have ht : (s.threads.pc t).touched = some tk := by rw [hph]; rfl
    rw [(h.touched ht).2, hph]
    rfl
  refine h.take hl (.shared (.runnable P.proc)) none ⟨rfl, rfl, rfl⟩ (acts_goto rfl rfl)
    (Queues.places_pushRunnable s.q [] P.proc tk)
    ⟨rfl, rfl⟩ (by simp) (fun k => ?_) ⟨(h.fits hl).1, hproc⟩ (goes_goto ?_ rfl) (by simp) fun _ => rfl
  · cases k <;> simp [hph]
  · rw [hph]
    exact ⟨.inr rfl, fun x hx => ⟨rfl, .inl hx⟩⟩

/-- **One step** keeps the tasks where they belong, and no assertion fails. -/
theorem step_owned (h : s.Owned loc) {ploc : ℕ → Option (ProcAt θ)} (hp : s.ProcsPlaced ploc)
    (hsleep : ∀ {t T ts}, s.threads.pc t = .expiring (T :: ts) → T.fn_ ∈ s.q.sleepWaitTasks_)
    (hst : Step s s') : (∃ loc', s'.Owned loc') ∧ s'.fault = s.fault := by
  cases hst with
  | setCount n => exact ⟨⟨loc, h.still ⟨rfl, rfl, rfl⟩ rfl rfl rfl⟩, rfl⟩
  | permit l q hq =>
    exact ⟨⟨loc, h.still ⟨hq.task, hq.created, rfl⟩ rfl rfl
      (hq.places.trans (update_eq_self ..))⟩, rfl⟩
  | jump t _ ph hph hsame =>
    subst hph
    exact ⟨⟨loc, h.goto ⟨rfl, rfl, rfl⟩ rfl rfl rfl ⟨hsame.slist, hsame.given, hsame.hand⟩ hsame.goes⟩, rfl⟩
  | lock t hph | beginCreate t hph | create t _ hph | endCreate t _ hph | unlock t hph
  | popProc t _ _ _ _ hph | subDone t _ _ _ _ _ hph | doSleep t _ hph | expireDead t _ _ hph =>
    exact ⟨⟨loc, h.goto ⟨rfl, rfl, rfl⟩ rfl rfl rfl (by rw [hph]; exact ⟨rfl, rfl, rfl⟩)
      ⟨.inl rfl, by simp⟩⟩, rfl⟩
  | putBack t c i p raised hph =>
    refine ⟨⟨loc, h.goto ⟨rfl, rfl, rfl⟩ rfl rfl rfl ?_ ⟨.inl ?_, ?_⟩⟩, rfl⟩ <;> cases raised <;>
      simp [hph]
  | timer t c i P tk timePoint hph =>
    exact ⟨⟨loc, h.goto ⟨rfl, rfl, rfl⟩ rfl rfl rfl (by rw [hph]; exact ⟨rfl, rfl, rfl⟩)
      ⟨.inr (by rw [hph]; rfl), by simp⟩⟩, rfl⟩
  | popTask t c i p ti avg tk rest hph htasks =>
    have hl : loc tk = some (.shared .runTasks) :=
      h.places.mem.mp (by simp [System.places, Queues.places, htasks])
    refine ⟨h.take hl (.held t .given) none ⟨rfl, rfl, rfl⟩ (acts_goto rfl rfl)
      (Queues.places_runTasks ..) ⟨rfl, rfl⟩ (by simp [Queues.places, htasks])
      (fun k => ?_) (h.fits hl) (goes_goto ⟨.inl rfl, by simp⟩ rfl) (by simp) (by simp), rfl⟩
    cases k <;> simp [hph]
  | give t c i p ti avg tk hph => exact h.give hph
  | giveFailed t c i p ti avg tk hph => exact h.giveFailed hph
  | popAll t c i p hph => exact ⟨h.popAll hp hph, rfl⟩
  | pushList t c i P raised hph => exact ⟨h.pushList hph, rfl⟩
  | record t _ ph tk T l q hph hsame htk hproc hstate hq =>
    subst hph
    obtain ⟨w, hl, hw⟩ : ∃ w, loc tk = some w ∧ (w.away = true ∨ ∃ t, w = .held t .slist) := by
      rcases htk with hm | ht
      · exact ⟨.held t .slist, h.places.mem.mp hm, .inr ⟨t, rfl⟩⟩
      · obtain ⟨⟨w, hl, hw⟩, -⟩ := h.touched ht
        exact ⟨w, hl, .inl hw⟩
    have hst := ((h.fits hl).started hw).1
    refine ⟨⟨loc, h.setTask hl hq.task hq.created rfl hproc ((h.fits hl).congr
      (.inr ⟨hst, hstate hst⟩) hproc fun u _ => ?_) (perm_goto rfl rfl ?_
      ⟨hsame.slist, hsame.given, hsame.hand⟩) (goes_goto hsame.goes rfl)⟩, rfl⟩
    · exact view_set Phase.proc hsame.proc u
    · exact hq.places.trans ((update_eq_self ..).trans (Queues.places_setTask ..))
  | park t c i P tk rest ph l xs q hph hafter hpark hq => exact ⟨h.park hph hafter hpark hq, rfl⟩
  | done t c i P P' tk rest ph hph hafter hP hph' => exact ⟨h.done hph hafter hP hph', rfl⟩
  | registerFailed t c i P tk hph hmem =>
    refine ⟨h.takeOut (l := .ioWait) (List.perm_cons_erase hmem) rfl .hand (.inl rfl) ⟨rfl, rfl, rfl⟩
      (acts_goto rfl rfl) (Queues.places_ioWait ..) (fun k => ?_) (goes_goto ?_ rfl), rfl⟩
    · cases k <;> simp [hph]
    · rw [hph]
      exact ⟨.inr rfl, fun _ hx => ⟨rfl, .inl hx⟩⟩
  | parkWake t c i P tk hph =>
    exact h.wakeHand (by rw [hph]; rfl) (by rw [hph]; exact ⟨rfl, rfl, rfl⟩) (by rw [hph]; rfl) rfl
  | repush t c i P tk hph => exact ⟨h.repush hph, rfl⟩
  | expire t T timers hph =>
    refine ⟨h.takeOut (l := .sleepWait) (List.perm_cons_erase (hsleep hph)) rfl .hand (.inl rfl)
      ⟨rfl, rfl, rfl⟩ (acts_goto rfl rfl) (Queues.places_sleepWait ..) (fun k => ?_)
      (goes_goto ⟨.inl rfl, by simp⟩ rfl), ?_⟩
    · cases k <;> simp [hph]
    · simp [hsleep hph]
  | sleepWake t tk timers hph =>
    exact h.wakeHand (by rw [hph]; rfl) (by rw [hph]; exact ⟨rfl, rfl, rfl⟩) (by rw [hph]; rfl) rfl
  | createTask t tk hcall hnew => exact ⟨h.createTask hcall hnew, rfl⟩
  | takeOut t tk inLoop l xs q hcall hl htk hq =>
    refine ⟨h.takeOut htk ?_ .waking (.inr rfl) ⟨hq.task, hq.created, rfl⟩ (acts_call rfl rfl) hq.places
      (fun k => ?_) fun _ => .refl _, rfl⟩
    · rcases hl with rfl | ⟨k, rfl⟩ <;> rfl
    · cases k <;> simp [hcall]
  | endCreateTask t tk hcall => exact h.endCreate hcall
  | endWakeup t tk inLoop hcall => exact h.endWakeup hcall
  | wakeup b tk rest q hqueue hq =>
    have hl : loc tk = some (.shared (.block b)) :=
      h.places.mem.mp (by simp [System.places, Queues.places, hqueue])
    have hold : (rest ++ [tk]).Perm (s.q.places [] (.block b)) :=
      (List.perm_append_singleton tk rest).trans (.of_eq hqueue.symm)
    refine h.wake ⟨hq.task, hq.created, rfl⟩ hl rfl (fun v => ?_) fun _ => .refl _
    cases v with
    | shared l =>
      by_cases hb : l = .block b
      · simpa [System.places, hq.places, hb] using hold
      · simp [System.places, hq.places, hb, Ne.symm hb]
    | held u k => cases k <;> simp [System.places]

end System

end Scheduler.Threads
