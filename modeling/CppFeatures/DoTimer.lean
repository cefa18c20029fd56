/-
`Scheduler::DoTimer` and callbacks that throw (coroutine/scheduler.cpp, timer.cpp).

`DoTimer` takes up to 128 expired timers out of the store and then calls them one after
the other.  The batch is a local variable: when a callback throws, the timers behind it
are in no store any more.  What the callbacks do, on the timers too, and which of them
throw are arguments of the model.

* `Sched.invoke`, `Sched.fireAll`, `Sched.doTimer` — `CoTimer::operator()`, the loop over
  the batch, and the whole function;
* `Sched.InBatch` — where a timer is once it has been handed out;
* `Sched.fireAll_inBatch` — the loop, with the rest of the batch in its invariant;
* `Sched.invoked_once_iff` — exactly the timers behind a throwing callback are missed;
* `Sched.invoked_once` — so none is, if a callback that throws is the last of its batch.
-/
import CppFeatures.TimerStore
import Mathlib.Data.List.Count

namespace DoTimer

open List

/-- What a program can do with timers. -/
inductive Call (F : Type*)
  | expireAt (timePoint : ℤ) (fn : F)
  | cancel (id : ℕ)
  | blockCancel (id : ℕ)

/-- What a callback does when it is called, and whether it ends with an exception. -/
structure Outcome (F : Type*) where
  calls : List (Call F)
  throws : Bool

/-- How `DoTimer` ends. -/
inductive Exit
  | returned (count : ℕ)
  | threw
deriving DecidableEq, Repr

/-- The timers of the scheduler.  The last two members record which callbacks have been
called, and the timers that were left in a batch when an exception left `DoTimer`. -/
structure Sched (F : Type*) where
  store : TimerStore F
  invoked : List (CoTimer F)
  dropped : List (CoTimer F)

namespace Sched

variable {F : Type*}

/-! ### The source -/

/-- A call while the callback of `running` is active.  That callback holds the lock of
its timer: a `Cancel` of it fails, and a `BlockCancel` never returns. -/
def call (running : Option ℕ) (st : TimerStore F) : Call F → Option (TimerStore F)
  | .expireAt timePoint fn => st.step (.expireAt timePoint fn)
  | .cancel id => st.step (.cancel id (decide (running = some id)))
  | .blockCancel id => if running = some id then none else st.step (.blockCancel id)

/-- `CoTimer::operator()`; `true` if the callback throws. -/
def invoke (s : Sched F) (t : CoTimer F) (o : Outcome F) : Option (Sched F × Bool) :=
  let (heap, active) := s.store.heap.deactivate t.id_
  if active then
    (o.calls.foldlM (call (some t.id_)) { s.store with heap := heap }).map fun st =>
      ({ s with store := st, invoked := s.invoked ++ [t] }, o.throws)
  else some (s, false)

/-- The loop over the batch; `true` if an exception leaves it. -/
def fireAll : List (CoTimer F) → List (Outcome F) → Sched F → Option (Sched F × Bool)
  | [], _, s => some (s, false)
  | t :: timers, outcomes, s => (s.invoke t (outcomes.headD ⟨[], false⟩)).bind fun (s, threw) =>
      if threw then some ({ s with dropped := s.dropped ++ timers }, true)
      else fireAll timers outcomes.tail s

def doTimer (s : Sched F) (now : ℤ) (outcomes : List (Outcome F)) : Option (Sched F × Exit) :=
  let (timers, mgr) := s.store.mgr.getExpired now 128
  (fireAll timers outcomes { s with
    store := { s.store with
      mgr := mgr
      handed := s.store.handed ++ timers.map fun t => (now, t) } }).map fun (s, threw) =>
    (s, if threw then .threw else .returned timers.length)

/-- The program calls something between two calls of `DoTimer`, or `DoTimer` is called. -/
inductive Act (F : Type*)
  | call (c : Call F)
  | doTimer (now : ℤ) (outcomes : List (Outcome F))

def step (s : Sched F) : Act F → Option (Sched F)
  | .call c => (call none s.store c).map fun st => { s with store := st }
  | .doTimer now outcomes => (s.doTimer now outcomes).map Prod.fst

def Init (s : Sched F) : Prop := TimerStore.Init s.store ∧ s.invoked = [] ∧ s.dropped = []

/-! ### Timers that have been handed out -/

/-- The timers `rest` are still to be called.  A timer that has been handed out is among
them, or was cancelled, called or dropped, and the last two exclude each other; a timer
is inactive iff it was called or cancelled. -/
structure InBatch (s : Sched F) (rest : List (CoTimer F)) : Prop where
  inv : s.store.Inv
  nodup : (s.invoked ++ s.dropped ++ rest).Nodup
  handed : ∀ t ∈ s.invoked ++ s.dropped ++ rest, t ∈ s.store.handedOut
  all : ∀ t ∈ s.store.handedOut, t ∈ s.store.cancelled ∨ t ∈ s.invoked ++ s.dropped ++ rest
  inactive : ∀ t ∈ s.store.added,
    s.store.heap.active_ t.id_ = false ↔ t ∈ s.invoked ∨ t ∈ s.store.cancelled

variable {s s' : Sched F} {st st' : TimerStore F} {t : CoTimer F} {rest : List (CoTimer F)}

theorem InBatch.added (h : s.InBatch rest) (ht : t ∈ s.invoked ++ s.dropped ++ rest) :
    t ∈ s.store.added :=
  h.inv.handed_sub t (h.handed t ht)

/-- `Cancel` or `BlockCancel` of a timer of the manager. -/
theorem InBatch.settle (h : s.InBatch rest) (ht : t ∈ s.store.added) :
    { s with store := s.store.settle t }.InBatch rest := by
  have hinv := h.inv.settle ht
  by_cases hact : s.store.heap.active_ t.id_ = true
  · simp only [TimerStore.settle, TimerHeap.deactivate, hact, if_true] at hinv ⊢
    refine ⟨hinv, h.nodup, h.handed, fun t' ht' => ?_, fun t' ht' => ?_⟩
    · exact (h.all t' ht').imp_left (mem_append_left [t])
    · show Function.update s.store.heap.active_ t.id_ false t'.id_ = false ↔
        t' ∈ s.invoked ∨ t' ∈ s.store.cancelled ++ [t]
      rw [mem_append, mem_singleton]
      by_cases hid : t'.id_ = t.id_
      · have heq : t' = t := h.inv.eq_of_id ht' ht hid
        simp [heq]
      · have hne : t' ≠ t := fun he => hid (he ▸ rfl)
        rw [Function.update_of_ne hid, h.inactive t' ht']
        simp [hne]
  · simp only [TimerStore.settle, TimerHeap.deactivate, hact]
    exact h

theorem InBatch.expireAt (h : s.InBatch rest) {timePoint : ℤ} {fn : F}
    (hst : s.store.step (.expireAt timePoint fn) = some st) :
    { s with store := st }.InBatch rest := by
  have hinv := TimerStore.step_inv h.inv hst
  rw [TimerStore.step] at hst
  cases hst
  have hyoung : ∀ t ∈ s.store.added, t.id_ < s.store.heap.sId + 1 := fun t ht =>
    Nat.lt_succ_of_le (h.inv.le_sId t ht)
  refine ⟨hinv, h.nodup, h.handed, h.all, fun t ht => ?_⟩
  show Function.update s.store.heap.active_ (s.store.heap.sId + 1) true t.id_ = false ↔
    t ∈ s.invoked ∨ t ∈ s.store.cancelled
  rcases mem_append.mp ht with ht | ht
  · rw [Function.update_of_ne (hyoung t ht).ne]
    exact h.inactive t ht
  · -- the new timer is active, and neither called nor cancelled
    have hid : t.id_ = s.store.heap.sId + 1 := by rw [mem_singleton.mp ht]; rfl
    have hnew : t ∉ s.store.added := fun hm => (hyoung t hm).ne hid
    rw [hid, Function.update_self]
    constructor
    · intro hc
      cases hc
    · rintro (hm | hm)
      · exact absurd (h.added (by simp [hm])) hnew
      · exact absurd (h.inv.cancelled_sub t hm) hnew

/-- **One call** of the program. -/
theorem InBatch.call (h : s.InBatch rest) {running : Option ℕ} {c : Call F}
    (hcall : Sched.call running s.store c = some st) : { s with store := st }.InBatch rest := by
  cases c with
  | expireAt timePoint fn => exact h.expireAt hcall
  | cancel id =>
    obtain ⟨t, hfind, rfl⟩ := Option.map_eq_some_iff.mp hcall
    split_ifs
    · exact h
    · exact h.settle (mem_of_find?_eq_some hfind)
  | blockCancel id =>
    rw [Sched.call] at hcall
    split_ifs at hcall
    obtain ⟨t, hfind, rfl⟩ := Option.map_eq_some_iff.mp hcall
    exact h.settle (mem_of_find?_eq_some hfind)

theorem InBatch.calls (h : s.InBatch rest) {running : Option ℕ} {calls : List (Call F)}
    (hcalls : calls.foldlM (Sched.call running) s.store = some st) :
    { s with store := st }.InBatch rest := by
  induction calls generalizing s with
  | nil =>
    cases hcalls
    exact h
  | cons c calls ih =>
    rw [foldlM_cons] at hcalls
    obtain ⟨st₁, hc, hcalls⟩ := Option.bind_eq_some_iff.mp hcalls
    exact ih (s := { s with store := st₁ }) (h.call hc) hcalls

/-! ### The batch -/

/-- **`operator()`** for the first timer of the batch. -/
theorem InBatch.invoke (h : s.InBatch (t :: rest)) {o : Outcome F} {threw : Bool}
    (hinvoke : s.invoke t o = some (s', threw)) : s'.InBatch rest := by
  have hmem : t ∈ s.invoked ++ s.dropped ++ t :: rest := by simp
  have hperm : (s.invoked ++ s.dropped ++ t :: rest).Perm
      ((s.invoked ++ [t]) ++ s.dropped ++ rest) := by
    rw [append_assoc, append_assoc, append_assoc]
    exact List.Perm.append_left _ perm_middle
  rw [Sched.invoke] at hinvoke
  dsimp only [TimerHeap.deactivate] at hinvoke
  split_ifs at hinvoke with hact
  · obtain ⟨st, hcalls, heq⟩ := Option.map_eq_some_iff.mp hinvoke
    cases heq
    -- the timer counts as called before its callback starts
    have hfired : InBatch ⟨{ s.store with heap := (s.store.heap.deactivate t.id_).1 },
        s.invoked ++ [t], s.dropped⟩ rest := by
      refine ⟨TimerStore.step_inv (a := .fire t.id_) h.inv rfl, ?_, ?_, ?_, ?_⟩
      · exact hperm.nodup_iff.mp h.nodup
      · exact fun t' ht' => h.handed t' (hperm.mem_iff.mpr ht')
      · exact fun t' ht' => (h.all t' ht').imp_right hperm.mem_iff.mp
      · intro t' ht'
        show Function.update s.store.heap.active_ t.id_ false t'.id_ = false ↔
          t' ∈ s.invoked ++ [t] ∨ t' ∈ s.store.cancelled
        rw [mem_append, mem_singleton]
        by_cases hid : t'.id_ = t.id_
        · have heq : t' = t := h.inv.eq_of_id ht' (h.added hmem) hid
          simp [heq]
        · have hne : t' ≠ t := fun he => hid (he ▸ rfl)
          rw [Function.update_of_ne hid, h.inactive t' ht']
          simp [hne]
    exact hfired.calls hcalls
  · cases hinvoke
    -- it has not been called, so it is inactive because it was cancelled
    have hcancelled : t ∈ s.store.cancelled := by
      have hinactive := (h.inactive t (h.added hmem)).mp (Bool.not_eq_true _ ▸ hact)
      refine hinactive.resolve_left fun hm => ?_
      have hnodup := hperm.nodup_iff.mp h.nodup
      rw [append_assoc, append_assoc, nodup_append] at hnodup
      exact hnodup.2.2 t hm t (by simp) rfl
    refine ⟨h.inv, ?_, ?_, ?_, h.inactive⟩
    · exact (nodup_cons.mp (perm_middle.nodup_iff.mp h.nodup)).2
    · exact fun t' ht' => h.handed t' (perm_middle.mem_iff.mpr (mem_cons_of_mem t ht'))
    · intro t' ht'
      rcases h.all t' ht' with hc | hm
      · exact .inl hc
      · rcases mem_cons.mp (perm_middle.mem_iff.mp hm) with rfl | hm
        · exact .inl hcancelled
        · exact .inr hm

/-- The rest of the batch is dropped. -/
theorem InBatch.drop (h : s.InBatch rest) : { s with dropped := s.dropped ++ rest }.InBatch [] := by
  have heq : s.invoked ++ (s.dropped ++ rest) ++ [] = s.invoked ++ s.dropped ++ rest := by
    rw [append_nil, append_assoc]
  exact ⟨h.inv, heq ▸ h.nodup, heq ▸ h.handed, heq ▸ h.all, h.inactive⟩

/-- **The loop** calls, skips or drops every timer of the batch. -/
theorem fireAll_inBatch {timers : List (CoTimer F)} (h : s.InBatch timers)
    {outcomes : List (Outcome F)} {threw : Bool}
    (hfire : fireAll timers outcomes s = some (s', threw)) : s'.InBatch [] := by
  induction timers generalizing s outcomes with
  | nil =>
    cases hfire
    exact h
  | cons t timers ih =>
    rw [fireAll] at hfire
    obtain ⟨⟨s₁, threw₁⟩, hinvoke, hnext⟩ := Option.bind_eq_some_iff.mp hfire
    have h₁ := h.invoke hinvoke
    dsimp only at hnext
    split_ifs at hnext
    · cases hnext
      exact h₁.drop
    · exact ih h₁ hnext

/-- `GetExpired` begins a batch. -/
theorem InBatch.getExpired (h : s.InBatch []) (now : ℤ) (n : ℕ) :
    InBatch ⟨{ s.store with
      mgr := (s.store.mgr.getExpired now n).2
      handed := s.store.handed ++ (s.store.mgr.getExpired now n).1.map fun t => (now, t) },
      s.invoked, s.dropped⟩ (s.store.mgr.getExpired now n).1 := by
  have hinv : TimerStore.Inv { s.store with
      mgr := (s.store.mgr.getExpired now n).2
      handed := s.store.handed ++ (s.store.mgr.getExpired now n).1.map fun t => (now, t) } :=
    TimerStore.step_inv (a := .getExpired now n) h.inv rfl
  generalize (s.store.mgr.getExpired now n).1 = timers at hinv ⊢
  generalize (s.store.mgr.getExpired now n).2 = mgr at hinv ⊢
  have hout : (s.store.handed ++ timers.map fun t => (now, t)).map Prod.snd
      = s.store.handedOut ++ timers := by
    rw [map_append, map_map]
    exact congrArg (s.store.handedOut ++ ·) (map_id _)
  have honce : ((s.store.handed ++ timers.map fun t => (now, t)).map Prod.snd).Nodup := hinv.once
  rw [hout] at honce
  obtain ⟨-, hbatch, hnew⟩ := nodup_append.mp honce
  have hnodup := h.nodup
  have hhanded := h.handed
  have hall := h.all
  rw [append_nil] at hnodup hhanded hall
  refine ⟨hinv, ?_, fun t ht => ?_, fun t ht => ?_, h.inactive⟩
  · exact nodup_append.mpr ⟨hnodup, hbatch, fun a ha b hb => hnew a (hhanded a ha) b hb⟩
  · show t ∈ (s.store.handed ++ timers.map fun t => (now, t)).map Prod.snd
    rw [hout, mem_append]
    exact (mem_append.mp ht).imp_left (hhanded t)
  · change t ∈ (s.store.handed ++ timers.map fun t => (now, t)).map Prod.snd at ht
    rw [hout, mem_append] at ht
    rcases ht with ht | ht
    · exact (hall t ht).imp_right (mem_append_left _)
    · exact .inr (mem_append_right _ ht)

theorem doTimer_inBatch (h : s.InBatch []) {now : ℤ} {outcomes : List (Outcome F)} {exit : Exit}
    (hdo : s.doTimer now outcomes = some (s', exit)) : s'.InBatch [] := by
  obtain ⟨⟨s₁, threw⟩, hfire, heq⟩ := Option.map_eq_some_iff.mp hdo
  cases heq
  exact fireAll_inBatch (h.getExpired now 128) hfire

/-- **One step** of a run. -/
theorem step_inBatch {a : Act F} (h : s.InBatch []) (hst : s.step a = some s') : s'.InBatch [] := by
  cases a with
  | call c =>
    obtain ⟨st, hcall, rfl⟩ := Option.map_eq_some_iff.mp hst
    exact h.call hcall
  | doTimer now outcomes =>
    obtain ⟨⟨s₁, exit⟩, hdo, rfl⟩ := Option.map_eq_some_iff.mp hst
    exact doTimer_inBatch h hdo

theorem inBatch_init (h : Init s) : s.InBatch [] := by
  obtain ⟨hstore, hinvoked, hdropped⟩ := h
  have hadded : s.store.added = [] := hstore.2.1
  have hhanded : s.store.handedOut = [] := by rw [TimerStore.handedOut, hstore.2.2.2]; rfl
  refine ⟨TimerStore.inv_init hstore, ?_, ?_, ?_, ?_⟩
  · simp [hinvoked, hdropped]
  · simp [hinvoked, hdropped]
  · simp [hhanded]
  · simp [hadded]

theorem reach_inBatch : ∀ s : Sched F, Reach Init step s → s.InBatch [] :=
  ReachIf.invariant (fun _ h => inBatch_init h) fun _ _ _ h _ hst => step_inBatch h hst

/-! ### The result -/

/-- A timer that is due when nothing is due in the store has been handed out or cancelled. -/
theorem InBatch.handed_of_due (h : s.InBatch rest) {now : ℤ} (hnone : s.store.mgr.dueCount now = 0)
    (ht : t ∈ s.store.added) (hdue : t.nextTimePoint_ ≤ now) (hc : t ∉ s.store.cancelled) :
    t ∈ s.store.handedOut := by
  by_contra hh
  obtain ⟨d, hd, hdt⟩ := mem_map.mp ((h.inv.mem t).mpr ⟨ht, hc, hh⟩)
  refine countP_eq_zero.mp hnone d hd (decide_eq_true ?_)
  rw [h.inv.consistent.key d hd, hdt]
  exact hdue

/-- **Which timers are called.**  After any run of `DoTimer` calls, with or without
exceptions, and of calls of the program and of the callbacks, when nothing is due at
`now` any more: every timer that is due and was not cancelled has been called exactly
once, iff every due timer that an exception left in a batch was cancelled. -/
theorem invoked_once_iff [DecidableEq F] (hs : Reach Init step s) {now : ℤ}
    (hnone : s.store.mgr.dueCount now = 0) :
    (∀ t ∈ s.store.added, t.nextTimePoint_ ≤ now → t ∉ s.store.cancelled → s.invoked.count t = 1) ↔
      ∀ t ∈ s.dropped, t.nextTimePoint_ ≤ now → t ∈ s.store.cancelled := by
  have h := reach_inBatch s hs
  have hnodup := h.nodup
  have hall := h.all
  rw [append_nil] at hnodup hall
  obtain ⟨honce, -, hdisj⟩ := nodup_append.mp hnodup
  constructor
  · intro hinvoked t ht hdue
    by_contra hc
    have hcount := hinvoked t (h.added (by simp [ht])) hdue hc
    have hm : t ∈ s.invoked := count_pos_iff.mp (by omega)
    exact hdisj t hm t ht rfl
  · intro hdropped t ht hdue hc
    refine count_eq_one_of_mem honce ?_
    have hhanded := h.handed_of_due hnone ht hdue hc
    rcases mem_append.mp ((hall t hhanded).resolve_left hc) with hm | hm
    · exact hm
    · exact absurd (hdropped t hm hdue) hc

/-! ### Calls after which nothing is missed -/

/-- In a call of `DoTimer` no callback throws but that of the last timer of the batch. -/
def ThrowsLast (s : Sched F) : Act F → Prop
  | .call _ => True
  | .doTimer now outcomes => ∀ i < (s.store.mgr.getExpired now 128).1.length - 1,
      (outcomes.getD i ⟨[], false⟩).throws = false

instance (s : Sched F) (a : Act F) : Decidable (s.ThrowsLast a) :=
  match a with
  | .call _ => .isTrue trivial
  | .doTimer .. => inferInstanceAs (Decidable (∀ i < _, _ = _))

theorem invoke_dropped {o : Outcome F} {threw : Bool} (hinvoke : s.invoke t o = some (s', threw)) :
    s'.dropped = s.dropped ∧ (threw = true → o.throws = true) := by
  rw [Sched.invoke] at hinvoke
  dsimp only at hinvoke
  split_ifs at hinvoke
  · obtain ⟨st, -, heq⟩ := Option.map_eq_some_iff.mp hinvoke
    cases heq
    exact ⟨rfl, id⟩
  · cases hinvoke
    exact ⟨rfl, fun hthrew => by cases hthrew⟩

/-- **The loop drops nothing** when only the last callback can throw. -/
theorem fireAll_dropped {timers : List (CoTimer F)} {outcomes : List (Outcome F)} {threw : Bool}
    (hlast : ∀ i < timers.length - 1, (outcomes.getD i ⟨[], false⟩).throws = false)
    (hfire : fireAll timers outcomes s = some (s', threw)) : s'.dropped = s.dropped := by
  induction timers generalizing s outcomes with
  | nil =>
    cases hfire
    rfl
  | cons t timers ih =>
    rw [fireAll] at hfire
    obtain ⟨⟨s₁, threw₁⟩, hinvoke, hnext⟩ := Option.bind_eq_some_iff.mp hfire
    obtain ⟨hdropped, hthrows⟩ := invoke_dropped hinvoke
    dsimp only at hnext
    split_ifs at hnext with hthrew
    · cases hnext
      -- this callback throws, so that no timer is behind it
      have hnil : timers = [] := by
        by_contra hne
        have hpos : 0 < timers.length := length_pos_iff.mpr hne
        have hfirst := hlast 0 (by rw [length_cons]; omega)
        have hhead : outcomes.getD 0 ⟨[], false⟩ = outcomes.headD ⟨[], false⟩ := by
          cases outcomes <;> rfl
        rw [hhead, hthrows hthrew] at hfirst
        cases hfirst
      show s₁.dropped ++ timers = s.dropped
      rw [hnil, append_nil, hdropped]
    · refine (ih (fun i hi => ?_) hnext).trans hdropped
      have hnth := hlast (i + 1) (by rw [length_cons]; omega)
      cases outcomes with
      | nil => rfl
      | cons o outcomes => exact hnth

theorem step_dropped {a : Act F} (hlast : s.ThrowsLast a) (hst : s.step a = some s') :
    s'.dropped = s.dropped := by
  cases a with
  | call c =>
    obtain ⟨st, -, rfl⟩ := Option.map_eq_some_iff.mp hst
    rfl
  | doTimer now outcomes =>
    obtain ⟨⟨s₁, exit⟩, hdo, rfl⟩ := Option.map_eq_some_iff.mp hst
    obtain ⟨⟨s₂, threw⟩, hfire, heq⟩ := Option.map_eq_some_iff.mp hdo
    cases heq
    have hkept := fireAll_dropped hlast hfire
    exact hkept

/-- **No timer is swallowed** in a run in which a callback that throws is the last of its
batch: when nothing is due at `now` any more, every timer that is due and was not cancelled
has been called exactly once. -/
theorem invoked_once [DecidableEq F] (hs : ReachIf Init step ThrowsLast s) {now : ℤ}
    (hnone : s.store.mgr.dueCount now = 0) :
    ∀ t ∈ s.store.added, t.nextTimePoint_ ≤ now → t ∉ s.store.cancelled → s.invoked.count t = 1 := by
  have hdropped : ∀ s : Sched F, ReachIf Init step ThrowsLast s → s.dropped = [] :=
    ReachIf.invariant (fun _ h => h.2.2) fun s s' a h hlast hst => (step_dropped hlast hst).trans h
  refine (invoked_once_iff (hs.mono fun _ _ _ => trivial) hnone).mpr fun t ht => ?_
  rw [hdropped s hs] at ht
  cases ht

def new : Sched F := ⟨⟨⟨0, fun _ => false⟩, .new, [], [], []⟩, [], []⟩

theorem init_new : Init (new : Sched F) := ⟨⟨rfl, rfl, rfl, rfl⟩, rfl, rfl⟩

/-- Three timers are due at time 5: the first callback adds a timer and cancels the second,
the last one throws, and so does that of the new timer. -/
def lastThrows : List (Act ℕ) :=
  [.call (.expireAt 3 0), .call (.expireAt 4 0), .call (.expireAt 5 0),
    .doTimer 5 [⟨[.expireAt 5 0, .blockCancel 2], false⟩, ⟨[], false⟩, ⟨[], true⟩],
    .doTimer 5 [⟨[], true⟩]]

theorem invoked_once_lastThrows : ∃ s, execIf step ThrowsLast new lastThrows = some s ∧
    s.store.added.length = 4 ∧ s.store.cancelled = [⟨2, 0, 4⟩] ∧
    ∀ t ∈ s.store.added, t.nextTimePoint_ ≤ 5 → t ∉ s.store.cancelled → s.invoked.count t = 1 := by
  have hrun : execIf step ThrowsLast new lastThrows
      = some ((execIf step ThrowsLast new lastThrows).get rfl) := rfl
  have hreach := reachIf_exec lastThrows (.start init_new) hrun
  exact ⟨_, hrun, rfl, rfl, invoked_once hreach rfl⟩

/-- Two timers that are due at time 5 and a callback `o` of the first, with `DoTimer`
called twice. -/
def twoDue (o : Outcome ℕ) : Option (Sched ℕ) :=
  exec step new [.call (.expireAt 3 0), .call (.expireAt 4 0), .doTimer 5 [o], .doTimer 5 []]

/-- Two timers are due, and the callback of the first throws: the second is never called,
though nothing is due any more and no one cancelled it. -/
theorem throwing_callback_drops_timer : ∃ s, twoDue ⟨[], true⟩ = some s ∧
    s.store.mgr.dueCount 5 = 0 ∧ s.store.added = [⟨1, 0, 3⟩, ⟨2, 0, 4⟩] ∧
    s.store.cancelled = [] ∧ s.invoked = [⟨1, 0, 3⟩] :=
  ⟨_, rfl, rfl, rfl, rfl, rfl⟩

end Sched

end DoTimer
