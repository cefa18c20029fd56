/-
The user wait table of the scheduler (coroutine/scheduler.cpp): a map of zones,
each a map of pairs of a counter and a queue of waiting tasks.

`operator[]` creates zones and pairs on lookup, and `ClearWaitPairWithoutLock`
removes a pair that has neither permits nor waiters, together with its zone when
the pair is the only one in it.  Every operation stores a pair and then cleans
up; `WaitTable.find_commit` says what that does to every key.

The table does not look into its queues, so they are a parameter `Q`.

* `WaitTable.WellFormed` — no stored pair is dead, no stored zone is empty;
* `UserWait.System.one_semaphore_per_key` — over every run, the table is one
  counting semaphore per key.
-/
import CppFeatures.Runs
import Mathlib.Algebra.Group.Nat.Defs
import Mathlib.Data.List.AList
import Mathlib.Tactic.Common

/-- `WaitPair`: permits set ahead of the waits, and the waiters. -/
structure WaitPair (Q : Type*) where
  first : ℕ
  second : Q
deriving DecidableEq, Repr

/-- A key: the `type` and the `wait_id` of a wait. -/
abbrev WaitKey := ℤ × ℕ

abbrev WaitZone (Q : Type*) := AList fun _ : ℕ => WaitPair Q

abbrev WaitTable (Q : Type*) := AList fun _ : ℤ => WaitZone Q

namespace WaitTable

variable {Q : Type*}

-- `user_wait_tasks_[type]` and `zone[wait_id]`: both create what is missing
def zone (tbl : WaitTable Q) (type : ℤ) : WaitZone Q := (tbl.lookup type).getD ∅

def pair (tbl : WaitTable Q) (new : Q) (k : WaitKey) : WaitPair Q :=
  ((tbl.zone k.1).lookup k.2).getD ⟨0, new⟩

/-- The pair stored for a key. -/
def find (tbl : WaitTable Q) (k : WaitKey) : Option (WaitPair Q) :=
  (tbl.lookup k.1).bind fun zone => zone.lookup k.2

-- what `operator[]` leaves in the table
def store (tbl : WaitTable Q) (k : WaitKey) (p : WaitPair Q) : WaitTable Q :=
  tbl.insert k.1 ((tbl.zone k.1).insert k.2 p)

variable (isEmpty : Q → Bool)

def clearWaitPairWithoutLock (tbl : WaitTable Q) (k : WaitKey) (zone : WaitZone Q)
    (waitPair : WaitPair Q) : WaitTable Q :=
  if isEmpty waitPair.second = true ∧ waitPair.first = 0 then
    if 1 < zone.keys.length then tbl.insert k.1 (zone.erase k.2) else tbl.erase k.1
  else tbl

/-- Store a pair and clean up, as every operation on the table does. -/
def commit (tbl : WaitTable Q) (k : WaitKey) (p : WaitPair Q) : WaitTable Q :=
  clearWaitPairWithoutLock isEmpty (tbl.store k p) k ((tbl.zone k.1).insert k.2 p) p

/-! ### What a commit does -/

theorem pair_eq (tbl : WaitTable Q) (new : Q) (k : WaitKey) :
    tbl.pair new k = (tbl.find k).getD ⟨0, new⟩ := by
  rw [pair, zone, find]
  cases tbl.lookup k.1 <;> rfl

theorem lookup_zone (tbl : WaitTable Q) (k : WaitKey) :
    (tbl.zone k.1).lookup k.2 = tbl.find k := by
  rw [zone, find]
  cases tbl.lookup k.1 <;> rfl

/-- Replacing a zone changes the keys of that zone. -/
theorem find_insert (tbl : WaitTable Q) (type : ℤ) (z : WaitZone Q) (k : WaitKey) :
    find (tbl.insert type z) k = if k.1 = type then z.lookup k.2 else tbl.find k := by
  obtain ⟨ty, id⟩ := k
  rw [find]
  split_ifs with h
  · simp only at h
    subst h
    rw [AList.lookup_insert, Option.bind_some]
  · rw [AList.lookup_insert_ne h, find]

theorem find_erase (tbl : WaitTable Q) (type : ℤ) (k : WaitKey) :
    find (tbl.erase type) k = if k.1 = type then none else tbl.find k := by
  obtain ⟨ty, id⟩ := k
  rw [find]
  split_ifs with h
  · simp only at h
    subst h
    rw [AList.lookup_erase, Option.bind_none]
  · rw [AList.lookup_erase_ne h, find]

theorem find_store (tbl : WaitTable Q) (k : WaitKey) (p : WaitPair Q) (k' : WaitKey) :
    (tbl.store k p).find k' = if k' = k then some p else tbl.find k' := by
  obtain ⟨ty, id⟩ := k
  obtain ⟨ty', id'⟩ := k'
  rw [store, find_insert]
  by_cases hty : ty' = ty
  · subst hty
    rw [if_pos rfl]
    by_cases hid : id' = id
    · subst hid
      rw [if_pos rfl, AList.lookup_insert]
    · rw [if_neg (by simp [hid]), AList.lookup_insert_ne hid, lookup_zone tbl (ty', id')]
  · rw [if_neg hty, if_neg (by simp [hty])]

/-- A zone with a single pair has no other keys. -/
theorem find_eq_none_of_size {tbl : WaitTable Q} {k : WaitKey} {p : WaitPair Q}
    (hsize : ¬1 < ((tbl.zone k.1).insert k.2 p).keys.length) {id : ℕ} (hid : id ≠ k.2) :
    tbl.find (k.1, id) = none := by
  rw [AList.keys_insert, List.length_cons] at hsize
  have hnil : (tbl.zone k.1).keys.erase k.2 = [] := List.length_eq_zero_iff.mp (by omega)
  rw [← lookup_zone, AList.lookup_eq_none, AList.mem_keys]
  intro hmem
  have := (List.mem_erase_of_ne hid).mpr hmem
  rw [hnil] at this
  exact List.not_mem_nil this

/-- **A commit** sets its own key, or removes it when the pair is dead, and leaves
every other key alone. -/
theorem find_commit (tbl : WaitTable Q) (k : WaitKey) (p : WaitPair Q) (k' : WaitKey) :
    (tbl.commit isEmpty k p).find k' =
      if k' = k then (if isEmpty p.second = true ∧ p.first = 0 then none else some p)
      else tbl.find k' := by
  obtain ⟨ty, id⟩ := k
  obtain ⟨ty', id'⟩ := k'
  simp only [commit, store, clearWaitPairWithoutLock]
  by_cases hty : ty' = ty
  · subst hty
    by_cases hid : id' = id
    · subst hid
      simp only [if_true]
      split_ifs
      · rw [find_insert, if_pos rfl, AList.lookup_erase]
      · rw [find_erase, if_pos rfl]
      · rw [find_insert, if_pos rfl, AList.lookup_insert]
    · have hk : ¬((ty', id') : WaitKey) = (ty', id) := by simp [hid]
      rw [if_neg hk, ← lookup_zone tbl (ty', id')]
      split_ifs with _ hsize
      · rw [find_insert, if_pos rfl, AList.lookup_erase_ne hid, AList.lookup_insert_ne hid]
      · rw [find_erase, if_pos rfl, lookup_zone, find_eq_none_of_size (k := (ty', id)) hsize hid]
      · rw [find_insert, if_pos rfl, AList.lookup_insert_ne hid]
  · have hk : ¬((ty', id') : WaitKey) = (ty, id) := by simp [hty]
    rw [if_neg hk]
    split_ifs
    · rw [find_insert, if_neg hty, find_insert, if_neg hty]
    · rw [find_erase, if_neg hty, find_insert, if_neg hty]
    · rw [find_insert, if_neg hty]

/-- Every stored pair has permits or waiters and not both, and no stored zone is
empty. -/
structure WellFormed (tbl : WaitTable Q) : Prop where
  pairs : ∀ k p, tbl.find k = some p → (0 < p.first ↔ isEmpty p.second = true)
  zones : ∀ type z, tbl.lookup type = some z → z.keys ≠ []

theorem wellFormed_empty : WellFormed isEmpty (∅ : WaitTable Q) where
  pairs := by
    intro k p h
    rw [find, AList.lookup_empty] at h
    cases h
  zones := by
    intro type z h
    rw [AList.lookup_empty] at h
    cases h

theorem WellFormed.commit {tbl : WaitTable Q} (h : WellFormed isEmpty tbl) {k : WaitKey}
    {p : WaitPair Q} (hp : p.first = 0 ∨ isEmpty p.second = true) :
    WellFormed isEmpty (tbl.commit isEmpty k p) where
  pairs := by
    intro k' p' hfind
    rw [find_commit] at hfind
    split_ifs at hfind with hk hdead
    · cases hfind
      rcases hp with hp | hp
      · simp only [hp, and_true] at hdead
        simp [hp, hdead]
      · simp only [hp, true_and] at hdead
        simp only [hp, iff_true]
        omega
    · exact h.pairs k' p' hfind
  zones := by
    intro type z hz
    rw [WaitTable.commit, store, clearWaitPairWithoutLock] at hz
    by_cases hty : type = k.1
    · subst hty
      split_ifs at hz with _ hsize
      · rw [AList.lookup_insert] at hz
        cases hz
        rw [AList.keys_insert, List.length_cons] at hsize
        rw [AList.keys_erase, AList.keys_insert, List.erase_cons_head]
        exact List.ne_nil_of_length_pos (by omega)
      · rw [AList.lookup_erase] at hz
        cases hz
      · rw [AList.lookup_insert] at hz
        cases hz
        rw [AList.keys_insert]
        exact List.cons_ne_nil _ _
    · split_ifs at hz with _ hsize
      · rw [AList.lookup_insert_ne hty, AList.lookup_insert_ne hty] at hz
        exact h.zones type z hz
      · rw [AList.lookup_erase_ne hty, AList.lookup_insert_ne hty] at hz
        exact h.zones type z hz
      · rw [AList.lookup_insert_ne hty] at hz
        exact h.zones type z hz

end WaitTable

/-! ### The operations on lists of waiters -/

namespace UserWait

variable {τ : Type*}

open WaitTable

-- the table whose queues hold tasks, oldest first
abbrev Table (τ : Type*) := WaitTable (List τ)

/-- The `user_block` case of `Processer::Run`: consume a permit, or enqueue the
task (`true`). -/
def switch (tbl : Table τ) (k : WaitKey) (tk : τ) : Table τ × Bool :=
  let p := tbl.pair [] k
  if p.first ≠ 0 then (tbl.commit List.isEmpty k { p with first := p.first - 1 }, false)
  else (tbl.commit List.isEmpty k { p with second := p.second ++ [tk] }, true)

def tryBlockWait (tbl : Table τ) (k : WaitKey) : Table τ × Bool :=
  match tbl.find k with
  | none => (tbl, false)
  | some p =>
    if 0 < p.first then (tbl.commit List.isEmpty k { p with first := p.first - 1 }, true)
    else (tbl, false)

/-- `BlockWakeup` up to its unlock, with the tasks it popped; `pop(n)` takes one task
even for `n = 0`. -/
def blockWakeup (tbl : Table τ) (k : WaitKey) (wakeupCount : ℕ) : Table τ × List τ :=
  let p := tbl.pair [] k
  let tasks := p.second.take (max 1 wakeupCount)
  let c := tasks.length
  let first := if c < wakeupCount then (p.first + (wakeupCount - c)) % 2 ^ 32 else p.first
  (tbl.commit List.isEmpty k ⟨first, p.second.drop (max 1 wakeupCount)⟩, tasks)

-- the stored counter of a key, 0 if absent
def counter (tbl : Table τ) (k : WaitKey) : ℕ := (tbl.pair [] k).first

/-- The key has at most one of permits and waiters. -/
theorem pair_exclusive {tbl : Table τ} (h : WellFormed List.isEmpty tbl) (k : WaitKey) :
    (tbl.pair [] k).first = 0 ∨ (tbl.pair [] k).second = [] := by
  rw [pair_eq]
  cases hf : tbl.find k with
  | none => exact .inl rfl
  | some p =>
    have := h.pairs k p hf
    rw [Option.getD_some]
    by_cases h0 : 0 < p.first
    · exact .inr (List.isEmpty_iff.mp (this.mp h0))
    · exact .inl (by omega)

theorem pair_commit (tbl : Table τ) (k : WaitKey) (p : WaitPair (List τ)) (k' : WaitKey) :
    (tbl.commit List.isEmpty k p).pair [] k' = if k' = k then p else tbl.pair [] k' := by
  rw [pair_eq, find_commit]
  split_ifs with hk hdead
  · obtain ⟨hq, h0⟩ := hdead
    rw [List.isEmpty_iff] at hq
    rw [Option.getD_none, ← hq, ← h0]
  · rfl
  · rw [pair_eq]

theorem switch_cases (tbl : Table τ) (k : WaitKey) (tk : τ) :
    (0 < counter tbl k ∧ switch tbl k tk = (tbl.commit List.isEmpty k
        ⟨counter tbl k - 1, (tbl.pair [] k).second⟩, false)) ∨
      (counter tbl k = 0 ∧ switch tbl k tk = (tbl.commit List.isEmpty k
        ⟨0, (tbl.pair [] k).second ++ [tk]⟩, true)) := by
  rw [switch, counter]
  by_cases h0 : (tbl.pair [] k).first = 0
  · right
    simp [h0]
  · left
    exact ⟨by omega, if_pos h0⟩

theorem tryBlockWait_cases (tbl : Table τ) (k : WaitKey) :
    (0 < counter tbl k ∧ tryBlockWait tbl k = (tbl.commit List.isEmpty k
        ⟨counter tbl k - 1, (tbl.pair [] k).second⟩, true)) ∨
      (counter tbl k = 0 ∧ tryBlockWait tbl k = (tbl, false)) := by
  rw [tryBlockWait, counter, pair_eq]
  cases hf : tbl.find k with
  | none => exact .inr ⟨rfl, rfl⟩
  | some p =>
    simp only [Option.getD_some]
    by_cases h0 : 0 < p.first
    · exact .inl ⟨h0, if_pos h0⟩
    · exact .inr ⟨by omega, if_neg h0⟩

/-- With the default count 1, a wakeup pops the oldest waiter or stores a permit. -/
theorem blockWakeup_one_cases (tbl : Table τ) (k : WaitKey) :
    (∃ tk rest, (tbl.pair [] k).second = tk :: rest ∧
        blockWakeup tbl k 1 = (tbl.commit List.isEmpty k ⟨counter tbl k, rest⟩, [tk])) ∨
      ((tbl.pair [] k).second = [] ∧ blockWakeup tbl k 1
        = (tbl.commit List.isEmpty k ⟨(counter tbl k + 1) % 2 ^ 32, []⟩, [])) := by
  rw [blockWakeup, counter]
  cases hq : (tbl.pair [] k).second with
  | nil => exact .inr ⟨rfl, rfl⟩
  | cons tk rest => exact .inl ⟨tk, rest, rfl, rfl⟩

/-! ### Runs over any mixture of keys -/

/-- Where a task stands in `UserBlockWait`: `BlockWait` marks it and yields, and
`Processer::Run` then consumes a permit or queues it. -/
inductive Phase
  | running
  | marked (k : WaitKey)
  | queued (k : WaitKey)
deriving DecidableEq, Repr, Inhabited

inductive Event
  | wakeup
  | granted
  | tried
deriving DecidableEq, Repr

/-- The table, the tasks using it, and the log of wakeups, granted waits and
successful tries, per key. -/
structure System (τ : Type*) where
  table : Table τ
  phase : τ → Phase
  log : List (WaitKey × Event)

inductive Act (τ : Type*)
  | userBlockWait (tk : τ) (k : WaitKey)
  | switch (tk : τ)
  | tryUserBlockWait (k : WaitKey)
  | userBlockWakeup (k : WaitKey)
deriving DecidableEq, Repr

namespace System

def Init (s : System τ) : Prop := s = ⟨∅, fun _ => .running, []⟩

def wakeups (s : System τ) (k : WaitKey) : ℕ := s.log.count (k, .wakeup)

def grants (s : System τ) (k : WaitKey) : ℕ := s.log.count (k, .granted)

def tries (s : System τ) (k : WaitKey) : ℕ := s.log.count (k, .tried)

variable [DecidableEq τ]

def step (s : System τ) : Act τ → Option (System τ)
  | .userBlockWait tk k =>
    if s.phase tk = .running then some { s with phase := Function.update s.phase tk (.marked k) }
    else none
  | .switch tk =>
    match s.phase tk with
    | .marked k =>
      let (tbl, queued) := UserWait.switch s.table k tk
      if queued then some { s with table := tbl, phase := Function.update s.phase tk (.queued k) }
      else some ⟨tbl, Function.update s.phase tk .running, (k, .granted) :: s.log⟩
    | _ => none
  | .tryUserBlockWait k =>
    let (tbl, ok) := tryBlockWait s.table k
    some { s with table := tbl, log := if ok then (k, .tried) :: s.log else s.log }
  | .userBlockWakeup k =>
    let (tbl, tasks) := blockWakeup s.table k 1
    some ⟨tbl, fun t => if t ∈ tasks then .running else s.phase t,
      tasks.map (fun _ => (k, .granted)) ++ (k, .wakeup) :: s.log⟩

/-- The key an action works on. -/
def keyOf (s : System τ) : Act τ → Option WaitKey
  | .userBlockWait _ _ => none
  | .switch tk => match s.phase tk with
    | .marked k => some k
    | _ => none
  | .tryUserBlockWait k => some k
  | .userBlockWakeup k => some k

/-- The assumption on a run: the permits of each key stay below `2^32`. -/
def Bounded (s : System τ) (a : Act τ) : Prop :=
  ∀ s', s.step a = some s' → ∀ k, s'.wakeups k < 2 ^ 32 + s'.grants k + s'.tries k

structure Inv (s : System τ) : Prop where
  wf : WellFormed List.isEmpty s.table
  permits : ∀ k, s.wakeups k = counter s.table k + s.grants k + s.tries k

omit [DecidableEq τ] in
theorem inv_init {s : System τ} (h : Init s) : Inv s := by
  subst h
  exact ⟨wellFormed_empty _, fun k => rfl⟩

omit [DecidableEq τ] in
/-- A commit at `k` keeps the invariant if it keeps permits and waiters apart and
balances the permits of `k` with what it logs, and it logs nothing for other
keys. -/
theorem Inv.commit {s : System τ} (h : Inv s) {k : WaitKey} {p : WaitPair (List τ)}
    {ph : τ → Phase} {log : List (WaitKey × Event)} (hp : p.first = 0 ∨ p.second = [])
    (hother : ∀ k' e, k' ≠ k → log.count (k', e) = s.log.count (k', e))
    (hbal : log.count (k, .wakeup) = p.first + log.count (k, .granted) + log.count (k, .tried)) :
    Inv ⟨s.table.commit List.isEmpty k p, ph, log⟩ := by
  refine ⟨h.wf.commit _ (hp.imp id List.isEmpty_iff.mpr), fun k' => ?_⟩
  simp only [wakeups, grants, tries, counter, pair_commit]
  by_cases hk : k' = k
  · subst hk
    rw [if_pos rfl]
    exact hbal
  · rw [if_neg hk, hother k' _ hk, hother k' _ hk, hother k' _ hk]
    exact h.permits k'

/-- A step changes no key but the one it works on. -/
theorem step_frame {s s' : System τ} {a : Act τ} (hst : s.step a = some s') {k : WaitKey}
    (hne : s.keyOf a ≠ some k) : s'.table.find k = s.table.find k := by
  have hcommit : ∀ (k' : WaitKey) (p : WaitPair (List τ)), k' ≠ k →
      (s.table.commit List.isEmpty k' p).find k = s.table.find k := by
    intro k' p hk
    rw [find_commit, if_neg fun e => hk e.symm]
  cases a with
  | userBlockWait tk k' =>
    rw [step] at hst
    split_ifs at hst
    cases hst
    rfl
  | switch tk =>
    cases hph : s.phase tk with
    | running => simp [step, hph] at hst
    | queued k' => simp [step, hph] at hst
    | marked k' =>
      simp only [keyOf, hph, ne_eq, Option.some_inj] at hne
      rcases switch_cases s.table k' tk with ⟨-, heq⟩ | ⟨-, heq⟩
      · simp only [step, hph, heq, Bool.false_eq_true, if_false] at hst
        cases hst
        exact hcommit _ _ hne
      · simp only [step, hph, heq, if_true] at hst
        cases hst
        exact hcommit _ _ hne
  | tryUserBlockWait k' =>
    simp only [keyOf, ne_eq, Option.some_inj] at hne
    rcases tryBlockWait_cases s.table k' with ⟨-, heq⟩ | ⟨-, heq⟩
    · simp only [step, heq] at hst
      cases hst
      exact hcommit _ _ hne
    · simp only [step, heq] at hst
      cases hst
      rfl
  | userBlockWakeup k' =>
    simp only [keyOf, ne_eq, Option.some_inj] at hne
    simp only [step, blockWakeup] at hst
    cases hst
    exact hcommit _ _ hne

/-- **One step** keeps the invariant. -/
theorem step_inv {s s' : System τ} {a : Act τ} (h : Inv s) (hb : Bounded s a)
    (hst : s.step a = some s') : Inv s' := by
  have hper := h.permits
  simp only [wakeups, grants, tries] at hper
  -- an event logged for `k` counts for no other key
  have hother : ∀ {k k' : WaitKey} {e e' : Event} {l : List (WaitKey × Event)}, k' ≠ k →
      ((k, e) :: l).count (k', e') = l.count (k', e') := fun hne =>
    List.count_cons_of_ne (by simp [Ne.symm hne])
  cases a with
  | userBlockWait tk k =>
    rw [step] at hst
    split_ifs at hst
    cases hst
    exact ⟨h.wf, h.permits⟩
  | switch tk =>
    cases hph : s.phase tk with
    | running => simp [step, hph] at hst
    | queued k => simp [step, hph] at hst
    | marked k =>
      have hk := hper k
      rcases switch_cases s.table k tk with ⟨h0, heq⟩ | ⟨h0, heq⟩
      · simp only [step, hph, heq, Bool.false_eq_true, if_false] at hst
        cases hst
        refine h.commit (.inr ?_) (fun k' e hne => hother hne) ?_
        · exact (pair_exclusive h.wf k).resolve_left (by rw [counter] at h0; omega)
        · simp
          omega
      · simp only [step, hph, heq, if_true] at hst
        cases hst
        refine h.commit (.inl rfl) (fun _ _ _ => rfl) ?_
        simp only
        omega
  | tryUserBlockWait k =>
    have hk := hper k
    rcases tryBlockWait_cases s.table k with ⟨h0, heq⟩ | ⟨h0, heq⟩
    · simp only [step, heq, if_true] at hst
      cases hst
      refine h.commit (.inr ?_) (fun k' e hne => hother hne) ?_
      · exact (pair_exclusive h.wf k).resolve_left (by rw [counter] at h0; omega)
      · simp
        omega
    · simp only [step, heq, Bool.false_eq_true, if_false] at hst
      cases hst
      exact ⟨h.wf, h.permits⟩
  | userBlockWakeup k =>
    have hk := hper k
    have hbound := hb _ hst k
    rcases blockWakeup_one_cases s.table k with ⟨tk, rest, hq, heq⟩ | ⟨hq, heq⟩
    · simp only [step, heq, List.map_cons, List.map_nil, List.cons_append, List.nil_append,
        Option.some_inj] at hst
      subst hst
      have h0 : counter s.table k = 0 :=
        (pair_exclusive h.wf k).resolve_right (by rw [hq]; simp)
      refine h.commit (.inl h0) (fun k' e hne => (hother hne).trans (hother hne)) ?_
      simp
      omega
    · simp only [step, heq, List.map_nil, List.nil_append] at hst
      cases hst
      simp [wakeups, grants, tries] at hbound
      refine h.commit (.inr rfl) (fun k' e hne => hother hne) ?_
      -- below the bound the counter does not wrap
      simp
      omega

theorem reach_inv : ∀ s : System τ, ReachIf Init step Bounded s → Inv s :=
  ReachIf.invariant (fun _ h => inv_init h) fun _ _ _ h hb hst => step_inv h hb hst

/-- **One counting semaphore per key.**  In every run with fewer than `2^32`
outstanding permits per key: a stored pair has permits or waiters and never both;
no stored zone is empty; for each key the wakeups are the stored counter plus the
granted waits plus the successful tries; and a step leaves every key alone but
the one it works on. -/
theorem one_semaphore_per_key {s : System τ} (hs : ReachIf Init step Bounded s) :
    (∀ k p, s.table.find k = some p →
        (0 < p.first ∧ p.second = []) ∨ (p.first = 0 ∧ p.second ≠ [])) ∧
      (∀ type zone, s.table.lookup type = some zone → zone.keys ≠ []) ∧
      (∀ k, s.wakeups k = counter s.table k + s.grants k + s.tries k) ∧
      ∀ a s' k, s.step a = some s' → s.keyOf a ≠ some k → s'.table.find k = s.table.find k := by
  have h := reach_inv s hs
  refine ⟨fun k p hf => ?_, h.wf.zones, h.permits, fun a s' k hst => step_frame hst⟩
  have := h.wf.pairs k p hf
  rw [List.isEmpty_iff] at this
  by_cases h0 : 0 < p.first
  · exact .inl ⟨h0, this.mp h0⟩
  · exact .inr ⟨by omega, fun hnil => h0 (this.mpr hnil)⟩

-- two keys of one zone: task 1 is queued under the first, the second holds a permit
theorem one_semaphore_per_key_twoKeys : ∃ s : System ℕ,
    exec step ⟨∅, fun _ => .running, []⟩
        [.userBlockWait 1 (5, 0), .switch 1, .userBlockWakeup (5, 1)] = some s ∧
      s.wakeups (5, 1) = 1 ∧
      s.wakeups (5, 1) = counter s.table (5, 1) + s.grants (5, 1) + s.tries (5, 1) := by
  have hok : ∀ {s u : System ℕ} {a : Act ℕ}, s.step a = some u → u.log.length < 2 ^ 32 →
      Bounded s a := by
    intro s u a h hlen s' h' k
    rw [h, Option.some_inj] at h'
    subst h'
    have := List.count_le_length (a := (k, Event.wakeup)) (l := u.log)
    rw [wakeups]
    omega
  have hreach : ReachIf Init step Bounded _ :=
    .next (.next (.next (.start rfl) (hok (a := .userBlockWait 1 (5, 0)) rfl (by decide)) rfl)
      (hok (a := .switch 1) rfl (by decide)) rfl)
      (hok (a := .userBlockWakeup (5, 1)) rfl (by decide)) rfl
  exact ⟨_, rfl, rfl, (one_semaphore_per_key hreach).2.2.1 (5, 1)⟩

end System

end UserWait
