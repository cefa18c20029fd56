/-
`CoTimer` under concurrency (coroutine/timer.cpp, coroutine/spinlock.h).

`operator()`, `Cancel` and `BlockCancel` settle a timer under its spin lock
`fn_lock_`: whoever finds `active_` set clears it and wins.  `operator()` and
`Cancel` give up when the lock is busy, `BlockCancel` spins.  The model interleaves
the atomic steps of any number of such calls on one timer.

* `CoTimer.Race.Step` — what one step can do;
* `CoTimer.Race.Inv` — the lock has at most one holder, and the flag, the runs of
  `fn_` and the successful cancels always make one;
* `CoTimer.Race.fired_or_cancelled_once` — a timer is fired once or cancelled once.
-/
import CppFeatures.Runs
import CppFeatures.Pool
import CppFeatures.Timer

/-- `LFLock`: the flag `lck`. -/
structure LFLock where
  lck : Bool := false
deriving DecidableEq, Repr

namespace LFLock

/-- `try_lock`, which is also one round of the loop in `lock`. -/
def tryLock (l : LFLock) : LFLock × Bool := (⟨true⟩, !l.lck)

def unlock (_ : LFLock) : LFLock := ⟨false⟩

end LFLock

namespace CoTimer

/-- The member functions that take `fn_lock_`. -/
inductive Call
  | operator
  | cancel
  | blockCancel
deriving DecidableEq, Repr

/-- Where a call stands.  `operator()` returns nothing, kept as `false`. -/
inductive Pc
  | idle
  | locking (c : Call)
  | testing (c : Call)
  | clearing (c : Call)
  | starting
  | running
  | leaving (c : Call) (ret : Bool)
  | returned (c : Call) (ret : Bool)
deriving DecidableEq, Repr, Inhabited

namespace Pc

@[simp] def isTesting : Pc → Bool
  | testing _ => true
  | _ => false

@[simp] def isClearing : Pc → Bool
  | clearing _ => true
  | _ => false

@[simp] def isStarting : Pc → Bool
  | starting => true
  | _ => false

@[simp] def isRunning : Pc → Bool
  | running => true
  | _ => false

@[simp] def isLeaving : Pc → Bool
  | leaving _ _ => true
  | _ => false

@[simp] def isReturned : Pc → Bool
  | returned _ _ => true
  | _ => false

-- a cancel that will return `true`, or has
@[simp] def isWon : Pc → Bool
  | leaving .cancel true | leaving .blockCancel true => true
  | returned .cancel true | returned .blockCancel true => true
  | _ => false

@[simp] def isCancelled : Pc → Bool
  | returned .cancel true | returned .blockCancel true => true
  | _ => false

-- a `BlockCancel` that will return `false`, or has
@[simp] def isRefused : Pc → Bool
  | leaving .blockCancel false | returned .blockCancel false => true
  | _ => false

end Pc

/-- One timer and all calls on it; `runs` counts the calls of `fn_`. -/
structure Race (τ : Type*) where
  fnLock_ : LFLock
  active_ : Bool
  calls : Pool τ Pc
  runs : ℕ

inductive Act (τ : Type*)
  | call (t : τ) (c : Call)
  | go (t : τ)
deriving DecidableEq, Repr

namespace Race

variable {τ : Type*}

-- the constructor `CoTimer(fn)`
def new : Race τ := ⟨{}, true, Pool.empty, 0⟩

def Init (s : Race τ) : Prop := s = new

/-- How many cancels have returned `true`. -/
def cancels (s : Race τ) : ℕ := s.calls.count Pc.isCancelled

variable [DecidableEq τ]

/-- One atomic step of a call.  The destructor of `unique_lock` unlocks, also when
`fn_` throws. -/
def step (s : Race τ) : Act τ → Option (Race τ)
  | .call t c => if s.calls.pc t = .idle then some { s with calls := s.calls.set t (.locking c) } else none
  | .go t => match s.calls.pc t with
    | .idle | .returned _ _ => none
    | .locking c =>
      let (lock, ok) := s.fnLock_.tryLock
      let next := if ok then .testing c else match c with
        | .blockCancel => .locking c
        | _ => .returned c false
      some { s with fnLock_ := lock, calls := s.calls.set t next }
    | .testing c =>
      some { s with calls := s.calls.set t (if s.active_ then .clearing c else .leaving c false) }
    | .clearing c =>
      let next := match c with
        | .operator => .starting
        | _ => .leaving c true
      some { s with active_ := false, calls := s.calls.set t next }
    | .starting => some { s with calls := s.calls.set t .running, runs := s.runs + 1 }
    | .running => some { s with calls := s.calls.set t (.leaving .operator false) }
    | .leaving c ret =>
      some { s with fnLock_ := s.fnLock_.unlock, calls := s.calls.set t (.returned c ret) }

/-- What one step can do. -/
inductive Step (s : Race τ) : Race τ → Prop
  | call (t : τ) (c : Call) (ht : s.calls.pc t = .idle) :
      Step s ⟨s.fnLock_, s.active_, s.calls.set t (.locking c), s.runs⟩
  | spin (t : τ) (ht : s.calls.pc t = .locking .blockCancel) (hl : s.fnLock_.lck = true) :
      Step s ⟨⟨true⟩, s.active_, s.calls.set t (.locking .blockCancel), s.runs⟩
  | giveUp (t : τ) (c : Call) (ht : s.calls.pc t = .locking c) (hl : s.fnLock_.lck = true)
      (hc : c ≠ .blockCancel) :
      Step s ⟨⟨true⟩, s.active_, s.calls.set t (.returned c false), s.runs⟩
  | lock (t : τ) (c : Call) (ht : s.calls.pc t = .locking c) (hl : s.fnLock_.lck = false) :
      Step s ⟨⟨true⟩, s.active_, s.calls.set t (.testing c), s.runs⟩
  | test (t : τ) (c : Call) (ht : s.calls.pc t = .testing c) (ha : s.active_ = true) :
      Step s ⟨s.fnLock_, s.active_, s.calls.set t (.clearing c), s.runs⟩
  | testFail (t : τ) (c : Call) (ht : s.calls.pc t = .testing c) (ha : s.active_ = false) :
      Step s ⟨s.fnLock_, s.active_, s.calls.set t (.leaving c false), s.runs⟩
  | fire (t : τ) (ht : s.calls.pc t = .clearing .operator) :
      Step s ⟨s.fnLock_, false, s.calls.set t .starting, s.runs⟩
  | cancel (t : τ) (c : Call) (ht : s.calls.pc t = .clearing c) (hc : c ≠ .operator) :
      Step s ⟨s.fnLock_, false, s.calls.set t (.leaving c true), s.runs⟩
  | start (t : τ) (ht : s.calls.pc t = .starting) :
      Step s ⟨s.fnLock_, s.active_, s.calls.set t .running, s.runs + 1⟩
  | finish (t : τ) (ht : s.calls.pc t = .running) :
      Step s ⟨s.fnLock_, s.active_, s.calls.set t (.leaving .operator false), s.runs⟩
  | unlock (t : τ) (c : Call) (ret : Bool) (ht : s.calls.pc t = .leaving c ret) :
      Step s ⟨⟨false⟩, s.active_, s.calls.set t (.returned c ret), s.runs⟩

theorem step_cases {s s' : Race τ} {a : Act τ} (hst : s.step a = some s') : Step s s' := by
  cases a with
  | call t c =>
    rw [step] at hst
    split_ifs at hst with ht
    rw [Option.some_inj] at hst
    exact hst ▸ .call t c ht
  | go t =>
    rw [step] at hst
    cases ht : s.calls.pc t with
    | idle => simp [ht] at hst
    | returned c ret => simp [ht] at hst
    | locking c =>
      cases hl : s.fnLock_.lck with
      | false =>
        simp only [ht, LFLock.tryLock, hl, Bool.not_false, if_true, Option.some_inj] at hst
        exact hst ▸ .lock t c ht hl
      | true =>
        simp only [ht, LFLock.tryLock, hl, Bool.not_true, Bool.false_eq_true, if_false,
          Option.some_inj] at hst
        subst hst
        cases c with
        | operator => exact .giveUp t _ ht hl (by decide)
        | cancel => exact .giveUp t _ ht hl (by decide)
        | blockCancel => exact .spin t ht hl
    | testing c =>
      by_cases ha : s.active_ = true
      · simp only [ht, if_pos ha, Option.some_inj] at hst
        exact hst ▸ .test t c ht ha
      · simp only [ht, if_neg ha, Option.some_inj] at hst
        exact hst ▸ .testFail t c ht (Bool.eq_false_iff.mpr ha)
    | clearing c =>
      simp only [ht] at hst
      cases hst
      cases c with
      | operator => exact .fire t ht
      | cancel => exact .cancel t _ ht (by decide)
      | blockCancel => exact .cancel t _ ht (by decide)
    | starting =>
      simp only [ht, Option.some_inj] at hst
      exact hst ▸ .start t ht
    | running =>
      simp only [ht, Option.some_inj] at hst
      exact hst ▸ .finish t ht
    | leaving c ret =>
      simp only [ht, Option.some_inj] at hst
      exact hst ▸ .unlock t c ret ht

/-! ### Who settles the timer -/

/-- The lock has at most one holder.  The flag, the runs of `fn_` and the
successful cancels make one, counting those that are about to happen; a holder that
has dealt with `active_` leaves it cleared; and whoever returned, with or without
the lock, left the timer settled or somebody in the lock who will settle it. -/
structure Inv (s : Race τ) : Prop where
  holder : s.calls.count Pc.isTesting + s.calls.count Pc.isClearing +
    s.calls.count Pc.isStarting + s.calls.count Pc.isRunning +
    s.calls.count Pc.isLeaving = s.fnLock_.lck.toNat
  clearing : s.calls.count Pc.isClearing ≤ s.active_.toNat
  one : s.active_.toNat + s.calls.count Pc.isStarting + s.runs + s.calls.count Pc.isWon = 1
  ran : s.calls.count Pc.isRunning ≤ s.runs
  settled : s.active_.toNat + s.calls.count Pc.isRunning + s.calls.count Pc.isLeaving ≤ 1
  owed : 0 < s.calls.count Pc.isReturned →
    s.active_.toNat ≤ s.calls.count Pc.isTesting + s.calls.count Pc.isClearing
  refused : 0 < s.calls.count Pc.isRefused →
    s.active_.toNat + s.calls.count Pc.isStarting + s.calls.count Pc.isRunning = 0

omit [DecidableEq τ] in
theorem inv_init {s : Race τ} (h : Init s) : Inv s := by
  subst h
  constructor <;> simp [new]

/-- What moving one call does to the counts of the invariant. -/
theorem counts_set (P : Pool τ Pc) {t : τ} {x : Pc} (hx : P.pc t = x) (y : Pc) :
    (P.set t y).count Pc.isTesting + x.isTesting.toNat
      = P.count Pc.isTesting + y.isTesting.toNat ∧
    (P.set t y).count Pc.isClearing + x.isClearing.toNat
      = P.count Pc.isClearing + y.isClearing.toNat ∧
    (P.set t y).count Pc.isStarting + x.isStarting.toNat
      = P.count Pc.isStarting + y.isStarting.toNat ∧
    (P.set t y).count Pc.isRunning + x.isRunning.toNat = P.count Pc.isRunning + y.isRunning.toNat ∧
    (P.set t y).count Pc.isLeaving + x.isLeaving.toNat = P.count Pc.isLeaving + y.isLeaving.toNat ∧
    (P.set t y).count Pc.isReturned + x.isReturned.toNat
      = P.count Pc.isReturned + y.isReturned.toNat ∧
    (P.set t y).count Pc.isWon + x.isWon.toNat = P.count Pc.isWon + y.isWon.toNat ∧
    (P.set t y).count Pc.isRefused + x.isRefused.toNat
      = P.count Pc.isRefused + y.isRefused.toNat := by
  subst hx
  exact ⟨Pool.count_set rfl .., Pool.count_set rfl .., Pool.count_set rfl ..,
    Pool.count_set rfl .., Pool.count_set rfl .., Pool.count_set rfl ..,
    Pool.count_set rfl .., Pool.count_set rfl ..⟩

/-- **One step** keeps the invariant. -/
theorem step_inv {s s' : Race τ} (h : Inv s) (hst : Step s s') : Inv s' := by
  obtain ⟨hholder, hclearing, hone, hran, hsettled, howed, hrefused⟩ := h
  have hle := s.fnLock_.lck.toNat_le
  have htrue : true.toNat = 1 := rfl
  have hfalse : false.toNat = 0 := rfl
  -- in each case the new counts are written by the old ones, except for what the call leaves
  cases hst with
  | call t c ht =>
    have hset := counts_set s.calls ht (.locking c)
    simp at hset
    constructor <;> simp only [hset] <;> assumption
  | spin t ht hl =>
    have hset := counts_set s.calls ht (.locking .blockCancel)
    simp at hset
    rw [hl] at hholder
    constructor <;> simp only [hset] <;> assumption
  | giveUp t c ht hl hc =>
    -- the lock is held by a call that has settled the timer, or will
    have hset := counts_set s.calls ht (.returned c false)
    simp [hc] at hset
    rw [hl] at hholder
    constructor <;> simp only [hset] <;> clear hset <;> omega
  | lock t c ht hl =>
    have hset := counts_set s.calls ht (.testing c)
    simp at hset
    rw [hl] at hholder
    constructor <;> simp only [hset] <;> clear hset <;> omega
  | test t c ht ha =>
    have hset := counts_set s.calls ht (.clearing c)
    have hact : s.active_.toNat = 1 := by rw [ha]; rfl
    simp at hset
    have hleft := hset.1
    constructor <;> simp only [hset] <;> clear hset <;> omega
  | testFail t c ht ha =>
    have hset := counts_set s.calls ht (.leaving c false)
    have hact : s.active_.toNat = 0 := by rw [ha]; rfl
    simp at hset
    have hleft := hset.1
    constructor <;> simp only [hset] <;> clear hset <;> omega
  | fire t ht =>
    have hset := counts_set s.calls ht .starting
    simp at hset
    have hleft := hset.2.1
    constructor <;> simp only [hset] <;> clear hset <;> omega
  | cancel t c ht hc =>
    have hset := counts_set s.calls ht (.leaving c true)
    have hwon : (Pc.leaving c true).isWon = true := by cases c <;> simp_all
    rw [hwon] at hset
    simp at hset
    have hleft := hset.2.1
    constructor <;> simp only [hset] <;> clear hset <;> omega
  | start t ht =>
    have hset := counts_set s.calls ht .running
    simp at hset
    have hleft := hset.2.2.1
    constructor <;> simp only [hset] <;> clear hset <;> omega
  | finish t ht =>
    have hset := counts_set s.calls ht (.leaving .operator false)
    simp at hset
    have hleft := hset.2.2.2.1
    constructor <;> simp only [hset] <;> clear hset <;> omega
  | unlock t c ret ht =>
    have hset := counts_set s.calls ht (.returned c ret)
    have hwon : (Pc.returned c ret).isWon = (Pc.leaving c ret).isWon := by
      cases c <;> cases ret <;> rfl
    have href : (Pc.returned c ret).isRefused = (Pc.leaving c ret).isRefused := by
      cases c <;> cases ret <;> rfl
    rw [hwon, href] at hset
    simp at hset
    have hleft := hset.2.2.2.2.1
    constructor <;> simp only [hset] <;> clear hset <;> omega

theorem reach_inv : ∀ s : Race τ, Reach Init step s → Inv s :=
  ReachIf.invariant (fun _ h => inv_init h) fun _ _ _ h _ hst => step_inv h (step_cases hst)

/-- A cancel that has returned stays returned. -/
theorem step_cancels {s s' : Race τ} (hst : Step s s') : s.cancels ≤ s'.cancels := by
  have hmove : ∃ t y, s'.calls = s.calls.set t y ∧ (s.calls.pc t).isCancelled = false := by
    cases hst <;> rename_i ht _ <;> exact ⟨_, _, rfl, by simp_all⟩
  obtain ⟨t, y, hcalls, ht⟩ := hmove
  have hset := Pool.count_set (p := Pc.isCancelled) rfl s.calls t y
  rw [ht] at hset
  rw [cancels, cancels, hcalls]
  simp at hset
  omega

theorem later_cancels {s s' : Race τ} (hs : Reach (· = s) step s') : s.cancels ≤ s'.cancels := by
  induction hs with
  | start h => rw [h]
  | next _ _ hst ih => exact ih.trans (step_cancels (step_cases hst))

theorem isWon_of_isCancelled (x : Pc) (h : x.isCancelled = true) : x.isWon = true := by
  cases x with
  | returned c ret => cases c <;> cases ret <;> first | rfl | cases h
  | _ => cases h

/-- **A timer is fired once or cancelled once.**  In every interleaving of any number
of `operator()`, `Cancel` and `BlockCancel` calls: `fn_` runs at most once; the runs
and the cancels that returned `true` are at most one together, and exactly one once
some call was made and all have returned; after a cancel returned `true`, `fn_` never
runs; and when a `BlockCancel` has returned `false`, `fn_` is not running. -/
theorem fired_or_cancelled_once {s : Race τ} (hs : Reach Init step s) :
    s.runs ≤ 1 ∧ s.runs + s.cancels ≤ 1 ∧
      ((∀ t, s.calls.pc t = .idle ∨ (s.calls.pc t).isReturned) → (∃ t, s.calls.pc t ≠ .idle) →
        s.runs + s.cancels = 1) ∧
      (0 < s.cancels → ∀ s', Reach (· = s) step s' →
        s'.runs = s.runs ∧ ∀ t, s'.calls.pc t ≠ .running) ∧
      (∀ t, s.calls.pc t = .returned .blockCancel false → ∀ u, s.calls.pc u ≠ .running) := by
  have hone : ∀ s : Race τ, Reach Init step s → s.runs + s.cancels ≤ 1 ∧
      s.calls.count Pc.isRunning ≤ s.runs := by
    intro s hs
    have h := reach_inv s hs
    have hwon : s.cancels ≤ s.calls.count Pc.isWon := Pool.count_mono isWon_of_isCancelled s.calls
    have := h.one
    exact ⟨by omega, h.ran⟩
  have h := reach_inv s hs
  refine ⟨?_, (hone s hs).1, fun hall hex => ?_, fun hc s' hs' => ?_, fun t ht u hu => ?_⟩
  · have := (hone s hs).1
    omega
  · -- nobody is in the lock, so whoever returned left the timer settled
    have hrest : ∀ p q : Pc → Bool, p .idle = q .idle →
        (∀ c ret, p (.returned c ret) = q (.returned c ret)) →
        s.calls.count p = s.calls.count q := by
      intro p q hidle hret
      refine Pool.count_congr fun t => ?_
      rcases hall t with ht | ht
      · rw [ht, hidle]
      · cases hpc : s.calls.pc t with
        | returned c ret => exact hret c ret
        | _ => simp [hpc] at ht
    have hnone : s.calls.count (fun _ => false) = 0 := (Pool.count_eq_zero rfl).mpr fun _ => rfl
    have htest := hrest Pc.isTesting (fun _ => false) rfl fun _ _ => rfl
    have hclear := hrest Pc.isClearing (fun _ => false) rfl fun _ _ => rfl
    have hstart := hrest Pc.isStarting (fun _ => false) rfl fun _ _ => rfl
    have hwon := hrest Pc.isWon Pc.isCancelled rfl fun c ret => by cases c <;> cases ret <;> rfl
    obtain ⟨t, ht⟩ := hex
    have howed := h.owed (Pool.count_pos rfl ((hall t).resolve_left ht))
    have := h.one
    rw [cancels]
    omega
  · have hle := later_cancels hs'
    obtain ⟨hruns, hran⟩ := hone s' (hs.trans hs')
    have := (hone s hs).1
    refine ⟨by omega, fun t ht => ?_⟩
    have hpos := Pool.count_pos (p := Pc.isRunning) rfl (by rw [ht]; rfl : Pc.isRunning _ = true)
    omega
  · have href := h.refused (Pool.count_pos rfl (by rw [ht]; rfl))
    have hpos := Pool.count_pos (p := Pc.isRunning) rfl (by rw [hu]; rfl : Pc.isRunning _ = true)
    omega

-- the expiry fires, a `Cancel` meets the busy lock, a `BlockCancel` waits for `fn_`
theorem fired_or_cancelled_once_fired :
    ∃ s : Race ℕ, exec step new
        [.call 0 .operator, .call 1 .cancel, .call 2 .blockCancel, .go 0, .go 1, .go 2, .go 0,
          .go 0, .go 0, .go 2, .go 0, .go 0, .go 2, .go 2, .go 2] = some s ∧
      s.calls.pc 2 = .returned .blockCancel false ∧ s.runs = 1 ∧ s.runs + s.cancels ≤ 1 ∧
      ∀ u, s.calls.pc u ≠ .running := by
  refine ⟨_, rfl, rfl, rfl, ?_⟩
  have h := fired_or_cancelled_once (τ := ℕ) (reach_exec
    [.call 0 .operator, .call 1 .cancel, .call 2 .blockCancel, .go 0, .go 1, .go 2, .go 0,
      .go 0, .go 0, .go 2, .go 0, .go 0, .go 2, .go 2, .go 2] (.start rfl) rfl)
  exact ⟨h.2.1, h.2.2.2.2 2 rfl⟩

end Race

end CoTimer
