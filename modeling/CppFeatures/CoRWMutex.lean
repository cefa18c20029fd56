/-
`CoRWMutex` (coroutine/co_rwmutex.cpp): a reader-writer lock made of a `CoMutex`
and an atomic counter.

Readers raise `readers_c_` and then look at the mutex; writers take the mutex and
then look at `readers_c_`.  Every access to either is one atomic step, and the
steps of all uses of the lock interleave.  A process of the model is one *use* of
the lock, from the call that acquires it to the one that releases it: a task that
read-locks twice is two processes.

`readers_c_` is a `std::atomic<int>`, and that bounds what the lock can promise:

* `CoRWMutex.System.wrapped_counter_admits_writer` — after 2^32 read locks the
  counter is back at zero, and a writer walks in beside the readers;
* `CoRWMutex.System.exclusion` — while fewer than 2^31 increments are
  outstanding, no write lock is held together with any other lock, the counter
  covers the read locks, and a failed try leaves nothing behind.
-/
import CppFeatures.CoMutex

/-- `CoRWMutexImpl`; `readers_c_` is a 32-bit two's complement `int`. -/
structure CoRWMutex (τ : Type*) where
  mtx_ : CoMutex τ
  readersC_ : BitVec 32
deriving DecidableEq

namespace CoRWMutex

variable {τ : Type*}

def new : CoRWMutex τ := ⟨CoMutex.new, 0⟩

/-- The next step of one use of the lock. -/
inductive Pc
  | idle
  -- `r_lock`: `++readers_c_`, `mtx_.is_lock()`, `--readers_c_` and yield, again
  | rLock | rLockCheck | rLockBack
  -- `r_try_lock`: `++readers_c_`, `mtx_.is_lock()`, `--readers_c_`
  | rTry | rTryCheck | rTryBack
  | rHeld
  -- `w_lock`: `mtx_.lock()`, then `readers_c_` until it is zero
  | wLock (ph : WaitPhase) | wSpin
  -- `w_try_lock`: `mtx_.try_lock()`, `readers_c_`, `mtx_.unlock()`
  | wTry | wTryCheck | wTryUndo
  | wHeld
deriving DecidableEq, Repr, Inhabited

namespace Pc

def isParked : Pc → Bool
  | wLock .parked => true
  | _ => false

-- uses that own `mtx_`
def ownsMtx : Pc → Bool
  | wSpin | wTryCheck | wTryUndo | wHeld => true
  | _ => false

-- uses that have raised `readers_c_` and not lowered it again
def raised : Pc → Bool
  | rLockCheck | rLockBack | rTryCheck | rTryBack | rHeld => true
  | _ => false

def readHeld : Pc → Bool
  | rHeld => true
  | _ => false

def writeHeld : Pc → Bool
  | wHeld => true
  | _ => false

theorem of_ownsMtx {x : Pc} (h : x.ownsMtx = true) : x.isParked = false ∧ x.raised = false := by
  cases x <;> simp_all [ownsMtx, isParked, raised]

theorem eq_of_isParked {x : Pc} (h : x.isParked = true) : x = .wLock .parked := by
  rcases x with _ | _ | _ | _ | _ | _ | _ | _ | ph | _ | _ | _ | _ | _
  case wLock => cases ph <;> simp_all [isParked]
  all_goals exact absurd h Bool.false_ne_true

end Pc

/-- The lock, its uses, the tries that returned false (newest first), and whether
the assertion of `r_unlock` failed or an `unlock` threw. -/
structure System (τ : Type*) where
  lock : CoRWMutex τ
  uses : Pool τ Pc
  refused : List τ
  fault : Bool

inductive Act (τ : Type*)
  | rLock (t : τ) | rTryLock (t : τ) | rUnlock (t : τ)
  | wLock (t : τ) | wTryLock (t : τ) | wUnlock (t : τ)
  -- the next step inside a call; `co` tells whether the caller is a coroutine
  | advance (t : τ) (co : Bool)
deriving DecidableEq, Repr

namespace System

def Init (s : System τ) : Prop := s = ⟨CoRWMutex.new, Pool.empty, [], false⟩

def readers (s : System τ) : ℕ := s.uses.count Pc.readHeld

def writers (s : System τ) : ℕ := s.uses.count Pc.writeHeld

def raised (s : System τ) : ℕ := s.uses.count Pc.raised

/-! ### The handshake -/

/-- Mutex and counter account for the uses: the permit and the owners of `mtx_`
make one, `readers_c_` counts the raised uses (as an `int`), and readers and
writers are never in together. -/
structure Inv (s : System τ) : Prop where
  sound : s.lock.mtx_.block_.Sound
  max_eq : s.lock.mtx_.block_.maxWakeup_ = 1
  parks : Parks s.lock.mtx_.block_.waitQueue_ s.uses Pc.isParked
  one : s.lock.mtx_.block_.wakeup_ + s.uses.count Pc.ownsMtx = 1
  counter : s.lock.readersC_ = BitVec.ofNat 32 s.raised
  excl : s.writers = 0 ∨ s.readers = 0
  noFault : s.fault = false

theorem inv_init {s : System τ} (h : Init s) : Inv s := by
  subst h
  exact ⟨BlockObject.sound_new le_rfl (by decide), rfl, Parks.empty rfl, rfl, rfl, .inl rfl, rfl⟩

theorem readers_le_raised (s : System τ) : s.readers ≤ s.raised :=
  Pool.count_mono (fun x hx => by cases x <;> simp_all [Pc.readHeld, Pc.raised]) _

-- below 2^31 the `int` is the number of raised uses
theorem Inv.counter_toInt {s : System τ} (h : Inv s) (hb : s.raised < 2 ^ 31) :
    s.lock.readersC_.toInt = s.raised := by
  rw [h.counter, BitVec.toInt_eq_toNat_cond, BitVec.toNat_ofNat]
  split_ifs <;> omega

theorem Inv.noReader {s : System τ} (h : Inv s) (hb : s.raised < 2 ^ 31)
    (hz : s.lock.readersC_ = 0) : s.readers = 0 := by
  have hle := s.readers_le_raised
  have := h.counter_toInt hb
  rw [hz] at this
  simp only [BitVec.ofNat_eq_ofNat, BitVec.toInt_zero] at this
  omega

theorem Inv.free_of_isLock {s : System τ} (h : Inv s) (hl : s.lock.mtx_.isLock = false) :
    s.writers = 0 := by
  have hone := h.one
  have hpos : 0 < s.lock.mtx_.block_.wakeup_ := by
    simpa [CoMutex.isLock, BlockObject.isWakeup] using hl
  have hle : s.writers ≤ s.uses.count Pc.ownsMtx :=
    Pool.count_mono (fun x hx => by cases x <;> simp_all [Pc.writeHeld, Pc.ownsMtx]) _
  omega

/-! ### The steps -/

variable [DecidableEq τ]

def move (s : System τ) (t : τ) (x : Pc) : System τ := { s with uses := s.uses.set t x }

-- `++readers_c_` and `--readers_c_`
def raise (s : System τ) : System τ :=
  { s with lock := { s.lock with readersC_ := s.lock.readersC_ + 1 } }

def lower (s : System τ) : System τ :=
  { s with lock := { s.lock with readersC_ := s.lock.readersC_ - 1 } }

def setMtx (s : System τ) (m : CoMutex τ) : System τ := { s with lock := { s.lock with mtx_ := m } }

/-- `mtx_.unlock()` by `t`, which then leaves; a parked writer may get the mutex. -/
def unlockMtx (s : System τ) (t : τ) : System τ :=
  let (m, next, err) := s.lock.mtx_.unlock false
  let s := { (s.setMtx m).move t .idle with fault := s.fault || !err.isOk }
  match next with
  | some u => s.move u .wSpin
  | none => s

/-- The next atomic step of a use that is inside a call. -/
def advance (s : System τ) (t : τ) (co : Bool) : Option (System τ) :=
  match s.uses.pc t with
  | .rLock => some (s.raise.move t .rLockCheck)
  | .rLockCheck => some (s.move t (if s.lock.mtx_.isLock then .rLockBack else .rHeld))
  | .rLockBack => some (s.lower.move t .rLock)
  | .rTry => some (s.raise.move t .rTryCheck)
  | .rTryCheck => some (s.move t (if s.lock.mtx_.isLock then .rTryBack else .rHeld))
  | .rTryBack => some { s.lower.move t .idle with refused := t :: s.refused }
  | .wLock .ready =>
    let (m, granted) := s.lock.mtx_.lock
    -- outside a coroutine `CoBlockWait` retries instead of parking
    some ((s.setMtx m).move t
      (if granted then .wSpin else if co then .wLock .marked else .wLock .ready))
  | .wLock .marked =>
    let (m, queued) := s.lock.mtx_.addWaitTask t
    some ((s.setMtx m).move t (if queued then .wLock .parked else .wSpin))
  | .wSpin => some (s.move t (if s.lock.readersC_ ≠ 0 then .wSpin else .wHeld))
  | .wTry =>
    let (m, granted) := s.lock.mtx_.tryLock
    some (if granted then (s.setMtx m).move t .wTryCheck
      else { (s.setMtx m).move t .idle with refused := t :: s.refused })
  | .wTryCheck => some (s.move t (if s.lock.readersC_ ≠ 0 then .wTryUndo else .wHeld))
  | .wTryUndo => some { s.unlockMtx t with refused := t :: s.refused }
  | .wLock .parked | .idle | .rHeld | .wHeld => none

/-- One atomic step; a use releases only what it acquired. -/
def step (s : System τ) : Act τ → Option (System τ)
  | .rLock t => if s.uses.pc t = .idle then some (s.move t .rLock) else none
  | .rTryLock t => if s.uses.pc t = .idle then some (s.move t .rTry) else none
  | .wLock t => if s.uses.pc t = .idle then some (s.move t (.wLock .ready)) else none
  | .wTryLock t => if s.uses.pc t = .idle then some (s.move t .wTry) else none
  | .rUnlock t =>
    if s.uses.pc t = .rHeld then
      let s' := s.lower.move t .idle
      some { s' with fault := s.fault || decide (s'.lock.readersC_.toInt < 0) }
    else none
  | .wUnlock t => if s.uses.pc t = .wHeld then some (s.unlockMtx t) else none
  | .advance t co => s.advance t co

/-- Moving `t` from `y` to `x` keeps the invariant if mutex and counter follow, and
nobody of the other kind is in when `x` is a held lock. -/
theorem Inv.moved {s : System τ} (h : Inv s) {b : BlockObject τ} {c : BitVec 32} {t : τ}
    {x y : Pc} {r : List τ} {f : Bool} (hpc : s.uses.pc t = y) (hs : b.Sound)
    (hmax : b.maxWakeup_ = 1) (hp : Parks b.waitQueue_ (s.uses.set t x) Pc.isParked)
    (hone : b.wakeup_ + x.ownsMtx.toNat = s.lock.mtx_.block_.wakeup_ + y.ownsMtx.toNat)
    (hc : c + BitVec.ofNat 32 y.raised.toNat
      = s.lock.readersC_ + BitVec.ofNat 32 x.raised.toNat)
    (hr : x.readHeld = false ∨ s.writers = 0) (hw : x.writeHeld = false ∨ s.readers = 0)
    (hf : f = false) :
    Inv ⟨⟨⟨b⟩, c⟩, s.uses.set t x, r, f⟩ := by
  have hown := Pool.count_set (p := Pc.ownsMtx) rfl s.uses t x
  have hrai := Pool.count_set (p := Pc.raised) rfl s.uses t x
  have hrd := Pool.count_set (p := Pc.readHeld) rfl s.uses t x
  have hwr := Pool.count_set (p := Pc.writeHeld) rfl s.uses t x
  rw [hpc] at hown hrai hrd hwr
  refine ⟨hs, hmax, hp, ?_, ?_, ?_, hf⟩
  · have := h.one
    simp only
    omega
  · have hcast := congrArg (BitVec.ofNat 32) hrai
    rw [BitVec.ofNat_add, BitVec.ofNat_add] at hcast
    rw [h.counter] at hc
    exact (BitVec.add_left_inj _).mp (hc.trans hcast.symm)
  · have hex := h.excl
    have hboth : x.readHeld = false ∨ x.writeHeld = false := by
      cases x <;> simp [Pc.readHeld, Pc.writeHeld]
    simp only [writers, readers] at hex hr hw ⊢
    -- a fresh reader found no writer, a fresh writer no reader
    rcases hr with hr | hr <;> rcases hw with hw | hw
    · simp only [hr, hw, Bool.toNat_false] at hrd hwr
      omega
    · simp only [hr, Bool.toNat_false] at hrd
      omega
    · simp only [hw, Bool.toNat_false] at hwr
      omega
    · rcases hboth with hx | hx <;> simp only [hx, Bool.toNat_false] at hrd hwr <;> omega

section Moves

variable {s : System τ} {t : τ} {x y : Pc} {r : List τ}

/-- A move that touches neither mutex nor counter. -/
theorem Inv.move (h : Inv s) (hpc : s.uses.pc t = y) (hp : y.isParked = false)
    (hx : x.isParked = false) (ho : x.ownsMtx = y.ownsMtx) (hra : x.raised = y.raised)
    (hr : x.readHeld = false ∨ s.writers = 0) (hw : x.writeHeld = false ∨ s.readers = 0) :
    Inv (s.move t x) :=
  h.moved hpc h.sound h.max_eq (h.parks.stay (hpc ▸ hp) hx) (by rw [ho]) (by rw [hra]) hr hw
    h.noFault

theorem Inv.raise (h : Inv s) (hpc : s.uses.pc t = y) (hp : y.isParked = false)
    (hx : x.isParked = false) (ho : x.ownsMtx = y.ownsMtx) (hy : y.raised = false)
    (hra : x.raised = true) (hr : x.readHeld = false) (hw : x.writeHeld = false) :
    Inv (s.raise.move t x) :=
  h.moved hpc h.sound h.max_eq (h.parks.stay (hpc ▸ hp) hx) (by rw [ho])
    (by rw [hy, hra]; exact BitVec.add_zero _) (.inl hr) (.inl hw) h.noFault

theorem Inv.lower (h : Inv s) (hpc : s.uses.pc t = y) (hp : y.isParked = false)
    (hx : x.isParked = false) (ho : x.ownsMtx = y.ownsMtx) (hy : y.raised = true)
    (hra : x.raised = false) (hr : x.readHeld = false) (hw : x.writeHeld = false) {f : Bool}
    (hf : f = false) :
    Inv { s.lower.move t x with refused := r, fault := f } :=
  h.moved hpc h.sound h.max_eq (h.parks.stay (hpc ▸ hp) hx) (by rw [ho])
    (by rw [hy, hra]; exact (BitVec.sub_add_cancel _ _).trans (BitVec.add_zero _).symm)
    (.inl hr) (.inl hw) hf

/-- The mutex is granted: the permit moves to `t`. -/
theorem Inv.take (h : Inv s) (hpc : s.uses.pc t = y) (hp : y.isParked = false)
    (hx : x.isParked = false) (hy : y.ownsMtx = false) (ho : x.ownsMtx = true)
    (hra : x.raised = y.raised) (hr : x.readHeld = false) (hw : x.writeHeld = false)
    (hpos : 0 < s.lock.mtx_.block_.wakeup_) :
    Inv ((s.setMtx ⟨{ s.lock.mtx_.block_ with wakeup_ := s.lock.mtx_.block_.wakeup_ - 1 }⟩).move
      t x) :=
  h.moved hpc (h.sound.take hpos) h.max_eq (h.parks.stay (hpc ▸ hp) hx)
    (by rw [hy, ho]; exact Nat.sub_add_cancel hpos) (by rw [hra]) (.inl hr) (.inl hw) h.noFault

end Moves

/-- `mtx_.unlock()` by its owner: the permit is stored or goes to a parked writer. -/
theorem Inv.unlockMtx {s : System τ} (h : Inv s) {t : τ} (ho : (s.uses.pc t).ownsMtx = true) :
    Inv (s.unlockMtx t) ∧ (s.unlockMtx t).uses.pc t = .idle := by
  obtain ⟨hparked, hraised⟩ := Pc.of_ownsMtx ho
  have hs := h.sound
  have hone := h.one
  have hpos := Pool.count_pos (p := Pc.ownsMtx) rfl ho
  have hcnt := Pool.count_set (p := Pc.ownsMtx) rfl s.uses t .idle
  have hstay := h.parks.stay (t := t) (x := .idle) hparked rfl
  rw [ho] at hcnt
  rw [System.unlockMtx, CoMutex.unlock]
  rcases hs.wakeup_cases with ⟨u, rest, hq, hw, heq⟩ | ⟨hq, hw, heq⟩ | ⟨hq, hw, heq⟩
  · -- hand the mutex to the oldest parked writer
    rw [hq] at hstay
    have hu : (s.uses.set t .idle).pc u = .wLock .parked := Pc.eq_of_isParked hstay.head
    have hne : t ≠ u := by
      rintro rfl
      rw [Pool.pc_set_self] at hu
      exact absurd hu (by decide)
    have hcnt' := Pool.count_set (p := Pc.ownsMtx) rfl (s.uses.set t .idle) u .wSpin
    have hrai := Pool.count_set (p := Pc.raised) rfl s.uses t .idle
    have hrai' := Pool.count_set (p := Pc.raised) rfl (s.uses.set t .idle) u .wSpin
    have hrd := Pool.count_set (p := Pc.readHeld) rfl s.uses t .idle
    have hrd' := Pool.count_set (p := Pc.readHeld) rfl (s.uses.set t .idle) u .wSpin
    have hwr := Pool.count_set (p := Pc.writeHeld) rfl s.uses t .idle
    have hwr' := Pool.count_set (p := Pc.writeHeld) rfl (s.uses.set t .idle) u .wSpin
    rw [hu] at hcnt' hrai' hrd' hwr'
    rw [hraised] at hrai
    simp only [Pc.ownsMtx, Pc.raised, Pc.readHeld, Pc.writeHeld, Bool.toNat_true,
      Bool.toNat_false, add_zero] at hcnt hcnt' hrai hrai' hrd hrd' hwr hwr'
    simp only [heq]
    refine ⟨⟨hs.requeue hw _, h.max_eq, hstay.pop rfl, ?_, ?_, ?_, ?_⟩, ?_⟩
    · simp only [System.move, System.setMtx]
      omega
    · simp only [System.move, System.setMtx, System.raised, hrai', hrai]
      exact h.counter
    · have := h.excl
      simp only [System.writers, System.readers, System.move, System.setMtx] at this ⊢
      omega
    · simp only [System.move, System.setMtx, h.noFault]
      rfl
    · simp only [System.move, System.setMtx]
      rw [Pool.pc_set_of_ne _ hne, Pool.pc_set_self]
  · simp only [heq]
    refine ⟨h.moved rfl (hs.give hq hw) h.max_eq hstay ?_ ?_ (.inl rfl) (.inl rfl) ?_, ?_⟩
    · rw [ho]
      rfl
    · rw [hraised]
      rfl
    · rw [h.noFault]
      rfl
    · simp only [System.move, System.setMtx, Pool.pc_set_self]
  · -- the owner accounts for the permit, so `Wakeup` is not refused
    have := h.max_eq
    omega

/-- Every state of the run has fewer than 2^31 outstanding increments. -/
def Bounded (s : System τ) (a : Act τ) : Prop := ∀ s', s.step a = some s' → s'.raised < 2 ^ 31

/-- **The next step inside a call** keeps the invariant. -/
theorem advance_inv {s s' : System τ} {t : τ} {co : Bool} (h : Inv s) (hb : s.raised < 2 ^ 31)
    (hst : s.advance t co = some s') : Inv s' := by
  have hs := h.sound
  rw [advance] at hst
  split at hst <;> rename_i hpc
  · -- `rLock`
    cases hst
    exact h.raise hpc rfl rfl rfl rfl rfl rfl rfl
  · -- `rLockCheck`: in, if the mutex was free after the increment
    cases hst
    cases hl : s.lock.mtx_.isLock
    · exact h.move hpc rfl rfl rfl rfl (.inr (h.free_of_isLock hl)) (.inl rfl)
    · exact h.move hpc rfl rfl rfl rfl (.inl rfl) (.inl rfl)
  · -- `rLockBack`
    cases hst
    exact h.lower (x := .rLock) hpc rfl rfl rfl rfl rfl rfl rfl h.noFault
  · -- `rTry`
    cases hst
    exact h.raise hpc rfl rfl rfl rfl rfl rfl rfl
  · -- `rTryCheck`
    cases hst
    cases hl : s.lock.mtx_.isLock
    · exact h.move hpc rfl rfl rfl rfl (.inr (h.free_of_isLock hl)) (.inl rfl)
    · exact h.move hpc rfl rfl rfl rfl (.inl rfl) (.inl rfl)
  · -- `rTryBack`
    cases hst
    exact h.lower (x := .idle) hpc rfl rfl rfl rfl rfl rfl rfl h.noFault
  · -- `wLock .ready`
    rw [CoMutex.lock, Option.some_inj] at hst
    subst hst
    rcases hs.coBlockWait_cases with ⟨hw, heq⟩ | ⟨hw, heq⟩
    · simp only [heq]
      exact h.take hpc rfl rfl rfl rfl rfl rfl rfl hw
    · simp only [heq]
      cases co
      · exact h.move hpc rfl rfl rfl rfl (.inl rfl) (.inl rfl)
      · exact h.move hpc rfl rfl rfl rfl (.inl rfl) (.inl rfl)
  · -- `wLock .marked`
    rw [CoMutex.addWaitTask, Option.some_inj] at hst
    subst hst
    rcases hs.addWaitTask_cases t with ⟨hw, heq⟩ | ⟨hw, heq⟩
    · simp only [heq]
      exact h.take hpc rfl rfl rfl rfl rfl rfl rfl hw
    · simp only [heq]
      exact h.moved hpc (hs.requeue hw _) h.max_eq (h.parks.push (hpc ▸ rfl) rfl) rfl rfl
        (.inl rfl) (.inl rfl) h.noFault
  · -- `wSpin`: in, if the counter is zero while the mutex is ours
    cases hst
    by_cases hz : s.lock.readersC_ = 0
    · rw [if_neg (not_not.mpr hz)]
      exact h.move hpc rfl rfl rfl rfl (.inl rfl) (.inr (h.noReader hb hz))
    · rw [if_pos hz]
      exact h.move hpc rfl rfl rfl rfl (.inl rfl) (.inl rfl)
  · -- `wTry`
    rw [CoMutex.tryLock, BlockObject.tryBlockWait_eq, Option.some_inj] at hst
    subst hst
    rcases hs.coBlockWait_cases with ⟨hw, heq⟩ | ⟨hw, heq⟩
    · simp only [heq]
      exact h.take hpc rfl rfl rfl rfl rfl rfl rfl hw
    · simp only [heq]
      exact h.moved hpc hs h.max_eq (h.parks.stay (hpc ▸ rfl) rfl) rfl rfl (.inl rfl) (.inl rfl)
        h.noFault
  · -- `wTryCheck`
    cases hst
    by_cases hz : s.lock.readersC_ = 0
    · rw [if_neg (not_not.mpr hz)]
      exact h.move hpc rfl rfl rfl rfl (.inl rfl) (.inr (h.noReader hb hz))
    · rw [if_pos hz]
      exact h.move hpc rfl rfl rfl rfl (.inl rfl) (.inl rfl)
  · -- `wTryUndo`
    cases hst
    have hu := (h.unlockMtx (t := t) (hpc ▸ rfl)).1
    exact ⟨hu.sound, hu.max_eq, hu.parks, hu.one, hu.counter, hu.excl, hu.noFault⟩
  all_goals exact absurd hst (by simp)

/-- **One step** keeps the invariant. -/
theorem step_inv {s s' : System τ} {a : Act τ} (h : Inv s) (hb : s.raised < 2 ^ 31)
    (hst : s.step a = some s') : Inv s' := by
  cases a with
  | rLock t | rTryLock t | wLock t | wTryLock t =>
    rw [step] at hst
    split_ifs at hst with hpc
    cases hst
    exact h.move hpc rfl rfl rfl rfl (.inl rfl) (.inl rfl)
  | rUnlock t =>
    rw [step] at hst
    split_ifs at hst with hpc
    cases hst
    have hlow := h.lower (r := s.refused) hpc rfl (x := .idle) rfl rfl rfl rfl rfl rfl rfl
    have hnonneg : ¬ (s.lower.move t .idle).lock.readersC_.toInt < 0 := by
      have hle : (s.lower.move t .idle).raised ≤ s.raised := by
        have := Pool.count_set (p := Pc.raised) rfl s.uses t .idle
        simp only [raised, Pc.raised, System.move, System.lower, Bool.toNat_false] at this ⊢
        omega
      rw [hlow.counter_toInt (lt_of_le_of_lt hle hb)]
      omega
    have hfault : (s.fault || decide ((s.lower.move t .idle).lock.readersC_.toInt < 0)) = false := by
      rw [h.noFault, Bool.false_or]
      exact decide_eq_false hnonneg
    exact h.lower (x := .idle) hpc rfl rfl rfl rfl rfl rfl rfl hfault
  | wUnlock t =>
    rw [step] at hst
    split_ifs at hst with hpc
    cases hst
    exact (h.unlockMtx (hpc ▸ rfl)).1
  | advance t co => exact advance_inv h hb hst

theorem reach_inv : ∀ s : System τ, ReachIf Init step Bounded s → Inv s ∧ s.raised < 2 ^ 31 :=
  ReachIf.invariant
    (fun s h => ⟨inv_init h, by subst h; exact Nat.two_pow_pos 31⟩)
    fun _ s' _ h hok hst => ⟨step_inv h.1 h.2 hst, hok s' hst⟩

-- a try that returned false in this step left its caller without a lock
theorem refused_idle {s s' : System τ} {a : Act τ} {t : τ} (h : Inv s)
    (hst : s.step a = some s') (hr : s'.refused = t :: s.refused) : s'.uses.pc t = .idle := by
  have hself : s.refused ≠ t :: s.refused := (List.cons_ne_self t s.refused).symm
  have hunlock : ∀ u, (s.unlockMtx u).refused = s.refused := by
    intro u
    rw [unlockMtx]
    rcases s.lock.mtx_.unlock false with ⟨m, _ | v, err⟩ <;> rfl
  cases a with
  | rLock u | rTryLock u | wLock u | wTryLock u | rUnlock u =>
    rw [step] at hst
    split_ifs at hst
    cases hst
    exact absurd hr hself
  | wUnlock u =>
    rw [step] at hst
    split_ifs at hst
    cases hst
    exact absurd ((hunlock u).symm.trans hr) hself
  | advance u co =>
    rw [step, advance] at hst
    split at hst <;> rename_i hpc
    case h_6 =>
      cases hst
      obtain rfl : u = t := (List.cons.inj hr).1
      exact Pool.pc_set_self ..
    case h_10 =>
      rw [Option.some_inj] at hst
      subst hst
      cases hg : s.lock.mtx_.tryLock.2
      · simp only [hg, Bool.false_eq_true, if_false] at hr ⊢
        obtain rfl : u = t := (List.cons.inj hr).1
        exact Pool.pc_set_self ..
      · simp only [hg, if_true] at hr
        exact absurd hr hself
    case h_12 =>
      cases hst
      obtain rfl : u = t := (List.cons.inj hr).1
      exact (h.unlockMtx (hpc ▸ rfl)).2
    all_goals
      first
      | rw [Option.some_inj] at hst
        subst hst
        exact absurd hr hself
      | cases hst

/-- **`CoRWMutex` exclusion.**  In every interleaving in which each use releases
only what it acquired and fewer than 2^31 increments of `readers_c_` are ever
outstanding: a write lock is held alone; the counter is at least the number of
read locks, so the assertion of `r_unlock` holds and no `unlock` throws; a try that
returns false leaves no lock behind, and mutex and counter account for the uses
that are still in a call or hold a lock. -/
theorem exclusion {s : System τ} (hs : ReachIf Init step Bounded s) :
    (∀ t u, s.uses.pc t = .wHeld → s.uses.pc u ≠ .rHeld ∧ (s.uses.pc u = .wHeld → u = t)) ∧
      ((s.readers : ℤ) ≤ s.lock.readersC_.toInt ∧ s.fault = false) ∧
      (∀ a s' t, s.step a = some s' → s'.refused = t :: s.refused → s'.uses.pc t = .idle) ∧
      s.lock.mtx_.block_.wakeup_ + s.uses.count Pc.ownsMtx = 1 ∧
      s.lock.readersC_.toInt = s.raised := by
  obtain ⟨h, hb⟩ := reach_inv s hs
  refine ⟨fun t u ht => ⟨fun hu => ?_, fun hu => ?_⟩, ⟨?_, h.noFault⟩,
    fun a s' t hst hr => refused_idle h hst hr, h.one, h.counter_toInt hb⟩
  · have hw := Pool.count_pos (p := Pc.writeHeld) rfl (P := s.uses) (t := t) (ht ▸ rfl)
    have hr := Pool.count_pos (p := Pc.readHeld) rfl (P := s.uses) (t := u) (hu ▸ rfl)
    have := h.excl
    simp only [writers, readers] at this
    omega
  · have hone := h.one
    exact Pool.eq_of_count_le_one (p := Pc.ownsMtx) (P := s.uses) rfl (by omega) (by rw [hu]; rfl)
      (by rw [ht]; rfl)
  · rw [h.counter_toInt hb]
    exact_mod_cast s.readers_le_raised

-- reader 1 is in, and writer 2 is about to be refused
theorem exclusion_readHeld : ∃ s : System ℕ,
    exec step ⟨CoRWMutex.new, Pool.empty, [], false⟩
        [.rLock 1, .advance 1 true, .advance 1 true, .wTryLock 2] = some s ∧
      s.uses.pc 1 = .rHeld ∧ s.fault = false ∧ (s.readers : ℤ) ≤ s.lock.readersC_.toInt := by
  have hok : ∀ {s u : System ℕ} {a : Act ℕ}, s.step a = some u → u.raised < 2 ^ 31 →
      Bounded s a := fun h hb s' h' => Option.some.inj (h.symm.trans h') ▸ hb
  have hreach : ReachIf Init step Bounded _ :=
    .next (.next (.next (.next (.start rfl)
      (hok (a := .rLock 1) rfl (by decide)) rfl) (hok (a := .advance 1 true) rfl (by decide)) rfl)
      (hok (a := .advance 1 true) rfl (by decide)) rfl) (hok (a := .wTryLock 2) rfl (by decide)) rfl
  have h := exclusion hreach
  exact ⟨_, rfl, rfl, h.2.1.2, h.2.1.1⟩

/-! ### The counter wraps -/

/-- Any number of uses can hold a read lock at once; the counter then shows their
number modulo 2^32. -/
theorem reach_readers (n : ℕ) : ∃ s : System ℕ, Reach Init step s ∧
    s.lock = ⟨CoMutex.new, BitVec.ofNat 32 n⟩ ∧ (∀ t < n, s.uses.pc t = .rHeld) ∧
      ∀ t, n ≤ t → s.uses.pc t = .idle := by
  induction n with
  | zero =>
    exact ⟨_, .start rfl, rfl, fun t ht => absurd ht (Nat.not_lt_zero t), fun t _ => rfl⟩
  | succ n ih =>
    obtain ⟨s, hs, hl, hheld, hidle⟩ := ih
    -- use `n` read-locks: it raises the counter and finds the mutex free
    have h1 : s.step (.rLock n) = some (s.move n .rLock) := if_pos (hidle n le_rfl)
    have h2 : (s.move n .rLock).step (.advance n true)
        = some ((s.move n .rLock).raise.move n .rLockCheck) := by
      rw [step, advance]
      simp only [move, Pool.pc_set_self]
    have h3 : ((s.move n .rLock).raise.move n .rLockCheck).step (.advance n true)
        = some (((s.move n .rLock).raise.move n .rLockCheck).move n .rHeld) := by
      rw [step, advance]
      simp only [move, raise, Pool.pc_set_self, hl]
      rfl
    refine ⟨_, ((hs.next trivial h1).next trivial h2).next trivial h3, ?_, ?_, ?_⟩
    · simp only [move, raise, hl, BitVec.ofNat_add]
      rfl
    · intro t ht
      by_cases htn : t = n
      · subst htn
        exact Pool.pc_set_self ..
      · simp only [move, raise, Pool.pc_set_of_ne _ htn]
        exact hheld t (by omega)
    · intro t ht
      have htn : t ≠ n := by omega
      simp only [move, raise, Pool.pc_set_of_ne _ htn]
      exact hidle t (by omega)

/-- **2^32 read locks let a writer in**: the counter is back at zero, below the
number of read locks, and a read lock and a write lock are held together. -/
theorem wrapped_counter_admits_writer : ∃ s : System ℕ, Reach Init step s ∧
    s.uses.pc 0 = .rHeld ∧ s.uses.pc (2 ^ 32) = .wHeld ∧
      s.lock.readersC_.toInt < s.readers := by
  obtain ⟨s, hs, hl, hheld, hidle⟩ := reach_readers (2 ^ 32)
  have h1 : s.step (.wTryLock (2 ^ 32)) = some (s.move (2 ^ 32) .wTry) :=
    if_pos (hidle _ le_rfl)
  have h2 : (s.move (2 ^ 32) .wTry).step (.advance (2 ^ 32) true)
      = some (((s.move (2 ^ 32) .wTry).setMtx (CoMutex.new.lock).1).move (2 ^ 32) .wTryCheck) := by
    rw [step, advance]
    simp only [move, Pool.pc_set_self, hl]
    rfl
  have h3 : (((s.move (2 ^ 32) .wTry).setMtx (CoMutex.new.lock).1).move
        (2 ^ 32) .wTryCheck).step (.advance (2 ^ 32) true)
      = some ((((s.move (2 ^ 32) .wTry).setMtx (CoMutex.new.lock).1).move
        (2 ^ 32) .wTryCheck).move (2 ^ 32) .wHeld) := by
    rw [step, advance]
    simp only [move, setMtx, Pool.pc_set_self, hl]
    rfl
  have h0 : (((((s.move (2 ^ 32) .wTry).setMtx (CoMutex.new.lock).1).move
      (2 ^ 32) .wTryCheck).move (2 ^ 32) .wHeld).uses).pc 0 = .rHeld := by
    simp only [move, setMtx, Pool.pc_set_of_ne _ (show (0 : ℕ) ≠ 2 ^ 32 by decide)]
    exact hheld 0 (by decide)
  refine ⟨_, ((hs.next trivial h1).next trivial h2).next trivial h3, h0,
    Pool.pc_set_self .., ?_⟩
  have hpos := Pool.count_pos (p := Pc.readHeld) rfl (congrArg Pc.readHeld h0)
  have hzero : BitVec.toInt (BitVec.ofNat 32 (2 ^ 32)) = 0 := by decide
  simp only [move, setMtx, readers, hl, hzero] at hpos ⊢
  exact_mod_cast hpos

end System

end CoRWMutex
