/-
Progress of the reader-writer lock (coroutine/co_rwmutex.cpp).

`r_lock` and `w_lock` poll: a reader that finds the mutex taken lowers `readers_c_`
again and yields, and the writer that took the mutex yields while `readers_c_` is not
zero.  So a reader that waits is counted like one that is in, and the question is
whether the two can wait for each other.

* `CoRWMutex.System.progress` — they cannot get stuck: while nobody holds the lock, the
  calls in progress alone can be scheduled so that one of them gets in or all of them
  return, in at most four steps a call; and no reader gets in past a writer that has the
  mutex;
* `CoRWMutex.System.spin_again` — but they can go on for ever: on two threads a waiting
  reader and the waiting writer have a round in which both poll and neither gets in, and
  the round leaves the lock as it was.
-/
import CppFeatures.CoRWMutex

namespace CoRWMutex

namespace Pc

-- uses between the start of a call that acquires and its return
def inCall : Pc → Bool
  | idle | rHeld | wHeld => false
  | _ => true

-- raised uses that have found the mutex taken
def atBack : Pc → Bool
  | rLockBack | rTryBack => true
  | _ => false

-- raised uses that have yet to look at the mutex
def atCheck : Pc → Bool
  | rLockCheck | rTryCheck => true
  | _ => false

theorem cases_of_raised {x : Pc} (h : x.raised = true) :
    x = .rHeld ∨ x.atCheck = true ∨ x.atBack = true := by
  cases x <;> simp_all [raised, atCheck, atBack]

theorem cases_of_ownsMtx {x : Pc} (h : x.ownsMtx = true) :
    x = .wHeld ∨ x = .wTryUndo ∨ x = .wSpin ∨ x = .wTryCheck := by
  cases x <;> simp_all [ownsMtx]

end Pc

namespace System

variable {τ : Type*}

/-- The uses that are inside a call. -/
def calls (s : System τ) : ℕ := s.uses.count Pc.inCall

/-- Nobody holds the lock. -/
def Free (s : System τ) : Prop := s.readers = 0 ∧ s.writers = 0

theorem Free.ne_rHeld {s : System τ} (h : s.Free) (t : τ) : s.uses.pc t ≠ .rHeld := by
  intro ht
  have := Pool.count_pos (p := Pc.readHeld) rfl (P := s.uses) (t := t) (by rw [ht]; rfl)
  have hr : s.uses.count Pc.readHeld = 0 := h.1
  omega

theorem Free.ne_wHeld {s : System τ} (h : s.Free) (t : τ) : s.uses.pc t ≠ .wHeld := by
  intro ht
  have := Pool.count_pos (p := Pc.writeHeld) rfl (P := s.uses) (t := t) (by rw [ht]; rfl)
  have hw : s.uses.count Pc.writeHeld = 0 := h.2
  omega

theorem Free.raised_le_calls {s : System τ} (h : s.Free) : s.raised ≤ s.calls := by
  have hsame : s.raised = s.uses.count fun x => x.raised && !x.readHeld := by
    refine Pool.count_congr fun t => ?_
    have ht := h.ne_rHeld t
    cases hpc : s.uses.pc t <;> simp_all [Pc.raised, Pc.readHeld]
  rw [hsame]
  refine Pool.count_mono (fun x hx => ?_) s.uses
  cases x <;> simp_all [Pc.raised, Pc.readHeld, Pc.inCall]

/-- An owner of the mutex keeps `is_lock` true. -/
theorem Inv.isLock_of_ownsMtx {s : System τ} (h : Inv s) {w : τ}
    (hw : (s.uses.pc w).ownsMtx = true) : s.lock.mtx_.isLock = true := by
  have hpos := Pool.count_pos (p := Pc.ownsMtx) rfl hw
  have hone := h.one
  have hzero : s.lock.mtx_.block_.wakeup_ = 0 := by omega
  rw [CoMutex.isLock, BlockObject.isWakeup, hzero]
  rfl

variable [DecidableEq τ]

/-- At most `n` steps inside calls lead from `s` to `s'`; no call begins and no lock is
released on the way. -/
def Advances (s : System τ) (n : ℕ) (s' : System τ) : Prop :=
  ∃ as : List (τ × Bool), as.length ≤ n ∧
    exec step s (as.map fun a => .advance a.1 a.2) = some s'

theorem Advances.refl (s : System τ) (n : ℕ) : s.Advances n s := ⟨[], Nat.zero_le n, rfl⟩

theorem Advances.cons {s s₁ s' : System τ} {n : ℕ} {t : τ} {co : Bool}
    (hst : s.advance t co = some s₁) (h : s₁.Advances n s') : s.Advances (n + 1) s' := by
  obtain ⟨as, hlen, hrun⟩ := h
  refine ⟨(t, co) :: as, Nat.succ_le_succ hlen, ?_⟩
  rw [List.map_cons, exec, step, hst]
  exact hrun

theorem Advances.mono {s s' : System τ} {m n : ℕ} (h : s.Advances m s') (hmn : m ≤ n) :
    s.Advances n s' := by
  obtain ⟨as, hlen, hrun⟩ := h
  exact ⟨as, hlen.trans hmn, hrun⟩

/-! ### Readers make way -/

section Moved

variable {s s₁ : System τ} {u : τ} {x : Pc}

/-- Moving `u` to a counter outside the lock leaves it free. -/
theorem Free.moved (h : s.Free) (hu : s₁.uses = s.uses.set u x) (hr : x.readHeld = false)
    (hw : x.writeHeld = false) : s₁.Free := by
  have hrd := Pool.count_set (p := Pc.readHeld) rfl s.uses u x
  have hwr := Pool.count_set (p := Pc.writeHeld) rfl s.uses u x
  rw [hr, Bool.toNat_false] at hrd
  rw [hw, Bool.toNat_false] at hwr
  obtain ⟨h1, h2⟩ := h
  rw [readers] at h1
  rw [writers] at h2
  rw [Free, readers, writers, hu]
  omega

theorem raised_moved (hu : s₁.uses = s.uses.set u x) :
    s₁.raised + (s.uses.pc u).raised.toNat = s.raised + x.raised.toNat := by
  rw [raised, hu]
  exact Pool.count_set rfl s.uses u x

theorem calls_moved (hu : s₁.uses = s.uses.set u x) :
    s₁.calls + (s.uses.pc u).inCall.toNat = s.calls + x.inCall.toNat := by
  rw [calls, hu]
  exact Pool.count_set rfl s.uses u x

end Moved

/-- A raised use that looks at a taken mutex is to lower the counter again. -/
theorem advance_check {s : System τ} (hl : s.lock.mtx_.isLock = true) {u : τ}
    (hu : (s.uses.pc u).atCheck = true) :
    ∃ x : Pc, x.atBack = true ∧ s.advance u true = some (s.move u x) := by
  cases hpc : s.uses.pc u with
  | rLockCheck =>
    refine ⟨.rLockBack, rfl, ?_⟩
    rw [advance]
    simp only [hpc, hl, if_true]
  | rTryCheck =>
    refine ⟨.rTryBack, rfl, ?_⟩
    rw [advance]
    simp only [hpc, hl, if_true]
  | _ =>
    rw [hpc] at hu
    exact absurd hu Bool.false_ne_true

/-- ... and lowers it, for another round of `r_lock` or to return from `r_try_lock`. -/
theorem advance_back {s : System τ} {u : τ} (hu : (s.uses.pc u).atBack = true) :
    ∃ s₁ x, s.advance u true = some s₁ ∧ s₁.uses = s.uses.set u x ∧
      (s.uses.pc u = .rLockBack ∧ x = .rLock ∨ s.uses.pc u = .rTryBack ∧ x = .idle) := by
  cases hpc : s.uses.pc u with
  | rLockBack =>
    refine ⟨s.lower.move u .rLock, .rLock, ?_, rfl, .inl ⟨rfl, rfl⟩⟩
    rw [advance]
    simp only [hpc]
  | rTryBack =>
    refine ⟨{ s.lower.move u .idle with refused := u :: s.refused }, .idle, ?_, rfl,
      .inr ⟨rfl, rfl⟩⟩
    rw [advance]
    simp only [hpc]
  | _ =>
    rw [hpc] at hu
    exact absurd hu Bool.false_ne_true

/-- With the counter lowered, one raised use less stands in the writer's way. -/
theorem Inv.lowered {s : System τ} (h : Inv s) (hb : s.raised < 2 ^ 31) (hf : s.Free) {u : τ}
    (hu : (s.uses.pc u).atBack = true) :
    ∃ s₁, s.advance u true = some s₁ ∧ Inv s₁ ∧ s₁.Free ∧ s₁.raised + 1 = s.raised ∧
      ∀ v, v ≠ u → s₁.uses.pc v = s.uses.pc v := by
  obtain ⟨s₁, x, hst, huses, hx⟩ := advance_back hu
  have hrai := raised_moved huses
  refine ⟨s₁, hst, advance_inv h hb hst, ?_, ?_, fun v hv => ?_⟩
  · rcases hx with ⟨-, rfl⟩ | ⟨-, rfl⟩ <;> exact hf.moved huses rfl rfl
  · rcases hx with ⟨hpc, rfl⟩ | ⟨hpc, rfl⟩ <;> (rw [hpc] at hrai; exact hrai)
  · rw [huses, Pool.pc_set_of_ne _ hv]

/-- **The writer that has the mutex gets in**: every raised use finds the mutex taken and
lowers the counter, in two steps at most, and then the counter is zero. -/
theorem Inv.enter {s : System τ} (h : Inv s) (hb : s.raised < 2 ^ 31) (hf : s.Free) {w : τ}
    (hw : s.uses.pc w = .wSpin ∨ s.uses.pc w = .wTryCheck) :
    ∃ s', s.Advances (2 * s.raised + 1) s' ∧ s'.uses.pc w = .wHeld := by
  -- induction on the raised uses; each round takes one of them out
  induction hn : s.raised generalizing s with
  | zero =>
    have hzero : s.lock.readersC_ = 0 := by rw [h.counter, hn]; rfl
    have hst : s.advance w true = some (s.move w .wHeld) := by
      rw [advance]
      rcases hw with hpc | hpc <;> simp only [hpc, hzero, ne_eq, not_true, if_false]
    exact ⟨s.move w .wHeld, (Advances.refl _ 0).cons hst, Pool.pc_set_self ..⟩
  | succ n ih =>
    have hown : (s.uses.pc w).ownsMtx = true := by rcases hw with hpc | hpc <;> rw [hpc] <;> rfl
    have hl := h.isLock_of_ownsMtx hown
    obtain ⟨u, hu⟩ : ∃ u, (s.uses.pc u).raised = true := by
      by_contra hno
      rw [not_exists] at hno
      have := (Pool.count_eq_zero (p := Pc.raised) rfl (P := s.uses)).mpr
        fun u => Bool.eq_false_of_not_eq_true (hno u)
      rw [raised] at hn
      omega
    have hne : w ≠ u := by
      rintro rfl
      rw [(Pc.of_ownsMtx hown).2] at hu
      exact Bool.false_ne_true hu
    rcases Pc.cases_of_raised hu with hheld | hcheck | hback
    · exact absurd hheld (hf.ne_rHeld u)
    · obtain ⟨x, hx, hst⟩ := advance_check hl hcheck
      have hraised : x.raised = true ∧ x.readHeld = false ∧ x.writeHeld = false := by
        cases x <;> simp_all [Pc.atBack, Pc.raised, Pc.readHeld, Pc.writeHeld]
      have hrai : (s.move u x).raised + (s.uses.pc u).raised.toNat = s.raised + x.raised.toNat :=
        raised_moved rfl
      rw [hu, hraised.1] at hrai
      have hinv := advance_inv h hb hst
      obtain ⟨s₂, hst₂, h₂, hf₂, hrai₂, hpc₂⟩ := hinv.lowered (by omega)
        (hf.moved rfl hraised.2.1 hraised.2.2) (u := u)
        (by rw [System.move, Pool.pc_set_self]; exact hx)
      have hw₂ : s₂.uses.pc w = s.uses.pc w := by
        rw [hpc₂ w hne, System.move, Pool.pc_set_of_ne _ hne]
      obtain ⟨s', hadv, hheld⟩ := ih h₂ (by omega) hf₂ (by rw [hw₂]; exact hw) (by omega)
      exact ⟨s', ((hadv.cons hst₂).cons hst).mono (by omega), hheld⟩
    · obtain ⟨s₁, hst, h₁, hf₁, hrai, hpc₁⟩ := h.lowered hb hf hback
      obtain ⟨s', hadv, hheld⟩ := ih h₁ (by omega) hf₁ (by rw [hpc₁ w hne]; exact hw) (by omega)
      exact ⟨s', (hadv.cons hst).mono (by omega), hheld⟩

/-! ### Nobody is stuck -/

/-- Somebody is in, or there is no call left. -/
def Served (s : System τ) : Prop :=
  (∃ t, s.uses.pc t = .rHeld ∨ s.uses.pc t = .wHeld) ∨ ∀ t, s.uses.pc t = .idle

/-- The owner of the mutex that gave up in `w_try_lock` leaves; the mutex is free or goes
to a parked writer. -/
theorem Inv.undone {s : System τ} (h : Inv s) (hb : s.raised < 2 ^ 31) (hf : s.Free) {w : τ}
    (hw : s.uses.pc w = .wTryUndo) :
    ∃ s₁, s.advance w true = some s₁ ∧ Inv s₁ ∧ s₁.Free ∧ s₁.raised = s.raised ∧
      s₁.calls + 1 = s.calls := by
  have hst : s.advance w true = some { s.unlockMtx w with refused := w :: s.refused } := by
    rw [advance]
    simp only [hw]
  have huses : (s.unlockMtx w).uses = s.uses.set w .idle ∨
      ∃ u, (s.uses.set w .idle).pc u = .wLock .parked ∧
        (s.unlockMtx w).uses = (s.uses.set w .idle).set u .wSpin := by
    rw [System.unlockMtx, CoMutex.unlock]
    rcases h.sound.wakeup_cases with ⟨u, rest, hq, -, heq⟩ | ⟨-, -, heq⟩ | ⟨-, -, heq⟩
    · have hstay := h.parks.stay (t := w) (x := .idle) (by rw [hw]; rfl) rfl
      rw [hq] at hstay
      rw [heq]
      exact .inr ⟨u, Pc.eq_of_isParked hstay.head, rfl⟩
    · rw [heq]
      exact .inl rfl
    · rw [heq]
      exact .inl rfl
  have hidle : (s.move w .idle).Free := hf.moved rfl rfl rfl
  have hrai : (s.move w .idle).raised + (s.uses.pc w).raised.toNat = s.raised + 0 :=
    raised_moved (x := .idle) rfl
  have hcal : (s.move w .idle).calls + (s.uses.pc w).inCall.toNat = s.calls + 0 :=
    calls_moved (x := .idle) rfl
  rw [hw] at hrai hcal
  refine ⟨_, hst, advance_inv h hb hst, ?_⟩
  rcases huses with heq | ⟨u, hu, heq⟩
  · have hsame : (s.unlockMtx w).uses = (s.move w .idle).uses := heq
    rw [Free, readers, writers, raised, calls, hsame]
    exact ⟨hidle, hrai, hcal⟩
  · -- the parked writer was in a call before, and still is
    have heq' : (s.unlockMtx w).uses = (s.move w .idle).uses.set u .wSpin := heq
    have hrai' := raised_moved heq'
    have hcal' := calls_moved heq'
    rw [System.move, hu] at hrai' hcal'
    have hsame : (s.unlockMtx w).calls = (s.move w .idle).calls := Nat.succ.inj hcal'
    exact ⟨hidle.moved heq' rfl rfl, hrai'.trans hrai, (congrArg (· + 1) hsame).trans hcal⟩

/-- A writer that finds the mutex free takes it. -/
theorem Inv.taken {s : System τ} (h : Inv s) (hb : s.raised < 2 ^ 31) (hf : s.Free)
    (hpos : 0 < s.lock.mtx_.block_.wakeup_) {t : τ} {x : Pc}
    (ht : s.uses.pc t = .wLock .ready ∧ x = .wSpin ∨ s.uses.pc t = .wLock .marked ∧ x = .wSpin ∨
      s.uses.pc t = .wTry ∧ x = .wTryCheck) :
    ∃ s₁, s.advance t true = some s₁ ∧ Inv s₁ ∧ s₁.Free ∧ s₁.raised = s.raised ∧
      s₁.uses.pc t = x := by
  have hst : ∃ s₁, s.advance t true = some s₁ ∧ s₁.uses = s.uses.set t x := by
    rcases ht with ⟨hpc, rfl⟩ | ⟨hpc, rfl⟩ | ⟨hpc, rfl⟩
    · rcases h.sound.coBlockWait_cases with ⟨-, heq⟩ | ⟨hz, -⟩
      · rw [advance]
        simp only [hpc, CoMutex.lock, heq, if_true]
        exact ⟨_, rfl, rfl⟩
      · omega
    · rcases h.sound.addWaitTask_cases t with ⟨-, heq⟩ | ⟨hz, -⟩
      · rw [advance]
        simp only [hpc, CoMutex.addWaitTask, heq, Bool.false_eq_true, if_false]
        exact ⟨_, rfl, rfl⟩
      · omega
    · rcases h.sound.coBlockWait_cases with ⟨-, heq⟩ | ⟨hz, -⟩
      · rw [advance]
        simp only [hpc, CoMutex.tryLock, BlockObject.tryBlockWait_eq, heq, if_true]
        exact ⟨_, rfl, rfl⟩
      · omega
  obtain ⟨s₁, hst, huses⟩ := hst
  have hrai := raised_moved huses
  refine ⟨s₁, hst, advance_inv h hb hst, ?_, ?_, ?_⟩
  · rcases ht with ⟨-, rfl⟩ | ⟨-, rfl⟩ | ⟨-, rfl⟩ <;> exact hf.moved huses rfl rfl
  · rcases ht with ⟨hpc, rfl⟩ | ⟨hpc, rfl⟩ | ⟨hpc, rfl⟩ <;> (rw [hpc] at hrai; exact hrai)
  · rw [huses, Pool.pc_set_self]

/-- A reader gets in where the mutex is free. -/
theorem exists_readHeld {s : System τ} (hl : s.lock.mtx_.isLock = false) {t : τ}
    (ht : s.uses.pc t = .rLock ∨ s.uses.pc t = .rLockBack ∨ s.uses.pc t = .rTry ∨
      (s.uses.pc t).atCheck = true) :
    ∃ s', s.Advances 3 s' ∧ s'.uses.pc t = .rHeld := by
  -- the look at the mutex, from wherever it is made
  have hcheck : ∀ {r : System τ}, r.lock.mtx_.isLock = false →
      (r.uses.pc t).atCheck = true → r.Advances 1 (r.move t .rHeld) := by
    intro r hr hpc
    have hst : r.advance t true = some (r.move t .rHeld) := by
      rw [advance]
      cases hrt : r.uses.pc t <;> simp_all [Pc.atCheck]
    exact (Advances.refl _ 0).cons hst
  have hraise : ∀ {r : System τ}, r.lock.mtx_.isLock = false →
      r.uses.pc t = .rLock ∨ r.uses.pc t = .rTry →
        ∃ s', r.Advances 2 s' ∧ s'.uses.pc t = .rHeld := by
    intro r hr hpc
    obtain ⟨x, hx, hst⟩ : ∃ x : Pc, x.atCheck = true ∧
        r.advance t true = some (r.raise.move t x) := by
      rw [advance]
      rcases hpc with hpc | hpc
      · exact ⟨.rLockCheck, rfl, by simp only [hpc]⟩
      · exact ⟨.rTryCheck, rfl, by simp only [hpc]⟩
    have hpc' : ((r.raise.move t x).uses.pc t).atCheck = true := by
      rw [System.move, Pool.pc_set_self]
      exact hx
    exact ⟨_, (hcheck (r := r.raise.move t x) hr hpc').cons hst, Pool.pc_set_self ..⟩
  rcases ht with hpc | hpc | hpc | hpc
  · obtain ⟨s', hadv, hheld⟩ := hraise hl (.inl hpc)
    exact ⟨s', hadv.mono (by omega), hheld⟩
  · have hst : s.advance t true = some (s.lower.move t .rLock) := by
      rw [advance]
      simp only [hpc]
    have hlow : (s.lower.move t .rLock).uses.pc t = .rLock := Pool.pc_set_self ..
    obtain ⟨s', hadv, hheld⟩ := hraise (r := s.lower.move t .rLock) hl (.inl hlow)
    exact ⟨s', hadv.cons hst, hheld⟩
  · obtain ⟨s', hadv, hheld⟩ := hraise hl (.inr hpc)
    exact ⟨s', hadv.mono (by omega), hheld⟩
  · exact ⟨_, (hcheck hl hpc).mono (by omega), Pool.pc_set_self ..⟩

/-- **A free lock is never stuck.** -/
theorem Inv.served {s : System τ} (h : Inv s) (hb : s.raised < 2 ^ 31) (hf : s.Free) :
    ∃ s', s.Advances (4 * s.calls) s' ∧ s'.Served := by
  -- induction on the calls: a try that gives up is one call less
  induction hn : s.calls generalizing s with
  | zero =>
    refine ⟨s, .refl s _, .inr fun t => ?_⟩
    have hcall := (Pool.count_eq_zero (p := Pc.inCall) rfl (P := s.uses)).mp hn t
    have hr := hf.ne_rHeld t
    have hw := hf.ne_wHeld t
    cases hpc : s.uses.pc t <;> simp_all [Pc.inCall]
  | succ n ih =>
    have hle := hf.raised_le_calls
    have hwriter : ∀ {r : System τ} {t : τ}, Inv r → r.raised = s.raised → r.Free →
        (r.uses.pc t = .wSpin ∨ r.uses.pc t = .wTryCheck) →
          ∃ s', r.Advances (2 * s.raised + 1) s' ∧ s'.Served := by
      intro r t hr hrai hfree hpc
      obtain ⟨s', hadv, hheld⟩ := hr.enter (by omega) hfree hpc
      exact ⟨s', hrai ▸ hadv, .inl ⟨t, .inr hheld⟩⟩
    by_cases howner : ∃ w, (s.uses.pc w).ownsMtx = true
    · obtain ⟨w, hw⟩ := howner
      rcases Pc.cases_of_ownsMtx hw with hpc | hpc | hpc
      · exact absurd hpc (hf.ne_wHeld w)
      · obtain ⟨s₁, hst, h₁, hf₁, hrai, hcal⟩ := h.undone hb hf hpc
        obtain ⟨s', hadv, hserved⟩ := ih h₁ (by omega) hf₁ (by omega)
        exact ⟨s', (hadv.cons hst).mono (by omega), hserved⟩
      · obtain ⟨s', hadv, hserved⟩ := hwriter h rfl hf hpc
        exact ⟨s', hadv.mono (by omega), hserved⟩
    · rw [not_exists] at howner
      have hzero := (Pool.count_eq_zero (p := Pc.ownsMtx) rfl (P := s.uses)).mpr
        fun u => Bool.eq_false_of_not_eq_true (howner u)
      have hone := h.one
      have hpos : 0 < s.lock.mtx_.block_.wakeup_ := by omega
      have hl : s.lock.mtx_.isLock = false := by
        rw [CoMutex.isLock, BlockObject.isWakeup, decide_eq_true hpos]
        rfl
      obtain ⟨t, ht⟩ : ∃ t, (s.uses.pc t).inCall = true := by
        by_contra hno
        rw [not_exists] at hno
        have := (Pool.count_eq_zero (p := Pc.inCall) rfl (P := s.uses)).mpr
          fun u => Bool.eq_false_of_not_eq_true (hno u)
        rw [calls] at hn
        omega
      have hreader : (s.uses.pc t = .rLock ∨ s.uses.pc t = .rLockBack ∨ s.uses.pc t = .rTry ∨
          (s.uses.pc t).atCheck = true) → ∃ s', s.Advances (4 * (n + 1)) s' ∧ s'.Served := by
        intro hpc
        obtain ⟨s', hadv, hheld⟩ := exists_readHeld hl hpc
        exact ⟨s', hadv.mono (by omega), .inl ⟨t, .inl hheld⟩⟩
      have htake : ∀ {x : Pc}, (x = .wSpin ∨ x = .wTryCheck) →
          (s.uses.pc t = .wLock .ready ∧ x = .wSpin ∨ s.uses.pc t = .wLock .marked ∧ x = .wSpin ∨
            s.uses.pc t = .wTry ∧ x = .wTryCheck) →
            ∃ s', s.Advances (4 * (n + 1)) s' ∧ s'.Served := by
        intro x hx hpc
        obtain ⟨s₁, hst, h₁, hf₁, hrai, hpc₁⟩ := h.taken hb hf hpos hpc
        obtain ⟨s', hadv, hserved⟩ := hwriter h₁ hrai hf₁ (by rw [hpc₁]; exact hx)
        exact ⟨s', (hadv.cons hst).mono (by omega), hserved⟩
      cases hpc : s.uses.pc t with
      | idle | rHeld | wHeld =>
        rw [hpc] at ht
        exact absurd ht Bool.false_ne_true
      | wSpin | wTryCheck | wTryUndo => exact absurd (by rw [hpc]; rfl) (howner t)
      | rLock => exact hreader (.inl hpc)
      | rLockBack => exact hreader (.inr (.inl hpc))
      | rTry => exact hreader (.inr (.inr (.inl hpc)))
      | rLockCheck | rTryCheck => exact hreader (.inr (.inr (.inr (by rw [hpc]; rfl))))
      | rTryBack =>
        obtain ⟨s₁, x, hst, huses, hx⟩ := advance_back (s := s) (u := t) (by rw [hpc]; rfl)
        rcases hx with ⟨hpc', -⟩ | ⟨-, rfl⟩
        · rw [hpc] at hpc'
          cases hpc'
        · have hrai := raised_moved huses
          have hcal := calls_moved huses
          rw [hpc] at hrai hcal
          simp only [Pc.raised, Pc.inCall, Bool.toNat_true, Bool.toNat_false] at hrai hcal
          obtain ⟨s', hadv, hserved⟩ := ih (advance_inv h hb hst) (by omega)
            (hf.moved huses rfl rfl) (by omega)
          exact ⟨s', (hadv.cons hst).mono (by omega), hserved⟩
      | wTry => exact htake (.inr rfl) (.inr (.inr ⟨hpc, rfl⟩))
      | wLock ph =>
        cases ph with
        | ready => exact htake (.inl rfl) (.inl ⟨hpc, rfl⟩)
        | marked => exact htake (.inl rfl) (.inr (.inl ⟨hpc, rfl⟩))
        | parked =>
          -- nobody is parked on a mutex that is free
          have hmem := (h.parks.2 t).mpr (by rw [hpc]; rfl)
          rw [h.sound.noWaiter hpos] at hmem
          exact absurd hmem List.not_mem_nil

/-! ### Nobody overtakes the writer -/

theorem noEntry_unlockMtx (s : System τ) (t : τ) :
    Pool.NoEntry .rHeld s.uses (s.unlockMtx t).uses := by
  rw [unlockMtx]
  rcases s.lock.mtx_.unlock false with ⟨m, _ | u, err⟩
  · exact Pool.noEntry_set (by decide) s.uses t
  · intro v hv
    have hset : ((s.uses.set t .idle).set u .wSpin).pc v = .rHeld := hv
    exact Pool.noEntry_set (by decide) s.uses t v (Pool.noEntry_set (by decide) _ u v hset)

/-- While the mutex is taken no use becomes a reader. -/
theorem noEntry_step {s s' : System τ} {a : Act τ} (hl : s.lock.mtx_.isLock = true)
    (hst : s.step a = some s') : Pool.NoEntry .rHeld s.uses s'.uses := by
  cases a with
  | rLock t | rTryLock t | wLock t | wTryLock t | rUnlock t =>
    rw [step] at hst
    split_ifs at hst
    cases hst
    exact Pool.noEntry_set (by decide) s.uses t
  | wUnlock t =>
    rw [step] at hst
    split_ifs at hst
    cases hst
    exact noEntry_unlockMtx s t
  | advance t co =>
    rw [step, advance] at hst
    split at hst
    case h_2 | h_5 =>
      -- the look at the mutex fails
      rw [hl] at hst
      cases hst
      exact Pool.noEntry_set (by decide) s.uses t
    case h_12 =>
      cases hst
      exact noEntry_unlockMtx s t
    case h_7 | h_8 | h_9 | h_11 =>
      cases hst
      refine Pool.noEntry_set ?_ s.uses t
      split_ifs <;> decide
    case h_10 =>
      cases hst
      split_ifs <;> exact Pool.noEntry_set (by decide) s.uses t
    case h_1 | h_3 | h_4 | h_6 =>
      cases hst
      exact Pool.noEntry_set (by decide) s.uses t
    all_goals exact absurd hst (by simp)

/-- **The lock does not deadlock.**  In every interleaving in which each use releases only
what it acquired and fewer than 2^31 increments of `readers_c_` are ever outstanding: while
a writer has the mutex, waiting or in, no step lets a reader in; and whenever nobody holds
the lock, the calls in progress alone have a schedule of at most four steps a call after
which one of them has the lock or all of them have returned. -/
theorem progress {s : System τ} (hs : ReachIf Init step Bounded s) :
    (∀ w a s', (s.uses.pc w).ownsMtx = true → s.step a = some s' →
        ∀ u, s'.uses.pc u = .rHeld → s.uses.pc u = .rHeld) ∧
      (s.readers = 0 → s.writers = 0 → ∃ s', s.Advances (4 * s.calls) s' ∧ s'.Served) := by
  obtain ⟨h, hb⟩ := reach_inv s hs
  refine ⟨fun w a s' hw hst => ?_, fun hr hw => ?_⟩
  · exact noEntry_step (h.isLock_of_ownsMtx hw) hst
  · exact h.served hb ⟨hr, hw⟩

theorem bounded_of_step {s s' : System τ} {a : Act τ} (hst : s.step a = some s')
    (hb : s'.raised < 2 ^ 31) : Bounded s a := by
  intro s₁ hst₁
  rw [hst, Option.some_inj] at hst₁
  exact hst₁ ▸ hb

/-- Reader 1 has raised the counter, and writer 2 has the mutex: each is in the other's way. -/
def faceToFace : List (Act ℕ) :=
  [.rLock 1, .wLock 2, .advance 1 true, .advance 2 true]

theorem progress_faceToFace : ∃ s : System ℕ,
    exec step ⟨CoRWMutex.new, Pool.empty, [], false⟩ faceToFace = some s ∧
      s.uses.pc 1 = .rLockCheck ∧ s.uses.pc 2 = .wSpin ∧ s.calls = 2 ∧
      ∃ s', s.Advances 8 s' ∧ s'.Served := by
  have hreach : ReachIf Init step Bounded _ :=
    .next (.next (.next (.next (.start rfl)
      (bounded_of_step (a := .rLock 1) rfl (by decide)) rfl)
      (bounded_of_step (a := .wLock 2) rfl (by decide)) rfl)
      (bounded_of_step (a := .advance 1 true) rfl (by decide)) rfl)
      (bounded_of_step (a := .advance 2 true) rfl (by decide)) rfl
  exact ⟨_, rfl, rfl, rfl, rfl, (progress hreach).2 rfl rfl⟩

/-! ### Polling against each other -/

/-- A waiting reader and the waiting writer, each polling once. -/
def spinRound (r w : τ) : List (Act τ) :=
  [.advance r true, .advance w true, .advance r true, .advance r true]

/-- The two systems have the same lock and the same counters. -/
structure Same (s s' : System τ) : Prop where
  lock : s'.lock = s.lock
  pc : s'.uses.pc = s.uses.pc
  refused : s'.refused = s.refused

/-- **One round** of polling: the reader raises the counter, the writer sees it raised, the
reader sees the mutex taken and lowers the counter. -/
theorem spinRound_same {s : System τ} {r w : τ} (hl : s.lock.mtx_.isLock = true)
    (hc : s.lock.readersC_ + 1 ≠ 0) (hr : s.uses.pc r = .rLock) (hw : s.uses.pc w = .wSpin) :
    ∃ s', s.Same s' ∧ ∀ as, exec step s (spinRound r w ++ as) = exec step s' as := by
  have hne : w ≠ r := by
    rintro rfl
    rw [hr] at hw
    cases hw
  let s₁ := s.raise.move r .rLockCheck
  let s₂ := s₁.move w .wSpin
  let s₃ := s₂.move r .rLockBack
  have h₁ : s.advance r true = some s₁ := by
    rw [advance]
    simp only [hr]
    rfl
  have h₂ : s₁.advance w true = some s₂ := by
    have hpc : s₁.uses.pc w = .wSpin := (Pool.pc_set_of_ne _ hne _).trans hw
    have hup : s₁.lock.readersC_ ≠ 0 := hc
    rw [advance]
    simp only [hpc, ne_eq, hup, not_false_eq_true, if_true]
    rfl
  have h₃ : s₂.advance r true = some s₃ := by
    have hpc : s₂.uses.pc r = .rLockCheck :=
      (Pool.pc_set_of_ne _ hne.symm _).trans (Pool.pc_set_self ..)
    have hlock : s₂.lock.mtx_.isLock = true := hl
    rw [advance]
    simp only [hpc, hlock, if_true]
    rfl
  have h₄ : s₃.advance r true = some (s₃.lower.move r .rLock) := by
    have hpc : s₃.uses.pc r = .rLockBack := Pool.pc_set_self ..
    rw [advance]
    simp only [hpc]
  refine ⟨s₃.lower.move r .rLock, ⟨?_, ?_, rfl⟩, fun as => ?_⟩
  · have hback : s.lock.readersC_ + 1 - 1 = s.lock.readersC_ := BitVec.add_sub_cancel _ _
    have hlock : (s₃.lower.move r .rLock).lock
        = { s.lock with readersC_ := s.lock.readersC_ + 1 - 1 } := rfl
    rw [hlock, hback]
  · funext u
    have hset : (s₃.lower.move r .rLock).uses = s₃.uses.set r .rLock := rfl
    rw [hset, Pool.pc_set]
    split_ifs with hur
    · rw [hur, hr]
    · have hset₃ : s₃.uses = ((s.uses.set r .rLockCheck).set w .wSpin).set r .rLockBack := rfl
      rw [hset₃, Pool.pc_set_of_ne _ hur, Pool.pc_set]
      split_ifs with huw
      · rw [huw, hw]
      · rw [Pool.pc_set_of_ne _ hur]
  · simp only [spinRound, List.cons_append, List.nil_append, exec, step, h₁, h₂, h₃, h₄,
      Option.bind_some]

theorem spin_rounds {s : System τ} {r w : τ} (hl : s.lock.mtx_.isLock = true)
    (hc : s.lock.readersC_ + 1 ≠ 0) (hr : s.uses.pc r = .rLock) (hw : s.uses.pc w = .wSpin)
    (n : ℕ) :
    ∃ s', exec step s (List.replicate n (spinRound r w)).flatten = some s' ∧ s.Same s' := by
  induction n generalizing s with
  | zero => exact ⟨s, rfl, rfl, rfl, rfl⟩
  | succ n ih =>
    obtain ⟨s₁, hsame, hrun⟩ := spinRound_same hl hc hr hw
    obtain ⟨s', hrest, hsame'⟩ := ih (s := s₁) (by rw [hsame.lock]; exact hl)
      (by rw [hsame.lock]; exact hc) (by rw [hsame.pc]; exact hr) (by rw [hsame.pc]; exact hw)
    refine ⟨s', ?_, hsame'.lock.trans hsame.lock, hsame'.pc.trans hsame.pc,
      hsame'.refused.trans hsame.refused⟩
    rw [List.replicate_succ, List.flatten_cons, hrun]
    exact hrest

/-- **Progress is not guaranteed.**  In every reachable state in which a writer waits with
the mutex in hand and a reader waits to raise the counter, the two can poll in turns any
number of times, neither of them getting in, with lock and counters as they were. -/
theorem spin_again {s : System τ} (hs : ReachIf Init step Bounded s) {r w : τ}
    (hr : s.uses.pc r = .rLock) (hw : s.uses.pc w = .wSpin) (n : ℕ) :
    ∃ s', exec step s (List.replicate n (spinRound r w)).flatten = some s' ∧ s.Same s' := by
  obtain ⟨h, hb⟩ := reach_inv s hs
  have hc : s.lock.readersC_ + 1 ≠ 0 := by
    rw [h.counter]
    intro hzero
    have hnat := congrArg BitVec.toNat hzero
    rw [BitVec.toNat_add, BitVec.toNat_ofNat] at hnat
    simp only [BitVec.ofNat_eq_ofNat, BitVec.toNat_ofNat] at hnat
    omega
  exact spin_rounds (h.isLock_of_ownsMtx (w := w) (by rw [hw]; rfl)) hc hr hw n

/-- Reader 1 and writer 2 have begun, and the writer has the mutex. -/
theorem spin_again_lockLock : ∃ s : System ℕ,
    exec step ⟨CoRWMutex.new, Pool.empty, [], false⟩ [.rLock 1, .wLock 2, .advance 2 true]
        = some s ∧
      s.readers = 0 ∧ s.writers = 0 ∧
      ∃ s', exec step s (List.replicate 1000 (spinRound 1 2)).flatten = some s' ∧ s.Same s' := by
  have hreach : ReachIf Init step Bounded _ :=
    .next (.next (.next (.start rfl)
      (bounded_of_step (a := .rLock 1) rfl (by decide)) rfl)
      (bounded_of_step (a := .wLock 2) rfl (by decide)) rfl)
      (bounded_of_step (a := .advance 2 true) rfl (by decide)) rfl
  exact ⟨_, rfl, rfl, rfl, spin_again hreach rfl rfl 1000⟩

end System

end CoRWMutex
