/-
Processes that synchronise through a family of `BlockObject`s.

A process waits for an object of the family, is parked in its queue, tries it or
wakes it up, and moves on.  `waitBy`, `parkBy`, `tryBy` and `wakeBy` are the
atomic steps of such calls, each on one object and on the pool of processes.

A `Layout` describes the stages of the processes: at which of them a process is
parked, where it goes when it is granted, and what it owes to each object.  One
invariant, `Layout.Holds`, covers every such design: the objects are sound, their
queues list the parked processes, and for each object the stored permits and the
weights of the processes add up to a target.  Each atomic step keeps it
(`Holds.wait`, `Holds.park`, `Holds.tryWait`, `Holds.wake`, `Holds.move`).
-/
import CppFeatures.BlockObject

variable {τ σ κ : Type*}

/-! ### The atomic steps -/

namespace BlockObject

variable [Inhabited σ] [DecidableEq τ]

/-- `CoBlockWait` by `t`, its locked check.  A coroutine that finds no permit is
marked; outside a coroutine the check is repeated. -/
def waitBy (b : BlockObject τ) (P : Pool τ σ) (t : τ) (co : Bool) (x : WaitPhase → σ)
    (granted : σ) : BlockObject τ × Pool τ σ :=
  let (b, ok) := b.coBlockWait
  (b, P.set t (if ok then granted else if co then x .marked else x .ready))

/-- `AddWaitTask`, which the scheduler calls for `t` after the yield. -/
def parkBy (b : BlockObject τ) (P : Pool τ σ) (t : τ) (x : WaitPhase → σ) (granted : σ) :
    BlockObject τ × Pool τ σ :=
  let (b, queued) := b.addWaitTask t
  (b, P.set t (if queued then x .parked else granted))

/-- `TryBlockWait` by `t`, which continues at `y` when there is no permit. -/
def tryBy (b : BlockObject τ) (P : Pool τ σ) (t : τ) (x y : σ) : BlockObject τ × Pool τ σ :=
  let (b, ok) := b.tryBlockWait
  (b, P.set t (if ok then x else y))

/-- `Wakeup` by `t`, which moves on to `x`; a popped process is granted. -/
def wakeBy (b : BlockObject τ) (P : Pool τ σ) (t : τ) (x : σ) (granted : σ → σ) :
    BlockObject τ × Pool τ σ :=
  let (b, u, _) := b.wakeup
  let P := P.set t x
  match u with
  | some u => (b, P.set u (granted (P.pc u)))
  | none => (b, P)

end BlockObject

/-! ### Layouts -/

/-- The stages of processes that use the objects `κ`.  A process at a stage with
`parkedOn k` is in the queue of object `k`; when it is granted it goes to
`granted`, with one permit of `k` more on its account. -/
structure Layout (κ σ : Type*) [Inhabited σ] [DecidableEq κ] where
  parkedOn : κ → σ → Bool
  granted : σ → σ
  weight : κ → σ → ℤ
  maxWakeup : κ → ℕ
  parkedOn_idle : ∀ k, parkedOn k default = false
  weight_idle : ∀ k, weight k default = 0
  parkedOn_unique : ∀ {j k x}, parkedOn j x = true → parkedOn k x = true → j = k
  parkedOn_granted : ∀ {k x}, parkedOn k x = true → ∀ j, parkedOn j (granted x) = false
  weight_granted : ∀ {k x}, parkedOn k x = true → ∀ j,
    weight j (granted x) = weight j x + if j = k then 1 else 0

namespace Layout

open Function

variable [Inhabited σ] [DecidableEq κ] (L : Layout κ σ)

def Running (x : σ) : Prop := ∀ k, L.parkedOn k x = false

/-- `x` are the three phases of a wait for object `k`. -/
structure Waits (k : κ) (x : WaitPhase → σ) : Prop where
  ready : L.Running (x .ready)
  marked : L.Running (x .marked)
  parked : L.parkedOn k (x .parked) = true
  granted_ready : L.granted (x .ready) = L.granted (x .parked)
  weight_eq : ∀ j ph, L.weight j (x ph) = L.weight j (x .parked)

/-- The invariant: for each object, the stored permits and the weights of the
processes make `target`. -/
structure Holds (sem : κ → BlockObject τ) (P : Pool τ σ) (target : κ → ℤ) : Prop where
  sound : ∀ k, (sem k).Sound
  max_eq : ∀ k, (sem k).maxWakeup_ = L.maxWakeup k
  parks : ∀ k, Parks (sem k).waitQueue_ P (L.parkedOn k)
  ledger : ∀ k, ((sem k).wakeup_ : ℤ) + P.total (L.weight k) = target k

variable {L}

theorem Waits.running_granted {k : κ} {x : WaitPhase → σ} (hx : L.Waits k x) :
    L.Running (L.granted (x .ready)) := by
  rw [hx.granted_ready]
  exact L.parkedOn_granted hx.parked

theorem Waits.weight_granted {k : κ} {x : WaitPhase → σ} (hx : L.Waits k x) (j : κ)
    (ph : WaitPhase) :
    L.weight j (L.granted (x .ready)) = L.weight j (x ph) + if j = k then 1 else 0 := by
  rw [hx.granted_ready, L.weight_granted hx.parked, hx.weight_eq j ph]

variable {sem : κ → BlockObject τ} {P : Pool τ σ} {target target' : κ → ℤ} {k : κ} {t : τ}

theorem Holds.congr (h : L.Holds sem P target) (ht : ∀ k, target k = target' k) :
    L.Holds sem P target' :=
  ⟨h.sound, h.max_eq, h.parks, fun k => (h.ledger k).trans (ht k)⟩

/-- One object stores `d` permits more. -/
theorem Holds.store (h : L.Holds sem P target) {n : ℕ} (d : ℤ) (hn : (n : ℤ) = (sem k).wakeup_ + d)
    (hs : ({ sem k with wakeup_ := n } : BlockObject τ).Sound) :
    L.Holds (update sem k { sem k with wakeup_ := n }) P
      (fun j => target j + if j = k then d else 0) := by
  refine ⟨fun j => ?_, fun j => ?_, fun j => ?_, fun j => ?_⟩ <;>
    by_cases hj : j = k
  · subst hj; rwa [update_self]
  · rw [update_of_ne hj]; exact h.sound j
  · subst hj; rw [update_self]; exact h.max_eq j
  · rw [update_of_ne hj]; exact h.max_eq j
  · subst hj; rw [update_self]; exact h.parks j
  · rw [update_of_ne hj]; exact h.parks j
  · subst hj
    rw [update_self, if_pos rfl, ← h.ledger j]
    simp only [hn]
    ring
  · rw [update_of_ne hj, if_neg hj, add_zero]
    exact h.ledger j

variable [DecidableEq τ]

/-- **One process moves**, and the targets follow its weight. -/
theorem Holds.move (h : L.Holds sem P target) {x : σ} (hy : L.Running (P.pc t))
    (hx : L.Running x) :
    L.Holds sem (P.set t x)
      (fun j => target j - L.weight j (P.pc t) + L.weight j x) := by
  refine ⟨h.sound, h.max_eq, fun j => (h.parks j).stay (hy j) (hx j), fun j => ?_⟩
  rw [Pool.total_set (L.weight_idle j), ← h.ledger j]
  ring

theorem Holds.moveTo (h : L.Holds sem P target) {y x : σ} (hpc : P.pc t = y) (hy : L.Running y)
    (hx : L.Running x) (ht : ∀ j, target' j + L.weight j y = target j + L.weight j x) :
    L.Holds sem (P.set t x) target' := by
  subst hpc
  refine (h.move hy hx).congr fun j => ?_
  have := ht j
  omega

/-- A process joins the queue of `k`, or leaves it. -/
theorem Holds.requeue (h : L.Holds sem P target) {q : List τ} {x : σ}
    (hw : (sem k).wakeup_ = 0) (hk : Parks q (P.set t x) (L.parkedOn k))
    (hj : ∀ j, j ≠ k → L.parkedOn j (P.pc t) = false ∧ L.parkedOn j x = false) :
    L.Holds (update sem k { sem k with waitQueue_ := q }) (P.set t x)
      (fun j => target j - L.weight j (P.pc t) + L.weight j x) := by
  have hledger : ∀ j, ((sem j).wakeup_ : ℤ) + (P.set t x).total (L.weight j)
      = target j - L.weight j (P.pc t) + L.weight j x := by
    intro j
    rw [Pool.total_set (L.weight_idle j), ← h.ledger j]
    ring
  refine ⟨fun j => ?_, fun j => ?_, fun j => ?_, fun j => ?_⟩ <;>
    by_cases hjk : j = k
  · subst hjk; rw [update_self]; exact (h.sound j).requeue hw q
  · rw [update_of_ne hjk]; exact h.sound j
  · subst hjk; rw [update_self]; exact h.max_eq j
  · rw [update_of_ne hjk]; exact h.max_eq j
  · subst hjk; rw [update_self]; exact hk
  · rw [update_of_ne hjk]
    exact (h.parks j).stay (hj j hjk).1 (hj j hjk).2
  · subst hjk; rw [update_self]; exact hledger j
  · rw [update_of_ne hjk]; exact hledger j

/-! ### The steps keep the invariant -/

/-- Taking a permit and moving on. -/
theorem Holds.take (h : L.Holds sem P target) {x : σ} (hw : 0 < (sem k).wakeup_)
    (hy : L.Running (P.pc t)) (hx : L.Running x)
    (hwt : ∀ j, L.weight j x = L.weight j (P.pc t) + if j = k then 1 else 0) :
    L.Holds (update sem k { sem k with wakeup_ := (sem k).wakeup_ - 1 }) (P.set t x)
      target := by
  refine ((h.move hy hx).store (-1) (by omega) ((h.sound k).take hw)).congr fun j => ?_
  rw [hwt j]
  split_ifs <;> ring

theorem Holds.wait (h : L.Holds sem P target) {x : WaitPhase → σ} (hx : L.Waits k x)
    (hpc : P.pc t = x .ready) (co : Bool) :
    let r := (sem k).waitBy P t co x (L.granted (x .ready))
    L.Holds (update sem k r.1) r.2 target := by
  have hy : L.Running (P.pc t) := hpc ▸ hx.ready
  rcases (h.sound k).coBlockWait_cases with ⟨hw, heq⟩ | ⟨-, heq⟩
  · simp only [BlockObject.waitBy, heq, if_true]
    exact h.take hw hy hx.running_granted fun j => hpc ▸ hx.weight_granted j .ready
  · simp only [BlockObject.waitBy, heq, update_eq_self, Bool.false_eq_true, if_false]
    cases co
    · refine (h.move hy hx.ready).congr fun j => ?_
      rw [hpc, sub_add_cancel]
    · refine (h.move hy hx.marked).congr fun j => ?_
      simp only [hpc, hx.weight_eq j .ready, hx.weight_eq j .marked, sub_add_cancel]

theorem Holds.park (h : L.Holds sem P target) {x : WaitPhase → σ} (hx : L.Waits k x)
    (hpc : P.pc t = x .marked) :
    let r := (sem k).parkBy P t x (L.granted (x .ready))
    L.Holds (update sem k r.1) r.2 target := by
  have hy : L.Running (P.pc t) := hpc ▸ hx.marked
  rcases (h.sound k).addWaitTask_cases t with ⟨hw, heq⟩ | ⟨hw, heq⟩
  · -- a wakeup fell between the two checks
    simp only [BlockObject.parkBy, heq, Bool.false_eq_true, if_false]
    exact h.take hw hy hx.running_granted fun j => hpc ▸ hx.weight_granted j .marked
  · simp only [BlockObject.parkBy, heq, if_true]
    refine (h.requeue hw ((h.parks k).push (hy k) hx.parked) fun j hj => ⟨hy j, ?_⟩).congr
      fun j => ?_
    · by_contra hp
      exact hj (L.parkedOn_unique (Bool.of_not_eq_false hp) hx.parked)
    · rw [hpc, hx.weight_eq j .marked, sub_add_cancel]

theorem Holds.tryWait (h : L.Holds sem P target) {x y : σ} (ht : L.Running (P.pc t))
    (hx : L.Running x) (hy : L.Running y)
    (hwx : ∀ j, L.weight j x = L.weight j (P.pc t) + if j = k then 1 else 0)
    (hwy : ∀ j, L.weight j y = L.weight j (P.pc t)) :
    let r := (sem k).tryBy P t x y
    L.Holds (update sem k r.1) r.2 target := by
  simp only [BlockObject.tryBy, BlockObject.tryBlockWait_eq]
  rcases (h.sound k).coBlockWait_cases with ⟨hw, heq⟩ | ⟨-, heq⟩
  · simp only [heq, if_true]
    exact h.take hw ht hx hwx
  · simp only [heq, update_eq_self, Bool.false_eq_true, if_false]
    refine (h.move ht hy).congr fun j => ?_
    rw [hwy j, sub_add_cancel]

/-- A wakeup below the bound brings one permit, to the store or to the oldest
waiter. -/
theorem Holds.wake (h : L.Holds sem P target) {x : σ} (hy : L.Running (P.pc t))
    (hx : L.Running x) (hmax : (sem k).wakeup_ < L.maxWakeup k) :
    let r := (sem k).wakeBy P t x L.granted
    L.Holds (update sem k r.1) r.2
      (fun j => target j - L.weight j (P.pc t) + L.weight j x + if j = k then 1 else 0) := by
  have hmove := h.move hy hx
  rcases (h.sound k).wakeup_cases with ⟨u, rest, hq, hw, heq⟩ | ⟨hq, hw, heq⟩ | ⟨-, hw, -⟩
  · simp only [BlockObject.wakeBy, heq]
    have hpark := hmove.parks k
    rw [hq] at hpark
    have hu := hpark.head
    have hrun := L.parkedOn_granted hu
    refine (hmove.requeue hw (hpark.pop (hrun k)) fun j hj => ⟨?_, hrun j⟩).congr fun j => ?_
    · by_contra hp
      exact hj (L.parkedOn_unique (Bool.of_not_eq_false hp) hu)
    · rw [L.weight_granted hu]
      ring
  · simp only [BlockObject.wakeBy, heq]
    exact hmove.store 1 (by push_cast; ring) ((h.sound k).give hq hw)
  · rw [h.max_eq k] at hw
    omega

/-! ### Who enters a stage -/

theorem Holds.noEntry_wake (h : L.Holds sem P target) {x z : σ} (hy : L.Running (P.pc t))
    (hx : L.Running x) (hxz : x ≠ z) (hg : ∀ y, L.parkedOn k y = true → L.granted y ≠ z) :
    Pool.NoEntry z P ((sem k).wakeBy P t x L.granted).2 := by
  have hset := Pool.noEntry_set hxz P t
  rcases (h.sound k).wakeup_cases with ⟨u, rest, hq, -, heq⟩ | ⟨-, -, heq⟩ | ⟨-, -, heq⟩
  · simp only [BlockObject.wakeBy, heq]
    have hpark := (h.parks k).stay (hy k) (hx k)
    rw [hq] at hpark
    exact fun v hv => hset v (Pool.noEntry_set (hg _ hpark.head) _ u v hv)
  · simpa only [BlockObject.wakeBy, heq] using hset
  · simpa only [BlockObject.wakeBy, heq] using hset

end Layout

namespace BlockObject

variable [Inhabited σ] [DecidableEq τ] {P : Pool τ σ} {t : τ} {x : WaitPhase → σ} {g y z : σ}

theorem noEntry_waitBy (hx : ∀ ph, x ph ≠ z) (hg : g ≠ z) (b : BlockObject τ) (co : Bool) :
    Pool.NoEntry z P (b.waitBy P t co x g).2 := by
  refine Pool.noEntry_set ?_ P t
  split_ifs
  exacts [hg, hx .marked, hx .ready]

theorem noEntry_parkBy (hx : ∀ ph, x ph ≠ z) (hg : g ≠ z) (b : BlockObject τ) :
    Pool.NoEntry z P (b.parkBy P t x g).2 := by
  refine Pool.noEntry_set ?_ P t
  split_ifs
  exacts [hx .parked, hg]

theorem noEntry_tryBy (hg : g ≠ z) (hy : y ≠ z) (b : BlockObject τ) :
    Pool.NoEntry z P (b.tryBy P t g y).2 := by
  refine Pool.noEntry_set ?_ P t
  split_ifs
  exacts [hg, hy]

end BlockObject
