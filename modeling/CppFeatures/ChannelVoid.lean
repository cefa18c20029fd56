/-
`Channel<void>` (coroutine/channel.h): a channel that carries no values.

The two `BlockObject`s of `Channel<T>` without the queue and its mutex: a writer
waits for `write_block_` and wakes `read_block_`, a reader wakes `write_block_`
and waits for `read_block_`.  What is buffered is the number of writes that were
announced and not yet received.
-/
import CppFeatures.Semaphores

/-- `Channel<void>::ChannelImpl`. -/
structure ChannelVoid (τ : Type*) where
  writeBlock_ : BlockObject τ
  readBlock_ : BlockObject τ

namespace ChannelVoid

variable {τ : Type*}

def new (capacity : ℕ) : ChannelVoid τ :=
  ⟨BlockObject.new capacity (2 ^ 64 - 1), BlockObject.new 0 (2 ^ 64 - 1)⟩

inductive Sem
  | write
  | read
deriving DecidableEq, Repr

def sem (ch : ChannelVoid τ) : Sem → BlockObject τ
  | .write => ch.writeBlock_
  | .read => ch.readBlock_

def setSem (ch : ChannelVoid τ) (k : Sem) (b : BlockObject τ) : ChannelVoid τ :=
  match k with
  | .write => { ch with writeBlock_ := b }
  | .read => { ch with readBlock_ := b }

@[simp] theorem sem_setSem (ch : ChannelVoid τ) (k : Sem) (b : BlockObject τ) :
    (ch.setSem k b).sem = Function.update ch.sem k b := by
  funext j
  cases k <;> cases j <;> rfl

/-- The next step of an operation. -/
inductive Stage
  | idle
  -- `operator<<`: `write_block_.CoBlockWait()`, `read_block_.Wakeup()`; `TryPush` tries first
  | wWait (ph : WaitPhase) | wTry | wWakeup
  -- `operator>>`: `write_block_.Wakeup()`, `read_block_.CoBlockWait()`, return
  | rWakeup | rWait (ph : WaitPhase) | rDone
  -- `TryPop`: `write_block_.Wakeup()`, `read_block_.TryBlockWait()`, `write_block_.TryBlockWait()`
  | tWakeup | tRead | tTakeBack
deriving DecidableEq, Repr, Inhabited

def Stage.granted : Stage → Stage
  | .wWait _ | .wTry => .wWakeup
  | .rWait _ | .tRead => .rDone
  | st => st

/-- A channel, its operations in progress (`co` says which are coroutines), and how
many writes were announced and how many reads have returned. -/
structure System (τ : Type*) where
  chan : ChannelVoid τ
  ops : Pool τ Stage
  co : τ → Bool
  sent : ℕ
  received : ℕ

inductive Act (τ : Type*)
  | push (t : τ) (co : Bool)
  | pop (t : τ) (co : Bool)
  | tryPush (t : τ) (co : Bool)
  | tryPop (t : τ) (co : Bool)
  | advance (t : τ)

namespace System

variable [DecidableEq τ]

def move (s : System τ) (t : τ) (x : Stage) : System τ := { s with ops := s.ops.set t x }

def setSem (s : System τ) (k : Sem) (r : BlockObject τ × Pool τ Stage) : System τ :=
  { s with chan := s.chan.setSem k r.1, ops := r.2 }

def wait (s : System τ) (k : Sem) (t : τ) (x : WaitPhase → Stage) : System τ :=
  s.setSem k ((s.chan.sem k).waitBy s.ops t (s.co t) x (x .ready).granted)

def park (s : System τ) (k : Sem) (t : τ) (x : WaitPhase → Stage) : System τ :=
  s.setSem k ((s.chan.sem k).parkBy s.ops t x (x .ready).granted)

def tryWait (s : System τ) (k : Sem) (t : τ) (x y : Stage) : System τ :=
  s.setSem k ((s.chan.sem k).tryBy s.ops t x y)

def wake (s : System τ) (k : Sem) (t : τ) (x : Stage) : System τ :=
  s.setSem k ((s.chan.sem k).wakeBy s.ops t x Stage.granted)

/-- The next step of operation `t`. -/
def advance (s : System τ) (t : τ) : Option (System τ) :=
  match s.ops.pc t with
  | .wWait .ready => some (s.wait .write t .wWait)
  | .wWait .marked => some (s.park .write t .wWait)
  | .wTry => some (s.tryWait .write t .wWakeup .idle)
  | .wWakeup => some { s.wake .read t .idle with sent := s.sent + 1 }
  | .rWakeup => some (s.wake .write t (.rWait .ready))
  | .rWait .ready => some (s.wait .read t .rWait)
  | .rWait .marked => some (s.park .read t .rWait)
  | .tWakeup => some (s.wake .write t .tRead)
  | .tRead => some (s.tryWait .read t .rDone .tTakeBack)
  | .tTakeBack => some (s.tryWait .write t .idle .tRead)
  | .rDone => some { s.move t .idle with received := s.received + 1 }
  | .idle | .wWait .parked | .rWait .parked => none

def start (s : System τ) (t : τ) (x : Stage) (co : Bool) : Option (System τ) :=
  if s.ops.pc t = .idle then some { s.move t x with co := Function.update s.co t co } else none

def step (s : System τ) : Act τ → Option (System τ)
  | .push t co => s.start t (.wWait .ready) co
  | .pop t co => s.start t .rWakeup co
  | .tryPush t co => s.start t .wTry co
  | .tryPop t co => s.start t .tWakeup co
  | .advance t => s.advance t

def Init (c : ℕ) (s : System τ) : Prop :=
  s.chan = ChannelVoid.new c ∧ s.ops = Pool.empty ∧ s.sent = 0 ∧ s.received = 0

end System

/-! ### What the stages owe -/

namespace Stage

def parkedOn : Sem → Stage → Bool
  | .write, .wWait .parked | .read, .rWait .parked => true
  | _, _ => false

def holds : Sem → Stage → Bool
  | .write, .wWakeup => true
  | .read, .rDone => true
  | _, _ => false

-- a reader that has called `write_block_.Wakeup()` and has not returned
def inFlight : Stage → Bool
  | .rWait _ | .tRead | .tTakeBack | .rDone => true
  | _ => false

def isReader : Stage → Bool
  | .rWakeup | .tWakeup => true
  | x => x.inFlight

def weight : Sem → Stage → ℤ
  | .write => fun x => ((x.holds .write).toNat : ℤ) - (x.inFlight.toNat : ℤ)
  | .read => fun x => ((x.holds .read).toNat : ℤ)

end Stage

def layout : Layout Sem Stage where
  parkedOn := Stage.parkedOn
  granted := Stage.granted
  weight := Stage.weight
  maxWakeup := fun _ => 2 ^ 64 - 1
  parkedOn_idle := by intro k; cases k <;> rfl
  weight_idle := by intro k; cases k <;> rfl
  parkedOn_unique := by
    intro j k x hj hk
    cases j <;> cases k <;> cases x <;> simp_all [Stage.parkedOn]
  parkedOn_granted := by
    intro k x h j
    cases k <;> cases x <;> simp_all [Stage.parkedOn, Stage.granted]
  weight_granted := by
    intro k x h j
    cases k <;> cases x <;> cases j <;>
      simp_all [Stage.parkedOn, Stage.granted, Stage.weight, Stage.holds, Stage.inFlight]

theorem running_of {x : Stage} (hw : x.parkedOn .write = false) (hr : x.parkedOn .read = false) :
    layout.Running x
  | .write => hw
  | .read => hr

theorem waits_wWait : layout.Waits .write .wWait where
  ready := running_of rfl rfl
  marked := running_of rfl rfl
  parked := rfl
  granted_ready := rfl
  weight_eq := by intro j ph; cases j <;> rfl

theorem waits_rWait : layout.Waits .read .rWait where
  ready := running_of rfl rfl
  marked := running_of rfl rfl
  parked := rfl
  granted_ready := rfl
  weight_eq := by intro j ph; cases j <;> rfl

-- with `n` writes announced and not received
def target (c : ℕ) (n : ℤ) : Sem → ℤ
  | .write => c - n
  | .read => n

namespace System

def buffered (s : System τ) : ℤ := s.sent - s.received

def readers (s : System τ) : ℕ := s.ops.count Stage.isReader

/-- The invariant: both ledgers balance. -/
def Inv (c : ℕ) (s : System τ) : Prop :=
  layout.Holds s.chan.sem s.ops (target c s.buffered)

theorem inv_init {c : ℕ} (hc : c < 2 ^ 64 - 1) {s : System τ} (h : Init c s) : Inv c s := by
  obtain ⟨hchan, hops, hsent, hreceived⟩ := h
  rw [Inv, buffered, hchan, hops, hsent, hreceived]
  refine ⟨fun k => ?_, fun k => ?_, fun k => ?_, fun k => ?_⟩
  · cases k
    · exact BlockObject.sound_new hc.le (by decide)
    · exact BlockObject.sound_new (Nat.zero_le _) (by decide)
  · cases k <;> rfl
  · cases k <;> exact Parks.empty rfl
  · cases k <;> simp [ChannelVoid.new, sem, BlockObject.new, target]

theorem Inv.lt_max {c : ℕ} {s : System τ} (h : Inv c s) (hb : c + s.readers < 2 ^ 64 - 1)
    (k : Sem) : (s.chan.sem k).wakeup_ < layout.maxWakeup k := by
  have hw := h.ledger .write
  have hr := h.ledger .read
  have hle : s.ops.count Stage.inFlight ≤ s.readers :=
    Pool.count_mono (fun x hx => by cases x <;> simp_all [Stage.isReader, Stage.inFlight]) s.ops
  simp only [layout, Stage.weight, Pool.total_sub, Pool.total_toNat, target] at hw hr
  cases k with
  | write => simp only [layout]; omega
  | read => simp only [layout]; omega

variable {c : ℕ} {s : System τ} {t : τ} {k : Sem}

theorem Inv.setSem {r : BlockObject τ × Pool τ Stage}
    (hnet : layout.Holds (Function.update s.chan.sem k r.1) r.2 (target c s.buffered)) :
    Inv c (s.setSem k r) := by
  simpa only [Inv, System.setSem, sem_setSem, buffered] using hnet

variable [DecidableEq τ]

theorem Inv.tryWait (h : Inv c s) {y x z : Stage} (hpc : s.ops.pc t = y)
    (hrun : layout.Running y ∧ layout.Running x ∧ layout.Running z)
    (hx : ∀ j, x.weight j = y.weight j + if j = k then 1 else 0)
    (hz : ∀ j, z.weight j = y.weight j) : Inv c (s.tryWait k t x z) := by
  subst hpc
  exact Inv.setSem (Layout.Holds.tryWait h hrun.1 hrun.2.1 hrun.2.2 hx hz)

theorem Inv.wake (h : Inv c s) {y x : Stage} (hpc : s.ops.pc t = y)
    (hrun : layout.Running y ∧ layout.Running x)
    (hx : ∀ j, y.weight j = x.weight j + if j = k then 1 else 0)
    (hmax : (s.chan.sem k).wakeup_ < layout.maxWakeup k) : Inv c (s.wake k t x) := by
  subst hpc
  refine Inv.setSem ((Layout.Holds.wake h hrun.1 hrun.2 hmax).congr fun j => ?_)
  have := hx j
  simp only [layout]
  omega

theorem advance_inv {s' : System τ} (h : Inv c s) (hb : c + s.readers < 2 ^ 64 - 1)
    (hst : s.advance t = some s') : Inv c s' := by
  cases hpc : s.ops.pc t with
  | idle => simp [advance, hpc] at hst
  | wWait ph =>
    cases ph with
    | ready =>
      simp only [advance, hpc] at hst
      cases hst
      exact Inv.setSem (Layout.Holds.wait h waits_wWait hpc _)
    | marked =>
      simp only [advance, hpc] at hst
      cases hst
      exact Inv.setSem (Layout.Holds.park h waits_wWait hpc)
    | parked => simp [advance, hpc] at hst
  | wTry =>
    simp only [advance, hpc] at hst
    cases hst
    exact h.tryWait hpc ⟨running_of rfl rfl, running_of rfl rfl, running_of rfl rfl⟩
      (by intro j; cases j <;> rfl) (by intro j; cases j <;> rfl)
  | wWakeup =>
    -- the write is announced: one more is buffered, and the permit it held is gone
    simp only [advance, hpc] at hst
    cases hst
    have hwake := Layout.Holds.wake h (x := .idle) (t := t) (hpc ▸ running_of rfl rfl)
      (running_of rfl rfl) (h.lt_max hb .read)
    refine (show layout.Holds _ _ _ from ?_)
    simp only [System.wake, System.setSem, sem_setSem]
    refine hwake.congr fun j => ?_
    rw [hpc]
    cases j <;> simp [layout, Stage.weight, Stage.holds, Stage.inFlight, target, buffered] <;> ring
  | rWakeup =>
    simp only [advance, hpc] at hst
    cases hst
    exact h.wake hpc ⟨running_of rfl rfl, running_of rfl rfl⟩ (by intro j; cases j <;> rfl)
      (h.lt_max hb _)
  | rWait ph =>
    cases ph with
    | ready =>
      simp only [advance, hpc] at hst
      cases hst
      exact Inv.setSem (Layout.Holds.wait h waits_rWait hpc _)
    | marked =>
      simp only [advance, hpc] at hst
      cases hst
      exact Inv.setSem (Layout.Holds.park h waits_rWait hpc)
    | parked => simp [advance, hpc] at hst
  | rDone =>
    simp only [advance, hpc] at hst
    cases hst
    refine Layout.Holds.moveTo h hpc (running_of rfl rfl) (running_of rfl rfl) fun j => ?_
    cases j <;>
      simp [layout, Stage.weight, Stage.holds, Stage.inFlight, target, buffered, System.move] <;>
      ring
  | tWakeup =>
    simp only [advance, hpc] at hst
    cases hst
    exact h.wake hpc ⟨running_of rfl rfl, running_of rfl rfl⟩ (by intro j; cases j <;> rfl)
      (h.lt_max hb _)
  | tRead =>
    simp only [advance, hpc] at hst
    cases hst
    exact h.tryWait hpc ⟨running_of rfl rfl, running_of rfl rfl, running_of rfl rfl⟩
      (by intro j; cases j <;> rfl) (by intro j; cases j <;> rfl)
  | tTakeBack =>
    simp only [advance, hpc] at hst
    cases hst
    exact h.tryWait hpc ⟨running_of rfl rfl, running_of rfl rfl, running_of rfl rfl⟩
      (by intro j; cases j <;> rfl) (by intro j; cases j <;> rfl)

def Bounded (c : ℕ) (s : System τ) (_ : Act τ) : Prop := c + s.readers < 2 ^ 64 - 1

instance (c : ℕ) (s : System τ) (a : Act τ) : Decidable (Bounded c s a) :=
  inferInstanceAs (Decidable (_ < _))

/-- **One step** of any operation keeps the invariant. -/
theorem step_inv {s' : System τ} {a : Act τ} (h : Inv c s) (hb : Bounded c s a)
    (hst : s.step a = some s') : Inv c s' := by
  have hstart : ∀ {t x co}, layout.Running x → (∀ j, x.weight j = 0) →
      s.start t x co = some s' → Inv c s' := by
    intro t x co hx hw hst
    rw [start] at hst
    split_ifs at hst with hidle
    cases hst
    exact Layout.Holds.moveTo h hidle layout.parkedOn_idle hx fun j =>
      congrArg (_ + ·) ((layout.weight_idle j).trans (hw j).symm)
  cases a with
  | push t co => exact hstart (running_of rfl rfl) (by intro j; cases j <;> rfl) hst
  | pop t co => exact hstart (running_of rfl rfl) (by intro j; cases j <;> rfl) hst
  | tryPush t co => exact hstart (running_of rfl rfl) (by intro j; cases j <;> rfl) hst
  | tryPop t co => exact hstart (running_of rfl rfl) (by intro j; cases j <;> rfl) hst
  | advance t => exact advance_inv h hb hst

theorem reach_inv (hc : c < 2 ^ 64 - 1) :
    ∀ s : System τ, ReachIf (Init c) step (Bounded c) s → Inv c s :=
  ReachIf.invariant (fun _ h => inv_init hc h) fun _ _ _ h hb hst => step_inv h hb hst

end System

end ChannelVoid
