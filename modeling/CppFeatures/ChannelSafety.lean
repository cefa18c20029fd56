/-
Safety of `Channel<T>` over every interleaving.

Each stage of an operation weighs on the ledgers of the three objects: a writer
that was granted holds a `write_block_` permit until it has pushed, a value it
pushed is announced by its `read_block_.Wakeup()`, and a reader in flight has
lent `write_block_` a permit that only its pop, or the take-back of `TryPop`,
covers.  With these weights `layout` makes the channel an instance of `Layout`.

* `Channel.System.Inv` — the ledgers, and `pushed = popped ++ queue_`;
* `Channel.System.safety` — the values in the queue are accounted for, `front`
  and `pop` never meet an empty queue, values leave in the order they entered,
  and the queue exceeds the capacity at most by the readers in flight.
-/
import CppFeatures.Channel

namespace Channel

variable {τ T : Type*}

/-! ### What the stages owe -/

namespace Stage

def parkedOn : Sem → Stage → Bool
  | .write, .wWait .parked | .read, .rWait .parked => true
  | .lock, .wLock .parked | .lock, .rLock .parked => true
  | _, _ => false

/-- Granted by an object, and not yet pushed, popped or unlocked. -/
def holds : Sem → Stage → Bool
  | .write, .wLock _ | .write, .wPush => true
  | .read, .rLock _ | .read, .rFront | .read, .rPop => true
  | .lock, .wPush | .lock, .wUnlock | .lock, .rFront | .lock, .rPop | .lock, .rUnlock => true
  | _, _ => false

/-- A writer that has pushed and not yet called `read_block_.Wakeup()`. -/
def hasPushed : Stage → Bool
  | .wUnlock | .wWakeup => true
  | _ => false

/-- A reader that has called `write_block_.Wakeup()` and has neither popped nor
returned `false`. -/
def inFlight : Stage → Bool
  | .rWait _ | .tRead | .tTakeBack | .rLock _ | .rFront | .rPop => true
  | _ => false

def isReader : Stage → Bool
  | .rWakeup | .tWakeup | .rUnlock => true
  | x => x.inFlight

def weight : Sem → Stage → ℤ
  | .write => fun x => ((x.holds .write).toNat : ℤ) - (x.inFlight.toNat : ℤ)
  | .read => fun x => (x.hasPushed.toNat : ℤ) + ((x.holds .read).toNat : ℤ)
  | .lock => fun x => ((x.holds .lock).toNat : ℤ)

end Stage

def layout : Layout Sem Stage where
  parkedOn := Stage.parkedOn
  granted := Stage.granted
  weight := Stage.weight
  maxWakeup
    | .lock => 1
    | _ => 2 ^ 64 - 1
  parkedOn_idle := by intro k; cases k <;> rfl
  weight_idle := by intro k; cases k <;> rfl
  parkedOn_unique := by
    intro j k x hj hk
    cases j <;> cases k <;> cases x <;> simp_all [Stage.parkedOn]
  parkedOn_granted := by
    intro k x h j
    cases k <;> cases x <;> simp_all [Stage.parkedOn, Stage.granted]
  weight_granted := by
    intro k x h j
    cases k <;> cases x <;> cases j <;>
      simp_all [Stage.parkedOn, Stage.granted, Stage.weight, Stage.holds, Stage.inFlight,
        Stage.hasPushed]

theorem running_of {x : Stage} (hw : x.parkedOn .write = false) (hr : x.parkedOn .read = false)
    (hl : x.parkedOn .lock = false) : layout.Running x
  | .write => hw
  | .read => hr
  | .lock => hl

theorem granted_ne_rPop {k : Sem} (y : Stage) (h : layout.parkedOn k y = true) :
    layout.granted y ≠ .rPop := by
  intro hpop
  cases k <;> cases y <;> first | cases h | cases hpop

theorem waits_wWait : layout.Waits .write .wWait where
  ready := running_of rfl rfl rfl
  marked := running_of rfl rfl rfl
  parked := rfl
  granted_ready := rfl
  weight_eq := by intro j ph; cases j <;> rfl

theorem waits_rWait : layout.Waits .read .rWait where
  ready := running_of rfl rfl rfl
  marked := running_of rfl rfl rfl
  parked := rfl
  granted_ready := rfl
  weight_eq := by intro j ph; cases j <;> rfl

theorem waits_wLock : layout.Waits .lock .wLock where
  ready := running_of rfl rfl rfl
  marked := running_of rfl rfl rfl
  parked := rfl
  granted_ready := rfl
  weight_eq := by intro j ph; cases j <;> rfl

theorem waits_rLock : layout.Waits .lock .rLock where
  ready := running_of rfl rfl rfl
  marked := running_of rfl rfl rfl
  parked := rfl
  granted_ready := rfl
  weight_eq := by intro j ph; cases j <;> rfl

/-- What permits and weights add up to with `n` values in the queue. -/
def target (c n : ℕ) : Sem → ℤ
  | .write => c - n
  | .read => n
  | .lock => 1

namespace System

/-! ### The invariant -/

structure Inv (c : ℕ) (s : System τ T) : Prop where
  net : layout.Holds s.chan.sem s.ops (target c s.chan.queue_.length)
  fifo : s.pushed = s.popped ++ s.chan.queue_
  -- between `front` and `pop` the value read is still the head
  front : ∀ t, s.ops.pc t = .rPop →
    (s.loc t).ignore = true ∨ (s.loc t).got = s.chan.queue_.head?
  noFault : s.fault = false

theorem inv_init {c : ℕ} (hc : c < 2 ^ 64 - 1) {s : System τ T} (h : Init c s) : Inv c s := by
  obtain ⟨hchan, hops, hpushed, hpopped, hfault⟩ := h
  refine ⟨?_, by rw [hpushed, hpopped, hchan]; rfl, fun t ht => ?_, hfault⟩
  · rw [hchan, hops]
    refine ⟨fun k => ?_, fun k => ?_, fun k => ?_, fun k => ?_⟩
    · cases k
      · exact BlockObject.sound_new hc.le (by decide)
      · exact BlockObject.sound_new (Nat.zero_le _) (by decide)
      · exact BlockObject.sound_new le_rfl (by decide)
    · cases k <;> rfl
    · cases k <;> exact Parks.empty rfl
    · cases k <;> simp [Channel.new, sem, BlockObject.new, CoMutex.new, target]
  · rw [hops] at ht
    cases ht

-- the processes at a stage satisfying `p`
def readers (s : System τ T) : ℕ := s.ops.count Stage.isReader

def inFlight (s : System τ T) : ℕ := s.ops.count Stage.inFlight

section Ledgers

variable {c : ℕ} {s : System τ T}

theorem Inv.lock_ledger (h : Inv c s) :
    s.chan.queueLock_.block_.wakeup_ + s.ops.count (Stage.holds .lock) = 1 := by
  have := h.net.ledger .lock
  simp only [layout, Stage.weight, Pool.total_toNat, target, sem] at this
  omega

theorem Inv.read_ledger (h : Inv c s) :
    s.chan.queue_.length = s.chan.readBlock_.wakeup_ + s.ops.count Stage.hasPushed
      + s.ops.count (Stage.holds .read) := by
  have := h.net.ledger .read
  simp only [layout, Stage.weight, Pool.total_add, Pool.total_toNat, target, sem] at this
  omega

theorem Inv.write_ledger (h : Inv c s) :
    s.chan.writeBlock_.wakeup_ + s.ops.count (Stage.holds .write) + s.chan.queue_.length
      = c + s.inFlight := by
  have := h.net.ledger .write
  simp only [layout, Stage.weight, Pool.total_sub, Pool.total_toNat, target, sem] at this
  rw [inFlight]
  omega

theorem inFlight_le_readers (s : System τ T) : s.inFlight ≤ s.readers :=
  Pool.count_mono (fun x hx => by cases x <;> simp_all [Stage.isReader, Stage.inFlight]) s.ops

/-- No permit counter reaches its bound while readers are few. -/
theorem Inv.lt_max (h : Inv c s) (hb : c + s.readers < 2 ^ 64 - 1) {k : Sem} (hk : k ≠ .lock) :
    (s.chan.sem k).wakeup_ < layout.maxWakeup k := by
  have hw := h.write_ledger
  have hr := h.read_ledger
  have hle := s.inFlight_le_readers
  cases k with
  | write => simp only [sem, layout]; omega
  | read => simp only [sem, layout]; omega
  | lock => exact absurd rfl hk

theorem Inv.lock_lt_max (h : Inv c s) {t : τ} (ht : (s.ops.pc t).holds .lock = true) :
    (s.chan.sem .lock).wakeup_ < layout.maxWakeup .lock := by
  have hl := h.lock_ledger
  have hpos := Pool.count_pos (p := Stage.holds .lock) rfl ht
  simp only [sem, layout]
  omega

/-- `queue_lock_` excludes. -/
theorem Inv.lock_unique (h : Inv c s) {t u : τ} (ht : (s.ops.pc t).holds .lock = true)
    (hu : (s.ops.pc u).holds .lock = true) : t = u :=
  Pool.eq_of_count_le_one (p := Stage.holds .lock) rfl (by have := h.lock_ledger; omega) ht hu

/-- A reader granted by `read_block_` finds a value. -/
theorem Inv.queue_ne_nil (h : Inv c s) {t : τ} (ht : (s.ops.pc t).holds .read = true) :
    s.chan.queue_ ≠ [] := by
  have hr := h.read_ledger
  have hpos := Pool.count_pos (p := Stage.holds .read) rfl ht
  exact List.ne_nil_of_length_pos (by omega)

theorem Inv.unlock_isOk (h : Inv c s) {t : τ} (ht : (s.ops.pc t).holds .lock = true) :
    (s.chan.queueLock_.unlock false).2.2.isOk = true := by
  have hmax := h.lock_lt_max ht
  rcases (h.net.sound .lock).wakeup_cases with ⟨u, rest, -, -, heq⟩ | ⟨-, -, heq⟩ | ⟨-, hw, -⟩
  · simp only [sem] at heq
    rw [CoMutex.unlock, heq]
    rfl
  · simp only [sem] at heq
    rw [CoMutex.unlock, heq]
    rfl
  · rw [h.net.max_eq] at hw
    omega

end Ledgers

/-! ### Every step keeps it -/

variable {c : ℕ} {s : System τ T} {t : τ} {k : Sem}

theorem Inv.setSem (h : Inv c s) {r : BlockObject τ × Pool τ Stage}
    (hnet : layout.Holds (Function.update s.chan.sem k r.1) r.2 (target c s.chan.queue_.length))
    (hno : Pool.NoEntry .rPop s.ops r.2) : Inv c (s.setSem k r) := by
  refine ⟨?_, ?_, fun t ht => ?_, h.noFault⟩
  · simpa only [System.setSem, sem_setSem, queue_setSem] using hnet
  · simpa only [System.setSem, queue_setSem] using h.fifo
  · simpa only [System.setSem, queue_setSem] using h.front t (hno t ht)

variable [DecidableEq τ]

theorem Inv.wait (h : Inv c s) {x : WaitPhase → Stage} (hx : layout.Waits k x)
    (hpc : s.ops.pc t = x .ready) (hp : ∀ ph, x ph ≠ .rPop) (hg : (x .ready).granted ≠ .rPop) :
    Inv c (s.wait k t x) :=
  h.setSem (h.net.wait hx hpc _) (BlockObject.noEntry_waitBy hp hg _ _)

theorem Inv.park (h : Inv c s) {x : WaitPhase → Stage} (hx : layout.Waits k x)
    (hpc : s.ops.pc t = x .marked) (hp : ∀ ph, x ph ≠ .rPop) (hg : (x .ready).granted ≠ .rPop) :
    Inv c (s.park k t x) :=
  h.setSem (h.net.park hx hpc) (BlockObject.noEntry_parkBy hp hg _)

theorem Inv.tryWait (h : Inv c s) {y x z : Stage} (hpc : s.ops.pc t = y)
    (hrun : layout.Running y ∧ layout.Running x ∧ layout.Running z)
    (hx : ∀ j, x.weight j = y.weight j + if j = k then 1 else 0)
    (hz : ∀ j, z.weight j = y.weight j) (hxp : x ≠ .rPop) (hzp : z ≠ .rPop) :
    Inv c (s.tryWait k t x z) := by
  subst hpc
  exact h.setSem (h.net.tryWait hrun.1 hrun.2.1 hrun.2.2 hx hz) (BlockObject.noEntry_tryBy hxp hzp _)

theorem Inv.wake (h : Inv c s) {y x : Stage} (hpc : s.ops.pc t = y)
    (hrun : layout.Running y ∧ layout.Running x)
    (hx : ∀ j, y.weight j = x.weight j + if j = k then 1 else 0) (hxp : x ≠ .rPop)
    (hmax : (s.chan.sem k).wakeup_ < layout.maxWakeup k) : Inv c (s.wake k t x) := by
  subst hpc
  refine h.setSem ((h.net.wake hrun.1 hrun.2 hmax).congr fun j => ?_)
    (h.net.noEntry_wake hrun.1 hrun.2 hxp granted_ne_rPop)
  have := hx j
  simp only [layout]
  omega

theorem Inv.wPush (h : Inv c s) (hpc : s.ops.pc t = .wPush) (v : T) :
    Inv c { s.move t .wUnlock with
      chan := { s.chan with queue_ := s.chan.queue_ ++ [v] }, pushed := s.pushed ++ [v] } := by
  refine ⟨?_, ?_, fun u hu => ?_, h.noFault⟩
  · refine h.net.moveTo hpc (running_of rfl rfl rfl) (running_of rfl rfl rfl) fun j => ?_
    cases j <;> simp [layout, Stage.weight, Stage.holds, Stage.hasPushed, Stage.inFlight, target]
    ring
  · show s.pushed ++ [v] = s.popped ++ (s.chan.queue_ ++ [v])
    rw [h.fifo, List.append_assoc]
  · -- `t` holds the mutex, so nobody is about to pop
    have hu' : s.ops.pc u = .rPop := Pool.noEntry_set (by simp) s.ops t u hu
    have htu := h.lock_unique (t := t) (u := u) (by rw [hpc]; rfl) (by rw [hu']; rfl)
    rw [htu, hu'] at hpc
    cases hpc

theorem Inv.rFront (h : Inv c s) (hpc : s.ops.pc t = .rFront) {l : Locals T}
    (hl : l.ignore = true ∨ l.got = s.chan.queue_.head?) :
    Inv c { s.move t .rPop with loc := Function.update s.loc t l } := by
  refine ⟨?_, h.fifo, fun u hu => ?_, h.noFault⟩
  · exact h.net.moveTo hpc (running_of rfl rfl rfl) (running_of rfl rfl rfl) fun j => by
      cases j <;> rfl
  · simp only [System.move] at hu ⊢
    by_cases hut : u = t
    · rw [hut, Function.update_self]
      exact hl
    · rw [Function.update_of_ne hut]
      rw [Pool.pc_set_of_ne _ hut] at hu
      exact h.front u hu

theorem Inv.rPop (h : Inv c s) (hpc : s.ops.pc t = .rPop) {v : T} {q : List T}
    (hq : s.chan.queue_ = v :: q) :
    Inv c { s.move t .rUnlock with
      chan := { s.chan with queue_ := q }, popped := s.popped ++ [v] } := by
  refine ⟨?_, ?_, fun u hu => ?_, h.noFault⟩
  · refine h.net.moveTo hpc (running_of rfl rfl rfl) (running_of rfl rfl rfl) fun j => ?_
    rw [hq]
    cases j <;> simp [layout, Stage.weight, Stage.holds, Stage.hasPushed, Stage.inFlight, target]
    ring
  · show s.pushed = (s.popped ++ [v]) ++ q
    rw [h.fifo, hq, List.append_assoc]
    rfl
  · have hu' : s.ops.pc u = .rPop := Pool.noEntry_set (by simp) s.ops t u hu
    have htu := h.lock_unique (t := t) (u := u) (by rw [hpc]; rfl) (by rw [hu']; rfl)
    rw [← htu, System.move, Pool.pc_set_self] at hu
    cases hu

theorem Inv.start (h : Inv c s) {x : Stage} (hidle : s.ops.pc t = .idle)
    (hx : layout.Running x) (hw : ∀ j, x.weight j = 0) (hxp : x ≠ .rPop) (l : Locals T) :
    Inv c { s.move t x with loc := Function.update s.loc t l } := by
  refine ⟨?_, h.fifo, fun u hu => ?_, h.noFault⟩
  · exact h.net.moveTo hidle layout.parkedOn_idle hx fun j =>
      congrArg (_ + ·) ((layout.weight_idle j).trans (hw j).symm)
  · have hu' : s.ops.pc u = .rPop := Pool.noEntry_set hxp s.ops t u hu
    have hut : u ≠ t := by
      rintro rfl
      rw [hidle] at hu'
      cases hu'
    simp only [Function.update_of_ne hut]
    exact h.front u hu'

theorem advance_inv {s' : System τ T} (h : Inv c s) (hb : c + s.readers < 2 ^ 64 - 1)
    (hst : s.advance t = some s') : Inv c s' := by
  cases hpc : s.ops.pc t with
  | idle => simp [advance, hpc] at hst
  | wWait ph =>
    cases ph with
    | ready =>
      simp only [advance, hpc] at hst
      cases hst
      exact h.wait waits_wWait hpc (by simp) (by simp [Stage.granted])
    | marked =>
      simp only [advance, hpc] at hst
      cases hst
      exact h.park waits_wWait hpc (by simp) (by simp [Stage.granted])
    | parked => simp [advance, hpc] at hst
  | wTry =>
    simp only [advance, hpc] at hst
    cases hst
    exact h.tryWait hpc ⟨running_of rfl rfl rfl, running_of rfl rfl rfl,
      running_of rfl rfl rfl⟩ (by intro j; cases j <;> rfl) (by intro j; cases j <;> rfl)
      (by simp) (by simp)
  | wLock ph =>
    cases ph with
    | ready =>
      simp only [advance, hpc] at hst
      cases hst
      exact h.wait waits_wLock hpc (by simp) (by simp [Stage.granted])
    | marked =>
      simp only [advance, hpc] at hst
      cases hst
      exact h.park waits_wLock hpc (by simp) (by simp [Stage.granted])
    | parked => simp [advance, hpc] at hst
  | wPush =>
    simp only [advance, hpc, Option.map_eq_some_iff] at hst
    obtain ⟨v, -, rfl⟩ := hst
    exact h.wPush hpc v
  | wUnlock =>
    have hlock : (s.ops.pc t).holds .lock = true := by rw [hpc]; rfl
    simp only [advance, hpc, h.unlock_isOk hlock, Bool.not_true, Bool.or_false,
      Option.some_inj] at hst
    subst hst
    exact h.wake hpc ⟨running_of rfl rfl rfl, running_of rfl rfl rfl⟩
      (by intro j; cases j <;> rfl) (by simp) (h.lock_lt_max hlock)
  | wWakeup =>
    simp only [advance, hpc] at hst
    cases hst
    exact h.wake hpc ⟨running_of rfl rfl rfl, running_of rfl rfl rfl⟩
      (by intro j; cases j <;> rfl) (by simp) (h.lt_max hb (by simp))
  | rWakeup =>
    simp only [advance, hpc] at hst
    cases hst
    exact h.wake hpc ⟨running_of rfl rfl rfl, running_of rfl rfl rfl⟩
      (by intro j; cases j <;> rfl) (by simp) (h.lt_max hb (by simp))
  | rWait ph =>
    cases ph with
    | ready =>
      simp only [advance, hpc] at hst
      cases hst
      exact h.wait waits_rWait hpc (by simp) (by simp [Stage.granted])
    | marked =>
      simp only [advance, hpc] at hst
      cases hst
      exact h.park waits_rWait hpc (by simp) (by simp [Stage.granted])
    | parked => simp [advance, hpc] at hst
  | tWakeup =>
    simp only [advance, hpc] at hst
    cases hst
    exact h.wake hpc ⟨running_of rfl rfl rfl, running_of rfl rfl rfl⟩
      (by intro j; cases j <;> rfl) (by simp) (h.lt_max hb (by simp))
  | tRead =>
    simp only [advance, hpc] at hst
    cases hst
    exact h.tryWait hpc ⟨running_of rfl rfl rfl, running_of rfl rfl rfl,
      running_of rfl rfl rfl⟩ (by intro j; cases j <;> rfl) (by intro j; cases j <;> rfl)
      (by simp) (by simp)
  | tTakeBack =>
    simp only [advance, hpc] at hst
    cases hst
    exact h.tryWait hpc ⟨running_of rfl rfl rfl, running_of rfl rfl rfl,
      running_of rfl rfl rfl⟩ (by intro j; cases j <;> rfl) (by intro j; cases j <;> rfl)
      (by simp) (by simp)
  | rLock ph =>
    cases ph with
    | ready =>
      simp only [advance, hpc] at hst
      cases hst
      exact h.wait waits_rLock hpc (by simp) (by simp [Stage.granted])
    | marked =>
      simp only [advance, hpc] at hst
      cases hst
      exact h.park waits_rLock hpc (by simp) (by simp [Stage.granted])
    | parked => simp [advance, hpc] at hst
  | rFront =>
    have hne := h.queue_ne_nil (t := t) (by rw [hpc]; rfl)
    simp only [advance, hpc] at hst
    split_ifs at hst with hig
    · cases hst
      have := h.rFront hpc (l := s.loc t) (.inl hig)
      rwa [Function.update_eq_self] at this
    · simp only [List.isEmpty_eq_false_iff.mpr hne, Bool.or_false] at hst
      cases hst
      exact h.rFront hpc (.inr rfl)
  | rPop =>
    obtain ⟨v, q, hq⟩ := List.exists_cons_of_ne_nil (h.queue_ne_nil (t := t) (by rw [hpc]; rfl))
    have hval : (if (s.loc t).ignore then s.chan.queue_.head? else (s.loc t).got) = some v := by
      rcases h.front t hpc with hig | hgot
      · rw [if_pos hig, hq, List.head?_cons]
      · rw [hgot, ite_self, hq, List.head?_cons]
    simp only [advance, hpc, hval] at hst
    simp only [hq, List.tail_cons, List.isEmpty_cons, Bool.or_false, Option.toList_some,
      Option.some_inj] at hst
    subst hst
    exact h.rPop hpc hq
  | rUnlock =>
    have hlock : (s.ops.pc t).holds .lock = true := by rw [hpc]; rfl
    simp only [advance, hpc, h.unlock_isOk hlock, Bool.not_true, Bool.or_false,
      Option.some_inj] at hst
    subst hst
    exact h.wake hpc ⟨running_of rfl rfl rfl, running_of rfl rfl rfl⟩
      (by intro j; cases j <;> rfl) (by simp) (h.lock_lt_max hlock)

/-- The assumption on a run: the capacity plus the readers stay below `2^64 - 1`. -/
def Bounded (c : ℕ) (s : System τ T) (_ : Act τ T) : Prop := c + s.readers < 2 ^ 64 - 1

instance (c : ℕ) (s : System τ T) (a : Act τ T) : Decidable (Bounded c s a) :=
  inferInstanceAs (Decidable (_ < _))

/-- **One step** of any operation keeps the invariant. -/
theorem step_inv {s' : System τ T} {a : Act τ T} (h : Inv c s) (hb : Bounded c s a)
    (hst : s.step a = some s') : Inv c s' := by
  have hstart : ∀ {t x l}, layout.Running x → (∀ j, x.weight j = 0) → x ≠ .rPop →
      s.start t x l = some s' → Inv c s' := by
    intro t x l hx hw hxp hst
    rw [start] at hst
    split_ifs at hst with hidle
    cases hst
    exact h.start hidle hx hw hxp l
  cases a with
  | push t co v =>
    exact hstart (running_of rfl rfl rfl) (by intro j; cases j <;> rfl) (by simp) hst
  | pop t co ignore =>
    exact hstart (running_of rfl rfl rfl) (by intro j; cases j <;> rfl) (by simp) hst
  | tryPush t co v =>
    exact hstart (running_of rfl rfl rfl) (by intro j; cases j <;> rfl) (by simp) hst
  | tryPop t co ignore =>
    exact hstart (running_of rfl rfl rfl) (by intro j; cases j <;> rfl) (by simp) hst
  | advance t => exact advance_inv h hb hst

theorem reach_inv (hc : c < 2 ^ 64 - 1) :
    ∀ s : System τ T, ReachIf (Init c) step (Bounded c) s → Inv c s :=
  ReachIf.invariant (fun _ h => inv_init hc h) fun _ _ _ h hb hst => step_inv h hb hst

/-- **Channel safety.**  In every interleaving of the steps of any number of
writers and readers: the queue holds the `read_block_` permits, the values not
yet announced and the values granted but not yet popped; `front` and `pop` never
meet an empty queue; the values popped are a prefix of the values pushed; and the
queue exceeds the capacity at most by the readers in flight. -/
theorem safety (hc : c < 2 ^ 64 - 1) (hs : ReachIf (Init c) step (Bounded c) s) :
    s.chan.queue_.length = s.chan.readBlock_.wakeup_ + s.ops.count Stage.hasPushed
        + s.ops.count (Stage.holds .read) ∧
      (s.fault = false ∧
        ∀ t, s.ops.pc t = .rFront ∨ s.ops.pc t = .rPop → s.chan.queue_ ≠ []) ∧
      s.popped <+: s.pushed ∧
      s.chan.queue_.length ≤ c + s.inFlight := by
  have h := reach_inv hc s hs
  refine ⟨h.read_ledger, ⟨h.noFault, fun t ht => ?_⟩, ⟨_, h.fifo.symm⟩, ?_⟩
  · rcases ht with ht | ht
    · exact h.queue_ne_nil (t := t) (by rw [ht]; rfl)
    · exact h.queue_ne_nil (t := t) (by rw [ht]; rfl)
  · have := h.write_ledger
    omega

/-- Capacity 0: reader 1 parks, writer 2 is let in, pushes 7 and hands the value
over; the reader is about to pop it. -/
def rendezvous : List (Act ℕ ℕ) :=
  [.pop 1 true false, .advance 1, .advance 1, .advance 1, .push 2 true 7, .advance 2, .advance 2,
    .advance 2, .advance 2, .advance 2, .advance 1, .advance 1]

def initial (c : ℕ) : System ℕ ℕ :=
  ⟨Channel.new c, Pool.empty, fun _ => ⟨true, none, false, none⟩, [], [], false⟩

theorem safety_rendezvous : ∃ s : System ℕ ℕ,
    execIf step (Bounded 0) (initial 0) rendezvous = some s ∧ s.ops.pc 1 = .rPop ∧
      s.chan.queue_ = [7] ∧ s.fault = false ∧ s.chan.queue_.length ≤ 0 + s.inFlight := by
  have hinit : ReachIf (Init 0) step (Bounded 0) (initial 0) := .start ⟨rfl, rfl, rfl, rfl, rfl⟩
  have h := safety (by decide) (reachIf_exec rendezvous hinit rfl)
  exact ⟨_, rfl, rfl, rfl, h.2.1.1, h.2.2.2⟩

end System

end Channel
