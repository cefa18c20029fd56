/-
`TryPop` on a channel that nobody else uses meanwhile (coroutine/channel.h,
block_object.cpp).

`TryPop` first lends `write_block_` a permit and takes it back when it finds nothing to
read.  `Wakeup` refuses a permit at `max_wakeup_`, but `TryPop` does not look at its
result: what it then takes back was never given.  A `TcpSession` makes its channel with
the capacity `(size_t)-1`, which is `max_wakeup_`.

* `BlockObject.Step`, `System.reach_kept` — the objects of a channel stay sound, for
  every capacity and in every interleaving;
* `System.Trying` — the state of a `TryPop` that runs alone, step by step;
* `System.tryPop_false_restores_iff` — a `TryPop` that returns false leaves the channel
  as it was iff `write_block_` was not full.
-/
import CppFeatures.Channel

variable {τ T : Type*}

namespace BlockObject

/-- What one call does to the object. -/
inductive Step (b : BlockObject τ) : BlockObject τ → Prop
  | coBlockWait : Step b b.coBlockWait.1
  | addWaitTask (tk : τ) : Step b (b.addWaitTask tk).1
  | wakeup : Step b b.wakeup.1

variable {b b' : BlockObject τ}

/-- A call keeps the object sound, and its bound. -/
theorem Step.sound (hst : b.Step b') (h : b.Sound) : b'.Sound ∧ b'.maxWakeup_ = b.maxWakeup_ := by
  cases hst with
  | coBlockWait =>
    rcases h.coBlockWait_cases with ⟨hw, heq⟩ | ⟨-, heq⟩
    · rw [heq]
      exact ⟨h.take hw, rfl⟩
    · rw [heq]
      exact ⟨h, rfl⟩
  | addWaitTask tk =>
    rcases h.addWaitTask_cases tk with ⟨hw, heq⟩ | ⟨hw, heq⟩
    · rw [heq]
      exact ⟨h.take hw, rfl⟩
    · rw [heq]
      exact ⟨h.requeue hw _, rfl⟩
  | wakeup =>
    rcases h.wakeup_cases with ⟨tk, rest, -, hw, heq⟩ | ⟨hq, hw, heq⟩ | ⟨-, -, heq⟩
    · rw [heq]
      exact ⟨h.requeue hw rest, rfl⟩
    · rw [heq]
      exact ⟨h.give hq hw, rfl⟩
    · rw [heq]
      exact ⟨h, rfl⟩

/-- **Giving and taking back.**  If the permit that `TryBlockWait` takes was there after a
`Wakeup`, nobody was waiting; the two cancel unless `Wakeup` was refused. -/
theorem Sound.takeBack (h : b.Sound) (hmax : 0 < b.maxWakeup_)
    (htaken : b.wakeup.1.tryBlockWait.2 = true) :
    b.wakeup.1.tryBlockWait.1 = b ↔ b.wakeup_ < b.maxWakeup_ := by
  rw [tryBlockWait_eq] at htaken ⊢
  rcases h.wakeup_cases with ⟨tk, rest, -, hw, heq⟩ | ⟨hq, hw, heq⟩ | ⟨-, hw, heq⟩
  · -- the permit went to a waiter
    rw [heq] at htaken
    have hnone : ¬ 0 < b.wakeup_ := by omega
    simp [coBlockWait, hnone] at htaken
  · have hgiven := h.give hq hw
    rw [heq]
    rcases hgiven.coBlockWait_cases with ⟨-, htake⟩ | ⟨hzero, -⟩
    · rw [htake]
      exact iff_of_true rfl hw
    · exact absurd hzero (Nat.succ_ne_zero _)
  · rw [heq]
    rcases h.coBlockWait_cases with ⟨hpos, htake⟩ | ⟨hzero, -⟩
    · rw [htake]
      refine iff_of_false (fun hsame => ?_) (by omega)
      have hcount : b.wakeup_ - 1 = b.wakeup_ := congrArg wakeup_ hsame
      omega
    · omega

end BlockObject

namespace Channel

/-- The objects are sound, and the two that count values have the default bound. -/
def Kept (ch : Channel τ T) : Prop :=
  ∀ k, (ch.sem k).Sound ∧ (k ≠ .lock → (ch.sem k).maxWakeup_ = 2 ^ 64 - 1)

theorem kept_new {c : ℕ} (hc : c ≤ 2 ^ 64 - 1) : (new c : Channel τ T).Kept := by
  intro k
  cases k with
  | write => exact ⟨BlockObject.sound_new hc (by decide), fun _ => rfl⟩
  | read => exact ⟨BlockObject.sound_new (Nat.zero_le _) (by decide), fun _ => rfl⟩
  | lock => exact ⟨BlockObject.sound_new le_rfl (by decide), fun h => absurd rfl h⟩

theorem Kept.setSem {ch : Channel τ T} {k : Sem} {b : BlockObject τ} (h : ch.Kept)
    (hst : (ch.sem k).Step b) : (ch.setSem k b).Kept := by
  obtain ⟨hsound, hmax⟩ := hst.sound (h k).1
  intro j
  rw [sem_setSem]
  by_cases hj : j = k
  · subst hj
    rw [Function.update_self]
    exact ⟨hsound, fun hne => hmax.trans ((h j).2 hne)⟩
  · rw [Function.update_of_ne hj]
    exact h j

/-- Past `read_block_`: the operation has a value, or is over. -/
def Stage.hasRead : Stage → Bool
  | .rLock _ | .rFront | .rPop | .rUnlock | .idle => true
  | _ => false

namespace System

variable [DecidableEq τ] {s s' u : System τ T} {t : τ} {c : ℕ} {k : Sem}

/-! ### Every capacity, every interleaving -/

theorem kept_wait (h : s.chan.Kept) (k : Sem) (t : τ) (x : WaitPhase → Stage) :
    (s.wait k t x).chan.Kept :=
  h.setSem .coBlockWait

theorem kept_park (h : s.chan.Kept) (k : Sem) (t : τ) (x : WaitPhase → Stage) :
    (s.park k t x).chan.Kept :=
  h.setSem (.addWaitTask t)

theorem kept_tryWait (h : s.chan.Kept) (k : Sem) (t : τ) (x y : Stage) :
    (s.tryWait k t x y).chan.Kept := by
  refine h.setSem (k := k) ?_
  rw [BlockObject.tryBy, BlockObject.tryBlockWait_eq]
  exact .coBlockWait

theorem kept_wake (h : s.chan.Kept) (k : Sem) (t : τ) (x : Stage) : (s.wake k t x).chan.Kept := by
  refine h.setSem (k := k) ?_
  rw [BlockObject.wakeBy]
  dsimp only
  split
  · exact .wakeup
  · exact .wakeup

/-- **One step** of an operation. -/
theorem kept_advance (h : s.chan.Kept) (hst : s.advance t = some s') : s'.chan.Kept := by
  have hqueue : ∀ q : List T, Kept { s.chan with queue_ := q } := by
    intro q k
    have hk := h k
    cases k <;> exact hk
  rw [advance] at hst
  split at hst
  case h_6 =>
    -- `push`
    obtain ⟨v, -, rfl⟩ := Option.map_eq_some_iff.mp hst
    exact hqueue _
  case h_17 =>
    -- `front`
    split at hst
    · cases hst
      exact h
    · cases hst
      exact h
  all_goals cases hst
  all_goals first
    | with_reducible exact kept_wait h _ _ _
    | with_reducible exact kept_park h _ _ _
    | with_reducible exact kept_tryWait h _ _ _ _
    | with_reducible exact kept_wake h _ _ _
    | exact hqueue _

theorem kept_start {x : Stage} {l : Locals T} (h : s.chan.Kept)
    (hst : s.start t x l = some s') : s'.chan.Kept := by
  rw [start] at hst
  split_ifs at hst
  cases hst
  exact h

/-- **Every run** keeps the three objects sound. -/
theorem reach_kept (hc : c ≤ 2 ^ 64 - 1) :
    ∀ s : System τ T, Reach (Init c) step s → s.chan.Kept := by
  refine ReachIf.invariant ?_ ?_
  · intro s hs
    rw [hs.1]
    exact kept_new hc
  · intro s s' a h _ hst
    cases a with
    | push => exact kept_start h hst
    | pop => exact kept_start h hst
    | tryPush => exact kept_start h hst
    | tryPop => exact kept_start h hst
    | advance => exact kept_advance h hst

/-! ### `TryPop` alone -/

/-- A `TryPop` called by `t` in `s` has come to `u`, and nobody else made a step. -/
def TryPopAlone (s : System τ T) (t : τ) (co ignore : Bool) : System τ T → Prop :=
  Reach (fun u => s.step (.tryPop t co ignore) = some u) fun u (_ : Unit) => u.advance t

/-- It returns false, in `s'`: it takes its permit back. -/
def TryPopFails (s : System τ T) (t : τ) (co ignore : Bool) (s' : System τ T) : Prop :=
  ∃ u, s.TryPopAlone t co ignore u ∧ u.ops.pc t = .tTakeBack ∧ u.advance t = some s' ∧
    s'.ops.pc t = .idle

/-- What such a call has done so far: nothing, lent its permit, or found a value. -/
inductive Trying (s : System τ T) (t : τ) (u : System τ T) : Prop
  | called (hpc : u.ops.pc t = .tWakeup) (hchan : u.chan = s.chan)
  | lent (hpc : u.ops.pc t = .tRead ∨ u.ops.pc t = .tTakeBack)
      (hchan : u.chan = { s.chan with writeBlock_ := s.chan.writeBlock_.wakeup.1 })
  | found (hpc : (u.ops.pc t).hasRead = true)

/-- A process that wakes others moves on, whoever is woken. -/
theorem pc_wake (s : System τ T) (k : Sem) (t : τ) (x : Stage) :
    (s.wake k t x).ops.pc t = x ∨ (s.wake k t x).ops.pc t = x.granted := by
  rw [wake, System.setSem, BlockObject.wakeBy]
  dsimp only
  split
  case h_1 u _ =>
    by_cases hu : t = u
    · subst hu
      rw [Pool.pc_set_self, Pool.pc_set_self]
      exact .inr rfl
    · rw [Pool.pc_set_of_ne _ hu, Pool.pc_set_self]
      exact .inl rfl
  case h_2 => exact .inl (Pool.pc_set_self ..)

theorem chan_wake (s : System τ T) (k : Sem) (t : τ) (x : Stage) :
    (s.wake k t x).chan = s.chan.setSem k (s.chan.sem k).wakeup.1 := by
  rw [wake, System.setSem, BlockObject.wakeBy]
  dsimp only
  split <;> rfl

/-- `TryBlockWait`: a permit is taken and `t` goes to `x`, or nothing changes and it goes
to `y`. -/
theorem tryWait_cases (s : System τ T) (k : Sem) (t : τ) (x y : Stage) :
    ((s.chan.sem k).tryBlockWait.2 = true ∧ (s.tryWait k t x y).ops.pc t = x) ∨
      ((s.tryWait k t x y).chan = s.chan ∧ (s.tryWait k t x y).ops.pc t = y) := by
  rw [tryWait, System.setSem, BlockObject.tryBy, BlockObject.tryBlockWait]
  dsimp only
  split
  · refine .inr ⟨?_, by rw [Pool.pc_set_self]; rfl⟩
    cases k <;> rfl
  · exact .inl ⟨rfl, by rw [Pool.pc_set_self]; rfl⟩

/-- An operation that has its value never comes back to wait for one. -/
theorem hasRead_advance (h : (u.ops.pc t).hasRead = true) (hst : u.advance t = some s') :
    (s'.ops.pc t).hasRead = true := by
  rw [System.advance] at hst
  cases hpc : u.ops.pc t with
  | rLock ph =>
    rw [hpc] at hst
    cases ph with
    | ready =>
      cases hst
      rw [wait, System.setSem, BlockObject.waitBy, Pool.pc_set_self]
      split_ifs <;> rfl
    | marked =>
      cases hst
      rw [park, System.setSem, BlockObject.parkBy, Pool.pc_set_self]
      split_ifs <;> rfl
    | parked => cases hst
  | rFront =>
    rw [hpc] at hst
    dsimp only at hst
    split_ifs at hst
    · cases hst
      rw [move, Pool.pc_set_self]
      rfl
    · cases hst
      dsimp only
      rw [move, Pool.pc_set_self]
      rfl
  | rPop =>
    rw [hpc] at hst
    cases hst
    dsimp only
    rw [move, Pool.pc_set_self]
    rfl
  | rUnlock =>
    rw [hpc] at hst
    cases hst
    rcases u.pc_wake .lock t .idle with h | h
    · exact congrArg Stage.hasRead h
    · exact congrArg Stage.hasRead h
  | idle =>
    rw [hpc] at hst
    cases hst
  | _ =>
    rw [hpc] at h
    cases h

/-- **One step** of the call. -/
theorem Trying.advance (h : Trying s t u) (hst : u.advance t = some s') : Trying s t s' := by
  cases h with
  | called hpc hchan =>
    rw [System.advance, hpc] at hst
    cases hst
    rcases u.pc_wake .write t .tRead with h | h
    · refine .lent (.inl h) ?_
      rw [chan_wake, hchan]
      rfl
    · -- had `t` itself been parked, it would go on as a reader
      exact .found (by rw [h]; rfl)
  | lent hpc hchan =>
    rcases hpc with hpc | hpc
    · rw [System.advance, hpc] at hst
      cases hst
      rcases u.tryWait_cases .read t (.rLock .ready) .tTakeBack with ⟨-, h⟩ | ⟨hsame, h⟩
      · exact .found (by rw [h]; rfl)
      · exact .lent (.inr h) (hsame.trans hchan)
    · rw [System.advance, hpc] at hst
      cases hst
      rcases u.tryWait_cases .write t .idle .tRead with ⟨-, h⟩ | ⟨hsame, h⟩
      · exact .found (by rw [h]; rfl)
      · exact .lent (.inl h) (hsame.trans hchan)
  | found hpc => exact .found (hasRead_advance hpc hst)

/-- **The whole call.** -/
theorem tryPopAlone_trying {co ignore : Bool} :
    ∀ u, s.TryPopAlone t co ignore u → Trying s t u := by
  refine ReachIf.invariant ?_ ?_
  · intro u hu
    rw [step, start] at hu
    split_ifs at hu
    cases hu
    exact .called (Pool.pc_set_self ..) rfl
  · intro u u' _ h _ hst
    exact h.advance hst

/-- What a `TryPop` that returns false has done to the channel. -/
theorem TryPopFails.chan_eq {co ignore : Bool} (h : s.TryPopFails t co ignore s') :
    s.chan.writeBlock_.wakeup.1.tryBlockWait.2 = true ∧
      s'.chan = { s.chan with
        writeBlock_ := s.chan.writeBlock_.wakeup.1.tryBlockWait.1 } := by
  obtain ⟨u, halone, hpc, hst, hidle⟩ := h
  have hchan : u.chan = { s.chan with writeBlock_ := s.chan.writeBlock_.wakeup.1 } := by
    cases tryPopAlone_trying u halone with
    | called hpc' => rw [hpc] at hpc'; cases hpc'
    | lent _ hchan => exact hchan
    | found hread => rw [hpc] at hread; cases hread
  rw [System.advance, hpc] at hst
  cases hst
  rcases u.tryWait_cases .write t .idle .tRead with ⟨htaken, -⟩ | ⟨-, hread⟩
  · rw [hchan] at htaken
    refine ⟨htaken, ?_⟩
    rw [tryWait, System.setSem, hchan]
    rfl
  · rw [hread] at hidle
    cases hidle

/-- **A `TryPop` that returns false leaves the channel as it was** — for every capacity, in
every state that any interleaving reaches — **iff** `write_block_` had fewer permits than its
bound. -/
theorem tryPop_false_restores_iff (hc : c ≤ 2 ^ 64 - 1) (hs : Reach (Init c) step s)
    {co ignore : Bool} (h : s.TryPopFails t co ignore s') :
    (s'.chan.queue_ = s.chan.queue_ ∧ s'.chan.writeBlock_ = s.chan.writeBlock_ ∧
        s'.chan.readBlock_ = s.chan.readBlock_) ↔
      s.chan.writeBlock_.wakeup_ < 2 ^ 64 - 1 := by
  obtain ⟨hsound, hmax⟩ := reach_kept hc s hs .write
  have hmax : s.chan.writeBlock_.maxWakeup_ = 2 ^ 64 - 1 := hmax (by decide)
  obtain ⟨htaken, hchan⟩ := h.chan_eq
  have hback := BlockObject.Sound.takeBack hsound (by rw [sem, hmax]; decide) htaken
  rw [hchan, ← hmax]
  constructor
  · rintro ⟨-, hwrite, -⟩
    exact hback.mp hwrite
  · intro hlt
    exact ⟨rfl, hback.mpr hlt, rfl⟩

/-- A new channel of capacity `c`. -/
def fresh (c : ℕ) : System Unit Unit :=
  ⟨Channel.new c, Pool.empty, fun _ => ⟨false, none, false, none⟩, [], [], false⟩

theorem init_fresh (c : ℕ) : Init c (fresh c) := ⟨rfl, rfl, rfl, rfl, rfl⟩

theorem tryPopAlone_exec {co ignore : Bool} {u₀ : System τ T} (as : List Unit)
    (hcall : s.step (.tryPop t co ignore) = some u₀)
    (hrun : exec (fun u (_ : Unit) => u.advance t) u₀ as = some u) : s.TryPopAlone t co ignore u :=
  reach_exec as (.start hcall) hrun

/-- The state in which `TryPop` on a new channel has returned false. -/
def freshTried (c : ℕ) : System Unit Unit :=
  let s₁ := ({ (fresh c).move () .tWakeup with
    loc := Function.update (fresh c).loc () ⟨false, none, false, none⟩ }).wake .write () .tRead
  (s₁.tryWait .read () (.rLock .ready) .tTakeBack).tryWait .write () .idle .tRead

theorem tryPopFails_zero : (fresh 0).TryPopFails () false false (freshTried 0) :=
  ⟨_, tryPopAlone_exec [(), ()] rfl rfl, rfl, rfl, rfl⟩

theorem tryPop_false_restores_zero : (fresh 0).TryPopFails () false false (freshTried 0) ∧
    (freshTried 0).chan.writeBlock_ = (fresh 0).chan.writeBlock_ :=
  ⟨tryPopFails_zero,
    ((tryPop_false_restores_iff (by decide) (.start (init_fresh 0)) tryPopFails_zero).mpr
      (by decide)).2.1⟩

/-- On the channel of a `TcpSession` a first `TryPop` that finds nothing loses a permit. -/
theorem tryPop_false_loses_permit : Reach (Init (2 ^ 64 - 1)) step (fresh (2 ^ 64 - 1)) ∧
    (fresh (2 ^ 64 - 1)).TryPopFails () false false (freshTried (2 ^ 64 - 1)) ∧
      (fresh (2 ^ 64 - 1)).chan.writeBlock_.wakeup_ = 2 ^ 64 - 1 ∧
        (freshTried (2 ^ 64 - 1)).chan.writeBlock_.wakeup_ = 2 ^ 64 - 2 :=
  ⟨.start (init_fresh _), ⟨_, tryPopAlone_exec [(), ()] rfl rfl, rfl, rfl, rfl⟩, rfl, rfl⟩

end System

end Channel
