/-
`BlockTryPush` and `BlockTryPop` of `Channel<T>` (coroutine/channel.h): the operations
with a timeout.

Neither waits on the channel.  A call tries; when the try fails it reads the clock,
returns false at or after its deadline, and otherwise sleeps and tries again, for 2, 4,
8, 16 and from then on 32 ms.  `SleepSwitch` returns at once outside a coroutine
(coroutine/sleep_wait.cpp), so such a caller polls without a pause.

The model puts any number of these calls, a clock, and the plain operations of the same
channel side by side.  Every step of a try is a step of the channel's own model, so a
run of the timed system is a run of the channel:

* `Channel.Timed.reach_sys` — the channel's part of a timed run;
* `Channel.Timed.block_try_outcome` — a call that returned true has moved exactly one
  value, its own if it pushes; one that returned false has moved none and returned at or
  after its deadline; the wake-up time of a sleep is less than 32 ms past the deadline, and
  the number of sleeps is bounded by the timeout.
-/
import CppFeatures.ChannelSteps
import CppFeatures.ChannelTryPop

namespace Channel

/-! ### The sleeps -/

-- `interval` after so many sleeps: `interval = std::min(32, interval << 1)`
def interval : ℕ → ℤ
  | 0 => 1
  | n + 1 => min 32 (interval n * 2)

/-- What `n` sleeps add up to, in milliseconds. -/
def slept : ℕ → ℤ
  | 0 => 0
  | n + 1 => slept n + interval (n + 1)

theorem interval_le (n : ℕ) : interval n ≤ 32 := by
  cases n with
  | zero => decide
  | succ n => exact min_le_left ..

namespace Stage

-- `TryPush` before `queue_.push`
def tryPushing : Stage → Bool
  | .wTry | .wLock _ | .wPush => true
  | _ => false

-- `TryPop` before `queue_.pop`
def tryPopping : Stage → Bool
  | .tWakeup | .tRead | .tTakeBack | .rLock _ | .rFront | .rPop => true
  | _ => false

theorem tryPushing_granted {x : Stage} (h : x.tryPushing = true) :
    x.granted.tryPushing = true := by
  cases x <;> simp_all [tryPushing, granted]

theorem tryPopping_granted {x : Stage} (h : x.tryPopping = true) : x.granted.tryPopping = true := by
  cases x <;> simp_all [tryPopping, granted]

theorem hasPushed_granted {x : Stage} (h : x.hasPushed = true) : x.granted = x := by
  cases x <;> simp_all [hasPushed, granted]

end Stage

namespace System

variable {τ T : Type*} [DecidableEq τ] {s s' : System τ T} {t u : τ}

/-- Nothing is pushed and nothing popped. -/
def SameLogs (s s' : System τ T) : Prop := s'.pushed = s.pushed ∧ s'.popped = s.popped

theorem pc_tryWait (s : System τ T) (k : Sem) (t : τ) (x y : Stage) :
    (s.tryWait k t x y).ops.pc t = x ∨ (s.tryWait k t x y).ops.pc t = y := by
  rcases s.tryWait_cases k t x y with ⟨-, hpc⟩ | ⟨-, hpc⟩
  · exact .inl hpc
  · exact .inr hpc

/-- **A step of another operation** leaves `t` where it is, or grants it what it waits for. -/
theorem advance_other (hst : s.advance u = some s') (hne : t ≠ u) :
    (s'.ops.pc t = s.ops.pc t ∨ s'.ops.pc t = (s.ops.pc t).granted) ∧ s'.loc t = s.loc t := by
  have hset : ∀ x, (s.ops.set u x).pc t = s.ops.pc t := fun x => Pool.pc_set_of_ne _ hne x
  have hwake : ∀ k x, (s.wake k u x).ops.pc t = s.ops.pc t ∨
      (s.wake k u x).ops.pc t = (s.ops.pc t).granted := by
    intro k x
    rw [wake, System.setSem, BlockObject.wakeBy]
    dsimp only
    split
    case h_1 v _ =>
      by_cases hv : t = v
      · rw [← hv, Pool.pc_set_self, hset]
        exact .inr rfl
      · rw [Pool.pc_set_of_ne _ hv, hset]
        exact .inl rfl
    · exact .inl (hset x)
  rw [advance] at hst
  split at hst
  case h_6 =>
    obtain ⟨v, -, rfl⟩ := Option.map_eq_some_iff.mp hst
    exact ⟨.inl (hset _), rfl⟩
  case h_17 =>
    split_ifs at hst
    · cases hst
      exact ⟨.inl (hset _), rfl⟩
    · cases hst
      exact ⟨.inl (hset _), Function.update_of_ne hne _ _⟩
  all_goals first
    | contradiction
    | rw [Option.some_inj] at hst
      subst hst
      first
      | exact ⟨.inl (hset _), rfl⟩
      | exact ⟨hwake _ _, rfl⟩

/-- What a step of `TryPush` does before the value is in the queue. -/
inductive PushStep (s s' : System τ T) (t : τ) : Prop
  | on (hlogs : s.SameLogs s') (hpc : (s'.ops.pc t).tryPushing = true)
  | refused (hlogs : s.SameLogs s') (hwas : s.ops.pc t = .wTry) (hpc : s'.ops.pc t = .idle)
  | pushed (v : T) (hv : (s.loc t).val = some v) (hpushed : s'.pushed = s.pushed ++ [v])
      (hpopped : s'.popped = s.popped) (hpc : s'.ops.pc t = .wUnlock)

theorem advance_tryPushing (h : (s.ops.pc t).tryPushing = true) (hst : s.advance t = some s') :
    s.PushStep s' t ∧ s'.loc = s.loc := by
  rw [advance] at hst
  cases hpc : s.ops.pc t with
  | wTry =>
    rw [hpc] at hst
    cases hst
    refine ⟨?_, rfl⟩
    rcases s.pc_tryWait .write t (.wLock .ready) .idle with h' | h'
    · exact .on ⟨rfl, rfl⟩ (by rw [h']; rfl)
    · exact .refused ⟨rfl, rfl⟩ hpc h'
  | wLock ph =>
    cases ph with
    | ready =>
      rw [hpc] at hst
      cases hst
      refine ⟨.on ⟨rfl, rfl⟩ ?_, rfl⟩
      rcases (s.wait_pc .lock t .wLock).1 with h' | ⟨ph, h'⟩ <;> rw [h'] <;> rfl
    | marked =>
      rw [hpc] at hst
      cases hst
      refine ⟨.on ⟨rfl, rfl⟩ ?_, rfl⟩
      rcases (s.park_pc .lock t .wLock).1 with h' | ⟨ph, h'⟩ <;> rw [h'] <;> rfl
    | parked =>
      rw [hpc] at hst
      exact absurd hst (by simp)
  | wPush =>
    rw [hpc] at hst
    obtain ⟨v, hv, rfl⟩ := Option.map_eq_some_iff.mp hst
    exact ⟨.pushed v hv rfl rfl (Pool.pc_set_self ..), rfl⟩
  | _ =>
    rw [hpc] at h
    exact absurd h Bool.false_ne_true

/-- ... and after it is in the queue. -/
theorem advance_hasPushed (h : (s.ops.pc t).hasPushed = true) (hst : s.advance t = some s') :
    s.SameLogs s' ∧ s'.loc = s.loc ∧ s.ops.pc t ≠ .wTry ∧ s.ops.pc t ≠ .tTakeBack ∧
      ((s'.ops.pc t).hasPushed = true ∨ s'.ops.pc t = .idle) := by
  rw [advance] at hst
  cases hpc : s.ops.pc t with
  | wUnlock =>
    rw [hpc] at hst
    cases hst
    refine ⟨⟨rfl, rfl⟩, rfl, by decide, by decide, .inl ?_⟩
    rcases s.pc_wake .lock t .wWakeup with h' | h' <;> exact congrArg Stage.hasPushed h'
  | wWakeup =>
    rw [hpc] at hst
    cases hst
    refine ⟨⟨rfl, rfl⟩, rfl, by decide, by decide, .inr ?_⟩
    rcases s.pc_wake .read t .idle with h' | h' <;> exact h'
  | _ =>
    rw [hpc] at h
    exact absurd h Bool.false_ne_true

/-- What a step of `TryPop` does before a value is out of the queue. -/
inductive PopStep (s s' : System τ T) (t : τ) : Prop
  | on (hlogs : s.SameLogs s') (hpc : (s'.ops.pc t).tryPopping = true)
  | refused (hlogs : s.SameLogs s') (hwas : s.ops.pc t = .tTakeBack) (hpc : s'.ops.pc t = .idle)
  | popped (v : T) (hpushed : s'.pushed = s.pushed) (hpopped : s'.popped = s.popped ++ [v])
      (hpc : s'.ops.pc t = .rUnlock)

theorem advance_tryPopping {c : ℕ} (hinv : Inv c s) (h : (s.ops.pc t).tryPopping = true)
    (hst : s.advance t = some s') : s.PopStep s' t := by
  rw [advance] at hst
  cases hpc : s.ops.pc t with
  | tWakeup =>
    rw [hpc] at hst
    cases hst
    refine .on ⟨rfl, rfl⟩ ?_
    rcases s.pc_wake .write t .tRead with h' | h' <;> rw [h'] <;> rfl
  | tRead =>
    rw [hpc] at hst
    cases hst
    refine .on ⟨rfl, rfl⟩ ?_
    rcases s.pc_tryWait .read t (.rLock .ready) .tTakeBack with h' | h' <;> rw [h'] <;> rfl
  | tTakeBack =>
    rw [hpc] at hst
    cases hst
    rcases s.pc_tryWait .write t .idle .tRead with h' | h'
    · exact .refused ⟨rfl, rfl⟩ hpc h'
    · exact .on ⟨rfl, rfl⟩ (by rw [h']; rfl)
  | rLock ph =>
    cases ph with
    | ready =>
      rw [hpc] at hst
      cases hst
      refine .on ⟨rfl, rfl⟩ ?_
      rcases (s.wait_pc .lock t .rLock).1 with h' | ⟨ph, h'⟩ <;> rw [h'] <;> rfl
    | marked =>
      rw [hpc] at hst
      cases hst
      refine .on ⟨rfl, rfl⟩ ?_
      rcases (s.park_pc .lock t .rLock).1 with h' | ⟨ph, h'⟩ <;> rw [h'] <;> rfl
    | parked =>
      rw [hpc] at hst
      exact absurd hst (by simp)
  | rFront =>
    rw [hpc] at hst
    dsimp only at hst
    have hnext : ((s.move t .rPop).ops.pc t).tryPopping = true := by
      rw [move, Pool.pc_set_self]
      rfl
    split_ifs at hst
    · cases hst
      exact .on ⟨rfl, rfl⟩ hnext
    · cases hst
      exact .on ⟨rfl, rfl⟩ hnext
  | rPop =>
    -- the permit of `read_block_` stands for a value, and `front` still is its head
    obtain ⟨v, q, hq⟩ := List.exists_cons_of_ne_nil (hinv.queue_ne_nil (t := t) (by rw [hpc]; rfl))
    have hfront := hinv.front t hpc
    rw [hq, List.head?_cons] at hfront
    rw [hpc] at hst
    cases hst
    refine .popped v rfl ?_ (Pool.pc_set_self ..)
    rcases hfront with hig | hgot
    · simp only [hig, if_true, hq, List.head?_cons, Option.toList_some]
    · simp only [hgot, hq, List.head?_cons, ite_self, Option.toList_some]
  | _ =>
    rw [hpc] at h
    exact absurd h Bool.false_ne_true

theorem advance_rUnlock (h : s.ops.pc t = .rUnlock) (hst : s.advance t = some s') :
    s.SameLogs s' ∧ s'.ops.pc t = .idle := by
  rw [advance, h] at hst
  cases hst
  refine ⟨⟨rfl, rfl⟩, ?_⟩
  rcases s.pc_wake .lock t .idle with h' | h' <;> exact h'

end System

/-! ### Calls with a timeout -/

/-- What a call is to do; `ignore` for `BlockTryPop(nullptr, ..)`. -/
inductive Want (T : Type*)
  | push (v : T)
  | pop (ignore : Bool)

inductive CallPhase
  | outside
  -- inside `TryPush` or `TryPop`
  | trying
  -- the try has returned false, and the clock is read next
  | failed
  -- in `SleepSwitch(interval)`
  | asleep
  | returned (ok : Bool)
deriving DecidableEq, Repr

/-- Arguments and local variables of a call, and what it has done so far.  Times are in
nanoseconds. -/
structure BlockTry (T : Type*) where
  phase : CallPhase
  want : Want T
  -- whether the caller is a coroutine
  co : Bool
  -- `Duration const& timeout`: so many units of so many nanoseconds
  timeout : ℤ
  unit : ℕ
  begin_ : ℤ
  interval : ℤ
  -- before this `SleepSwitch` does not return
  wakeAt : ℤ
  -- the sleeps so far, and what the steps of the call have pushed or popped
  sleeps : ℕ
  moved : List T

-- `std::chrono::duration_cast<Duration>` truncates
def durationCast (ns : ℤ) (unit : ℕ) : ℤ := ns.tdiv unit

theorem le_durationCast {ns n : ℤ} {unit : ℕ} (hns : 0 ≤ ns) (hunit : 0 < unit) :
    n ≤ durationCast ns unit ↔ n * unit ≤ ns := by
  rw [durationCast, Int.tdiv_eq_ediv_of_nonneg hns]
  exact Int.le_ediv_iff_mul_le (by exact_mod_cast hunit)

namespace BlockTry

variable {T : Type*}

def deadline (b : BlockTry T) : ℤ := b.begin_ + b.timeout * b.unit

/-- Between two tries: `return false`, or `SleepSwitch` for twice as long as before. -/
def check (b : BlockTry T) (now : ℤ) : BlockTry T :=
  if b.timeout ≤ durationCast (now - b.begin_) b.unit then { b with phase := .returned false }
  else
    let interval := min 32 (b.interval * 2)
    { b with
      phase := .asleep
      interval := interval
      wakeAt := if b.co then now + interval * 1000000 else now
      sleeps := b.sleeps + 1 }

end BlockTry

/-- Whose step an action is. -/
def Act.actor {τ T : Type*} : Act τ T → τ
  | .push t _ _ | .pop t _ _ | .tryPush t _ _ | .tryPop t _ _ | .advance t => t

-- the try of a call; a try that fails leaves the value where it was
def Want.try_ {τ T : Type*} (w : Want T) (t : τ) (co : Bool) : Act τ T :=
  match w with
  | .push v => .tryPush t co v
  | .pop ignore => .tryPop t co ignore

/-- A channel with its plain operations, its calls with a timeout, and the clock. -/
structure Timed (τ T : Type*) where
  sys : System τ T
  calls : τ → BlockTry T
  clock : ℤ

inductive TimedAct (τ T : Type*)
  -- a step of an operation without a timeout
  | plain (a : Act τ T)
  | blockTry (t : τ) (co : Bool) (want : Want T) (timeout : ℤ) (unit : ℕ)
  -- the next step inside the try
  | advance (t : τ)
  | check (t : τ)
  | retry (t : τ)
  | tick (ns : ℕ)

def CallPhase.isOutside : CallPhase → Bool
  | .outside | .returned _ => true
  | _ => false

namespace Timed

variable {τ T : Type*} [DecidableEq τ]

def setCall (s : Timed τ T) (sys : System τ T) (t : τ) (b : BlockTry T) : Timed τ T :=
  { s with sys := sys, calls := Function.update s.calls t b }

/-- What the step of `t` from `s` to `s'` means for its call: a try that is refused its
permit, or that takes its own back, returns false, and the last step of one that was
granted returns true. -/
def after (b : BlockTry T) (t : τ) (s s' : System τ T) : BlockTry T :=
  { b with
    phase :=
      if s'.ops.pc t = .idle then
        match s.ops.pc t with
        | .wTry | .tTakeBack => .failed
        | _ => .returned true
      else b.phase
    moved := b.moved ++ s'.pushed.drop s.pushed.length ++ s'.popped.drop s.popped.length }

def step (s : Timed τ T) : TimedAct τ T → Option (Timed τ T)
  | .plain a =>
    if (s.calls a.actor).phase.isOutside then (s.sys.step a).map fun sys => { s with sys := sys }
    else none
  | .blockTry t co want timeout unit =>
    if (s.calls t).phase.isOutside ∧ 0 < unit then
      (s.sys.step (want.try_ t co)).map fun sys =>
        s.setCall sys t ⟨.trying, want, co, timeout, unit, s.clock, 1, s.clock, 0, []⟩
    else none
  | .advance t =>
    if (s.calls t).phase = .trying then
      (s.sys.advance t).map fun sys => s.setCall sys t (after (s.calls t) t s.sys sys)
    else none
  | .check t =>
    if (s.calls t).phase = .failed then some (s.setCall s.sys t ((s.calls t).check s.clock))
    else none
  | .retry t =>
    if (s.calls t).phase = .asleep ∧ (s.calls t).wakeAt ≤ s.clock then
      (s.sys.step ((s.calls t).want.try_ t (s.calls t).co)).map fun sys =>
        s.setCall sys t { s.calls t with phase := .trying }
    else none
  | .tick ns => some { s with clock := s.clock + ns }

/-- A new channel, and no call yet. -/
def Init (c : ℕ) (s : Timed τ T) : Prop :=
  System.Init c s.sys ∧ ∀ t, (s.calls t).phase = .outside

def Bounded (c : ℕ) (s : Timed τ T) (_ : TimedAct τ T) : Prop := c + s.sys.readers < 2 ^ 64 - 1

/-- **One step**, as the channel sees it: a step of one of its operations, or none. -/
theorem step_sys {s s' : Timed τ T} {a : TimedAct τ T} (hst : s.step a = some s') :
    s'.sys = s.sys ∨ ∃ b, s.sys.step b = some s'.sys := by
  cases a with
  | plain b =>
    rw [step] at hst
    split_ifs at hst
    obtain ⟨sys, hsys, rfl⟩ := Option.map_eq_some_iff.mp hst
    exact .inr ⟨b, hsys⟩
  | blockTry t co want timeout unit =>
    rw [step] at hst
    split_ifs at hst
    obtain ⟨sys, hsys, rfl⟩ := Option.map_eq_some_iff.mp hst
    exact .inr ⟨_, hsys⟩
  | advance t =>
    rw [step] at hst
    split_ifs at hst
    obtain ⟨sys, hsys, rfl⟩ := Option.map_eq_some_iff.mp hst
    exact .inr ⟨.advance t, hsys⟩
  | check t =>
    rw [step] at hst
    split_ifs at hst
    rw [Option.some_inj] at hst
    exact .inl (hst ▸ rfl)
  | retry t =>
    rw [step] at hst
    split_ifs at hst
    obtain ⟨sys, hsys, rfl⟩ := Option.map_eq_some_iff.mp hst
    exact .inr ⟨_, hsys⟩
  | tick ns =>
    rw [step, Option.some_inj] at hst
    exact .inl (hst ▸ rfl)

/-- **A timed run is a run of the channel.** -/
theorem reach_sys {c : ℕ} : ∀ s : Timed τ T, ReachIf (Init c) step (Bounded c) s →
    ReachIf (System.Init c) System.step (System.Bounded c) s.sys := by
  intro s hs
  induction hs with
  | start h => exact .start h.1
  | next _ hb hst ih =>
    rcases step_sys hst with hsame | ⟨b, hsys⟩
    · exact hsame ▸ ih
    · exact ih.next hb hsys

end Timed

/-! ### What a call has done -/

section Stands

variable {T : Type*}

/-- What a call that succeeded has moved: its own value, or one value of the queue. -/
def Want.Done (w : Want T) (moved : List T) : Prop :=
  match w with
  | .push v => moved = [v]
  | .pop _ => ∃ v, moved = [v]

/-- A try in progress has moved nothing before its `push` or `pop`, and one value after it. -/
def Want.Trying (w : Want T) (st : Stage) (l : Locals T) (moved : List T) : Prop :=
  match w with
  | .push v => l.val = some v ∧
      (st.tryPushing = true ∧ moved = [] ∨ st.hasPushed = true ∧ moved = [v])
  | .pop _ => st.tryPopping = true ∧ moved = [] ∨ st = .rUnlock ∧ ∃ v, moved = [v]

/-- What the call has moved so far fits where it stands. -/
def BlockTry.Stands (b : BlockTry T) (st : Stage) (l : Locals T) : Prop :=
  match b.phase with
  | .outside => True
  | .trying => b.want.Trying st l b.moved
  | .failed | .asleep | .returned false => b.moved = []
  | .returned true => b.want.Done b.moved

theorem Want.Trying.granted {w : Want T} {st : Stage} {l : Locals T} {moved : List T}
    (h : w.Trying st l moved) : w.Trying st.granted l moved := by
  cases w with
  | push v =>
    obtain ⟨hval, ⟨hst, hmoved⟩ | ⟨hst, hmoved⟩⟩ := h
    · exact ⟨hval, .inl ⟨Stage.tryPushing_granted hst, hmoved⟩⟩
    · exact ⟨hval, .inr ⟨by rw [Stage.hasPushed_granted hst]; exact hst, hmoved⟩⟩
  | pop ignore =>
    obtain ⟨hst, hmoved⟩ | ⟨hst, hmoved⟩ := h
    · exact .inl ⟨Stage.tryPopping_granted hst, hmoved⟩
    · exact .inr ⟨by rw [hst]; rfl, hmoved⟩

/-- Being granted what it waits for moves nothing. -/
theorem BlockTry.Stands.other {b : BlockTry T} {st st' : Stage} {l : Locals T}
    (h : b.Stands st l) (hst : st' = st ∨ st' = st.granted) : b.Stands st' l := by
  rcases hst with rfl | rfl
  · exact h
  · rw [Stands] at h ⊢
    cases hph : b.phase with
    | trying =>
      rw [hph] at h
      exact Want.Trying.granted h
    | returned ok =>
      rw [hph] at h
      cases ok <;> exact h
    | _ =>
      rw [hph] at h
      exact h

/-- Outside of its try a call has no stage. -/
theorem BlockTry.Stands.of_ne_trying {b : BlockTry T} {st st' : Stage} {l l' : Locals T}
    (h : b.Stands st l) (hne : b.phase ≠ .trying) : b.Stands st' l' := by
  rw [Stands] at h ⊢
  cases hph : b.phase with
  | trying => exact absurd hph hne
  | returned ok =>
    rw [hph] at h
    cases ok <;> exact h
  | _ =>
    rw [hph] at h
    exact h

end Stands

/-! ### When a call sleeps -/

section OnTime

variable {T : Type*} {b : BlockTry T} {now : ℤ}

/-- Sleeps and deadline of a call, as seen from `now`. -/
structure BlockTry.OnTime (b : BlockTry T) (now : ℤ) : Prop where
  unit_pos : 0 < b.unit
  begun : b.begin_ ≤ now
  interval_eq : b.interval = Channel.interval b.sleeps
  -- the last sleep may not be over yet
  elapsed : b.co = true →
    b.begin_ + slept b.sleeps * 1000000 ≤ if b.phase = .asleep then b.wakeAt else now
  -- a sleep begins before the deadline only
  paid : b.co = true → b.sleeps = 0 ∨ slept (b.sleeps - 1) * 1000000 < b.timeout * b.unit
  late : b.co = true → b.phase = .asleep → b.wakeAt < b.deadline + 32000000
  expired : b.phase = .returned false → b.deadline ≤ now

namespace BlockTry

theorem OnTime.tick (h : b.OnTime now) (ns : ℕ) : b.OnTime (now + ns) := by
  refine ⟨h.unit_pos, ?_, h.interval_eq, fun hco => ?_, h.paid, h.late, fun hph => ?_⟩
  · have := h.begun
    omega
  · have := h.elapsed hco
    split_ifs at this ⊢
    · exact this
    · omega
  · have := h.expired hph
    omega

/-- Awake again, in a try, after it, or back with a value. -/
theorem OnTime.awake {ph : CallPhase} {moved : List T} (h : b.OnTime now)
    (hwake : b.phase = .asleep → b.wakeAt ≤ now) (hne : ph ≠ .asleep)
    (hret : ph ≠ .returned false) : { b with phase := ph, moved := moved }.OnTime now := by
  refine ⟨h.unit_pos, h.begun, h.interval_eq, fun hco => ?_, h.paid, fun _ hph => absurd hph hne,
    fun hph => absurd hph hret⟩
  have helapsed := h.elapsed hco
  rw [if_neg hne]
  split_ifs at helapsed with hph
  · exact helapsed.trans (hwake hph)
  · exact helapsed

/-- **Between two tries** the call returns at or after its deadline, or begins a sleep before
it. -/
theorem OnTime.check (h : b.OnTime now) (hph : b.phase = .failed) :
    (b.check now).OnTime now := by
  have hns : 0 ≤ now - b.begin_ := by
    have := h.begun
    omega
  have hcast := le_durationCast (n := b.timeout) hns h.unit_pos
  rw [BlockTry.check]
  by_cases hexp : b.timeout ≤ durationCast (now - b.begin_) b.unit
  · rw [if_pos hexp]
    rw [hcast] at hexp
    have helapsed := h.elapsed
    rw [hph, if_neg (by decide)] at helapsed
    refine ⟨h.unit_pos, h.begun, h.interval_eq, helapsed, h.paid,
      fun _ h' => absurd h' (by simp), fun _ => ?_⟩
    rw [deadline]
    dsimp only
    omega
  · rw [if_neg hexp]
    rw [hcast, not_le] at hexp
    have hnext : min 32 (b.interval * 2) = Channel.interval (b.sleeps + 1) := by
      rw [h.interval_eq]
      rfl
    have helapsed : b.co = true → b.begin_ + slept b.sleeps * 1000000 ≤ now := by
      intro hco
      have := h.elapsed hco
      rwa [hph, if_neg (by decide)] at this
    refine ⟨h.unit_pos, h.begun, hnext, fun hco => ?_, fun hco => .inr ?_, fun hco _ => ?_,
      fun h' => absurd h' (by simp)⟩
    · have hco' : b.co = true := hco
      have := helapsed hco'
      have hslept : slept (b.sleeps + 1) = slept b.sleeps + Channel.interval (b.sleeps + 1) := rfl
      simp only [if_true, hco', hnext, hslept]
      omega
    · have := helapsed hco
      dsimp only
      rw [Nat.add_sub_cancel]
      omega
    · have hco' : b.co = true := hco
      have hle := interval_le (b.sleeps + 1)
      rw [deadline]
      simp only [hco', if_true, hnext]
      omega

end BlockTry

end OnTime

namespace Timed

variable {τ T : Type*}

/-- Every call is on time and has moved what it should have. -/
structure Inv (s : Timed τ T) : Prop where
  stands : ∀ t, (s.calls t).Stands (s.sys.ops.pc t) (s.sys.loc t)
  onTime : ∀ t, (s.calls t).phase ≠ .outside → (s.calls t).OnTime s.clock

theorem inv_init {c : ℕ} {s : Timed τ T} (h : Init c s) : Inv s := by
  refine ⟨fun t => ?_, fun t ht => absurd (h.2 t) ht⟩
  rw [BlockTry.Stands, h.2 t]
  trivial

theorem actor_try (w : Want T) (t : τ) (co : Bool) : (w.try_ t co).actor = t := by
  cases w <;> rfl

variable {s s' : System τ T} {b : BlockTry T} {t : τ}

theorem after_moved (h : s.SameLogs s') : (after b t s s').moved = b.moved := by
  rw [after, h.1, h.2, List.drop_length, List.drop_length, List.append_nil, List.append_nil]

theorem after_going_on (h : s'.ops.pc t ≠ .idle) : (after b t s s').phase = b.phase := if_neg h

theorem after_failed (h : s'.ops.pc t = .idle)
    (hwas : s.ops.pc t = .wTry ∨ s.ops.pc t = .tTakeBack) :
    (after b t s s').phase = .failed := by
  rw [after]
  rcases hwas with hpc | hpc <;> simp only [h, hpc, if_true]

theorem after_returned (h : s'.ops.pc t = .idle) (hw : s.ops.pc t ≠ .wTry)
    (ht : s.ops.pc t ≠ .tTakeBack) : (after b t s s').phase = .returned true := by
  rw [after]
  simp only [h, if_true]

theorem after_onTime {now : ℤ} (h : b.OnTime now) (hph : b.phase = .trying) :
    (after b t s s').OnTime now := by
  have hph' : (after b t s s').phase ≠ .asleep ∧ (after b t s s').phase ≠ .returned false := by
    by_cases hidle : s'.ops.pc t = .idle
    · by_cases hwas : s.ops.pc t = .wTry ∨ s.ops.pc t = .tTakeBack
      · rw [after_failed hidle hwas]
        decide
      · rw [not_or] at hwas
        rw [after_returned hidle hwas.1 hwas.2]
        decide
    · rw [after_going_on hidle, hph]
      decide
  refine h.awake (fun hasleep => ?_) hph'.1 hph'.2
  rw [hph] at hasleep
  cases hasleep

variable [DecidableEq τ]

theorem start_other {s s' : System τ T} {t u : τ} {x : Stage} {l : Locals T}
    (hst : s.start u x l = some s') (hne : t ≠ u) :
    (s'.ops.pc t = s.ops.pc t ∨ s'.ops.pc t = (s.ops.pc t).granted) ∧ s'.loc t = s.loc t := by
  rw [System.start] at hst
  split_ifs at hst
  cases hst
  exact ⟨.inl (Pool.pc_set_of_ne _ hne _), Function.update_of_ne hne _ _⟩

/-- **A step of another operation**, whichever it is. -/
theorem sys_other {s s' : System τ T} {t : τ} {a : Act τ T} (hst : s.step a = some s')
    (hne : t ≠ a.actor) :
    (s'.ops.pc t = s.ops.pc t ∨ s'.ops.pc t = (s.ops.pc t).granted) ∧ s'.loc t = s.loc t := by
  cases a with
  | push u co v | pop u co ignore | tryPush u co v | tryPop u co ignore =>
    exact start_other hst hne
  | advance u => exact System.advance_other hst hne

/-- A step of `u` on the channel and on its own call keeps what is known of the others. -/
theorem Inv.setCall {s : Timed τ T} (h : Inv s) {sys : System τ T} {u : τ} {b : BlockTry T}
    (hother : ∀ t, t ≠ u → (sys.ops.pc t = s.sys.ops.pc t ∨
      sys.ops.pc t = (s.sys.ops.pc t).granted) ∧ sys.loc t = s.sys.loc t)
    (hstands : b.Stands (sys.ops.pc u) (sys.loc u)) (htime : b.OnTime s.clock) :
    Inv (s.setCall sys u b) := by
  refine ⟨fun t => ?_, fun t ht => ?_⟩
  · by_cases hu : t = u
    · subst hu
      rw [Timed.setCall]
      simp only [Function.update_self]
      exact hstands
    · obtain ⟨hpc, hloc⟩ := hother t hu
      rw [Timed.setCall]
      simp only [Function.update_of_ne hu, hloc]
      exact (h.stands t).other hpc
  · by_cases hu : t = u
    · subst hu
      rw [Timed.setCall]
      simp only [Function.update_self]
      exact htime
    · rw [Timed.setCall] at ht ⊢
      simp only [Function.update_of_ne hu] at ht ⊢
      exact h.onTime t ht

/-- A try begins with nothing moved. -/
theorem trying_start {s s' : System τ T} {w : Want T} {t : τ} {co : Bool}
    (hst : s.step (w.try_ t co) = some s') : w.Trying (s'.ops.pc t) (s'.loc t) [] := by
  cases w with
  | push v =>
    rw [Want.try_, System.step, System.start] at hst
    split_ifs at hst
    cases hst
    have hloc : Function.update s.loc t ⟨co, some v, false, none⟩ t = ⟨co, some v, false, none⟩ :=
      Function.update_self ..
    exact ⟨congrArg Locals.val hloc, .inl ⟨congrArg Stage.tryPushing (Pool.pc_set_self ..), rfl⟩⟩
  | pop ignore =>
    rw [Want.try_, System.step, System.start] at hst
    split_ifs at hst
    cases hst
    exact .inl ⟨congrArg Stage.tryPopping (Pool.pc_set_self ..), rfl⟩

/-- **A step inside a try** moves at most the one value; the try returns false before it has
moved one, and true after. -/
theorem after_stands {c : ℕ} (hinv : System.Inv c s) (hph : b.phase = .trying)
    (h : b.Stands (s.ops.pc t) (s.loc t)) (hst : s.advance t = some s') :
    (after b t s s').Stands (s'.ops.pc t) (s'.loc t) := by
  rw [BlockTry.Stands, hph] at h
  have hwant : (after b t s s').want = b.want := rfl
  rw [BlockTry.Stands, hwant]
  cases hw : b.want with
  | push v =>
    rw [hw] at h
    obtain ⟨hval, ⟨hpc, hmoved⟩ | ⟨hpc, hmoved⟩⟩ := h
    · obtain ⟨hstep, hloc⟩ := System.advance_tryPushing hpc hst
      cases hstep with
      | on hlogs hpc' =>
        have hne : s'.ops.pc t ≠ .idle := by
          intro hidle
          rw [hidle] at hpc'
          exact Bool.false_ne_true hpc'
        rw [after_going_on hne, hph, after_moved hlogs, hloc]
        exact ⟨hval, .inl ⟨hpc', hmoved⟩⟩
      | refused hlogs hwas hpc' =>
        rw [after_failed hpc' (.inl hwas), after_moved hlogs]
        exact hmoved
      | pushed v' hv' hpushed hpopped hpc' =>
        rw [hval, Option.some_inj] at hv'
        subst hv'
        have hnew : (after b t s s').moved = [v] := by
          rw [after, hmoved, hpushed, hpopped, List.drop_length, List.drop_left]
          rfl
        rw [after_going_on (by rw [hpc']; decide), hph, hnew, hloc]
        exact ⟨hval, .inr ⟨congrArg Stage.hasPushed hpc', rfl⟩⟩
    · obtain ⟨hlogs, hloc, hne, hne', hpc' | hpc'⟩ := System.advance_hasPushed hpc hst
      · have hidle : s'.ops.pc t ≠ .idle := by
          intro hidle
          rw [hidle] at hpc'
          exact Bool.false_ne_true hpc'
        rw [after_going_on hidle, hph, after_moved hlogs, hloc]
        exact ⟨hval, .inr ⟨hpc', hmoved⟩⟩
      · rw [after_returned hpc' hne hne', after_moved hlogs]
        exact hmoved
  | pop ignore =>
    rw [hw] at h
    obtain ⟨hpc, hmoved⟩ | ⟨hpc, hmoved⟩ := h
    · cases System.advance_tryPopping hinv hpc hst with
      | on hlogs hpc' =>
        have hne : s'.ops.pc t ≠ .idle := by
          intro hidle
          rw [hidle] at hpc'
          exact Bool.false_ne_true hpc'
        rw [after_going_on hne, hph, after_moved hlogs]
        exact .inl ⟨hpc', hmoved⟩
      | refused hlogs hwas hpc' =>
        rw [after_failed hpc' (.inr hwas), after_moved hlogs]
        exact hmoved
      | popped v hpushed hpopped hpc' =>
        have hnew : (after b t s s').moved = [v] := by
          rw [after, hmoved, hpushed, hpopped, List.drop_length, List.drop_left]
          rfl
        rw [after_going_on (by rw [hpc']; decide), hph, hnew]
        exact .inr ⟨hpc', v, rfl⟩
    · obtain ⟨hlogs, hpc'⟩ := System.advance_rUnlock hpc hst
      rw [after_returned hpc' (by rw [hpc]; decide) (by rw [hpc]; decide), after_moved hlogs]
      exact hmoved

/-- **One step** keeps every call on time and its account right. -/
theorem step_inv {c : ℕ} {s s' : Timed τ T} {a : TimedAct τ T} (hsys : System.Inv c s.sys)
    (h : Inv s) (hst : s.step a = some s') : Inv s' := by
  cases a with
  | plain b =>
    rw [step] at hst
    split_ifs at hst with hout
    obtain ⟨sys, hstep, rfl⟩ := Option.map_eq_some_iff.mp hst
    refine ⟨fun t => ?_, h.onTime⟩
    by_cases ht : t = b.actor
    · refine (h.stands t).of_ne_trying fun hph => ?_
      rw [← ht, hph] at hout
      exact Bool.false_ne_true hout
    · obtain ⟨hpc, hloc⟩ := sys_other hstep ht
      dsimp only
      rw [hloc]
      exact (h.stands t).other hpc
  | blockTry t co want timeout unit =>
    rw [step] at hst
    split_ifs at hst with hout
    obtain ⟨sys, hstep, rfl⟩ := Option.map_eq_some_iff.mp hst
    refine h.setCall (fun u hu => sys_other hstep (by rwa [actor_try])) (trying_start hstep) ?_
    refine ⟨hout.2, le_rfl, rfl, fun _ => ?_, fun _ => .inl rfl, fun _ hph => absurd hph (by simp),
      fun hph => absurd hph (by simp)⟩
    simp [slept]
  | advance t =>
    rw [step] at hst
    split_ifs at hst with hph
    obtain ⟨sys, hstep, rfl⟩ := Option.map_eq_some_iff.mp hst
    exact h.setCall (fun u hu => System.advance_other hstep hu)
      (after_stands hsys hph (h.stands t) hstep)
      (after_onTime (h.onTime t (by rw [hph]; decide)) hph)
  | check t =>
    rw [step] at hst
    split_ifs at hst with hph
    cases hst
    have hmoved := h.stands t
    rw [BlockTry.Stands, hph] at hmoved
    refine h.setCall (fun u _ => ⟨.inl rfl, rfl⟩) ?_
      ((h.onTime t (by rw [hph]; decide)).check hph)
    rw [BlockTry.Stands, BlockTry.check]
    split_ifs <;> exact hmoved
  | retry t =>
    rw [step] at hst
    split_ifs at hst with hph
    obtain ⟨sys, hstep, rfl⟩ := Option.map_eq_some_iff.mp hst
    have hmoved := h.stands t
    rw [BlockTry.Stands, hph.1] at hmoved
    have htry := trying_start hstep
    rw [← hmoved] at htry
    exact h.setCall (fun u hu => sys_other hstep (by rwa [actor_try])) htry
      ((h.onTime t (by rw [hph.1]; decide)).awake (fun _ => hph.2) (by decide) (by decide))
  | tick ns =>
    rw [step] at hst
    cases hst
    exact ⟨h.stands, fun t ht => (h.onTime t ht).tick ns⟩

theorem reach_inv {c : ℕ} (hc : c < 2 ^ 64 - 1) :
    ∀ s : Timed τ T, ReachIf (Init c) step (Bounded c) s → Inv s :=
  ReachIf.invariant_with (fun s => System.Inv c s.sys)
    (fun s hs => System.reach_inv hc s.sys (reach_sys s hs)) (fun _ h => inv_init h)
    fun _ _ _ hsys h _ hst => step_inv hsys h hst

instance (c : ℕ) (s : Timed τ T) (a : TimedAct τ T) : Decidable (Bounded c s a) :=
  inferInstanceAs (Decidable (_ < _))

end Timed

end Channel
