/-
The time-outs of the hooked calls (coroutine/linux_glibc_hook.cpp, scheduler.cpp,
linux/io_wait.cpp).

Each hook converts its argument to milliseconds in an `int`.  `SleepSwitch` takes what is
not positive for "do not wait", `SchedulerSwitch` takes -1 for "wait for ever", and the
conversions round down and wrap around.  `read_write_mode` has its time-out from `getsockopt`,
which returns what `setsockopt` was given as the kernel keeps it.

* `SockTimeo` — what `getsockopt` returns; `SockTimeo.jiffies` — the rounding of Linux;
* `TimedCall.start`, `TimedCall.armed` — the five conversions, and the wait they arm;
* `TimedCall.requested` — what the argument stands for;
* `TimedCall.meets_iff` — the arguments for which the wait is as long as requested;
* `SockTimeo.jiffies_kept_iff` — for a socket: those that are below 2^31 milliseconds when
  rounded up.
-/
import CppFeatures.GlibcHook
import Mathlib.Algebra.Group.Int.Defs
import Mathlib.Algebra.Group.Nat.Defs
import Mathlib.Order.Lattice
import Mathlib.Tactic.Common
import Mathlib.Tactic.Ring

namespace HookTimeouts

-- the value that an `int` and a `long` keep
def toInt (x : ℤ) : ℤ := x.bmod (2 ^ 32)

def toLong (x : ℤ) : ℤ := x.bmod (2 ^ 64)

/-- `timeval`. -/
structure TimeVal where
  tvSec : ℤ
  tvUsec : ℤ
deriving DecidableEq, Repr

/-- `timespec`. -/
structure TimeSpec where
  tvSec : ℤ
  tvNsec : ℤ
deriving DecidableEq, Repr

-- `int timeout_ms = seconds * 1000`, the product being unsigned
def sleepMs (seconds : UInt32) : ℤ := toInt ((seconds * 1000).toNat)

-- `int timeout_ms = req->tv_sec * 1000 + req->tv_nsec / 1000000`
def TimeSpec.ms (ts : TimeSpec) : ℤ :=
  toInt (toLong (toLong (ts.tvSec * 1000) + ts.tvNsec.tdiv 1000000))

-- `timeout_ms = timeout->tv_sec * 1000 + timeout->tv_usec / 1000`
def TimeVal.ms (tv : TimeVal) : ℤ :=
  toInt (toLong (toLong (tv.tvSec * 1000) + tv.tvUsec.tdiv 1000))

/-- The time-out of `read_write_mode`, from what `getsockopt` returned. -/
def TimeVal.sockMs (tv : TimeVal) : ℤ :=
  if tv.tvSec > 0 ∨ tv.tvUsec > 0 then tv.ms else -1

def TimeVal.ns (tv : TimeVal) : ℤ := tv.tvSec * 10 ^ 9 + tv.tvUsec * 10 ^ 3

def TimeSpec.ns (ts : TimeSpec) : ℤ := ts.tvSec * 10 ^ 9 + ts.tvNsec

def TimeVal.Valid (tv : TimeVal) : Prop :=
  0 ≤ tv.tvSec ∧ tv.tvSec < 2 ^ 63 ∧ 0 ≤ tv.tvUsec ∧ tv.tvUsec < 10 ^ 6

def TimeSpec.Valid (ts : TimeSpec) : Prop :=
  0 ≤ ts.tvSec ∧ ts.tvSec < 2 ^ 63 ∧ 0 ≤ ts.tvNsec ∧ ts.tvNsec < 10 ^ 9

/-- What `getsockopt` returns for a time-out that `setsockopt` was given: the kernel may round
it up, by less than a second. -/
structure SockTimeo where
  getsockopt : TimeVal → TimeVal
  valid : ∀ {tv : TimeVal}, tv.Valid → (getsockopt tv).Valid
  ns_lt : ∀ {tv : TimeVal}, tv.Valid → (getsockopt tv).ns < tv.ns + 10 ^ 9

/-- A call with a time-out.  `readWrite` is `read_write_mode` on a socket with
`SO_RCVTIMEO` or `SO_SNDTIMEO`. -/
inductive TimedCall
  | sleep (seconds : UInt32)
  | nanosleep (req : TimeSpec)
  | select (nfds : ℤ) (readfds writefds exceptfds : Option FdSet) (timeout : Option TimeVal)
  | poll (fds : List (ℤ × BitVec 16)) (timeout : ℤ)
  | readWrite (fd : ℤ) (event : BitVec 32) (timeo : TimeVal)

/-- What a call waits for. -/
inductive Armed
  -- the original call, with the caller's time-out
  | original
  | infinite
  | finite (ms : ℤ)
deriving DecidableEq, Repr

/-- `SleepSwitch`. -/
def sleepArmed (ms : ℤ) : Armed := if ms ≤ 0 then .finite 0 else .finite ms

/-- The timer of `SchedulerSwitch`; a deadline in the past is due at once. -/
def timerArmed (ms : ℤ) : Armed := if ms ≠ -1 then .finite (max ms 0) else .infinite

namespace TimedCall

def start (so : SockTimeo) : TimedCall → Hook.Start
  | sleep seconds => .sleep (sleepMs seconds)
  | nanosleep req => .sleep req.ms
  | select nfds readfds writefds exceptfds timeout =>
    (Hook.select nfds readfds writefds exceptfds (timeout.map TimeVal.ms)).start
  | poll fds timeout => (Hook.poll fds timeout).start
  | readWrite fd event timeo => (Hook.readWrite fd event (so.getsockopt timeo).sockMs).start

/-- What a call does when epoll took none of its descriptors. -/
def unregistered : TimedCall → ℤ → Armed
  -- the original function, the socket being in blocking mode again
  | readWrite _ _ _, _ => .original
  | _, ms => if ms > 0 then sleepArmed ms else .finite 0

/-- The wait that a call arms; `registered` says whether epoll takes its descriptors, if
there are any. -/
def armed (so : SockTimeo) (c : TimedCall) (registered : Bool) : Armed :=
  match c.start so with
  | .direct => .original
  | .sleep ms => sleepArmed ms
  | .io fdsts ms => if registered ∧ fdsts ≠ [] then timerArmed ms else c.unregistered ms

end TimedCall

/-! ### What is requested -/

inductive Requested
  | infinite
  | finite (ns : ℤ)
deriving DecidableEq, Repr

/-- The wait is infinite when it should be, and else at least as long as requested. -/
def Armed.Meets : Armed → Requested → Prop
  | .original, _ => True
  | .infinite, .infinite => True
  | .finite ms, .finite ns => ns ≤ ms * 10 ^ 6
  | _, _ => False

namespace TimedCall

def requested : TimedCall → Requested
  | sleep seconds => .finite (seconds.toNat * 10 ^ 9)
  | nanosleep req => .finite req.ns
  | select _ _ _ _ none => .infinite
  | select _ _ _ _ (some tv) => .finite tv.ns
  | poll _ timeout => if timeout < 0 then .infinite else .finite (timeout * 10 ^ 6)
  | readWrite _ _ timeo => .finite timeo.ns

/-- The arguments: an `int` for `poll`, a time-out that is not zero for `readWrite`. -/
def Valid : TimedCall → Prop
  | sleep _ => True
  | nanosleep req => req.Valid
  | select _ _ _ _ none => True
  | select _ _ _ _ (some tv) => tv.Valid
  | poll _ timeout => -2 ^ 31 ≤ timeout ∧ timeout < 2 ^ 31
  | readWrite _ _ timeo => timeo.Valid ∧ (timeo.tvSec ≠ 0 ∨ timeo.tvUsec ≠ 0)

end TimedCall

def TimeVal.wholeMs (tv : TimeVal) : ℤ := tv.tvSec * 1000 + tv.tvUsec / 1000

/-- A whole number of milliseconds that fits in an `int`. -/
def TimeVal.Exact (tv : TimeVal) : Prop :=
  tv.tvUsec % 1000 = 0 ∧ tv.wholeMs < 2 ^ 31

def TimeSpec.Exact (ts : TimeSpec) : Prop :=
  ts.tvNsec % 1000000 = 0 ∧ ts.tvSec * 1000 + ts.tvNsec / 1000000 < 2 ^ 31

/-- The arguments that the conversions do justice to. -/
def TimedCall.Kept (so : SockTimeo) (registered : Bool) : TimedCall → Prop
  | sleep seconds => seconds.toNat * 1000 < 2 ^ 31
  | nanosleep req => req.Exact
  | select nfds readfds writefds exceptfds none =>
    registered = true ∧ selectFdsts nfds (selectSets readfds writefds exceptfds) ≠ []
  -- what is rounded or wrapped to 0 is left to the original call
  | select _ _ _ _ (some tv) => tv.wholeMs % 2 ^ 32 = 0 ∨ tv.Exact
  | poll fds timeout => 0 ≤ timeout ∨ (timeout = -1 ∧ fds ≠ [] ∧ registered = true)
  | readWrite _ _ timeo => registered = false ∨
      (so.getsockopt timeo).wholeMs < 2 ^ 31 ∧ timeo.ns ≤ (so.getsockopt timeo).wholeMs * 10 ^ 6

/-! ### Conversions -/

theorem toInt_lt (x : ℤ) : toInt x < 2 ^ 31 := by
  have := Int.bmod_lt (x := x) (m := 2 ^ 32) (by decide)
  rw [toInt]
  omega

theorem toInt_of_lt {x : ℤ} (h0 : 0 ≤ x) (h : x < 2 ^ 31) : toInt x = x :=
  Int.bmod_eq_of_le (by omega) (by omega)

theorem toInt_toLong (x : ℤ) : toInt (toLong x) = toInt x :=
  Int.bmod_bmod_of_dvd (by decide)

theorem toInt_eq_zero_iff (x : ℤ) : toInt x = 0 ↔ x % 2 ^ 32 = 0 := by
  rw [toInt, Int.bmod_def]
  omega

theorem toInt_sum (sec x : ℤ) :
    toInt (toLong (toLong (sec * 1000) + x)) = toInt (sec * 1000 + x) := by
  have hsum : toLong (toLong (sec * 1000) + x) = toLong (sec * 1000 + x) := Int.bmod_add_bmod ..
  rw [hsum, toInt_toLong]

theorem TimeVal.ms_eq {tv : TimeVal} (h : tv.Valid) :
    tv.ms = toInt tv.wholeMs := by
  rw [TimeVal.ms, TimeVal.wholeMs, toInt_sum, Int.tdiv_eq_ediv_of_nonneg h.2.2.1]

theorem TimeSpec.ms_eq {ts : TimeSpec} (h : ts.Valid) :
    ts.ms = toInt (ts.tvSec * 1000 + ts.tvNsec / 1000000) := by
  rw [TimeSpec.ms, toInt_sum, Int.tdiv_eq_ediv_of_nonneg h.2.2.1]

/-- **One conversion**: `x` milliseconds and `r` nanoseconds are requested, and `x` is stored
in an `int`. -/
theorem covers_iff {x r : ℤ} (hx : 0 ≤ x) (hr : 0 ≤ r) :
    x * 10 ^ 6 + r ≤ max (toInt x) 0 * 10 ^ 6 ↔ r = 0 ∧ x < 2 ^ 31 := by
  by_cases hlt : x < 2 ^ 31
  · rw [toInt_of_lt hx hlt]
    omega
  · have := toInt_lt x
    omega

/-- A number of milliseconds that does not fit in an `int` becomes a wait shorter than itself by
more than a second, or none. -/
theorem wrapped_lt {x ns : ℤ} (hx : 2 ^ 31 ≤ x) (hpos : 0 < ns) (hns : x * 10 ^ 6 < ns + 10 ^ 9) :
    max (toInt x) 0 * 10 ^ 6 < ns := by
  have hlt := toInt_lt x
  by_cases hbig : x < 2 ^ 32
  · have hneg : toInt x = x - 2 ^ 32 := by
      rw [toInt, Int.bmod_def]
      omega
    omega
  · omega

theorem sleepArmed_eq (ms : ℤ) : sleepArmed ms = .finite (max ms 0) := by
  rw [sleepArmed]
  split_ifs with h
  · rw [max_eq_right h]
  · rw [max_eq_left (by omega)]

section Waits

variable {x r ns : ℤ} (hx : 0 ≤ x) (hr : 0 ≤ r) (hns : ns = x * 10 ^ 6 + r)

include hx hr hns

theorem sleepArmed_meets_iff :
    (sleepArmed (toInt x)).Meets (.finite ns) ↔ r = 0 ∧ x < 2 ^ 31 := by
  rw [sleepArmed_eq, hns]
  exact covers_iff hx hr

/-- A wrapped value may be -1, and the wait then has no end. -/
theorem timerArmed_meets_iff :
    (timerArmed (toInt x)).Meets (.finite ns) ↔ r = 0 ∧ x < 2 ^ 31 := by
  rw [timerArmed]
  split_ifs with hforever
  · rw [hns]
    exact covers_iff hx hr
  · refine iff_of_false id ?_
    rintro ⟨-, hlt⟩
    rw [toInt_of_lt hx hlt] at hforever
    omega

end Waits

/-! ### The five calls -/

theorem TimeVal.ns_eq (tv : TimeVal) :
    tv.ns = tv.wholeMs * 10 ^ 6 + tv.tvUsec % 1000 * 10 ^ 3 := by
  rw [TimeVal.ns, TimeVal.wholeMs]
  omega

theorem TimeSpec.ns_eq (ts : TimeSpec) :
    ts.ns = (ts.tvSec * 1000 + ts.tvNsec / 1000000) * 10 ^ 6 + ts.tvNsec % 1000000 := by
  rw [TimeSpec.ns]
  omega

section TimeVal

variable {tv : TimeVal} (h : tv.Valid)

include h

theorem TimeVal.wholeMs_nonneg : 0 ≤ tv.wholeMs := by
  obtain ⟨hsec, -, husec, -⟩ := h
  rw [TimeVal.wholeMs]
  omega

theorem TimeVal.sleep_meets_iff : (sleepArmed tv.ms).Meets (.finite tv.ns) ↔ tv.Exact := by
  rw [TimeVal.ms_eq h, sleepArmed_meets_iff (tv.wholeMs_nonneg h) (by omega) tv.ns_eq, TimeVal.Exact]
  omega

theorem TimeVal.timer_meets_iff : (timerArmed tv.ms).Meets (.finite tv.ns) ↔ tv.Exact := by
  rw [TimeVal.ms_eq h, timerArmed_meets_iff (tv.wholeMs_nonneg h) (by omega) tv.ns_eq, TimeVal.Exact]
  omega

end TimeVal

namespace TimedCall

theorem sleep_meets_iff (seconds : UInt32) :
    (sleepArmed (sleepMs seconds)).Meets (.finite (seconds.toNat * 10 ^ 9)) ↔
      seconds.toNat * 1000 < 2 ^ 31 := by
  have hwrap : sleepMs seconds = toInt (seconds.toNat * 1000) := by
    rw [sleepMs, UInt32.toNat_mul]
    show toInt ((seconds.toNat * 1000 % 2 ^ 32 : ℕ) : ℤ) = _
    rw [toInt, toInt, Int.bmod_def, Int.bmod_def]
    omega
  rw [hwrap, sleepArmed_meets_iff (r := 0) (by omega) le_rfl (by omega)]
  omega

theorem nanosleep_meets_iff {req : TimeSpec} (h : req.Valid) :
    (sleepArmed req.ms).Meets (.finite req.ns) ↔ req.Exact := by
  obtain ⟨hsec, -, hnsec, -⟩ := id h
  rw [TimeSpec.ms_eq h, sleepArmed_meets_iff (by omega) (by omega) req.ns_eq, TimeSpec.Exact]

theorem not_meets_infinite (ms : ℤ) : ¬ (Armed.finite ms).Meets .infinite := id

/-- What `poll` and `select` do without a descriptor in epoll. -/
theorem unregistered_eq (ms : ℤ) :
    (if ms > 0 then sleepArmed ms else .finite 0) = .finite (max ms 0) := by
  rw [sleepArmed_eq]
  split_ifs with h
  · rfl
  · rw [max_eq_right (by omega)]

/-- A wait of `max timeout 0` milliseconds is what `poll` requests iff it requests one. -/
theorem poll_finite_meets_iff (fds : List (ℤ × BitVec 16)) (timeout : ℤ) :
    (Armed.finite (max timeout 0)).Meets (poll fds timeout).requested ↔ 0 ≤ timeout := by
  rw [requested]
  split_ifs with hneg
  · exact iff_of_false (not_meets_infinite _) (by omega)
  · refine iff_of_true ?_ (by omega)
    show timeout * 10 ^ 6 ≤ max timeout 0 * 10 ^ 6
    omega

theorem poll_meets_iff (so : SockTimeo) (registered : Bool) (fds : List (ℤ × BitVec 16)) (timeout : ℤ) :
    ((poll fds timeout).armed so registered).Meets (poll fds timeout).requested ↔
      0 ≤ timeout ∨ (timeout = -1 ∧ fds ≠ [] ∧ registered = true) := by
  by_cases hzero : timeout = 0
  · rw [armed, start, Hook.start, if_pos hzero]
    exact iff_of_true trivial (.inl hzero.ge)
  by_cases hnil : fds = []
  · rw [armed, start, Hook.start, if_neg hzero, if_pos hnil]
    dsimp only
    rw [sleepArmed_eq, poll_finite_meets_iff]
    simp [hnil]
  · have hfdsts : (fds.map fun p => ({ fd := p.1, event := pollEvent2Epoll p.2 } : FdStruct)) ≠ [] :=
      mt List.map_eq_nil_iff.mp hnil
    rw [armed, start, Hook.start, if_neg hzero, if_neg hnil]
    dsimp only
    cases registered with
    | false =>
      rw [if_neg fun h => Bool.false_ne_true h.1]
      show (if timeout > 0 then sleepArmed timeout else .finite 0 : Armed).Meets _ ↔ _
      rw [unregistered_eq, poll_finite_meets_iff]
      simp
    | true =>
      rw [if_pos ⟨rfl, hfdsts⟩, timerArmed]
      by_cases hforever : timeout = -1
      · rw [if_neg (not_not.mpr hforever), requested, if_pos (by omega)]
        exact iff_of_true trivial (.inr ⟨hforever, hnil, rfl⟩)
      · rw [if_pos hforever, poll_finite_meets_iff]
        simp [hforever]

theorem select_null_meets_iff (so : SockTimeo) (registered : Bool) (nfds : ℤ)
    (readfds writefds exceptfds : Option FdSet) :
    ((select nfds readfds writefds exceptfds none).armed so registered).Meets .infinite ↔
      registered = true ∧ selectFdsts nfds (selectSets readfds writefds exceptfds) ≠ [] := by
  rw [armed, start, Hook.start, Option.map_none, if_neg (Option.some_ne_none _).symm,
    if_neg (by simp)]
  dsimp only
  split_ifs with hreg
  · exact iff_of_true trivial hreg
  · exact iff_of_false (not_meets_infinite _) hreg

theorem select_meets_iff (so : SockTimeo) (registered : Bool) (nfds : ℤ)
    (readfds writefds exceptfds : Option FdSet) {tv : TimeVal} (h : tv.Valid) :
    ((select nfds readfds writefds exceptfds (some tv)).armed so registered).Meets (.finite tv.ns) ↔
      tv.wholeMs % 2 ^ 32 = 0 ∨ tv.Exact := by
  rw [← toInt_eq_zero_iff, ← TimeVal.ms_eq h, armed, start, Hook.start, Option.map_some]
  by_cases hzero : tv.ms = 0
  · rw [if_pos (congrArg some hzero)]
    exact iff_of_true trivial (.inl hzero)
  · rw [if_neg (mt Option.some_inj.mp hzero), or_iff_right hzero]
    split_ifs with hsleep
    · exact TimeVal.sleep_meets_iff h
    · dsimp only
      split_ifs with hreg
      · exact TimeVal.timer_meets_iff h
      · show (if tv.ms > 0 then sleepArmed tv.ms else .finite 0 : Armed).Meets _ ↔ _
        rw [unregistered_eq, ← sleepArmed_eq]
        exact TimeVal.sleep_meets_iff h

/-- What `getsockopt` returns is at most a second longer, so if it does not fit in an `int`,
what is left of it is too short. -/
theorem readWrite_meets_iff (so : SockTimeo) (registered : Bool) (fd : ℤ) (event : BitVec 32)
    {tv : TimeVal} (h : tv.Valid) (hne : tv.tvSec ≠ 0 ∨ tv.tvUsec ≠ 0) :
    ((readWrite fd event tv).armed so registered).Meets (.finite tv.ns) ↔ registered = false ∨
      (so.getsockopt tv).wholeMs < 2 ^ 31 ∧ tv.ns ≤ (so.getsockopt tv).wholeMs * 10 ^ 6 := by
  obtain ⟨hsec, -, husec, -⟩ := id h
  have hpos : 0 < tv.ns := by
    rw [TimeVal.ns]
    omega
  obtain ⟨hsec', -, husec', -⟩ := so.valid h
  have hnonneg := TimeVal.wholeMs_nonneg (so.valid h)
  rw [armed, start, Hook.start]
  dsimp only
  cases registered with
  | false => exact iff_of_true trivial (.inl rfl)
  | true =>
    rw [if_pos ⟨rfl, List.cons_ne_nil _ _⟩, or_iff_right Bool.false_ne_true.symm, TimeVal.sockMs]
    split_ifs with hset
    · rw [TimeVal.ms_eq (so.valid h), timerArmed]
      by_cases hlt : (so.getsockopt tv).wholeMs < 2 ^ 31
      · rw [toInt_of_lt hnonneg hlt, if_pos (by omega), max_eq_left hnonneg]
        exact (and_iff_right hlt).symm
      · refine iff_of_false ?_ fun hkept => hlt hkept.1
        have hclose := so.ns_lt h
        rw [TimeVal.ns_eq (so.getsockopt tv)] at hclose
        split_ifs
        · exact not_le.mpr (wrapped_lt (by omega) hpos (by omega))
        · exact id
    · refine iff_of_false id fun hkept => ?_
      have hzero : (so.getsockopt tv).wholeMs = 0 := by
        rw [TimeVal.wholeMs]
        omega
      rw [hzero] at hkept
      omega

/-- **When the time-outs are kept.**  For every argument of the hooked calls, the wait armed
in a coroutine is infinite if that is requested and else finite and at least as long as
requested, iff the argument is `Kept`. -/
theorem meets_iff (so : SockTimeo) (c : TimedCall) (hc : c.Valid) (registered : Bool) :
    (c.armed so registered).Meets c.requested ↔ c.Kept so registered := by
  cases c with
  | sleep seconds => exact sleep_meets_iff seconds
  | nanosleep req => exact nanosleep_meets_iff hc
  | poll fds timeout => exact poll_meets_iff so registered fds timeout
  | select nfds readfds writefds exceptfds timeout =>
    cases timeout with
    | none => exact select_null_meets_iff so registered nfds readfds writefds exceptfds
    | some tv => exact select_meets_iff so registered nfds readfds writefds exceptfds hc
  | readWrite fd event tv => exact readWrite_meets_iff so registered fd event hc.1 hc.2

end TimedCall

/-! ### The rounding of Linux -/

/-- The jiffies of a time-out, which are `m` milliseconds long. -/
def TimeVal.jiffies (hz m : ℕ) (tv : TimeVal) : ℤ :=
  tv.tvSec * hz + (tv.tvUsec + 1000 * m - 1) / (1000 * m)

/-- `getsockopt` after `setsockopt`; what is too long for the kernel is kept as no time-out. -/
def TimeVal.rounded (hz m : ℕ) (tv : TimeVal) : TimeVal :=
  if tv.tvSec < (2 ^ 63 - 1) / hz - 1 then
    ⟨tv.jiffies hz m / hz, tv.jiffies hz m % hz * (1000 * m)⟩
  else ⟨0, 0⟩

section Jiffies

variable {hz m : ℕ} (hhz : hz * m = 1000) {tv : TimeVal}

include hhz

theorem jiffies_pos : 0 < (hz : ℤ) ∧ 0 < (m : ℤ) ∧ (hz : ℤ) * m = 1000 := by
  have hhz0 : hz ≠ 0 := by
    rintro rfl
    rw [Nat.zero_mul] at hhz
    cases hhz
  have hm0 : m ≠ 0 := by
    rintro rfl
    cases hhz
  exact ⟨by omega, by omega, by exact_mod_cast hhz⟩

/-- **Rounded up**, by less than a jiffy. -/
theorem TimeVal.jiffies_bounds (tv : TimeVal) :
    tv.tvSec * 10 ^ 6 + tv.tvUsec ≤ tv.jiffies hz m * (1000 * m) ∧
      tv.jiffies hz m * (1000 * m) < tv.tvSec * 10 ^ 6 + tv.tvUsec + 1000 * m := by
  obtain ⟨-, hm, hprod⟩ := jiffies_pos hhz
  have hdiv := Int.mul_ediv_add_emod (tv.tvUsec + 1000 * m - 1) (1000 * m)
  have hnonneg := Int.emod_nonneg (tv.tvUsec + 1000 * m - 1) (b := 1000 * m) (by omega)
  have hlt := Int.emod_lt_of_pos (tv.tvUsec + 1000 * m - 1) (b := 1000 * m) (by omega)
  have hexpand : tv.jiffies hz m * (1000 * m) = tv.tvSec * 1000 * (hz * m)
      + 1000 * m * ((tv.tvUsec + 1000 * m - 1) / (1000 * m)) := by
    rw [TimeVal.jiffies]
    ring
  rw [hexpand, hprod]
  omega

variable (hlong : tv.tvSec < (2 ^ 63 - 1) / hz - 1)

include hlong

theorem TimeVal.rounded_ns : (tv.rounded hz m).ns = tv.jiffies hz m * (1000 * m) * 1000 := by
  obtain ⟨-, -, hprod⟩ := jiffies_pos hhz
  have hdiv := Int.mul_ediv_add_emod (tv.jiffies hz m) hz
  rw [TimeVal.rounded, if_pos hlong, TimeVal.ns]
  dsimp only
  calc tv.jiffies hz m / hz * 10 ^ 9 + tv.jiffies hz m % hz * (1000 * m) * 10 ^ 3
      = tv.jiffies hz m / hz * (hz * m) * 10 ^ 6 + tv.jiffies hz m % hz * m * 10 ^ 6 := by
        rw [hprod]
        ring
    _ = (hz * (tv.jiffies hz m / hz) + tv.jiffies hz m % hz) * (1000 * m) * 1000 := by ring
    _ = tv.jiffies hz m * (1000 * m) * 1000 := by rw [hdiv]

/-- A jiffy is a whole number of milliseconds. -/
theorem TimeVal.rounded_wholeMs : (tv.rounded hz m).wholeMs = tv.jiffies hz m * m := by
  have hns := TimeVal.rounded_ns hhz hlong
  have hwhole : (tv.rounded hz m).tvUsec % 1000 = 0 := by
    rw [TimeVal.rounded, if_pos hlong]
    show tv.jiffies hz m % hz * (1000 * m) % 1000 = 0
    rw [Int.mul_left_comm]
    exact Int.mul_emod_right ..
  rw [TimeVal.ns_eq, hwhole, show tv.jiffies hz m * (1000 * m) * 1000
    = tv.jiffies hz m * m * 10 ^ 6 by ring] at hns
  omega

theorem TimeVal.rounded_valid (h : tv.Valid) : (tv.rounded hz m).Valid := by
  obtain ⟨hhz0, hm0, hprod⟩ := jiffies_pos hhz
  obtain ⟨hsec, -, husec, husec'⟩ := h
  obtain ⟨hlo, hhi⟩ := TimeVal.jiffies_bounds hhz tv
  have hcap : (2 ^ 63 - 1) / (hz : ℤ) ≤ 2 ^ 63 - 1 := Int.ediv_le_self _ (by decide)
  have hj : 0 ≤ tv.jiffies hz m := by
    by_contra hneg
    have hle : tv.jiffies hz m * (1000 * m) ≤ -1 * (1000 * m) :=
      Int.mul_le_mul_of_nonneg_right (by omega) (by omega)
    omega
  -- at most the next whole second
  have hnext : tv.jiffies hz m ≤ (tv.tvSec + 1) * hz := by
    by_contra hgt
    have hle : ((tv.tvSec + 1) * hz + 1) * (1000 * m) ≤ tv.jiffies hz m * (1000 * m) :=
      Int.mul_le_mul_of_nonneg_right (by omega) (by omega)
    have hsecond : ((tv.tvSec + 1) * hz + 1) * (1000 * m)
        = (tv.tvSec + 1) * 1000 * (hz * m) + 1000 * m := by ring
    rw [hsecond, hprod] at hle
    omega
  have hwhole : tv.jiffies hz m / hz ≤ tv.tvSec + 1 := Int.ediv_le_of_le_mul hhz0 hnext
  have hfrac : tv.jiffies hz m % hz * (1000 * m) < 10 ^ 6 := by
    have hle : (tv.jiffies hz m % hz + 1) * (1000 * m) ≤ hz * (1000 * m) :=
      Int.mul_le_mul_of_nonneg_right (Int.emod_lt_of_pos _ hhz0) (by omega)
    have hsecond : (hz : ℤ) * (1000 * m) = 1000 * (hz * m) := by ring
    rw [hsecond, hprod, Int.add_mul] at hle
    omega
  rw [TimeVal.rounded, if_pos hlong]
  refine ⟨Int.ediv_nonneg hj hhz0.le, ?_,
    Int.mul_nonneg (Int.emod_nonneg _ hhz0.ne') (by omega), hfrac⟩
  show tv.jiffies hz m / hz < 2 ^ 63
  omega

end Jiffies

/-- Linux with `hz` jiffies per second, of `m` milliseconds each. -/
def SockTimeo.jiffies (hz m : ℕ) (hhz : hz * m = 1000) : SockTimeo where
  getsockopt := TimeVal.rounded hz m
  valid {tv} h := by
    by_cases hlong : tv.tvSec < (2 ^ 63 - 1) / hz - 1
    · exact TimeVal.rounded_valid hhz hlong h
    · rw [TimeVal.rounded, if_neg hlong]
      exact ⟨by decide, by decide, by decide, by decide⟩
  ns_lt {tv} h := by
    obtain ⟨hsec, -, husec, -⟩ := h
    by_cases hlong : tv.tvSec < (2 ^ 63 - 1) / hz - 1
    · obtain ⟨hhz0, hm0, hprod⟩ := jiffies_pos hhz
      obtain ⟨-, hhi⟩ := TimeVal.jiffies_bounds hhz tv
      have hm : (1 : ℤ) * m ≤ hz * m := Int.mul_le_mul_of_nonneg_right hhz0 hm0.le
      rw [TimeVal.rounded_ns hhz hlong, TimeVal.ns]
      omega
    · rw [TimeVal.rounded, if_neg hlong]
      show 0 < tv.ns + 10 ^ 9
      rw [TimeVal.ns]
      omega

/-- **Rounded up to a jiffy, a socket's time-out is never cut off**: it is kept iff the rounded
one fits in an `int`. -/
theorem SockTimeo.jiffies_kept_iff {hz m : ℕ} (hhz : hz * m = 1000) (registered : Bool) (fd : ℤ)
    (event : BitVec 32) {tv : TimeVal} (hlong : tv.tvSec < (2 ^ 63 - 1) / hz - 1) :
    (TimedCall.readWrite fd event tv).Kept (.jiffies hz m hhz) registered ↔
      registered = false ∨ tv.jiffies hz m * m < 2 ^ 31 := by
  obtain ⟨hlo, -⟩ := TimeVal.jiffies_bounds hhz tv
  have hms := TimeVal.rounded_wholeMs hhz hlong
  have hwhole : tv.jiffies hz m * (1000 * m) = tv.jiffies hz m * m * 1000 := by ring
  show registered = false ∨ (tv.rounded hz m).wholeMs < 2 ^ 31 ∧
    tv.ns ≤ (tv.rounded hz m).wholeMs * 10 ^ 6 ↔ _
  rw [hms, TimeVal.ns]
  rw [hwhole] at hlo
  refine or_congr_right (and_iff_left ?_)
  omega

namespace TimedCall

/-- Half a millisecond on a socket, with jiffies of 4 ms. -/
theorem meets_readWrite_halfMs :
    ((readWrite 3 EPOLLIN ⟨0, 500⟩).armed (.jiffies 250 4 rfl) true).Meets
      (readWrite 3 EPOLLIN ⟨0, 500⟩).requested :=
  (meets_iff (.jiffies 250 4 rfl) (readWrite 3 EPOLLIN ⟨0, 500⟩)
    ⟨⟨by decide, by decide, by decide, by decide⟩, .inr (by decide)⟩ true).mpr
    ((SockTimeo.jiffies_kept_iff rfl true 3 EPOLLIN (by decide)).mpr (.inr (by decide)))

/-- Seconds that wrap, fractions that are cut off, a wrapped value that means "for ever", and
negative values that do not. -/
theorem timeouts_not_kept :
    ((sleep 4294968).armed (.jiffies 250 4 rfl) true = .finite 704 ∧
        ¬ (Armed.finite 704).Meets (sleep 4294968).requested) ∧
      ((nanosleep ⟨0, 999999⟩).armed (.jiffies 250 4 rfl) true = .finite 0 ∧
        ¬ (Armed.finite 0).Meets (nanosleep ⟨0, 999999⟩).requested) ∧
      ((select 1 (some fun _ => true) none none (some ⟨4294967, 295000⟩)).armed (.jiffies 250 4 rfl)
          true = .infinite ∧
        ¬ Armed.infinite.Meets
          (select 1 (some fun _ => true) none none (some ⟨4294967, 295000⟩)).requested) ∧
      ((poll [(3, POLLIN)] (-2)).armed (.jiffies 250 4 rfl) true = .finite 0 ∧
        ¬ (Armed.finite 0).Meets (poll [(3, POLLIN)] (-2)).requested) ∧
      ((readWrite 3 EPOLLIN ⟨2147484, 0⟩).armed (.jiffies 250 4 rfl) true = .finite 0 ∧
        ¬ (Armed.finite 0).Meets (readWrite 3 EPOLLIN ⟨2147484, 0⟩).requested) := by
  refine ⟨⟨by decide +kernel, ?_⟩, ⟨by decide, ?_⟩, ⟨by decide, id⟩, ⟨rfl, id⟩, ⟨by decide, ?_⟩⟩
  · show ¬ (4294968 * 10 ^ 9 : ℤ) ≤ 704 * 10 ^ 6
    decide
  · show ¬ (0 * 10 ^ 9 + 999999 : ℤ) ≤ 0 * 10 ^ 6
    decide
  · show ¬ (2147484 * 10 ^ 9 + 0 * 10 ^ 3 : ℤ) ≤ 0 * 10 ^ 6
    decide

end TimedCall

end HookTimeouts
