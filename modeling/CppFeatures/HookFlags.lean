/-
`read_write_mode` on one socket (coroutine/linux_glibc_hook.cpp).

The hook switches the descriptor to `O_NONBLOCK` for the duration of a wait, and takes
the same flag as the sign that the user wants calls that do not block.  The coroutines
run on one scheduler thread, so that a call is interrupted only in `IOBlockSwitch`.  The
socket has no time-outs and the registration with epoll succeeds.  An event of epoll is no
promise: the second system call may still find nothing, and the hook has no loop around it.

* `Sock.enabled`, `Sock.next` — the two halves of the hook, epoll, the peer and the kernel;
* `Sock.Apart` — a call that begins during the wait of another one finds its own
  direction ready, and the other one waits for the other direction; an event is for a
  direction that is ready, and what a call was woken for stays there for it;
* `Sock.never_again` — then no call returns `EAGAIN`;
* `Sock.write_returns_eagain` — otherwise one can.
-/
import CppFeatures.Runs
import Mathlib.Logic.Function.Basic
import Mathlib.Tactic.Common

namespace HookFlags

open Function

/-- What a call waits for: `EPOLLIN` or `EPOLLOUT`. -/
inductive Direction
  | input
  | output
deriving DecidableEq, Repr

/-- A coroutine: outside of the hook, in `IOBlockSwitch`, or made runnable by epoll. -/
inductive Pc
  | idle
  | waiting (e : Direction)
  | woken (e : Direction)
deriving DecidableEq, Repr

structure Sock (κ : Type*) where
  -- `O_NONBLOCK`
  nonblock : Bool
  -- the system call for this direction would not block
  ready : Direction → Bool
  pc : κ → Pc
  -- the coroutine in whose system call the thread is blocked
  blocked : Option κ
  -- the coroutines whose calls have returned `EAGAIN`
  again : List κ

/-- The steps; `left` says whether more can be read or written after the system call. -/
inductive Act (κ : Type*)
  | call (k : κ) (e : Direction) (left : Bool)
  | epollEvent (k : κ)
  | resume (k : κ) (left : Bool)
  | unblock (k : κ) (left : Bool)
  -- data or space arrives
  | arrive (e : Direction)
  -- it is gone again: dropped by the kernel, or taken through another descriptor of the socket
  | drain (e : Direction)

namespace Sock

variable {κ : Type*} [DecidableEq κ]

def enabled (s : Sock κ) : Act κ → Bool
  | .call k _ _ => s.blocked.isNone && s.pc k == .idle
  | .epollEvent k => match s.pc k with
    | .waiting _ => s.blocked.isNone
    | _ => false
  | .resume k _ => match s.pc k with
    | .woken _ => s.blocked.isNone
    | _ => false
  | .unblock k _ => match s.pc k with
    | .woken e => s.blocked == some k && s.ready e
    | _ => false
  | .arrive _ | .drain _ => true

/-- The system call succeeds. -/
def consume (s : Sock κ) (e : Direction) (left : Bool) : Sock κ :=
  { s with ready := update s.ready e left }

def setPc (s : Sock κ) (k : κ) (pc : Pc) : Sock κ := { s with pc := update s.pc k pc }

/-- `read_write_mode` up to its end or to `IOBlockSwitch`. -/
def call (s : Sock κ) (k : κ) (e : Direction) (left : Bool) : Sock κ :=
  if s.nonblock then
    -- the original call
    if s.ready e then s.consume e left else { s with again := k :: s.again }
  else if s.ready e then s.consume e left
  else { s.setPc k (.waiting e) with nonblock := true }

/-- The second system call, and the flags after it. -/
def resume (s : Sock κ) (k : κ) (e : Direction) (left : Bool) : Sock κ :=
  if s.ready e then { (s.consume e left).setPc k .idle with nonblock := false }
  else if s.nonblock then { s.setPc k .idle with nonblock := false, again := k :: s.again }
  else { s with blocked := some k }

def next (s : Sock κ) : Act κ → Sock κ
  | .call k e left => s.call k e left
  | .epollEvent k => match s.pc k with
    | .waiting e => s.setPc k (.woken e)
    | _ => s
  | .resume k left => match s.pc k with
    | .woken e => s.resume k e left
    | _ => s
  | .unblock k left => match s.pc k with
    | .woken e => { (s.consume e left).setPc k .idle with nonblock := false, blocked := none }
    | _ => s
  | .arrive e => { s with ready := update s.ready e true }
  | .drain e => { s with ready := update s.ready e false }

/-- The user has left the socket in blocking mode. -/
def Init (s : Sock κ) : Prop :=
  s.nonblock = false ∧ (∀ k, s.pc k = .idle) ∧ s.blocked = none ∧ s.again = []

/-- The coroutine is between the two halves of the hook, for this direction. -/
def InFlight (s : Sock κ) (k : κ) (e : Direction) : Prop := s.pc k = .waiting e ∨ s.pc k = .woken e

/-- A call that begins while another one is in flight finds its direction ready, and the
other one is for the other direction; epoll reports what is ready, and it stays so until the
call that was woken is resumed. -/
def Apart (s : Sock κ) : Act κ → Prop
  | .call _ e _ => ∀ k e', s.InFlight k e' → s.ready e = true ∧ e' ≠ e
  | .epollEvent k => ∀ e, s.pc k = .waiting e → s.ready e = true
  | .drain e => ∀ k, s.pc k ≠ .woken e
  | _ => True

variable {s : Sock κ} {a : Act κ} {k : κ} {e : Direction}

/-- At most one call is in flight, it is why the flag is set, and once epoll has woken it
nobody else takes what it was woken for. -/
structure Inv (s : Sock κ) : Prop where
  again : s.again = []
  blocked : s.blocked = none
  flag : s.nonblock = true ↔ ∃ k e, s.InFlight k e
  one : ∀ k k' e e', s.InFlight k e → s.InFlight k' e' → k = k'
  woken : ∀ k e, s.pc k = .woken e → s.ready e = true

omit [DecidableEq κ] in
theorem InFlight.of_woken (h : s.pc k = .woken e) : s.InFlight k e := .inr h

theorem inFlight_setPc_of_ne {k' : κ} (pc : Pc) (hne : k' ≠ k) :
    (s.setPc k pc).InFlight k' e ↔ s.InFlight k' e := by
  simp [InFlight, setPc, hne]

theorem inFlight_setPc_self (pc : Pc) : (s.setPc k pc).InFlight k e ↔ pc = .waiting e ∨ pc = .woken e := by
  simp [InFlight, setPc]

omit [DecidableEq κ] in
theorem Inv.idle_of_not_nonblock (h : s.Inv) (hflag : s.nonblock = false) (k : κ) (e : Direction) :
    ¬ s.InFlight k e := by
  intro hk
  rw [h.flag.mpr ⟨k, e, hk⟩] at hflag
  cases hflag

omit [DecidableEq κ] in
/-- A system call for a direction that nobody has been woken for. -/
theorem Inv.consume (h : s.Inv) (left : Bool) (hothers : ∀ k, s.pc k ≠ .woken e) :
    (s.consume e left).Inv := by
  refine ⟨h.again, h.blocked, h.flag, h.one, fun k e' hk => ?_⟩
  have hne : e' ≠ e := by
    rintro rfl
    exact hothers k hk
  exact (update_of_ne hne ..).trans (h.woken k e' hk)

theorem Inv.call (h : s.Inv) {left : Bool} (hapart : s.Apart (.call k e left)) :
    (s.call k e left).Inv := by
  have hothers : ∀ k', s.pc k' ≠ .woken e := fun k' hk' => (hapart k' e (.of_woken hk')).2 rfl
  rw [Sock.call]
  split_ifs with hflag hready hready
  · exact h.consume left hothers
  · -- the flag was set by a call in flight, and then this direction is ready
    obtain ⟨k', e', hk'⟩ := h.flag.mp hflag
    exact absurd (hapart k' e' hk').1 hready
  · exact h.consume left hothers
  · have hidle := h.idle_of_not_nonblock (Bool.eq_false_iff.mpr hflag)
    have hself : ∀ k' e', (s.setPc k (.waiting e)).InFlight k' e' → k' = k := by
      intro k' e' hk'
      by_contra hne
      exact hidle k' e' ((inFlight_setPc_of_ne _ hne).mp hk')
    refine ⟨h.again, h.blocked, ?_, ?_, ?_⟩
    · exact iff_of_true rfl ⟨k, e, (inFlight_setPc_self _).mpr (.inl rfl)⟩
    · intro k₁ k₂ e₁ e₂ h₁ h₂
      exact (hself k₁ e₁ h₁).trans (hself k₂ e₂ h₂).symm
    · intro k' e' hk'
      have hk := hself k' e' (.of_woken hk')
      rw [hk] at hk'
      have hwaiting : (s.setPc k (.waiting e)).pc k = .waiting e := update_self ..
      cases hwaiting.symm.trans hk'

theorem Inv.epollEvent (h : s.Inv) (hk : s.pc k = .waiting e) (hready : s.ready e = true) :
    (s.setPc k (.woken e)).Inv := by
  have hsame : ∀ k' e', (s.setPc k (.woken e)).InFlight k' e' ↔ s.InFlight k' e' := by
    intro k' e'
    by_cases hne : k' = k
    · subst hne
      rw [inFlight_setPc_self]
      simp [InFlight, hk]
    · exact inFlight_setPc_of_ne _ hne
  refine ⟨h.again, h.blocked, ?_, ?_, ?_⟩
  · simp only [hsame]
    exact h.flag
  · simp only [hsame]
    exact h.one
  · intro k' e' hk'
    by_cases hne : k' = k
    · subst hne
      have hwoken : (s.setPc k' (.woken e)).pc k' = .woken e := update_self ..
      obtain rfl := Pc.woken.inj (hwoken.symm.trans hk')
      exact hready
    · exact h.woken k' e' ((update_of_ne hne ..).symm.trans hk')

/-- A call that was woken finds what it was woken for. -/
theorem Inv.resume (h : s.Inv) (hk : s.pc k = .woken e) (left : Bool) : (s.resume k e left).Inv := by
  have hnone : ∀ k' e', ¬ (s.setPc k .idle).InFlight k' e' := by
    intro k' e' hk'
    by_cases hne : k' = k
    · subst hne
      simp [inFlight_setPc_self] at hk'
    · exact hne (h.one k' k e' e ((inFlight_setPc_of_ne _ hne).mp hk') (.of_woken hk))
  rw [Sock.resume, if_pos (h.woken k e hk)]
  refine ⟨h.again, h.blocked, ?_, ?_, ?_⟩
  · exact iff_of_false Bool.false_ne_true fun ⟨k', e', hk'⟩ => hnone k' e' hk'
  · exact fun k₁ _ e₁ _ h₁ _ => absurd h₁ (hnone k₁ e₁)
  · exact fun k' e' hk' => absurd (.of_woken hk') (hnone k' e')

theorem Inv.next (h : s.Inv) (hapart : s.Apart a) (hen : s.enabled a = true) : (s.next a).Inv := by
  cases a with
  | call k e left => exact h.call hapart
  | epollEvent k =>
    rw [enabled] at hen
    rw [Sock.next]
    split at hen
    · next e hk =>
      exact h.epollEvent hk (hapart e hk)
    · cases hen
  | resume k left =>
    rw [enabled] at hen
    rw [Sock.next]
    split at hen
    · next e hk =>
      exact h.resume hk left
    · cases hen
  | unblock k left =>
    rw [enabled, h.blocked] at hen
    split at hen
    · cases hen
    · cases hen
  | arrive e =>
    refine ⟨h.again, h.blocked, h.flag, h.one, fun k e' hk => ?_⟩
    show update s.ready e true e' = true
    rw [update_apply]
    split_ifs
    · rfl
    · exact h.woken k e' hk
  | drain e =>
    refine ⟨h.again, h.blocked, h.flag, h.one, fun k e' hk => ?_⟩
    have hne : e' ≠ e := by
      rintro rfl
      exact hapart k hk
    exact (update_of_ne hne ..).trans (h.woken k e' hk)

/-- **Full-duplex use of a socket.**  If every call that begins while another one is in
flight finds its direction ready, and the other one waits for the other direction, and if
every event of epoll is for something that is still there when the call is resumed, then no
hooked call returns `EAGAIN`. -/
theorem never_again (hs : ReachIf Init (guarded enabled next) Apart s) : s.again = [] := by
  have hinv : s.Inv := by
    refine ReachIf.invariant_guarded (fun s h => ?_) (fun s a h hapart hen => h.next hapart hen) s hs
    obtain ⟨hflag, hidle, hblocked, hagain⟩ := h
    refine ⟨hagain, hblocked, ?_, ?_, ?_⟩
    · simp [hflag, InFlight, hidle]
    · simp [InFlight, hidle]
    · simp [hidle]
  exact hinv.again

/-- An idle socket with the given directions ready. -/
def fresh (ready : Direction → Bool) : Sock Bool := ⟨false, ready, fun _ => .idle, none, []⟩

theorem init_fresh (ready : Direction → Bool) : (fresh ready).Init := ⟨rfl, fun _ => rfl, rfl, rfl⟩

/-- One coroutine waits to read; the other one writes meanwhile, and there is space. -/
def readAndWrite : List (Act Bool) :=
  [.call false .input false, .call true .output false, .arrive .input, .epollEvent false,
    .resume false false]

theorem never_again_readAndWrite :
    ReachIf Init (guarded enabled next) Apart (readAndWrite.foldl next (fresh (· == .output))) ∧
    (readAndWrite.foldl next (fresh (· == .output))).again = [] := by
  have hfirst : (fresh (· == .output)).Apart (.call false .input false) := by
    rintro k e (h | h) <;> cases h
  have hsecond : ((fresh (· == .output)).next (.call false .input false)).Apart (.call true .output false) := by
    rintro k e h
    refine ⟨rfl, ?_⟩
    rintro rfl
    cases k <;> rcases h with h | h <;> cases h
  have hcalls : ReachIf Init (guarded enabled next) Apart
      (((fresh (· == .output)).next (.call false .input false)).next (.call true .output false)) :=
    .next (.next (.start (init_fresh _)) hfirst rfl) hsecond rfl
  have harrive : ReachIf Init (guarded enabled next) Apart
      ((((fresh (· == .output)).next (.call false .input false)).next (.call true .output false)).next
        (.arrive .input)) :=
    .next (a := .arrive .input) hcalls trivial rfl
  have hevent : ((((fresh (· == .output)).next (.call false .input false)).next
      (.call true .output false)).next (.arrive .input)).Apart (.epollEvent false) := by
    intro e he
    obtain rfl : e = .input := Pc.waiting.inj he.symm
    rfl
  have hs : ReachIf Init (guarded enabled next) Apart (readAndWrite.foldl next (fresh (· == .output))) :=
    .next (a := .resume false false) (.next (a := .epollEvent false) harrive hevent rfl) trivial rfl
  exact ⟨hs, never_again hs⟩

/-- One coroutine waits to read; the other one wants to write when there is no space, and
its call returns `EAGAIN`. -/
theorem write_returns_eagain : ∃ s : Sock Bool, Reach Init (guarded enabled next) s ∧
    s.pc false = .waiting .input ∧ s.again = [true] := by
  have hs : Reach Init (guarded enabled next)
      ([.call false .input false, .call true .output false].foldl next (fresh fun _ => false)) :=
    reach_exec [.call false .input false, .call true .output false]
      (.start (init_fresh fun _ => false)) rfl
  exact ⟨_, hs, by decide, by decide⟩

end Sock

end HookFlags
