/-
The session of a `TcpClientImpl` (network/tcp_detail.cpp).

`Connect` may be called by any number of coroutines.  It tests `sess_` before it takes
`connect_mtx_`, and a session counts as closed as soon as its close reason is recorded,
while its `OnSessionClose`, which resets `sess_`, runs later in another coroutine.

* `Client.enabled`, `Client.next` — the interleaved steps;
* `Client.Quiet` — a session is created only after `OnSessionClose` of the earlier ones;
* `Client.sess_kept` — then `sess_` is the session of the last successful `Connect`
  until that session is closed;
* `Client.successor_detached` — otherwise it need not be.
-/
import CppFeatures.Runs
import Mathlib.Logic.Function.Basic
import Mathlib.Tactic.Common

namespace TcpClient

open Function

/-- A call of `Connect`. -/
inductive ConnectPc (σ : Type*)
  | idle
  -- behind the test of `sess_`
  | tested
  -- with the mutex, in `connect`
  | connecting
  -- in `goStart`, which calls `connect_cb_` first
  | created (x : σ)
  | started (x : σ)
deriving DecidableEq, Repr

/-- The call holds `connect_mtx_`. -/
def ConnectPc.locked {σ : Type*} : ConnectPc σ → Bool
  | .idle | .tested => false
  | .connecting | .created _ | .started _ => true

/-- A session: `closing` is `OnClose`, up to the end of the user's `disconnect_cb_`. -/
inductive SessionPc
  | fresh
  | created
  | started
  | closing
  | closed
deriving DecidableEq, Repr

structure Client (σ κ : Type*) where
  sess_ : Option σ
  connectMtx_ : Option κ
  caller : κ → ConnectPc σ
  session : σ → SessionPc
  -- whether `close_ec_` is set
  closeEc_ : σ → Bool
  -- records: the sessions that were created, and whether their `Connect` has returned
  made : List σ
  connected : σ → Bool

inductive Act (σ κ : Type*)
  | test (k : κ)
  | tryLock (k : κ)
  | connectFailed (k : κ)
  | create (k : κ) (x : σ)
  | goStart (k : κ) (x : σ)
  | returnSuccess (k : κ) (x : σ)
  -- `Shutdown`, or an error of the socket
  | setCloseEc (x : σ)
  | onClose (x : σ)
  | onSessionClose (x : σ)
deriving DecidableEq, Repr

namespace Client

variable {σ κ : Type*} [DecidableEq σ] [DecidableEq κ]

/-- `sess_ && sess_->IsEstab()` -/
def established (s : Client σ κ) : Bool := s.sess_.any fun x => !s.closeEc_ x

def enabled (s : Client σ κ) : Act σ κ → Bool
  | .test k => s.caller k = .idle
  | .tryLock k => s.caller k = .tested
  | .connectFailed k => s.caller k = .connecting
  | .create k x => s.caller k = .connecting ∧ s.session x = .fresh
  | .goStart k x => s.caller k = .created x
  | .returnSuccess k x => s.caller k = .started x
  | .setCloseEc x => s.session x ≠ .fresh
  | .onClose x => s.session x = .started ∧ s.closeEc_ x = true
  | .onSessionClose x => s.session x = .closing

def setCaller (s : Client σ κ) (k : κ) (pc : ConnectPc σ) : Client σ κ :=
  { s with caller := update s.caller k pc }

def setSession (s : Client σ κ) (x : σ) (pc : SessionPc) : Client σ κ :=
  { s with session := update s.session x pc }

omit [DecidableEq σ] in
theorem caller_setCaller (s : Client σ κ) (k k' : κ) (pc : ConnectPc σ) :
    (s.setCaller k pc).caller k' = if k' = k then pc else s.caller k' :=
  update_apply ..

omit [DecidableEq κ] in
theorem session_setSession (s : Client σ κ) (x y : σ) (pc : SessionPc) :
    (s.setSession x pc).session y = if y = x then pc else s.session y :=
  update_apply ..

def next (s : Client σ κ) : Act σ κ → Client σ κ
  -- `ec_estab` is returned if there is a session
  | .test k => s.setCaller k (if s.established then .idle else .tested)
  -- `ec_connecting` is returned if `connect_mtx_` is taken
  | .tryLock k =>
    { s.setCaller k (if s.connectMtx_ = none then .connecting else .idle) with
      connectMtx_ := if s.connectMtx_ = none then some k else s.connectMtx_ }
  | .connectFailed k => { s.setCaller k .idle with connectMtx_ := none }
  | .create k x =>
    { (s.setCaller k (.created x)).setSession x .created with sess_ := some x, made := x :: s.made }
  | .goStart k x => (s.setCaller k (.started x)).setSession x .started
  | .returnSuccess k x =>
    { s.setCaller k .idle with connectMtx_ := none, connected := update s.connected x true }
  | .setCloseEc x => { s with closeEc_ := update s.closeEc_ x true }
  | .onClose x => s.setSession x .closing
  | .onSessionClose x => { s.setSession x .closed with sess_ := none }

def new : Client σ κ :=
  ⟨none, none, fun _ => .idle, fun _ => .fresh, fun _ => false, [], fun _ => false⟩

/-- A session is created only when `OnSessionClose` of every earlier one has ended. -/
def Quiet (s : Client σ κ) : Act σ κ → Prop
  | .create _ _ => ∀ y ∈ s.made, s.session y = .closed
  | _ => True

instance (s : Client σ κ) (a : Act σ κ) : Decidable (s.Quiet a) :=
  match a with
  | .create _ _ => inferInstanceAs (Decidable (∀ y ∈ s.made, s.session y = .closed))
  | .test _ | .tryLock _ | .connectFailed _ | .goStart _ _ | .returnSuccess _ _ | .setCloseEc _
  | .onClose _ | .onSessionClose _ => inferInstanceAs (Decidable True)

variable {s : Client σ κ} {a : Act σ κ} {x y : σ}

/-- How the calls, the sessions and the records belong together. -/
structure Steps (s : Client σ κ) : Prop where
  locked : ∀ k, (s.caller k).locked = true → s.connectMtx_ = some k
  made : ∀ x, s.session x ≠ .fresh → x ∈ s.made
  created : ∀ k x, s.caller k = .created x → s.session x = .created
  started : ∀ k x, s.caller k = .started x → s.session x ≠ .fresh
  connected : ∀ x, s.connected x = true → s.session x ≠ .fresh
  closing : ∀ x, s.session x = .closing ∨ s.session x = .closed → s.closeEc_ x = true

namespace Steps

/-! ### `connect_mtx_` -/

omit [DecidableEq σ] [DecidableEq κ] in
/-- One call at most is between its lock and its unlock. -/
theorem eq_of_locked (h : s.Steps) {k k' : κ} (hk : (s.caller k).locked = true)
    (hk' : (s.caller k').locked = true) : k' = k :=
  Option.some_inj.mp ((h.locked k' hk').symm.trans (h.locked k hk))

omit [DecidableEq σ] in
theorem locked_setCaller (h : s.Steps) {k : κ} {pc : ConnectPc σ}
    (hpc : pc.locked = true → s.connectMtx_ = some k) :
    ∀ k', ((s.setCaller k pc).caller k').locked = true → s.connectMtx_ = some k' := by
  intro k' hk'
  rw [caller_setCaller] at hk'
  split_ifs at hk' with heq
  · rw [heq]
    exact hpc hk'
  · exact h.locked k' hk'

omit [DecidableEq σ] in
/-- The call that has the mutex gives it back. -/
theorem unlocked_setCaller (h : s.Steps) {k : κ} (hk : (s.caller k).locked = true) (k' : κ) :
    ((s.setCaller k .idle).caller k').locked = false := by
  rw [caller_setCaller]
  split_ifs with heq
  · rfl
  · by_contra hk'
    exact heq (h.eq_of_locked hk (Bool.of_not_eq_false hk'))

theorem locked_next (h : s.Steps) (hen : s.enabled a = true) :
    ∀ k, ((s.next a).caller k).locked = true → (s.next a).connectMtx_ = some k := by
  cases a with
  | test k =>
    refine h.locked_setCaller fun hpc => ?_
    split_ifs at hpc <;> cases hpc
  | tryLock k =>
    by_cases hfree : s.connectMtx_ = none
    · intro k' hk'
      simp only [next, if_pos hfree] at hk' ⊢
      replace hk' := (congrArg ConnectPc.locked (caller_setCaller ..)).symm.trans hk'
      split_ifs at hk' with heq
      · rw [heq]
      · have hmtx := h.locked k' hk'
        rw [hfree] at hmtx
        cases hmtx
    · simp only [next, if_neg hfree]
      exact h.locked_setCaller fun hpc => by cases hpc
  | connectFailed k =>
    simp only [enabled, decide_eq_true_eq] at hen
    intro k' hk'
    cases (h.unlocked_setCaller (by rw [hen]; rfl) k').symm.trans hk'
  | create k x =>
    simp only [enabled, decide_eq_true_eq] at hen
    exact h.locked_setCaller fun _ => h.locked k (by rw [hen.1]; rfl)
  | goStart k x =>
    simp only [enabled, decide_eq_true_eq] at hen
    exact h.locked_setCaller fun _ => h.locked k (by rw [hen]; rfl)
  | returnSuccess k x =>
    simp only [enabled, decide_eq_true_eq] at hen
    intro k' hk'
    cases (h.unlocked_setCaller (by rw [hen]; rfl) k').symm.trans hk'
  | setCloseEc | onClose | onSessionClose => exact h.locked

/-! ### Calls and their sessions -/

omit [DecidableEq κ] in
theorem made_setSession (h : s.Steps) (hx : x ∈ s.made) (pc : SessionPc) :
    ∀ y, (s.setSession x pc).session y ≠ .fresh → y ∈ s.made := by
  intro y hy
  rw [session_setSession] at hy
  split_ifs at hy with heq
  · rw [heq]
    exact hx
  · exact h.made y hy

theorem made_next (h : s.Steps) (hen : s.enabled a = true) :
    ∀ x, (s.next a).session x ≠ .fresh → x ∈ (s.next a).made := by
  cases a with
  | create k x =>
    intro y hy
    by_cases heq : y = x
    · rw [heq]
      exact List.mem_cons_self
    · refine List.mem_cons_of_mem x (h.made y fun hfresh => hy ?_)
      exact (update_of_ne heq ..).trans hfresh
  | goStart k x =>
    simp only [enabled, decide_eq_true_eq] at hen
    exact h.made_setSession (h.made x (by rw [h.created k x hen]; decide)) .started
  | onClose x =>
    simp only [enabled, decide_eq_true_eq] at hen
    exact h.made_setSession (h.made x (by rw [hen.1]; decide)) .closing
  | onSessionClose x =>
    simp only [enabled, decide_eq_true_eq] at hen
    exact h.made_setSession (h.made x (by rw [hen]; decide)) .closed
  | test | tryLock | connectFailed | returnSuccess | setCloseEc => exact h.made

omit [DecidableEq σ] in
theorem created_setCaller (h : s.Steps) {k : κ} {pc : ConnectPc σ} (hpc : ∀ x, pc ≠ .created x) :
    ∀ k' x, (s.setCaller k pc).caller k' = .created x → s.session x = .created := by
  intro k' x hk'
  rw [caller_setCaller] at hk'
  split_ifs at hk'
  · exact absurd hk' (hpc x)
  · exact h.created k' x hk'

omit [DecidableEq κ] in
theorem created_setSession (h : s.Steps) (hx : s.session x ≠ .created) (pc : SessionPc) :
    ∀ k y, s.caller k = .created y → (s.setSession x pc).session y = .created := by
  intro k y hk
  have hne : y ≠ x := by
    rintro rfl
    exact hx (h.created k y hk)
  exact (update_of_ne hne ..).trans (h.created k y hk)

/-- Only the call that has created a session is about to start it. -/
theorem created_next (h : s.Steps) (hen : s.enabled a = true) :
    ∀ k x, (s.next a).caller k = .created x → (s.next a).session x = .created := by
  cases a with
  | test k =>
    refine h.created_setCaller fun x hpc => ?_
    split_ifs at hpc
  | tryLock k =>
    refine h.created_setCaller fun x hpc => ?_
    split_ifs at hpc
  | connectFailed k => exact h.created_setCaller fun x hpc => by cases hpc
  | create k x =>
    simp only [enabled, decide_eq_true_eq] at hen
    intro k' y hk'
    replace hk' := (caller_setCaller ..).symm.trans hk'
    split_ifs at hk' with heq
    · cases hk'
      exact update_self ..
    · exact absurd (h.eq_of_locked (by rw [hen.1]; rfl) (by rw [hk']; rfl)) heq
  | goStart k x =>
    simp only [enabled, decide_eq_true_eq] at hen
    intro k' y hk'
    replace hk' := (caller_setCaller ..).symm.trans hk'
    split_ifs at hk' with heq
    exact absurd (h.eq_of_locked (by rw [hen]; rfl) (by rw [hk']; rfl)) heq
  | returnSuccess k x => exact h.created_setCaller fun y hpc => by cases hpc
  | onClose x =>
    simp only [enabled, decide_eq_true_eq] at hen
    exact h.created_setSession (by rw [hen.1]; decide) .closing
  | onSessionClose x =>
    simp only [enabled, decide_eq_true_eq] at hen
    exact h.created_setSession (by rw [hen]; decide) .closed
  | setCloseEc => exact h.created

omit [DecidableEq κ] in
theorem ne_fresh_setSession {pc : SessionPc} (hpc : pc ≠ .fresh) (hy : s.session y ≠ .fresh) :
    (s.setSession x pc).session y ≠ .fresh := by
  rw [session_setSession]
  split_ifs
  · exact hpc
  · exact hy

/-- A session that was made stays made. -/
theorem ne_fresh_next (hx : s.session x ≠ .fresh) (a : Act σ κ) :
    (s.next a).session x ≠ .fresh := by
  cases a with
  | create k y => exact ne_fresh_setSession (s := s.setCaller k (.created y)) (by decide) hx
  | goStart k y => exact ne_fresh_setSession (s := s.setCaller k (.started y)) (by decide) hx
  | onClose y => exact ne_fresh_setSession (by decide) hx
  | onSessionClose y => exact ne_fresh_setSession (by decide) hx
  | test | tryLock | connectFailed | returnSuccess | setCloseEc => exact hx

theorem started_next (h : s.Steps) (a : Act σ κ) :
    ∀ k x, (s.next a).caller k = .started x → (s.next a).session x ≠ .fresh := by
  intro k x hk
  cases a with
  | goStart k' y =>
    replace hk := (caller_setCaller ..).symm.trans hk
    split_ifs at hk
    · cases hk
      rw [next, session_setSession, if_pos rfl]
      decide
    · exact ne_fresh_next (h.started k x hk) (.goStart k' y)
  | test k' =>
    replace hk := (caller_setCaller ..).symm.trans hk
    split_ifs at hk
    exact h.started k x hk
  | tryLock k' =>
    replace hk := (caller_setCaller ..).symm.trans hk
    split_ifs at hk
    exact h.started k x hk
  | connectFailed k' =>
    replace hk := (caller_setCaller ..).symm.trans hk
    split_ifs at hk
    exact h.started k x hk
  | create k' y =>
    replace hk := (caller_setCaller ..).symm.trans hk
    split_ifs at hk
    exact ne_fresh_next (h.started k x hk) (.create k' y)
  | returnSuccess k' y =>
    replace hk := (caller_setCaller ..).symm.trans hk
    split_ifs at hk
    exact h.started k x hk
  | setCloseEc y => exact h.started k x hk
  | onClose y => exact ne_fresh_next (h.started k x hk) (.onClose y)
  | onSessionClose y => exact ne_fresh_next (h.started k x hk) (.onSessionClose y)

theorem connected_next (h : s.Steps) (hen : s.enabled a = true) :
    ∀ x, (s.next a).connected x = true → (s.next a).session x ≠ .fresh := by
  intro x hx
  cases a with
  | returnSuccess k y =>
    simp only [enabled, decide_eq_true_eq] at hen
    simp only [next, update_apply] at hx
    split_ifs at hx with heq
    · rw [heq]
      exact h.started k y hen
    · exact h.connected x hx
  | _ => exact ne_fresh_next (h.connected x hx) _

omit [DecidableEq κ] in
theorem closing_setSession (h : s.Steps) {pc : SessionPc}
    (hpc : pc = .closing ∨ pc = .closed → s.closeEc_ x = true) :
    ∀ y, (s.setSession x pc).session y = .closing ∨ (s.setSession x pc).session y = .closed →
      s.closeEc_ y = true := by
  intro y hy
  rw [session_setSession] at hy
  split_ifs at hy with heq
  · rw [heq]
    exact hpc hy
  · exact h.closing y hy

theorem closing_next (h : s.Steps) (hen : s.enabled a = true) :
    ∀ x, (s.next a).session x = .closing ∨ (s.next a).session x = .closed → (s.next a).closeEc_ x = true := by
  cases a with
  | create k x => exact h.closing_setSession fun hpc => by rcases hpc with hpc | hpc <;> cases hpc
  | goStart k x => exact h.closing_setSession fun hpc => by rcases hpc with hpc | hpc <;> cases hpc
  | setCloseEc x =>
    intro y hy
    simp only [next, update_apply]
    split_ifs
    · rfl
    · exact h.closing y hy
  | onClose x =>
    simp only [enabled, decide_eq_true_eq] at hen
    exact h.closing_setSession fun _ => hen.2
  | onSessionClose x =>
    simp only [enabled, decide_eq_true_eq] at hen
    exact h.closing_setSession fun _ => h.closing x (.inl hen)
  | test | tryLock | connectFailed | returnSuccess => exact h.closing

protected theorem next (h : s.Steps) (hen : s.enabled a = true) : (s.next a).Steps :=
  ⟨h.locked_next hen, h.made_next hen, h.created_next hen, h.started_next a, h.connected_next hen,
    h.closing_next hen⟩

end Steps

/-- The session that is not closed, if there is one, is `sess_`. -/
def Current (s : Client σ κ) : Prop := ∀ x ∈ s.made, s.session x ≠ .closed → s.sess_ = some x

theorem Current.next (h : s.Current) (hsteps : s.Steps) (hquiet : s.Quiet a) (hen : s.enabled a = true) :
    (s.next a).Current := by
  intro x hx hopen
  cases a with
  | create k y =>
    rcases List.mem_cons.mp hx with rfl | hold
    · rfl
    · have hne : x ≠ y := by
        rintro rfl
        have hfresh : s.session x = .fresh := by
          simp only [enabled, decide_eq_true_eq] at hen
          exact hen.2
        have hclosed := hquiet x hold
        rw [hfresh] at hclosed
        cases hclosed
      simp only [Client.next, setSession, setCaller, update_of_ne hne] at hopen
      exact absurd (hquiet x hold) hopen
  | onSessionClose y =>
    -- `y` is not closed before, so that it is `sess_`, and so is any other open session
    simp only [enabled, decide_eq_true_eq] at hen
    have hy : s.sess_ = some y := h y (hsteps.made y (by simp [hen])) (by simp [hen])
    have hne : x ≠ y := by
      rintro rfl
      exact hopen (update_self ..)
    simp only [Client.next, setSession, update_of_ne hne] at hopen
    have hxy := (h x hx hopen).symm.trans hy
    exact absurd (Option.some_inj.mp hxy) hne
  | goStart k y =>
    simp only [enabled, decide_eq_true_eq] at hen
    have hy := hsteps.created k y hen
    by_cases hxy : x = y
    · exact h x hx (by simp [hxy, hy])
    · exact h x hx (by simpa [Client.next, setSession, setCaller, hxy] using hopen)
  | onClose y =>
    simp only [enabled, decide_eq_true_eq] at hen
    by_cases hxy : x = y
    · exact h x hx (by simp [hxy, hen.1])
    · exact h x hx (by simpa [Client.next, setSession, hxy] using hopen)
  | _ => exact h x hx hopen

omit [DecidableEq σ] [DecidableEq κ] in
theorem new_steps : (new : Client σ κ).Steps := by
  constructor <;> simp [new, ConnectPc.locked]

/-- **The session of a client.**  If every session is created only after the earlier ones
have finished `OnSessionClose`, then after a `Connect` that returned success `sess_` is the
session it created, until that session is closed. -/
theorem sess_kept (hs : ReachIf (· = new) (guarded enabled next) Quiet s) (hx : s.connected x = true)
    (hopen : s.closeEc_ x = false) : s.sess_ = some x := by
  have hinv : ∀ s : Client σ κ, ReachIf (· = new) (guarded enabled next) Quiet s →
      s.Steps ∧ s.Current := by
    refine ReachIf.invariant_guarded (fun s h => ?_)
      fun s a h hquiet hen => ⟨h.1.next hen, h.2.next h.1 hquiet hen⟩
    subst h
    exact ⟨new_steps, fun x hx => absurd hx List.not_mem_nil⟩
  obtain ⟨hsteps, hcurrent⟩ := hinv s hs
  refine hcurrent x (hsteps.made x (hsteps.connected x hx)) fun hclosed => ?_
  rw [hsteps.closing x (.inr hclosed)] at hopen
  cases hopen

/-- A session is created, closed and replaced. -/
def reconnect : List (Act ℕ Unit) :=
  [.test (), .tryLock (), .create () 0, .goStart () 0, .returnSuccess () 0,
    .setCloseEc 0, .onClose 0, .onSessionClose 0,
    .test (), .tryLock (), .create () 1, .goStart () 1, .returnSuccess () 1]

theorem sess_kept_reconnect : ∃ s : Client ℕ Unit, ReachIf (· = new) (guarded enabled next) Quiet s ∧
    s.connected 1 = true ∧ s.sess_ = some 1 := by
  have hs : ReachIf (· = new) (guarded enabled next) Quiet (reconnect.foldl next (new : Client ℕ Unit)) :=
    reachIf_exec reconnect (.start rfl) rfl
  exact ⟨_, hs, by decide, sess_kept hs (by decide) (by decide)⟩

/-- `Connect` is called again when the first session has its close reason and has not yet
run `OnClose`. -/
def reconnectEarly : List (Act ℕ Unit) :=
  [.test (), .tryLock (), .create () 0, .goStart () 0, .returnSuccess () 0,
    .setCloseEc 0, .test (), .tryLock (), .create () 1, .goStart () 1, .returnSuccess () 1,
    .onClose 0, .onSessionClose 0]

/-- The first session's `OnSessionClose` detaches the second, which is established. -/
theorem successor_detached : ∃ s : Client ℕ Unit, Reach (· = new) (guarded enabled next) s ∧
    s.connected 1 = true ∧ s.closeEc_ 1 = false ∧ s.session 1 = .started ∧ s.sess_ = none := by
  have hs : Reach (· = new) (guarded enabled next) (reconnectEarly.foldl next (new : Client ℕ Unit)) :=
    reach_exec reconnectEarly (.start rfl) rfl
  exact ⟨_, hs, by decide, by decide, by decide, by decide⟩

end Client

end TcpClient
