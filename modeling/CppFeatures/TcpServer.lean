/-
Shutting down a `TcpServerImpl` (network/tcp_detail.cpp).

`Accept` runs in one coroutine; `Shutdown` may be called by any number of others, and
the callbacks `OnSessionClose` run in the coroutines of the sessions.  They share
`sessions_`, under `sessions_mutex_`, and the flag `shutdown_`.  A connection that was
accepted before the shutdown is inserted into `sessions_` when `Accept` gets the mutex.

* `Server.enabled`, `Server.next` — the interleaved steps;
* `Server.Inv` — what holds between them: a walk that holds the mutex sees every open
  session;
* `Server.shutdown_reaches` — a shutdown misses no session, if none is inserted after a
  walk has begun;
* `Server.session_survives` — otherwise it can.
-/
import CppFeatures.Runs
import Mathlib.Data.Finset.Insert
import Mathlib.Logic.Function.Basic
import Mathlib.Tactic.Common

namespace TcpServer

open Function

/-- A call of `Shutdown`; `walking` is `ShutdownAll` with the sessions it has yet to
shut down. -/
inductive CallPc (σ : Type*)
  | idle
  | flagged
  | acceptorShut
  | walking (rest : List σ)
  | returned
deriving DecidableEq, Repr

inductive AcceptPc (σ : Type*)
  | accepting
  | accepted (x : σ)
  | locked (x : σ)
  | inserted (x : σ)
  | ended
deriving DecidableEq, Repr

/-- The session that `Accept` is at. -/
def AcceptPc.current? {σ : Type*} : AcceptPc σ → Option σ
  | .accepted x | .locked x | .inserted x => some x
  | .accepting | .ended => none

/-- A session: `closing` is `OnClose` up to the mutex of `OnSessionClose`. -/
inductive SessionPc
  | fresh
  | made
  | started
  | closing
  | erasing
  | erased
deriving DecidableEq, Repr

/-- Who holds `sessions_mutex_`. -/
inductive Holder (σ κ : Type*)
  | accept
  | shutdown (k : κ)
  | session (x : σ)
deriving DecidableEq, Repr

structure Server (σ κ : Type*) where
  shutdown_ : Bool
  -- `shutdown` was called for the socket of `acceptor_`
  acceptorShut : Bool
  sessionsMutex_ : Option (Holder σ κ)
  sessions_ : List σ
  accept : AcceptPc σ
  caller : κ → CallPc σ
  session : σ → SessionPc
  -- `TcpSession::Shutdown` was called
  shut : σ → Bool
  -- records: whether a walk of `ShutdownAll` has begun, and the sessions inserted so far
  walked : Bool
  inserted : Finset σ

inductive Act (σ κ : Type*)
  | setFlag (k : κ)
  | shutAcceptor (k : κ)
  | lockAll (k : κ)
  | shutdownNext (k : κ) (x : σ) (rest : List σ)
  | unlockAll (k : κ)
  | acceptSocket (x : σ)
  | acceptError
  | lockInsert (x : σ)
  | insert (x : σ)
  | goStart (x : σ)
  | onClose (x : σ)
  | lockErase (x : σ)
  | erase (x : σ)
  -- by the user, who has the session's id
  | sessionShutdown (x : σ)
deriving DecidableEq, Repr

namespace Server

variable {σ κ : Type*} [DecidableEq σ] [DecidableEq κ]

def enabled (s : Server σ κ) : Act σ κ → Bool
  | .setFlag k => s.caller k = .idle
  | .shutAcceptor k => s.caller k = .flagged
  | .lockAll k => s.caller k = .acceptorShut ∧ s.sessionsMutex_ = none
  | .shutdownNext k x rest => s.caller k = .walking (x :: rest)
  | .unlockAll k => s.caller k = .walking []
  | .acceptSocket x => s.accept = .accepting ∧ s.acceptorShut = false ∧ s.session x = .fresh
  | .acceptError => s.accept = .accepting
  | .lockInsert x => s.accept = .accepted x ∧ s.sessionsMutex_ = none
  | .insert x => s.accept = .locked x
  | .goStart x => s.accept = .inserted x
  | .onClose x => s.session x = .started
  | .lockErase x => s.session x = .closing ∧ s.sessionsMutex_ = none
  | .erase x => s.session x = .erasing
  | .sessionShutdown x => s.session x ≠ .fresh

def setCaller (s : Server σ κ) (k : κ) (pc : CallPc σ) : Server σ κ :=
  { s with caller := update s.caller k pc }

def setSession (s : Server σ κ) (x : σ) (pc : SessionPc) : Server σ κ :=
  { s with session := update s.session x pc }

omit [DecidableEq σ] in
theorem caller_setCaller (s : Server σ κ) (k k' : κ) (pc : CallPc σ) :
    (s.setCaller k pc).caller k' = if k' = k then pc else s.caller k' :=
  update_apply ..

omit [DecidableEq κ] in
theorem session_setSession (s : Server σ κ) (x y : σ) (pc : SessionPc) :
    (s.setSession x pc).session y = if y = x then pc else s.session y :=
  update_apply ..

def next (s : Server σ κ) : Act σ κ → Server σ κ
  | .setFlag k => { s.setCaller k .flagged with shutdown_ := true }
  | .shutAcceptor k => { s.setCaller k .acceptorShut with acceptorShut := true }
  | .lockAll k =>
    { s.setCaller k (.walking s.sessions_) with sessionsMutex_ := some (.shutdown k), walked := true }
  | .shutdownNext k x rest => { s.setCaller k (.walking rest) with shut := update s.shut x true }
  | .unlockAll k => { s.setCaller k .returned with sessionsMutex_ := none }
  | .acceptSocket x => { s.setSession x .made with accept := .accepted x }
  | .acceptError => { s with accept := if s.shutdown_ then .ended else .accepting }
  | .lockInsert x => { s with accept := .locked x, sessionsMutex_ := some .accept }
  | .insert x =>
    { s with
      accept := .inserted x
      sessionsMutex_ := none
      sessions_ := x :: s.sessions_
      inserted := insert x s.inserted }
  | .goStart x => { s.setSession x .started with accept := .accepting }
  | .onClose x => s.setSession x .closing
  | .lockErase x => { s.setSession x .erasing with sessionsMutex_ := some (.session x) }
  | .erase x =>
    { s.setSession x .erased with sessionsMutex_ := none, sessions_ := s.sessions_.erase x }
  | .sessionShutdown x => { s with shut := update s.shut x true }

def new : Server σ κ :=
  ⟨false, false, none, [], .accepting, fun _ => .idle, fun _ => .fresh, fun _ => false, false, ∅⟩

abbrev Reachable (s : Server σ κ) : Prop := Reach (· = new) (guarded enabled next) s

/-- A session is inserted only as long as no walk has begun. -/
def InsertsFirst (s : Server σ κ) : Act σ κ → Prop
  | .insert _ => s.walked = false
  | _ => True

instance (s : Server σ κ) (a : Act σ κ) : Decidable (s.InsertsFirst a) :=
  match a with
  | .insert _ => inferInstanceAs (Decidable (s.walked = false))
  | .setFlag _ | .shutAcceptor _ | .lockAll _ | .shutdownNext .. | .unlockAll _ | .acceptSocket _
  | .acceptError | .lockInsert _ | .goStart _ | .onClose _ | .lockErase _ | .erase _
  | .sessionShutdown _ => .isTrue trivial

/-- `OnClose` has run. -/
def Closed (s : Server σ κ) (x : σ) : Prop :=
  s.session x = .closing ∨ s.session x = .erasing ∨ s.session x = .erased

/-- The session will not survive. -/
def Ended (s : Server σ κ) (x : σ) : Prop := s.Closed x ∨ s.shut x = true

variable {s : Server σ κ} {a : Act σ κ} {k : κ} {x y : σ}

/-! ### The mutex -/

/-- Whoever is in a critical section holds the mutex, and `Accept` is at a session that
has not been started. -/
structure Locks (s : Server σ κ) : Prop where
  walking : ∀ k rest, s.caller k = .walking rest → s.sessionsMutex_ = some (.shutdown k)
  inserting : ∀ x, s.accept = .locked x → s.sessionsMutex_ = some .accept
  erasing : ∀ x, s.session x = .erasing → s.sessionsMutex_ = some (.session x)
  made : ∀ x, s.accept.current? = some x → s.session x = .made

namespace Locks

omit [DecidableEq σ] [DecidableEq κ] in
/-- While the mutex is free, nobody is in a critical section. -/
theorem free (h : s.Locks) (hfree : s.sessionsMutex_ = none) :
    (∀ k rest, s.caller k ≠ .walking rest) ∧ (∀ x, s.accept ≠ .locked x) ∧
      ∀ x, s.session x ≠ .erasing := by
  refine ⟨fun k rest hk => ?_, fun x hx => ?_, fun x hx => ?_⟩
  · rw [h.walking k rest hk] at hfree
    cases hfree
  · rw [h.inserting x hx] at hfree
    cases hfree
  · rw [h.erasing x hx] at hfree
    cases hfree

omit [DecidableEq σ] in
/-- A call of `Shutdown` moves on, within its walk or outside of one. -/
theorem setCaller (h : s.Locks) (k : κ) (pc : CallPc σ)
    (hpc : ∀ rest, pc = .walking rest → s.sessionsMutex_ = some (.shutdown k)) :
    (s.setCaller k pc).Locks := by
  refine ⟨fun k' rest hk => ?_, h.inserting, h.erasing, h.made⟩
  rw [caller_setCaller] at hk
  split_ifs at hk with heq
  · subst heq
    exact hpc rest hk
  · exact h.walking k' rest hk

omit [DecidableEq κ] in
/-- A session that `Accept` is not at moves on outside of `OnSessionClose`. -/
theorem setSession (h : s.Locks) {pc : SessionPc} (hpc : pc ≠ .erasing)
    (hother : s.accept.current? ≠ some x) : (s.setSession x pc).Locks := by
  refine ⟨h.walking, h.inserting, fun y hy => ?_, fun y hy => ?_⟩
  · rw [session_setSession] at hy
    split_ifs at hy
    · exact absurd hy hpc
    · exact h.erasing y hy
  · have hne : y ≠ x := by
      rintro rfl
      exact hother hy
    exact (update_of_ne hne ..).trans (h.made y hy)

omit [DecidableEq σ] [DecidableEq κ] in
theorem current?_ne (h : s.Locks) (hx : s.session x ≠ .made) : s.accept.current? ≠ some x :=
  fun hcur => hx (h.made x hcur)

protected theorem next (h : s.Locks) (hen : s.enabled a = true) : (s.next a).Locks := by
  cases a with
  | setFlag k =>
    have hnext := h.setCaller k .flagged fun rest hpc => by cases hpc
    exact ⟨hnext.walking, hnext.inserting, hnext.erasing, hnext.made⟩
  | shutAcceptor k =>
    have hnext := h.setCaller k .acceptorShut fun rest hpc => by cases hpc
    exact ⟨hnext.walking, hnext.inserting, hnext.erasing, hnext.made⟩
  | lockAll k =>
    simp only [enabled, decide_eq_true_eq] at hen
    obtain ⟨hwalking, hinserting, herasing⟩ := h.free hen.2
    refine ⟨fun k' rest hk => ?_, fun x hx => absurd hx (hinserting x),
      fun x hx => absurd hx (herasing x), h.made⟩
    replace hk := (caller_setCaller ..).symm.trans hk
    split_ifs at hk with heq
    · rw [heq]
      rfl
    · exact absurd hk (hwalking k' rest)
  | shutdownNext k x rest =>
    simp only [enabled, decide_eq_true_eq] at hen
    have hnext := h.setCaller k (.walking rest) fun _ _ => h.walking k _ hen
    exact ⟨hnext.walking, hnext.inserting, hnext.erasing, hnext.made⟩
  | unlockAll k =>
    simp only [enabled, decide_eq_true_eq] at hen
    have hmutex := h.walking k _ hen
    refine ⟨fun k' rest hk => ?_, fun x hx => ?_, fun x hx => ?_, h.made⟩
    · replace hk := (caller_setCaller ..).symm.trans hk
      split_ifs at hk with heq
      have hother := (h.walking k' rest hk).symm.trans hmutex
      cases hother
      exact absurd rfl heq
    · cases (h.inserting x hx).symm.trans hmutex
    · cases (h.erasing x hx).symm.trans hmutex
  | acceptSocket x =>
    simp only [enabled, decide_eq_true_eq] at hen
    obtain ⟨-, -, hfresh⟩ := hen
    refine ⟨h.walking, fun y hy => (by cases hy), fun y hy => ?_, fun y hy => ?_⟩
    · replace hy := (session_setSession ..).symm.trans hy
      split_ifs at hy
      exact h.erasing y hy
    · cases hy
      exact update_self ..
  | acceptError =>
    refine ⟨h.walking, fun x hx => ?_, h.erasing, fun x hx => ?_⟩ <;>
      simp only [Server.next] at hx <;> split_ifs at hx <;> cases hx
  | lockInsert x =>
    simp only [enabled, decide_eq_true_eq] at hen
    obtain ⟨hwalking, -, herasing⟩ := h.free hen.2
    refine ⟨fun k rest hk => absurd hk (hwalking k rest), fun _ _ => rfl,
      fun y hy => absurd hy (herasing y), fun y hy => ?_⟩
    cases hy
    exact h.made x (by rw [hen.1]; rfl)
  | insert x =>
    simp only [enabled, decide_eq_true_eq] at hen
    have hmutex := h.inserting x hen
    refine ⟨fun k rest hk => ?_, fun y hy => (by cases hy), fun y hy => ?_, fun y hy => ?_⟩
    · cases (h.walking k rest hk).symm.trans hmutex
    · cases (h.erasing y hy).symm.trans hmutex
    · cases hy
      exact h.made x (by rw [hen]; rfl)
  | goStart x =>
    refine ⟨h.walking, fun y hy => (by cases hy), fun y hy => ?_, fun y hy => (by cases hy)⟩
    replace hy := (session_setSession ..).symm.trans hy
    split_ifs at hy
    exact h.erasing y hy
  | onClose x =>
    simp only [enabled, decide_eq_true_eq] at hen
    exact h.setSession (fun hpc => by cases hpc) (h.current?_ne (by rw [hen]; decide))
  | lockErase x =>
    simp only [enabled, decide_eq_true_eq] at hen
    obtain ⟨hwalking, hinserting, herasing⟩ := h.free hen.2
    refine ⟨fun k rest hk => absurd hk (hwalking k rest), fun y hy => absurd hy (hinserting y),
      fun y hy => ?_, fun y hy => ?_⟩
    · replace hy := (session_setSession ..).symm.trans hy
      split_ifs at hy with heq
      · rw [heq]
        rfl
      · exact absurd hy (herasing y)
    · have hne : y ≠ x := by
        rintro rfl
        exact h.current?_ne (by rw [hen.1]; decide) hy
      exact (update_of_ne hne ..).trans (h.made y hy)
  | erase x =>
    simp only [enabled, decide_eq_true_eq] at hen
    have hmutex := h.erasing x hen
    refine ⟨fun k rest hk => ?_, fun y hy => ?_, fun y hy => ?_, fun y hy => ?_⟩
    · cases (h.walking k rest hk).symm.trans hmutex
    · cases (h.inserting y hy).symm.trans hmutex
    · replace hy := (session_setSession ..).symm.trans hy
      split_ifs at hy with heq
      have hother := (h.erasing y hy).symm.trans hmutex
      cases hother
      exact absurd rfl heq
    · have hne : y ≠ x := by
        rintro rfl
        exact h.current?_ne (by rw [hen]; decide) hy
      exact (update_of_ne hne ..).trans (h.made y hy)
  | sessionShutdown x => exact ⟨h.walking, h.inserting, h.erasing, h.made⟩

end Locks

/-! ### Sessions that have ended -/

omit [DecidableEq κ] in
theorem Closed.setSession (h : s.Closed x) {pc : SessionPc}
    (hpc : y = x → pc = .closing ∨ pc = .erasing ∨ pc = .erased) : (s.setSession y pc).Closed x := by
  rw [Closed, session_setSession]
  split_ifs with heq
  · exact hpc heq.symm
  · exact h

omit [DecidableEq κ] in
theorem shut_update (h : s.shut x = true) (y : σ) : update s.shut y true x = true := by
  rw [update_apply]
  split_ifs
  · rfl
  · exact h

omit [DecidableEq κ] in
theorem Ended.setSession (h : s.Ended x) {pc : SessionPc}
    (hpc : y = x → s.Closed x → pc = .closing ∨ pc = .erasing ∨ pc = .erased) :
    (s.setSession y pc).Ended x :=
  h.imp_left fun hclosed => hclosed.setSession fun heq => hpc heq hclosed

/-- A session that has ended stays so. -/
theorem Ended.next (h : s.Ended x) (hlocks : s.Locks) (hen : s.enabled a = true) :
    (s.next a).Ended x := by
  cases a with
  | shutdownNext k y rest => exact h.imp_right fun hshut => shut_update hshut y
  | sessionShutdown y => exact h.imp_right fun hshut => shut_update hshut y
  -- a session that is made or started now is not closed
  | acceptSocket y =>
    simp only [enabled, decide_eq_true_eq] at hen
    refine h.setSession fun heq hclosed => ?_
    subst heq
    simp [Closed, hen.2.2] at hclosed
  | goStart y =>
    simp only [enabled, decide_eq_true_eq] at hen
    have hmade := hlocks.made y (by rw [hen]; rfl)
    refine h.setSession fun heq hclosed => ?_
    subst heq
    simp [Closed, hmade] at hclosed
  | onClose y => exact h.setSession fun _ _ => .inl rfl
  | lockErase y => exact h.setSession fun _ _ => .inr (.inl rfl)
  | erase y => exact h.setSession fun _ _ => .inr (.inr rfl)
  | setFlag | shutAcceptor | lockAll | unlockAll | acceptError | lockInsert | insert => exact h

/-! ### Walks -/

/-- The walks, and what they leave behind. -/
structure Inv (s : Server σ κ) : Prop where
  locks : s.Locks
  kept : ∀ x ∈ s.inserted, x ∈ s.sessions_ ∨ s.session x = .erased
  -- a walk has shut down what is not before it
  walking : ∀ k rest, s.caller k = .walking rest →
    s.walked = true ∧ ∀ x ∈ s.sessions_, x ∈ rest ∨ s.shut x = true
  returned : ∀ k, s.caller k = .returned → s.walked = true ∧ ∀ x ∈ s.inserted, s.Ended x

namespace Inv

omit [DecidableEq κ] in
theorem kept_setSession (h : s.Inv) (hx : s.session x ≠ .erased) (pc : SessionPc) :
    ∀ y ∈ s.inserted, y ∈ s.sessions_ ∨ (s.setSession x pc).session y = .erased := by
  intro y hy
  refine (h.kept y hy).imp_right fun herased => ?_
  have hne : y ≠ x := by
    rintro rfl
    exact hx herased
  exact (update_of_ne hne ..).trans herased

theorem kept_next (h : s.Inv) (hen : s.enabled a = true) :
    ∀ x ∈ (s.next a).inserted, x ∈ (s.next a).sessions_ ∨ (s.next a).session x = .erased := by
  cases a with
  | acceptSocket x =>
    simp only [enabled, decide_eq_true_eq] at hen
    exact h.kept_setSession (by rw [hen.2.2]; decide) .made
  | insert x =>
    intro y hy
    rcases Finset.mem_insert.mp hy with rfl | hold
    · exact .inl List.mem_cons_self
    · exact (h.kept y hold).imp_left (List.mem_cons_of_mem x)
  | goStart x =>
    simp only [enabled, decide_eq_true_eq] at hen
    have hmade := h.locks.made x (by rw [hen]; rfl)
    exact h.kept_setSession (by rw [hmade]; decide) .started
  | onClose x =>
    simp only [enabled, decide_eq_true_eq] at hen
    exact h.kept_setSession (by rw [hen]; decide) .closing
  | lockErase x =>
    simp only [enabled, decide_eq_true_eq] at hen
    exact h.kept_setSession (by rw [hen.1]; decide) .erasing
  | erase x =>
    intro y hy
    by_cases heq : y = x
    · exact .inr (by rw [heq]; exact update_self ..)
    · refine (h.kept y hy).imp (fun hmem => (List.mem_erase_of_ne heq).mpr hmem) fun herased => ?_
      exact (update_of_ne heq ..).trans herased
  | setFlag | shutAcceptor | lockAll | shutdownNext | unlockAll | acceptError | lockInsert
  | sessionShutdown => exact h.kept

omit [DecidableEq κ] in
/-- A walk that goes on, while `sessions_` is as it was. -/
theorem walking_kept (h : s.Inv) {rest : List σ} (hwalk : s.caller k = .walking rest) (y : σ) :
    s.walked = true ∧ ∀ x ∈ s.sessions_, x ∈ rest ∨ update s.shut y true x = true := by
  obtain ⟨hwalked, hrest⟩ := h.walking k rest hwalk
  exact ⟨hwalked, fun x hx => (hrest x hx).imp_right fun hshut => shut_update hshut y⟩

/-- **A walk sees every session**: none is inserted while it has the mutex. -/
theorem walking_next (h : s.Inv) (hen : s.enabled a = true) {rest : List σ}
    (hwalk : (s.next a).caller k = .walking rest) :
    (s.next a).walked = true ∧ ∀ x ∈ (s.next a).sessions_, x ∈ rest ∨ (s.next a).shut x = true := by
  cases a with
  | setFlag k' =>
    replace hwalk := (caller_setCaller ..).symm.trans hwalk
    split_ifs at hwalk
    exact h.walking k rest hwalk
  | shutAcceptor k' =>
    replace hwalk := (caller_setCaller ..).symm.trans hwalk
    split_ifs at hwalk
    exact h.walking k rest hwalk
  | lockAll k' =>
    simp only [enabled, decide_eq_true_eq] at hen
    replace hwalk := (caller_setCaller ..).symm.trans hwalk
    split_ifs at hwalk
    · cases hwalk
      exact ⟨rfl, fun x hx => .inl hx⟩
    · exact absurd hwalk ((h.locks.free hen.2).1 k rest)
  | shutdownNext k' y rest' =>
    simp only [enabled, decide_eq_true_eq] at hen
    replace hwalk := (caller_setCaller ..).symm.trans hwalk
    split_ifs at hwalk
    · cases hwalk
      obtain ⟨hwalked, hrest⟩ := h.walking k' _ hen
      refine ⟨hwalked, fun x hx => ?_⟩
      rcases hrest x hx with hmem | hshut
      · rcases List.mem_cons.mp hmem with rfl | hmem
        · exact .inr (update_self ..)
        · exact .inl hmem
      · exact .inr (shut_update hshut y)
    · exact h.walking_kept hwalk y
  | unlockAll k' =>
    replace hwalk := (caller_setCaller ..).symm.trans hwalk
    split_ifs at hwalk
    exact h.walking k rest hwalk
  | insert x =>
    -- `Accept` has the mutex, so that there is no walk
    simp only [enabled, decide_eq_true_eq] at hen
    cases (h.locks.walking k rest hwalk).symm.trans (h.locks.inserting x hen)
  | erase x =>
    obtain ⟨hwalked, hrest⟩ := h.walking k rest hwalk
    exact ⟨hwalked, fun y hy => hrest y (List.mem_of_mem_erase hy)⟩
  | sessionShutdown y => exact h.walking_kept hwalk y
  | acceptSocket | acceptError | lockInsert | goStart | onClose | lockErase =>
    exact h.walking k rest hwalk

theorem walked_next (h : s.walked = true) (a : Act σ κ) : (s.next a).walked = true := by
  cases a with
  | lockAll => rfl
  | _ => exact h

/-- A call of `Shutdown` returns when its walk is at its end. -/
theorem returned_of_next (hret : (s.next a).caller k = .returned) :
    s.caller k = .returned ∨ a = .unlockAll k := by
  cases a with
  | unlockAll k' =>
    by_cases hk : k = k'
    · exact .inr (by rw [hk])
    · exact .inl ((update_of_ne hk ..).symm.trans hret)
  | setFlag | shutAcceptor | lockAll | shutdownNext =>
    replace hret := (caller_setCaller ..).symm.trans hret
    split_ifs at hret
    exact .inl hret
  | acceptSocket | acceptError | lockInsert | insert | goStart | onClose | lockErase | erase
  | sessionShutdown => exact .inl hret

/-- Behind a walk nothing is inserted any more. -/
theorem inserted_next (hfirst : s.InsertsFirst a) (hwalked : s.walked = true) :
    (s.next a).inserted = s.inserted := by
  cases a with
  | insert x =>
    rw [InsertsFirst, hwalked] at hfirst
    cases hfirst
  | _ => rfl

/-- **When a walk ends**, all sessions inserted until then have ended. -/
theorem returned_next (h : s.Inv) (hfirst : s.InsertsFirst a) (hen : s.enabled a = true)
    (hret : (s.next a).caller k = .returned) :
    (s.next a).walked = true ∧ ∀ x ∈ (s.next a).inserted, (s.next a).Ended x := by
  rcases returned_of_next hret with hold | rfl
  · obtain ⟨hwalked, hended⟩ := h.returned k hold
    refine ⟨walked_next hwalked a, fun x hx => ?_⟩
    rw [inserted_next hfirst hwalked] at hx
    exact (hended x hx).next h.locks hen
  · simp only [enabled, decide_eq_true_eq] at hen
    obtain ⟨hwalked, hshut⟩ := h.walking k [] hen
    refine ⟨hwalked, fun x hx => ?_⟩
    rcases h.kept x hx with hkept | herased
    · exact .inr ((hshut x hkept).resolve_left List.not_mem_nil)
    · exact .inl (.inr (.inr herased))

end Inv

omit [DecidableEq σ] [DecidableEq κ] in
theorem new_inv : (new : Server σ κ).Inv := by
  refine ⟨⟨?_, ?_, ?_, ?_⟩, ?_, ?_, ?_⟩ <;> simp [new, AcceptPc.current?]

/-- **Shutting down a server.**  If no session is inserted after a walk of `ShutdownAll` has
begun, then once a call of `Shutdown` has returned, every session ever inserted has been
closed or shut down. -/
theorem shutdown_reaches (hs : ReachIf (· = new) (guarded enabled next) InsertsFirst s)
    (hret : s.caller k = .returned) : ∀ x ∈ s.inserted, s.Ended x := by
  have hinv : s.Inv := by
    refine ReachIf.invariant_guarded (fun s h => h ▸ new_inv) (fun s a h hfirst hen => ?_) s hs
    exact ⟨h.locks.next hen, h.kept_next hen, fun k rest => h.walking_next hen,
      fun k => h.returned_next hfirst hen⟩
  exact (hinv.returned k hret).2

/-- Two sessions are inserted, and one of them is closed, before the shutdown. -/
def insertedBefore : List (Act ℕ Unit) :=
  [.acceptSocket 0, .lockInsert 0, .insert 0, .goStart 0, .acceptSocket 1, .lockInsert 1, .setFlag (),
    .insert 1, .onClose 0, .shutAcceptor (), .lockAll (), .goStart 1, .shutdownNext () 1 [0],
    .shutdownNext () 0 [], .unlockAll (), .lockErase 0, .erase 0, .acceptError]

theorem shutdown_reaches_insertedBefore : ∃ s : Server ℕ Unit,
    ReachIf (· = new) (guarded enabled next) InsertsFirst s ∧ s.caller () = .returned ∧
      s.accept = .ended ∧ s.inserted = {0, 1} ∧ ∀ x ∈ s.inserted, s.Ended x := by
  have hs : ReachIf (· = new) (guarded enabled next) InsertsFirst
      (insertedBefore.foldl next (new : Server ℕ Unit)) :=
    reachIf_exec insertedBefore (.start rfl) rfl
  exact ⟨_, hs, by decide, by decide, by decide, shutdown_reaches hs (k := ()) (by decide)⟩

/-- A session that is accepted before the shutdown and inserted after it. -/
def insertedAfter : List (Act ℕ Unit) :=
  [.acceptSocket 0, .setFlag (), .shutAcceptor (), .lockAll (), .unlockAll (), .lockInsert 0, .insert 0,
    .goStart 0, .acceptError]

/-- `Shutdown` has returned and the loop of `Accept` has ended, but the session is open. -/
theorem session_survives : ∃ s : Server ℕ Unit, s.Reachable ∧ s.caller () = .returned ∧
    s.accept = .ended ∧ 0 ∈ s.inserted ∧ s.session 0 = .started ∧ s.shut 0 = false := by
  have hs : Reachable (insertedAfter.foldl next (new : Server ℕ Unit)) :=
    reach_exec insertedAfter (.start rfl) rfl
  exact ⟨_, hs, by decide, by decide, by decide, by decide, by decide⟩

end Server

end TcpServer
