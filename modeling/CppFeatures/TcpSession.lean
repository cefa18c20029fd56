/-
Closing a `TcpSession` (network/tcp_detail.cpp).

A session has two coroutines, `goReceive` and `goSend`, and a counter
`shutdown_ref_` that starts at 2.  A loop that fails reports its error, shuts the
socket down and decrements the counter; the one that brings it to 0 executes
`OnClose`.  `goSend` also tests the counter at the top of its loop, and leaves when
the other loop has.  `OnClose` answers what is left in `msg_chan_` and
`msg_send_list_` and calls `disconnect_cb_`.  `Send` and `Shutdown` are called from
anywhere at any time; `Send` tests the counter and pushes in two separate steps.

* `TcpSession.Step` — what one step can do;
* `TcpSession.Closing` — the counter and the execution of `OnClose`;
* `TcpSession.closes_once_and_last` — `OnClose` runs once, after both loops;
* `TcpSession.Accounted` — where the message of each `Send` is;
* `TcpSession.send_answered_iff` — each callback is called exactly once, unless its
  `Send` pushed after `OnClose` had drained the channel.
-/
import CppFeatures.Pool
import CppFeatures.TcpSend

/-! ### The session -/

/-- Where `OnClose` stands.  The list belongs to the loop that closes, so that its
messages are answered in one step. -/
inductive ClosePc
  | draining
  | listing
  | notifying
deriving DecidableEq, Repr

/-- Where a loop stands on its way out. -/
inductive ExitPc
  | failed (ec : BoostEc)
  | reported
  | closing (pc : ClosePc)
  | finished
deriving DecidableEq, Repr

namespace ExitPc

-- the loop has decremented `shutdown_ref_`
@[simp] def left : ExitPc → Bool
  | closing _ | finished => true
  | _ => false

-- the loop has called `SetCloseEc`, or need not
@[simp] def told : ExitPc → Bool
  | failed _ => false
  | _ => true

@[simp] def isClosing : ExitPc → Bool
  | closing _ => true
  | _ => false

-- `OnClose` has found the channel empty
@[simp] def drained : ExitPc → Bool
  | closing .listing | closing .notifying => true
  | _ => false

-- `OnClose` has cleared the list
@[simp] def cleared : ExitPc → Bool
  | closing .notifying => true
  | _ => false

theorem told_of_left : ∀ pc, left pc = true → told pc = true
  | closing _, _ => rfl
  | finished, _ => rfl

theorem isClosing_of_drained : ∀ pc, drained pc = true → isClosing pc = true
  | closing _, _ => rfl

theorem drained_of_cleared : ∀ pc, cleared pc = true → drained pc = true
  | closing .notifying, _ => rfl

end ExitPc

inductive ReceivePc
  | looping
  | exit (pc : ExitPc)
deriving DecidableEq, Repr

inductive SendLoopPc
  | body (pc : SendPc)
  | tested
  | exit (pc : ExitPc)
deriving DecidableEq, Repr

-- what `p` says of a loop that is on its way out
@[simp] def ReceivePc.has (p : ExitPc → Bool) : ReceivePc → Bool
  | exit pc => p pc
  | _ => false

@[simp] def SendLoopPc.has (p : ExitPc → Bool) : SendLoopPc → Bool
  | exit pc => p pc
  | _ => false

theorem ReceivePc.has_mono {p q : ExitPc → Bool} (h : ∀ pc, p pc = true → q pc = true) :
    ∀ {pc : ReceivePc}, pc.has p = true → pc.has q = true
  | exit pc, hp => h pc hp

theorem SendLoopPc.has_mono {p q : ExitPc → Bool} (h : ∀ pc, p pc = true → q pc = true) :
    ∀ {pc : SendLoopPc}, pc.has p = true → pc.has q = true
  | exit pc, hp => h pc hp

/-- Where a call of `Send` stands. -/
inductive SendCall
  | idle
  | called (buf : List UInt8)
  | passed (buf : List UInt8)
  | returned
deriving DecidableEq, Repr, Inhabited

/-- A session, with the names `τ` of all calls of `Send`; a message is known by the call
that made it.  The last members are records: the errors given to `SetCloseEc`, the
executions of `OnClose`, what `disconnect_cb_` was given, and the calls of `Send` that
pushed after the channel had been drained. -/
structure TcpSession (τ : Type*) where
  rcv : Receiver
  receive : ReceivePc
  snd : Sender τ
  send : SendLoopPc
  shutdownRef_ : ℤ
  closeEc_ : BoostEc
  calls : Pool τ SendCall
  reported : List BoostEc
  closes : ℕ
  disconnects : List BoostEc
  late : List τ

namespace TcpSession

open List

variable {τ : Type*}

def new (maxPackSize : UInt32) : TcpSession τ :=
  ⟨.new maxPackSize, .looping, .new, .body .top, 2, .success, Pool.empty, [], 0, [], []⟩

/-- `SetCloseEc`, under its mutex. -/
def setCloseEc (s : TcpSession τ) (ec : BoostEc) : TcpSession τ :=
  { s with
    closeEc_ := if s.closeEc_.isError then s.closeEc_ else ec
    reported := s.reported ++ [ec] }

def answer (s : TcpSession τ) (msg : Msg τ) (code : BoostEc) : TcpSession τ :=
  { s with snd := s.snd.answer msg code }

/-- A step of `OnClose`, and where it stands then; `none` when it has returned. -/
def onClose (s : TcpSession τ) : ClosePc → TcpSession τ × Option ClosePc
  | .draining => match s.snd.msgChan_ with
    | msg :: chan =>
      (answer { s with snd := { s.snd with msgChan_ := chan } } msg
        (makeNetworkErrorCode .ecShutdown), some .draining)
    | [] => (s, some .listing)
  | .listing =>
    ({ s with
      snd := { s.snd with
        msgSendList_ := []
        answers := s.snd.answers ++
          s.snd.msgSendList_.map fun msg => (msg, makeNetworkErrorCode .ecShutdown) } },
      some .notifying)
  | .notifying => ({ s with disconnects := s.disconnects ++ [s.closeEc_] }, none)

/-- A step on the way out. -/
def leave (s : TcpSession τ) : ExitPc → Option (TcpSession τ × ExitPc)
  | .failed ec => some (s.setCloseEc ec, .reported)
  | .reported =>
    let s := { s with shutdownRef_ := s.shutdownRef_ - 1 }
    if s.shutdownRef_ = 0 then some ({ s with closes := s.closes + 1 }, .closing .draining)
    else some (s, .finished)
  | .closing pc => match s.onClose pc with
    | (s, some pc) => some (s, .closing pc)
    | (s, none) => some (s, .finished)
  | .finished => none

/-- `OnClose` has drained the channel. -/
def drained (s : TcpSession τ) : Bool :=
  s.receive.has ExitPc.drained || s.send.has ExitPc.drained || !s.disconnects.isEmpty

/-- `OnClose` has cleared the list. -/
def cleared (s : TcpSession τ) : Bool :=
  s.receive.has ExitPc.cleared || s.send.has ExitPc.cleared || !s.disconnects.isEmpty

inductive Act (τ : Type*)
  | call (t : τ) (buf : List UInt8)
  | send (t : τ) (full : Bool)
  | expire (t : τ)
  | shutdown
  | receive (readEc : BoostEc) (chunk : List UInt8) (consume : ℕ)
  | go (n : ℕ) (writeEc : BoostEc)
deriving DecidableEq, Repr

variable [DecidableEq τ]

/-- A step of `Send`; `TryPush` fails if the channel is `full`. -/
def sendStep (s : TcpSession τ) (t : τ) (full : Bool) : Option (TcpSession τ) :=
  match s.calls.pc t with
  | .called buf =>
    if s.shutdownRef_ < 2 then
      some { s.answer { id := t, buf := buf } (makeNetworkErrorCode .ecShutdown) with
        calls := s.calls.set t .returned }
    else if buf = [] then
      some { s.answer { id := t, buf := buf } .success with calls := s.calls.set t .returned }
    else some { s with calls := s.calls.set t (.passed buf) }
  | .passed buf =>
    if full then
      some { s.answer { id := t, buf := buf } (makeNetworkErrorCode .ecSendOverflow) with
        calls := s.calls.set t .returned }
    else
      some { s with
        snd := { s.snd with msgChan_ := s.snd.msgChan_ ++ [{ id := t, buf := buf }] }
        calls := s.calls.set t .returned
        late := if s.drained then s.late ++ [t] else s.late }
  | _ => none

/-- A step of `goReceive`: a whole round, or a step on the way out. -/
def receiveStep (receiveCb : Bool) (s : TcpSession τ) (readEc : BoostEc) (chunk : List UInt8)
    (consume : ℕ) : Option (TcpSession τ) :=
  match s.receive with
  | .looping => match s.rcv.round receiveCb readEc chunk consume with
    | .next rcv => some { s with rcv := rcv }
    | .error ec => some { s with receive := .exit (.failed ec) }
    | .assertFailed => none
  | .exit pc => (s.leave pc).map fun r => { r.1 with receive := .exit r.2 }

/-- A step of `goSend`; `write_some` answers `n` and `writeEc`. -/
def goStep (s : TcpSession τ) (n : ℕ) (writeEc : BoostEc) : Option (TcpSession τ) :=
  match s.send with
  | .body .top =>
    some { s with send := if s.shutdownRef_ = 1 then .tested else .body (.popping 0) }
  | .body (.writing buffers) =>
    if writeEc.isError then some { s with send := .exit (.failed writeEc) }
    else (s.snd.turn n (.writing buffers)).map fun r => { s with snd := r.1, send := .body r.2 }
  | .body pc => (s.snd.turn n pc).map fun r => { s with snd := r.1, send := .body r.2 }
  | .tested =>
    some { s with
      shutdownRef_ := s.shutdownRef_ - 1
      closes := s.closes + 1
      send := .exit (.closing .draining) }
  | .exit pc => (s.leave pc).map fun r => { r.1 with send := .exit r.2 }

def step (receiveCb : Bool) (s : TcpSession τ) : Act τ → Option (TcpSession τ)
  | .call t buf =>
    if s.calls.pc t = .idle then some { s with calls := s.calls.set t (.called buf) } else none
  | .send t full => s.sendStep t full
  | .expire t =>
    some { s with snd := { s.snd with timeout := Function.update s.snd.timeout t true } }
  | .shutdown => some (s.setCloseEc (makeNetworkErrorCode .ecShutdown))
  | .receive readEc chunk consume => s.receiveStep receiveCb readEc chunk consume
  | .go n writeEc => s.goStep n writeEc

/-! ### What a step can do -/

/-- A step on the way out. -/
inductive Leave (s : TcpSession τ) : ExitPc → TcpSession τ → ExitPc → Prop
  | report (ec : BoostEc) : Leave s (.failed ec) (s.setCloseEc ec) .reported
  | last (href : s.shutdownRef_ = 1) :
      Leave s .reported { s with shutdownRef_ := s.shutdownRef_ - 1, closes := s.closes + 1 }
        (.closing .draining)
  | first (href : s.shutdownRef_ ≠ 1) :
      Leave s .reported { s with shutdownRef_ := s.shutdownRef_ - 1 } .finished
  | drain (msg : Msg τ) (chan : List (Msg τ)) (hc : s.snd.msgChan_ = msg :: chan) :
      Leave s (.closing .draining)
        { s with
          snd := { s.snd with
            msgChan_ := chan
            answers := s.snd.answers ++ [(msg, makeNetworkErrorCode .ecShutdown)] } }
        (.closing .draining)
  | drained (hc : s.snd.msgChan_ = []) : Leave s (.closing .draining) s (.closing .listing)
  | clear :
      Leave s (.closing .listing)
        { s with
          snd := { s.snd with
            msgSendList_ := []
            answers := s.snd.answers ++
              s.snd.msgSendList_.map fun msg => (msg, makeNetworkErrorCode .ecShutdown) } }
        (.closing .notifying)
  | notify :
      Leave s (.closing .notifying) { s with disconnects := s.disconnects ++ [s.closeEc_] }
        .finished

omit [DecidableEq τ] in
theorem leave_cases {s s' : TcpSession τ} {pc pc' : ExitPc} (h : s.leave pc = some (s', pc')) :
    Leave s pc s' pc' := by
  cases pc with
  | failed ec =>
    cases h
    exact .report ec
  | reported =>
    simp only [leave] at h
    split_ifs at h with href
    · cases h
      exact .last (by omega)
    · cases h
      exact .first (by omega)
  | closing pc =>
    cases pc with
    | draining =>
      cases hc : s.snd.msgChan_ with
      | nil =>
        simp only [leave, onClose, hc] at h
        cases h
        exact .drained hc
      | cons msg chan =>
        simp only [leave, onClose, hc] at h
        cases h
        exact .drain msg chan hc
    | listing =>
      cases h
      exact .clear
    | notifying =>
      cases h
      exact .notify
  | finished => cases h

/-- What one step can do. -/
inductive Step (s : TcpSession τ) : TcpSession τ → Prop
  | call (t : τ) (buf : List UInt8) (ht : s.calls.pc t = .idle) :
      Step s { s with calls := s.calls.set t (.called buf) }
  | refuse (t : τ) (buf : List UInt8) (ec : BoostEc) (ht : s.calls.pc t ≠ .returned) :
      Step s { s with
        snd := { s.snd with answers := s.snd.answers ++ [({ id := t, buf := buf }, ec)] }
        calls := s.calls.set t .returned }
  | pass (t : τ) (buf : List UInt8) (ht : s.calls.pc t ≠ .returned) :
      Step s { s with calls := s.calls.set t (.passed buf) }
  | push (t : τ) (buf : List UInt8) (ht : s.calls.pc t ≠ .returned) :
      Step s { s with
        snd := { s.snd with msgChan_ := s.snd.msgChan_ ++ [{ id := t, buf := buf }] }
        calls := s.calls.set t .returned
        late := if s.drained then s.late ++ [t] else s.late }
  | expire (t : τ) :
      Step s { s with snd := { s.snd with timeout := Function.update s.snd.timeout t true } }
  | shutdown : Step s (s.setCloseEc (makeNetworkErrorCode .ecShutdown))
  | read (rcv : Receiver) (hr : s.receive = .looping) : Step s { s with rcv := rcv }
  | readFail (ec : BoostEc) (hr : s.receive = .looping) (hec : ec.isError = true) :
      Step s { s with receive := .exit (.failed ec) }
  | top (hs : s.send = .body .top) : Step s { s with send := .body (.popping 0) }
  | test (hs : s.send = .body .top) (href : s.shutdownRef_ = 1) : Step s { s with send := .tested }
  | close (hs : s.send = .tested) :
      Step s { s with
        shutdownRef_ := s.shutdownRef_ - 1
        closes := s.closes + 1
        send := .exit (.closing .draining) }
  | turn (n : ℕ) (pc pc' : SendPc) (snd : Sender τ) (hs : s.send = .body pc)
      (ht : s.snd.Turn n pc snd pc') : Step s { s with snd := snd, send := .body pc' }
  | writeFail (pc : SendPc) (ec : BoostEc) (hs : s.send = .body pc) (hec : ec.isError = true) :
      Step s { s with send := .exit (.failed ec) }
  | receiveLeave (pc pc' : ExitPc) (s' : TcpSession τ) (hr : s.receive = .exit pc)
      (hl : Leave s pc s' pc') : Step s { s' with receive := .exit pc' }
  | sendLeave (pc pc' : ExitPc) (s' : TcpSession τ) (hs : s.send = .exit pc)
      (hl : Leave s pc s' pc') : Step s { s' with send := .exit pc' }

variable {s s' : TcpSession τ} {pc pc' : ExitPc} {receiveCb : Bool} {maxPackSize : UInt32}

theorem sendStep_cases {t : τ} {full : Bool} (h : s.sendStep t full = some s') : Step s s' := by
  rw [sendStep] at h
  cases hpc : s.calls.pc t with
  | idle =>
    rw [hpc] at h
    cases h
  | returned =>
    rw [hpc] at h
    cases h
  | called buf =>
    have ht : s.calls.pc t ≠ .returned := by simp [hpc]
    simp only [hpc] at h
    split_ifs at h
    · cases h
      exact .refuse t buf _ ht
    · cases h
      exact .refuse t buf _ ht
    · cases h
      exact .pass t buf ht
  | passed buf =>
    have ht : s.calls.pc t ≠ .returned := by simp [hpc]
    simp only [hpc] at h
    cases full with
    | true =>
      cases h
      exact .refuse t buf _ ht
    | false =>
      cases h
      exact .push t buf ht

theorem receiveStep_cases {readEc : BoostEc} {chunk : List UInt8} {consume : ℕ}
    (h : s.receiveStep receiveCb readEc chunk consume = some s') : Step s s' := by
  rw [receiveStep] at h
  cases hr : s.receive with
  | looping =>
    simp only [hr] at h
    cases hround : s.rcv.round receiveCb readEc chunk consume with
    | next rcv =>
      rw [hround] at h
      cases h
      rw [← hr]
      exact .read rcv hr
    | error ec =>
      rw [hround] at h
      cases h
      exact .readFail ec hr (Receiver.round_error hround)
    | assertFailed =>
      rw [hround] at h
      cases h
  | exit pc =>
    simp only [hr] at h
    obtain ⟨r, hl, rfl⟩ := Option.map_eq_some_iff.mp h
    exact .receiveLeave pc r.2 r.1 hr (leave_cases hl)

theorem goStep_cases {n : ℕ} {writeEc : BoostEc} (h : s.goStep n writeEc = some s') :
    Step s s' := by
  have hturn : ∀ pc, s.send = .body pc → ((s.snd.turn n pc).map fun r =>
      { s with snd := r.1, send := .body r.2 }) = some s' → Step s s' := by
    intro pc hs h
    obtain ⟨r, ht, rfl⟩ := Option.map_eq_some_iff.mp h
    exact .turn n pc r.2 r.1 hs (Sender.turn_cases ht)
  cases hs : s.send with
  | tested =>
    simp only [goStep, hs] at h
    cases h
    exact .close hs
  | exit pc =>
    simp only [goStep, hs] at h
    obtain ⟨r, hl, rfl⟩ := Option.map_eq_some_iff.mp h
    exact .sendLeave pc r.2 r.1 hs (leave_cases hl)
  | body pc =>
    cases pc with
    | top =>
      simp only [goStep, hs] at h
      cases h
      split_ifs with href
      · exact .test hs href
      · exact .top hs
    | writing buffers =>
      simp only [goStep, hs] at h
      split_ifs at h with hec
      · cases h
        exact .writeFail _ writeEc hs hec
      · exact hturn _ hs h
    | popping i =>
      simp only [goStep, hs] at h
      exact hturn _ hs h
    | building i buffers =>
      simp only [goStep, hs] at h
      exact hturn _ hs h
    | accounting k =>
      simp only [goStep, hs] at h
      exact hturn _ hs h
    | crashed =>
      simp only [goStep, hs] at h
      exact hturn _ hs h

theorem step_cases {a : Act τ} (h : s.step receiveCb a = some s') : Step s s' := by
  cases a with
  | call t buf =>
    rw [step] at h
    split_ifs at h with ht
    cases h
    exact .call t buf ht
  | send t full => exact sendStep_cases h
  | expire t =>
    cases h
    exact .expire t
  | shutdown =>
    cases h
    exact .shutdown
  | receive readEc chunk consume => exact receiveStep_cases h
  | go n writeEc => exact goStep_cases h

/-! ### The counter and the close -/

omit [DecidableEq τ] in
/-- Leaving moves the counter of the loop, and neither loop's place. -/
theorem Leave.frame (h : Leave s pc s' pc') : s'.receive = s.receive ∧ s'.send = s.send ∧
    s'.rcv = s.rcv ∧ s'.calls = s.calls ∧ s'.late = s.late := by
  cases h <;> exact ⟨rfl, rfl, rfl, rfl, rfl⟩

omit [DecidableEq τ] in
theorem Leave.left (h : Leave s pc s' pc') (hl : pc.left = true) : pc'.left = true := by
  cases h with
  | drain | drained | clear | notify => rfl
  | report | last | first => cases hl

omit [DecidableEq τ] in
theorem Leave.ref (h : Leave s pc s' pc') :
    s'.shutdownRef_ + pc'.left.toNat = s.shutdownRef_ + pc.left.toNat := by
  cases h with
  | last | first =>
    simp only [ExitPc.left, Bool.toNat_true, Bool.toNat_false]
    omega
  | _ => rfl

omit [DecidableEq τ] in
/-- `OnClose` is executed when the counter gets to 0. -/
theorem Leave.closes (h : Leave s pc s' pc')
    (hc : s.closes = if s.shutdownRef_ = 0 then 1 else 0)
    (hpos : pc.left = false → 0 < s.shutdownRef_) :
    s'.closes = if s'.shutdownRef_ = 0 then 1 else 0 := by
  cases h with
  | last href =>
    simp only [href] at hc ⊢
    simp [hc]
  | first href =>
    have := hpos rfl
    rw [if_neg (by omega)] at hc
    simp only
    rw [if_neg (by omega), hc]
  | _ => exact hc

omit [DecidableEq τ] in
theorem Leave.running (h : Leave s pc s' pc') :
    s'.disconnects.length + pc'.isClosing.toNat + s.closes
      = s.disconnects.length + pc.isClosing.toNat + s'.closes := by
  cases h with
  | last =>
    simp only [ExitPc.isClosing, Bool.toNat_true, Bool.toNat_false]
    omega
  | notify => simp
  | _ => rfl

/-- The counter, and how far `OnClose` is. -/
structure Closing (s : TcpSession τ) : Prop where
  ref : s.shutdownRef_ + (s.receive.has ExitPc.left).toNat + (s.send.has ExitPc.left).toNat = 2
  tested : s.send = .tested → s.receive.has ExitPc.left = true
  closes : s.closes = if s.shutdownRef_ = 0 then 1 else 0
  running : s.disconnects.length + (s.receive.has ExitPc.isClosing).toNat
    + (s.send.has ExitPc.isClosing).toNat = s.closes

omit [DecidableEq τ] in
/-- What leaving does to the counter, whatever the other loop says. -/
theorem Leave.counts (h : Leave s pc s' pc') {left closing : Bool}
    (href : s.shutdownRef_ + pc.left.toNat + left.toNat = 2)
    (hcloses : s.closes = if s.shutdownRef_ = 0 then 1 else 0)
    (hrunning : s.disconnects.length + pc.isClosing.toNat + closing.toNat = s.closes) :
    s'.shutdownRef_ + pc'.left.toNat + left.toNat = 2 ∧
    (s'.closes = if s'.shutdownRef_ = 0 then 1 else 0) ∧
    s'.disconnects.length + pc'.isClosing.toNat + closing.toNat = s'.closes := by
  have hmove := h.ref
  have hrun := h.running
  have hle := left.toNat_le
  refine ⟨by omega, h.closes hcloses fun hleft => ?_, by omega⟩
  rw [hleft, Bool.toNat_false] at href
  omega

omit [DecidableEq τ] in
theorem Closing.receiveLeave (h : s.Closing) (hr : s.receive = .exit pc)
    (hl : Leave s pc s' pc') : Closing { s' with receive := .exit pc' } := by
  obtain ⟨href, htested, hcloses, hrunning⟩ := h
  obtain ⟨-, hsend, -⟩ := hl.frame
  simp only [hr, ReceivePc.has] at href htested hrunning
  obtain ⟨href', hcloses', hrunning'⟩ := hl.counts href hcloses hrunning
  refine ⟨?_, fun ht => hl.left (htested (hsend ▸ ht)), hcloses', ?_⟩
  · simpa only [hsend, ReceivePc.has] using href'
  · simpa only [hsend, ReceivePc.has] using hrunning'

omit [DecidableEq τ] in
theorem Closing.sendLeave (h : s.Closing) (hs : s.send = .exit pc)
    (hl : Leave s pc s' pc') : Closing { s' with send := .exit pc' } := by
  obtain ⟨href, htested, hcloses, hrunning⟩ := h
  obtain ⟨hreceive, -⟩ := hl.frame
  simp only [hs, SendLoopPc.has] at href hrunning
  rw [add_right_comm] at href hrunning
  obtain ⟨href', hcloses', hrunning'⟩ := hl.counts href hcloses hrunning
  rw [add_right_comm] at href' hrunning'
  refine ⟨?_, nofun, hcloses', ?_⟩
  · simpa only [hreceive, SendLoopPc.has] using href'
  · simpa only [hreceive, SendLoopPc.has] using hrunning'

theorem Step.closing (h : Step s s') (hc : s.Closing) : s'.Closing := by
  have hcopy := hc
  obtain ⟨href, htested, hcloses, hrunning⟩ := hc
  cases h with
  | call | refuse | pass | push | expire | shutdown | read =>
    exact ⟨href, htested, hcloses, hrunning⟩
  | readFail ec hr hec =>
    simp only [hr] at href htested hrunning
    exact ⟨href, htested, hcloses, hrunning⟩
  | top hs | turn _ _ _ _ hs _ | writeFail _ _ hs _ =>
    simp only [hs] at href hrunning
    exact ⟨href, nofun, hcloses, hrunning⟩
  | test hs hone =>
    simp only [hs] at href hrunning
    refine ⟨href, fun _ => ?_, hcloses, hrunning⟩
    -- the counter is 1 and this loop has not left
    cases hleft : s.receive.has ExitPc.left with
    | true => rfl
    | false =>
      rw [hleft, hone] at href
      exact absurd href (by decide)
  | close hs =>
    have hleft := htested hs
    simp only [hs, hleft, SendLoopPc.has, Bool.toNat_true, Bool.toNat_false] at href hrunning
    rw [if_neg (by omega)] at hcloses
    refine ⟨?_, nofun, ?_, ?_⟩
    · simp only [hleft, SendLoopPc.has, ExitPc.left, Bool.toNat_true]
      omega
    · simp only
      rw [if_pos (by omega), hcloses]
    · simp only [SendLoopPc.has, ExitPc.isClosing, Bool.toNat_true]
      omega
  | receiveLeave pc pc' s' hr hl => exact hcopy.receiveLeave hr hl
  | sendLeave pc pc' s' hs hl => exact hcopy.sendLeave hs hl

/-! ### The errors reported -/

/-- `close_ec_` is the first error reported, and what `disconnect_cb_` was given. -/
structure Records (s : TcpSession τ) : Prop where
  first : s.closeEc_ = s.reported.headD .success
  errors : ∀ ec ∈ s.reported, ec.isError = true
  notified : ∀ ec ∈ s.disconnects, s.reported.head? = some ec

omit [DecidableEq τ] in
theorem Records.head (h : s.Records) (hne : s.reported ≠ []) :
    s.reported.head? = some s.closeEc_ ∧ s.closeEc_.isError = true := by
  obtain ⟨ec, rest, hr⟩ := exists_cons_of_ne_nil hne
  have hec : s.closeEc_ = ec := by rw [h.first, hr, headD_cons]
  rw [hr, hec]
  exact ⟨rfl, h.errors ec (hr ▸ mem_cons_self)⟩

omit [DecidableEq τ] in
theorem Records.setCloseEc (h : s.Records) {ec : BoostEc} (hec : ec.isError = true) :
    (s.setCloseEc ec).Records := by
  have herrors : ∀ e ∈ s.reported ++ [ec], e.isError = true := by
    intro e he
    rcases mem_append.mp he with he | he
    · exact h.errors e he
    · rw [mem_singleton.mp he, hec]
  cases hr : s.reported with
  | nil =>
    have hnone : s.closeEc_.isError = false := by
      rw [h.first, hr]
      rfl
    refine ⟨?_, herrors, fun e he => ?_⟩
    · simp [TcpSession.setCloseEc, hnone, hr]
    · have := h.notified e he
      rw [hr] at this
      cases this
  | cons e rest =>
    obtain ⟨hhead, hsome⟩ := h.head (by simp [hr])
    rw [hr, List.head?_cons, Option.some_inj] at hhead
    refine ⟨?_, herrors, fun e he => ?_⟩
    · simp [TcpSession.setCloseEc, hsome, hr, hhead]
    · have := h.notified e he
      simpa [TcpSession.setCloseEc, hr] using this

omit [DecidableEq τ] in
theorem Leave.records (h : Leave s pc s' pc') (hrec : s.Records)
    (hfail : ∀ ec, pc = .failed ec → ec.isError = true) (htold : pc.told = true → s.reported ≠ []) :
    s'.Records ∧ s'.reported ≠ [] ∧ pc'.told = true := by
  cases h with
  | report ec =>
    refine ⟨hrec.setCloseEc (hfail ec rfl), ?_, rfl⟩
    simp [TcpSession.setCloseEc]
  | notify =>
    refine ⟨⟨hrec.first, hrec.errors, fun ec hec => ?_⟩, htold rfl, rfl⟩
    rcases mem_append.mp hec with hec | hec
    · exact hrec.notified ec hec
    · rw [mem_singleton.mp hec]
      exact (hrec.head (htold rfl)).1
  | _ => exact ⟨⟨hrec.first, hrec.errors, hrec.notified⟩, htold rfl, rfl⟩

structure Reports (s : TcpSession τ) : Prop where
  records : s.Records
  receiveFailed : ∀ ec, s.receive = .exit (.failed ec) → ec.isError = true
  sendFailed : ∀ ec, s.send = .exit (.failed ec) → ec.isError = true
  receiveTold : s.receive.has ExitPc.told = true → s.reported ≠ []
  sendTold : s.send.has ExitPc.told = true → s.reported ≠ []

theorem Step.reports (h : Step s s') (hc : s.Closing) (hr : s.Reports) : s'.Reports := by
  obtain ⟨hrec, hrf, hsf, hrt, hst⟩ := hr
  cases h with
  | shutdown =>
    have hne : (s.setCloseEc (makeNetworkErrorCode .ecShutdown)).reported ≠ [] := by
      simp [setCloseEc]
    exact ⟨hrec.setCloseEc rfl, hrf, hsf, fun _ => hne, fun _ => hne⟩
  | readFail ec hr hec =>
    refine ⟨⟨hrec.first, hrec.errors, hrec.notified⟩, fun e he => ?_, hsf, nofun, hst⟩
    cases he
    exact hec
  | close hs =>
    have hne := hrt (ReceivePc.has_mono ExitPc.told_of_left (hc.tested hs))
    exact ⟨⟨hrec.first, hrec.errors, hrec.notified⟩, hrf, nofun, hrt, fun _ => hne⟩
  | writeFail pc ec hs hec =>
    refine ⟨⟨hrec.first, hrec.errors, hrec.notified⟩, hrf, fun e he => ?_, hrt, nofun⟩
    cases he
    exact hec
  | receiveLeave pc pc' s' hr hl =>
    obtain ⟨-, hsend, -⟩ := hl.frame
    obtain ⟨hrec', hne, htold⟩ := hl.records hrec (fun ec he => hrf ec (he ▸ hr))
      (fun ht => hrt (by rw [hr]; exact ht))
    refine ⟨⟨hrec'.first, hrec'.errors, hrec'.notified⟩, fun e he => ?_, fun e he => ?_,
      fun _ => hne, fun _ => hne⟩
    · cases he
      cases htold
    · exact hsf e (hsend ▸ he)
  | sendLeave pc pc' s' hs hl =>
    obtain ⟨hreceive, -⟩ := hl.frame
    obtain ⟨hrec', hne, htold⟩ := hl.records hrec (fun ec he => hsf ec (he ▸ hs))
      (fun ht => hst (by rw [hs]; exact ht))
    refine ⟨⟨hrec'.first, hrec'.errors, hrec'.notified⟩, fun e he => ?_, fun e he => ?_,
      fun _ => hne, fun _ => hne⟩
    · exact hrf e (hreceive ▸ he)
    · cases he
      cases htold
  | top | test | turn =>
    exact ⟨⟨hrec.first, hrec.errors, hrec.notified⟩, hrf, nofun, hrt, nofun⟩
  | _ => exact ⟨⟨hrec.first, hrec.errors, hrec.notified⟩, hrf, hsf, hrt, hst⟩

/-! ### Runs -/

def Init (maxPackSize : UInt32) (s : TcpSession τ) : Prop := s = .new maxPackSize

theorem reach_closing : ∀ s : TcpSession τ, Reach (Init maxPackSize) (step receiveCb) s →
    s.Closing ∧ s.Reports := by
  refine ReachIf.invariant (fun s h => ?_) fun s s' a hinv _ hst => ?_
  · subst h
    exact ⟨⟨rfl, nofun, rfl, rfl⟩, ⟨rfl, nofun, nofun⟩, nofun, nofun, nofun, nofun⟩
  · have h := step_cases hst
    exact ⟨h.closing hinv.1, h.reports hinv.1 hinv.2⟩

/-- Both loops have left. -/
def Left (s : TcpSession τ) : Prop :=
  s.receive.has ExitPc.left = true ∧ s.send.has ExitPc.left = true

omit [DecidableEq τ] in
theorem Closing.closes_le_one (h : s.Closing) : s.closes ≤ 1 := by
  rw [h.closes]
  split_ifs <;> decide

omit [DecidableEq τ] in
theorem Closing.left (h : s.Closing) (hpos : 0 < s.closes) : s.Left := by
  have hcloses := h.closes
  have href := h.ref
  split_ifs at hcloses with hzero
  · rw [hzero] at href
    rw [Left]
    revert href
    cases s.receive.has ExitPc.left <;> cases s.send.has ExitPc.left <;> decide
  · omega

omit [DecidableEq τ] in
theorem Leave.list (h : Leave s pc s' pc') :
    s'.snd.msgSendList_ = s.snd.msgSendList_ ∨ s'.snd.msgSendList_ = [] := by
  cases h with
  | clear => exact .inr rfl
  | _ => exact .inl rfl

/-- Once both loops have left, no step is one of their bodies. -/
theorem Step.left (h : Step s s') (hl : s.Left) : s'.Left ∧ s'.rcv = s.rcv ∧
    (s'.snd.msgSendList_ = s.snd.msgSendList_ ∨ s'.snd.msgSendList_ = []) := by
  obtain ⟨hr, hs⟩ := hl
  cases h with
  | read _ h | readFail _ h _ => rw [h] at hr; cases hr
  | top h | test h _ | close h | turn _ _ _ _ h _ | writeFail _ _ h _ => rw [h] at hs; cases hs
  | receiveLeave pc pc' s' hpc hleave =>
    obtain ⟨-, hsend, hrcv, -⟩ := hleave.frame
    rw [hpc] at hr
    exact ⟨⟨hleave.left hr, hsend ▸ hs⟩, hrcv, hleave.list⟩
  | sendLeave pc pc' s' hpc hleave =>
    obtain ⟨hreceive, -, hrcv, -⟩ := hleave.frame
    rw [hpc] at hs
    exact ⟨⟨hreceive ▸ hr, hleave.left hs⟩, hrcv, hleave.list⟩
  | _ => exact ⟨⟨hr, hs⟩, rfl, .inl rfl⟩

theorem left_after (hl : s.Left) : ∀ s', Reach (· = s) (step receiveCb) s' → s'.Left ∧
    s'.rcv = s.rcv ∧ (s'.snd.msgSendList_ = s.snd.msgSendList_ ∨ s'.snd.msgSendList_ = []) := by
  refine ReachIf.invariant (fun s' h => ?_) fun s₁ s₂ a hinv _ hst => ?_
  · subst h
    exact ⟨hl, rfl, .inl rfl⟩
  · obtain ⟨hl₁, hrcv₁, hlist₁⟩ := hinv
    obtain ⟨hl₂, hrcv₂, hlist₂⟩ := (step_cases hst).left hl₁
    refine ⟨hl₂, hrcv₂.trans hrcv₁, ?_⟩
    rcases hlist₂ with h | h
    · rw [h]
      exact hlist₁
    · exact .inr h

/-- **The session closes exactly once, and last.**  In every interleaving of the two
loops, of calls of `Send` and of `Shutdown`: `OnClose` is executed at most once, and
calls `disconnect_cb_` at most once; when it has been started, `close_ec_` is set, to
the first error given to `SetCloseEc`, both loops have left, and from then on none of
them takes a step of its body, so that the receive buffer stays as it is and the list
stays as it is until `OnClose` clears it; and when both loops have returned, `OnClose` has
been executed and has given `close_ec_` to `disconnect_cb_`. -/
theorem closes_once_and_last (receiveCb : Bool) (maxPackSize : UInt32) {s : TcpSession τ}
    (hs : Reach (Init maxPackSize) (step receiveCb) s) :
    s.closes ≤ 1 ∧ s.disconnects.length ≤ s.closes ∧
    (0 < s.closes → s.closeEc_.isError = true ∧ s.reported.head? = some s.closeEc_ ∧
      ∀ s', Reach (· = s) (step receiveCb) s' → s'.Left ∧ s'.rcv = s.rcv ∧
        (s'.snd.msgSendList_ = s.snd.msgSendList_ ∨ s'.snd.msgSendList_ = [])) ∧
    (s.receive = .exit .finished → s.send = .exit .finished →
      s.closes = 1 ∧ s.disconnects = [s.closeEc_]) := by
  obtain ⟨hc, hr⟩ := reach_closing s hs
  have hrunning := hc.running
  have hcloses := hc.closes_le_one
  have hset : 0 < s.closes → s.reported ≠ [] := fun hpos =>
    hr.receiveTold (ReceivePc.has_mono ExitPc.told_of_left (hc.left hpos).1)
  refine ⟨hcloses, by omega, fun hpos => ?_, fun hfr hfs => ?_⟩
  · obtain ⟨hhead, hsome⟩ := hr.records.head (hset hpos)
    exact ⟨hsome, hhead, left_after (hc.left hpos)⟩
  · have href := hc.ref
    have hone : s.closes = 1 := by
      rw [hfr, hfs] at href
      have hzero : s.shutdownRef_ = 0 := by
        simp only [ReceivePc.has, SendLoopPc.has, ExitPc.left, Bool.toNat_true] at href
        omega
      rw [hc.closes, if_pos hzero]
    rw [hfr, hfs] at hrunning
    obtain ⟨ec, hec⟩ := length_eq_one_iff.mp (hrunning.trans hone)
    have hgiven := hr.records.notified ec (hec ▸ mem_singleton_self ec)
    rw [(hr.records.head (hset (by omega))).1, Option.some_inj] at hgiven
    exact ⟨hone, hgiven ▸ hec⟩

theorem closes_once_and_last_receive : ∃ s : TcpSession Unit, Reach (Init 4) (step false) s ∧
    s.closes = 1 ∧ s.disconnects = [makeNetworkErrorCode .ecShutdown] := by
  -- `Shutdown` comes before the read fails, and `goSend` sees the counter at 1
  have hs : Reach (Init 4) (step false) _ := reach_exec (s := (.new 4 : TcpSession Unit))
    [.shutdown, .receive ⟨.system, 2⟩ [] 0, .receive .success [] 0, .receive .success [] 0,
      .go 0 .success, .go 0 .success, .go 0 .success, .go 0 .success, .go 0 .success]
    (.start rfl) rfl
  exact ⟨_, hs, (closes_once_and_last false 4 hs).2.2.2 rfl rfl⟩

/-! ### The messages -/

/-- How often the callback of a call has been called. -/
def answered (s : TcpSession τ) (t : τ) : ℕ := (s.snd.answers.map fun a => a.1.id).count t

/-- Where the message of each call is. -/
structure Accounted (s : TcpSession τ) : Prop where
  once : ∀ t, (s.snd.places.map Prod.fst).count t = if s.calls.pc t = .returned then 1 else 0
  late : s.late = if s.drained then s.snd.msgChan_.map Msg.id else []
  cleared : s.cleared = true → s.snd.msgSendList_ = []

/-- A call that does not return keeps its message. -/
theorem Accounted.once_stay (h : s.Accounted) {t : τ} {x : SendCall} (ht : s.calls.pc t ≠ .returned)
    (hx : x ≠ .returned) (u : τ) : (s.snd.places.map Prod.fst).count u
      = if (s.calls.set t x).pc u = .returned then 1 else 0 := by
  rw [h.once u, Pool.pc_set]
  by_cases hu : u = t
  · rw [if_pos hu, if_neg hx, hu, if_neg ht]
  · rw [if_neg hu]

/-- A call that returns has put its message somewhere. -/
theorem Accounted.once_return (h : s.Accounted) {t : τ} {b : List UInt8} {snd : Sender τ}
    (ht : s.calls.pc t ≠ .returned) (hp : snd.places.Perm ((t, b) :: s.snd.places)) (u : τ) :
    (snd.places.map Prod.fst).count u
      = if (s.calls.set t .returned).pc u = .returned then 1 else 0 := by
  rw [(hp.map Prod.fst).count_eq, map_cons, count_cons, h.once u, Pool.pc_set]
  by_cases hu : u = t
  · subst hu
    simp [ht]
  · have hne : t ≠ u := Ne.symm hu
    simp [hu, hne]

omit [DecidableEq τ] in
theorem drained_of_cleared (h : s.cleared = true) : s.drained = true := by
  simp only [cleared, drained, Bool.or_eq_true] at h ⊢
  exact h.imp_left (Or.imp (ReceivePc.has_mono ExitPc.drained_of_cleared)
    (SendLoopPc.has_mono ExitPc.drained_of_cleared))

omit [DecidableEq τ] in
/-- What is drained was drained by `OnClose`. -/
theorem Closing.closes_pos (h : s.Closing) (hd : s.drained = true) : 0 < s.closes := by
  rw [← h.running]
  simp only [drained, Bool.or_eq_true] at hd
  rcases hd with (hd | hd) | hd
  · rw [ReceivePc.has_mono ExitPc.isClosing_of_drained hd, Bool.toNat_true]
    omega
  · rw [SendLoopPc.has_mono ExitPc.isClosing_of_drained hd, Bool.toNat_true]
    omega
  · have := length_pos_iff.mpr (show s.disconnects ≠ [] by simpa using hd)
    omega

section Leave

-- what the other loop says; while this one closes, nothing
variable {other : Bool} (h : Leave s pc s' pc')
  (hother : pc.isClosing = true → other = false ∧ s.disconnects = [])

omit [DecidableEq τ] in
include h in
theorem Leave.places_perm : s'.snd.places.Perm s.snd.places := by
  cases h with
  | drain msg chan hc =>
    simp only [Sender.places, hc, map_append, map_cons, map_nil,
      append_assoc, singleton_append]
    exact (perm_middle.symm).append_left _
  | clear =>
    simp only [Sender.places, map_append, map_map, map_nil, nil_append,
      append_assoc]
    exact .refl _
  | _ => exact .refl _

omit [DecidableEq τ] in
include h hother in
theorem Leave.late
    (hlate : s.late = if pc.drained || (other || !s.disconnects.isEmpty) then
      s.snd.msgChan_.map Msg.id else []) :
    s'.late = if pc'.drained || (other || !s'.disconnects.isEmpty) then
      s'.snd.msgChan_.map Msg.id else [] := by
  cases h with
  | drain msg chan hc =>
    obtain ⟨rfl, hdisc⟩ := hother rfl
    simpa [hdisc] using hlate
  | drained hc =>
    obtain ⟨rfl, hdisc⟩ := hother rfl
    simpa [hdisc, hc] using hlate
  | notify => simpa using hlate
  | _ => exact hlate

omit [DecidableEq τ] in
include h in
theorem Leave.cleared
    (hcleared : (pc.cleared || (other || !s.disconnects.isEmpty)) = true → s.snd.msgSendList_ = [])
    (hc : (pc'.cleared || (other || !s'.disconnects.isEmpty)) = true) :
    s'.snd.msgSendList_ = [] := by
  cases h with
  | clear => rfl
  | notify => exact hcleared rfl
  | _ => exact hcleared hc

end Leave

omit [DecidableEq τ] in
theorem Closing.alone_of (h : s.Closing) {x y : Bool}
    (hsum : s.disconnects.length + x.toNat + y.toNat = s.closes) (hx : x = true) :
    y = false ∧ s.disconnects = [] := by
  have hone := h.closes_le_one
  rw [hx, Bool.toNat_true] at hsum
  refine ⟨?_, eq_nil_of_length_eq_zero (by omega)⟩
  cases y with
  | false => rfl
  | true =>
    rw [Bool.toNat_true] at hsum
    omega

omit [DecidableEq τ] in
/-- While one loop closes, the other one does not, and `disconnect_cb_` has not been
called. -/
theorem Closing.alone (h : s.Closing) :
    (s.receive.has ExitPc.isClosing = true →
      s.send.has ExitPc.drained = false ∧ s.disconnects = []) ∧
    (s.send.has ExitPc.isClosing = true →
      s.receive.has ExitPc.drained = false ∧ s.disconnects = []) := by
  have hrunning := h.running
  refine ⟨fun hc => ?_, fun hc => ?_⟩
  · obtain ⟨hsend, hdisc⟩ := h.alone_of hrunning hc
    refine ⟨Bool.eq_false_iff.mpr fun hd => ?_, hdisc⟩
    rw [SendLoopPc.has_mono ExitPc.isClosing_of_drained hd] at hsend
    cases hsend
  · rw [add_right_comm] at hrunning
    obtain ⟨hreceive, hdisc⟩ := h.alone_of hrunning hc
    refine ⟨Bool.eq_false_iff.mpr fun hd => ?_, hdisc⟩
    rw [ReceivePc.has_mono ExitPc.isClosing_of_drained hd] at hreceive
    cases hreceive

theorem Accounted.receiveLeave (h : s.Accounted) (hc : s.Closing) (hr : s.receive = .exit pc)
    (hl : Leave s pc s' pc') : Accounted { s' with receive := .exit pc' } := by
  obtain ⟨-, hsend, -, hcalls, -⟩ := hl.frame
  have halone := hc.alone.1
  obtain ⟨honce, hlate, hcleared⟩ := h
  simp only [drained, TcpSession.cleared, hr, ReceivePc.has, Bool.or_assoc] at halone hlate hcleared
  refine ⟨fun t => ?_, ?_, fun hcl => ?_⟩
  · rw [(hl.places_perm.map Prod.fst).count_eq, honce t]
    simp only [hcalls]
  · simp only [drained, ReceivePc.has, Bool.or_assoc, hsend]
    exact hl.late halone hlate
  · simp only [TcpSession.cleared, ReceivePc.has, Bool.or_assoc, hsend] at hcl
    exact hl.cleared hcleared hcl

theorem Accounted.sendLeave (h : s.Accounted) (hc : s.Closing) (hs : s.send = .exit pc)
    (hl : Leave s pc s' pc') : Accounted { s' with send := .exit pc' } := by
  obtain ⟨hreceive, -, -, hcalls, -⟩ := hl.frame
  have halone := hc.alone.2
  obtain ⟨honce, hlate, hcleared⟩ := h
  simp only [drained, TcpSession.cleared, hs, SendLoopPc.has, Bool.or_assoc,
    Bool.or_left_comm (s.receive.has _)] at halone hlate hcleared
  refine ⟨fun t => ?_, ?_, fun hcl => ?_⟩
  · rw [(hl.places_perm.map Prod.fst).count_eq, honce t]
    simp only [hcalls]
  · simp only [drained, SendLoopPc.has, Bool.or_assoc, hreceive,
      Bool.or_left_comm (s.receive.has _)]
    exact hl.late halone hlate
  · simp only [TcpSession.cleared, SendLoopPc.has, Bool.or_assoc, hreceive,
      Bool.or_left_comm (s.receive.has _)] at hcl
    exact hl.cleared hcleared hcl

theorem Step.accounted (h : Step s s') (hc : s.Closing) (ha : s.Accounted) : s'.Accounted := by
  have hc' := h.closing hc
  have hcopy := ha
  obtain ⟨honce, hlate, hcleared⟩ := ha
  cases h with
  | call t buf ht => exact ⟨hcopy.once_stay (by simp [ht]) (by simp), hlate, hcleared⟩
  | refuse t buf ec ht =>
    refine ⟨hcopy.once_return (b := buf) ht ?_, hlate, hcleared⟩
    simp only [Sender.places, map_append, map_cons, map_nil, append_assoc,
      singleton_append]
    exact perm_middle
  | pass t buf ht => exact ⟨hcopy.once_stay ht (by simp), hlate, hcleared⟩
  | push t buf ht =>
    have hperm : (s.snd.places ++ [(t, buf)]).Perm ((t, buf) :: s.snd.places) :=
      perm_append_singleton _ _
    refine ⟨hcopy.once_return (b := buf) ht ?_, ?_, hcleared⟩
    · simpa only [Sender.places, map_append, map_cons, map_nil, Msg.key,
        append_assoc] using hperm
    · change (if s.drained then s.late ++ [t] else s.late) = if s.drained then
        (s.snd.msgChan_ ++ [(⟨t, buf, 0, false⟩ : Msg τ)]).map Msg.id else []
      rw [hlate]
      cases s.drained with
      | true => simp
      | false => rfl
  | expire t => exact ⟨honce, hlate, hcleared⟩
  | shutdown => exact ⟨honce, hlate, hcleared⟩
  | read rcv hr => exact ⟨honce, hlate, hcleared⟩
  | readFail ec hr hec =>
    simp only [drained, TcpSession.cleared, hr] at hlate hcleared
    exact ⟨honce, hlate, hcleared⟩
  | top hs | test hs _ | close hs | writeFail _ _ hs _ =>
    simp only [drained, TcpSession.cleared, hs] at hlate hcleared
    exact ⟨honce, hlate, hcleared⟩
  | turn n pc pc' snd hs ht =>
    -- `goSend` has not left, so nothing is drained
    have hopen : ∀ s' : TcpSession τ, s'.Closing → s'.closes = s.closes → s'.drained = false := by
      intro s' hcs heq
      by_contra hd
      have hpos := hcs.closes_pos (Bool.of_not_eq_false hd)
      have hleft := (hc.left (heq ▸ hpos)).2
      rw [hs] at hleft
      cases hleft
    rw [hopen s hc rfl] at hlate
    have hd' := hopen _ hc' rfl
    refine ⟨fun t => ?_, ?_, fun hcl => ?_⟩
    · rw [(ht.places_perm.map Prod.fst).count_eq]
      exact honce t
    · rw [hd']
      exact hlate
    · rw [drained_of_cleared hcl] at hd'
      cases hd'
  | receiveLeave pc pc' s' hr hl => exact hcopy.receiveLeave hc hr hl
  | sendLeave pc pc' s' hs hl => exact hcopy.sendLeave hc hs hl

theorem reach_accounted : ∀ s : TcpSession τ, Reach (Init maxPackSize) (step receiveCb) s →
    s.Accounted := by
  refine ReachIf.invariant_with Closing (fun s hs => (reach_closing s hs).1) (fun s h => ?_)
    fun s s' a hc hinv _ hst => (step_cases hst).accounted hc hinv
  subst h
  exact ⟨fun t => rfl, rfl, nofun⟩

/-- **Every `Send` is answered, unless it pushed too late.**  In every interleaving, when
the session is closed and all calls of `Send` have returned, each callback has been
called exactly once if and only if no `Send` pushed its message after `OnClose` had
drained the channel. -/
theorem send_answered_iff (receiveCb : Bool) (maxPackSize : UInt32) {s : TcpSession τ}
    (hs : Reach (Init maxPackSize) (step receiveCb) s) (hclosed : s.disconnects ≠ [])
    (hreturned : ∀ t, s.calls.pc t = .idle ∨ s.calls.pc t = .returned) :
    (∀ t, s.calls.pc t ≠ .idle → s.answered t = 1) ↔ s.late = [] := by
  obtain ⟨honce, hlate, hcleared⟩ := reach_accounted s hs
  have hlist : s.snd.msgSendList_ = [] := hcleared (by simp [cleared, hclosed])
  rw [drained, isEmpty_eq_false_iff.mpr hclosed, Bool.not_false, Bool.or_true,
    if_pos rfl] at hlate
  -- a message that is not answered is in the channel, where nobody looks any more
  have hsum : ∀ t, s.answered t + s.late.count t = if s.calls.pc t = .returned then 1 else 0 := by
    intro t
    rw [← honce t, Sender.places, hlist, answered, hlate]
    simp [count_append, Msg.key, Function.comp_def]
  constructor
  · intro hans
    by_contra hne
    obtain ⟨t, rest, hl⟩ := exists_cons_of_ne_nil hne
    have hpos : 0 < s.late.count t := count_pos_iff.mpr (hl ▸ mem_cons_self)
    have ht := hsum t
    split_ifs at ht with hret
    · have := hans t (by simp [hret])
      omega
    · omega
  · intro hnil t ht
    have hret := (hreturned t).resolve_left ht
    have hone := hsum t
    rw [hnil, count_nil, if_pos hret] at hone
    exact hone

theorem send_answered_iff_drained : ∃ s : TcpSession Unit, Reach (Init 4) (step false) s ∧
    s.disconnects ≠ [] ∧ ∀ t, s.calls.pc t ≠ .idle → s.answered t = 1 := by
  have hs : Reach (Init 4) (step false) _ := reach_exec (s := (.new 4 : TcpSession Unit))
    [.call () [7], .send () false, .send () false, .receive ⟨.system, 2⟩ [] 0,
      .receive .success [] 0, .receive .success [] 0, .go 0 .success, .go 0 .success,
      .go 0 .success, .go 0 .success, .go 0 .success, .go 0 .success]
    (.start rfl) rfl
  exact ⟨_, hs, nofun, (send_answered_iff false 4 hs nofun fun _ => .inr rfl).mpr rfl⟩

/-- The session closes between the test and the push of a `Send`, whose callback is then
never called. -/
theorem push_after_close_unanswered : ∃ s : TcpSession Unit, Reach (Init 4) (step false) s ∧
    s.receive = .exit .finished ∧ s.send = .exit .finished ∧ s.disconnects ≠ [] ∧
    (∀ t, s.calls.pc t = .returned) ∧ s.answered () = 0 := by
  have hs : Reach (Init 4) (step false) _ := reach_exec (s := (.new 4 : TcpSession Unit))
    [.call () [7], .send () false, .receive ⟨.system, 2⟩ [] 0, .receive .success [] 0,
      .receive .success [] 0, .go 0 .success, .go 0 .success, .go 0 .success, .go 0 .success,
      .go 0 .success, .send () false]
    (.start rfl) rfl
  exact ⟨_, hs, rfl, rfl, nofun, fun _ => rfl, rfl⟩

end TcpSession
