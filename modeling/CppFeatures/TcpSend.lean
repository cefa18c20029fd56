/-
The send loop of `TcpSession` (network/tcp_detail.cpp).

`goSend` moves messages from `msg_chan_` to `msg_send_list_`, offers up to 1024 of
them to `write_some`, and then walks the list again to account for the bytes that
the socket accepted.  A message whose `timeout` flag is set is dropped when it is
popped and while the buffers are made, unless part of it has been sent.  The flags
are set by timers and messages are pushed by `Send` at any moment.

* `Sender.popStep`, `buildStep`, `writeStep`, `accountStep` — the loops of `goSend`,
  one turn at a time;
* `Sender.Turn` — what one turn can do;
* `Sending.Inv` — the bytes accepted, the places of the messages, the offered
  buffers;
* `Sending.delivers_in_order` — each message is delivered contiguously, in order and
  once.
-/
import CppFeatures.TcpReceive
import Mathlib.Data.List.Perm.Basic
import Mathlib.Data.List.Infix
import Mathlib.Data.BitVec

/-! ### The loops -/

/-- `TcpSession::Msg`, apart from its `timeout` flag.  A message without a callback is
one whose callback does nothing. -/
structure Msg (ι : Type*) where
  id : ι
  buf : List UInt8
  pos : ℕ := 0
  sendHalf : Bool := false
deriving DecidableEq, Repr

/-- The bytes still to be sent. -/
def Msg.rest {ι : Type*} (msg : Msg ι) : List UInt8 := msg.buf.drop msg.pos

/-- What does not change about a message. -/
def Msg.key {ι : Type*} (msg : Msg ι) : ι × List UInt8 := (msg.id, msg.buf)

def cMulti : ℕ := 1024

/-- The members that `goSend` uses, and the flags of all messages.  `answers` records the
calls of callbacks, `accepted` the bytes that the socket took, and `overrun` that
`buffers` was indexed past its size. -/
structure Sender (ι : Type*) where
  msgChan_ : List (Msg ι)
  msgSendList_ : List (Msg ι)
  timeout : ι → Bool
  answers : List (Msg ι × BoostEc)
  accepted : List UInt8
  overrun : Bool

/-- Where `goSend` stands.  `crashed` is the `std::length_error` of a negative size. -/
inductive SendPc
  | top
  | popping (i : ℕ)
  | building (i : ℕ) (buffers : List (List UInt8))
  | writing (buffers : List (List UInt8))
  | accounting (n : ℕ)
  | crashed
deriving DecidableEq, Repr

/-- The bytes that were accepted and not yet accounted for. -/
def SendPc.unaccounted : SendPc → ℕ
  | .accounting n => n
  | _ => 0

namespace Sender

open List

variable {ι : Type*}

def new : Sender ι := ⟨[], [], fun _ => false, [], [], false⟩

-- `msg->cb(ec)`
def answer (s : Sender ι) (msg : Msg ι) (ec : BoostEc) : Sender ι :=
  { s with answers := s.answers ++ [(msg, ec)] }

/-- `std::min<int>(msg_send_list_.size(), c_multi)`. -/
def bufferCount (s : Sender ι) : ℤ := min (BitVec.ofNat 32 s.msgSendList_.length).toInt cMulti

-- after the loop over the channel
def endPop (s : Sender ι) : SendPc :=
  if s.msgSendList_ = [] then .top
  else if s.bufferCount < 0 then .crashed
  else .building 0 (List.replicate s.bufferCount.toNat [])

/-- A turn of the loop that pops messages. -/
def popStep (s : Sender ι) (i : ℕ) : Sender ι × SendPc :=
  if i < cMulti then match s.msgChan_ with
    | msg :: chan =>
      let s := { s with msgChan_ := chan }
      (if s.timeout msg.id then s.answer msg (makeNetworkErrorCode .ecTimeout)
        else { s with msgSendList_ := s.msgSendList_ ++ [msg] }, .popping (i + 1))
    | [] => (s, s.endPop)
  else (s, s.endPop)

-- after the loop over the list
def endBuild (i : ℕ) (buffers : List (List UInt8)) : SendPc :=
  if (buffers.take i).isEmpty then .top else .writing (buffers.take i)

/-- A turn of the loop that makes the buffers; `it` is at index `i`. -/
def buildStep (s : Sender ι) (i : ℕ) (buffers : List (List UInt8)) : Sender ι × SendPc :=
  match s.msgSendList_[i]? with
  | none => (s, endBuild i buffers)
  | some msg =>
    if s.timeout msg.id && !msg.sendHalf then
      ({ s.answer msg (makeNetworkErrorCode .ecTimeout) with
        msgSendList_ := s.msgSendList_.eraseIdx i }, .building i buffers)
    else if i ≥ cMulti then (s, endBuild i buffers)
    else ({ s with overrun := s.overrun || decide (buffers.length ≤ i) },
      .building (i + 1) (buffers.set i msg.rest))

/-- `write_some` accepts `n` bytes. -/
def writeStep (s : Sender ι) (buffers : List (List UInt8)) (n : ℕ) : Option (Sender ι × SendPc) :=
  if n ≤ buffers.flatten.length then
    some ({ s with accepted := s.accepted ++ buffers.flatten.take n }, .accounting n)
  else none

/-- A turn of the loop that accounts for the `n` accepted bytes. -/
def accountStep (s : Sender ι) (n : ℕ) : Sender ι × SendPc :=
  match s.msgSendList_ with
  | msg :: list =>
    if n > 0 then
      let msgCapa := msg.buf.length - msg.pos
      if msgCapa ≤ n then
        ({ s.answer msg .success with msgSendList_ := list }, .accounting (n - msgCapa))
      else
        ({ s with
          msgSendList_ := { msg with pos := msg.pos + n, sendHalf := true } :: list }, .top)
    else (s, .top)
  | [] => (s, .top)

/-- One turn of `goSend` inside its loop; `n` is the answer of `write_some`. -/
def turn (s : Sender ι) (n : ℕ) : SendPc → Option (Sender ι × SendPc)
  | .top => none
  | .popping i => some (s.popStep i)
  | .building i buffers => some (s.buildStep i buffers)
  | .writing buffers => s.writeStep buffers n
  | .accounting k => some (s.accountStep k)
  | .crashed => none

/-- What one turn can do. -/
inductive Turn (s : Sender ι) (n : ℕ) : SendPc → Sender ι → SendPc → Prop
  | popDrop (i : ℕ) (msg : Msg ι) (chan : List (Msg ι)) (hi : i < cMulti)
      (hc : s.msgChan_ = msg :: chan) (ht : s.timeout msg.id = true) :
      Turn s n (.popping i) ⟨chan, s.msgSendList_, s.timeout,
        s.answers ++ [(msg, makeNetworkErrorCode .ecTimeout)], s.accepted, s.overrun⟩
        (.popping (i + 1))
  | popKeep (i : ℕ) (msg : Msg ι) (chan : List (Msg ι)) (hi : i < cMulti)
      (hc : s.msgChan_ = msg :: chan) :
      Turn s n (.popping i) ⟨chan, s.msgSendList_ ++ [msg], s.timeout, s.answers, s.accepted,
        s.overrun⟩ (.popping (i + 1))
  | popEnd (i : ℕ) : Turn s n (.popping i) s s.endPop
  | drop (as bs : List (Msg ι)) (msg : Msg ι) (buffers : List (List UInt8))
      (hl : s.msgSendList_ = as ++ msg :: bs) (hh : msg.sendHalf = false) :
      Turn s n (.building as.length buffers) ⟨s.msgChan_, as ++ bs, s.timeout,
        s.answers ++ [(msg, makeNetworkErrorCode .ecTimeout)], s.accepted, s.overrun⟩
        (.building as.length buffers)
  | offer (as bs : List (Msg ι)) (msg : Msg ι) (buffers : List (List UInt8))
      (hl : s.msgSendList_ = as ++ msg :: bs) (hi : as.length < cMulti) :
      Turn s n (.building as.length buffers) ⟨s.msgChan_, s.msgSendList_, s.timeout, s.answers,
        s.accepted, s.overrun || decide (buffers.length ≤ as.length)⟩
        (.building (as.length + 1) (buffers.set as.length msg.rest))
  | buildEnd (i : ℕ) (buffers : List (List UInt8)) :
      Turn s n (.building i buffers) s (endBuild i buffers)
  | write (buffers : List (List UInt8)) (hn : n ≤ buffers.flatten.length) :
      Turn s n (.writing buffers) ⟨s.msgChan_, s.msgSendList_, s.timeout, s.answers,
        s.accepted ++ buffers.flatten.take n, s.overrun⟩ (.accounting n)
  | sent (k : ℕ) (msg : Msg ι) (list : List (Msg ι)) (hl : s.msgSendList_ = msg :: list)
      (hk : msg.buf.length - msg.pos ≤ k) :
      Turn s n (.accounting k) ⟨s.msgChan_, list, s.timeout, s.answers ++ [(msg, BoostEc.success)], s.accepted,
        s.overrun⟩ (.accounting (k - (msg.buf.length - msg.pos)))
  | half (k : ℕ) (msg : Msg ι) (list : List (Msg ι)) (hl : s.msgSendList_ = msg :: list)
      (hk : 0 < k) (hlt : k < msg.buf.length - msg.pos) :
      Turn s n (.accounting k) ⟨s.msgChan_, ⟨msg.id, msg.buf, msg.pos + k, true⟩ :: list,
        s.timeout, s.answers, s.accepted, s.overrun⟩ .top
  | accountEnd (k : ℕ) (hk : k = 0 ∨ s.msgSendList_ = []) : Turn s n (.accounting k) s .top

theorem turn_cases {s s' : Sender ι} {n : ℕ} {pc pc' : SendPc}
    (h : s.turn n pc = some (s', pc')) : Turn s n pc s' pc' := by
  cases pc with
  | top => cases h
  | crashed => cases h
  | popping i =>
    rw [turn, Option.some_inj, popStep] at h
    split_ifs at h with hi
    · cases hc : s.msgChan_ with
      | nil =>
        rw [hc] at h
        cases h
        exact .popEnd i
      | cons msg chan =>
        rw [hc] at h
        by_cases ht : s.timeout msg.id = true
        · simp only [ht, if_true, answer] at h
          cases h
          exact .popDrop i msg chan hi hc ht
        · simp only [ht] at h
          cases h
          exact .popKeep i msg chan hi hc
    · cases h
      exact .popEnd i
  | building i buffers =>
    rw [turn, Option.some_inj, buildStep] at h
    cases hm : s.msgSendList_[i]? with
    | none =>
      rw [hm] at h
      cases h
      exact .buildEnd i buffers
    | some msg =>
      obtain ⟨hlt, hget⟩ := List.getElem?_eq_some_iff.mp hm
      have hlen : (s.msgSendList_.take i).length = i := by
        rw [length_take, Nat.min_eq_left hlt.le]
      have hl : s.msgSendList_ = s.msgSendList_.take i ++ msg :: s.msgSendList_.drop (i + 1) := by
        rw [← hget, getElem_cons_drop, take_append_drop]
      rw [hm] at h
      dsimp only at h
      split_ifs at h with ht hi
      · cases h
        rw [Bool.and_eq_true, Bool.not_eq_true'] at ht
        have hturn := Turn.drop (n := n) _ _ msg buffers hl ht.2
        rw [hlen, ← eraseIdx_eq_take_drop_succ] at hturn
        exact hturn
      · cases h
        exact .buildEnd i buffers
      · cases h
        have hturn := Turn.offer (n := n) _ _ msg buffers hl (by rw [hlen]; exact Nat.lt_of_not_le hi)
        rw [hlen] at hturn
        exact hturn
  | writing buffers =>
    rw [turn, writeStep] at h
    split_ifs at h with hn
    cases h
    exact .write buffers hn
  | accounting k =>
    rw [turn, Option.some_inj, accountStep] at h
    cases hl : s.msgSendList_ with
    | nil =>
      rw [hl] at h
      cases h
      exact .accountEnd k (.inr hl)
    | cons msg list =>
      rw [hl] at h
      dsimp only at h
      split_ifs at h with hk hcap
      · cases h
        exact .sent k msg list hl hcap
      · cases h
        exact .half k msg list hl hk (Nat.lt_of_not_le hcap)
      · cases h
        exact .accountEnd k (.inl (by omega))

/-! ### Where the messages are -/

/-- The messages answered, listed and waiting. -/
def places (s : Sender ι) : List (ι × List UInt8) :=
  s.answers.map (fun a => a.1.key) ++ (s.msgSendList_.map Msg.key ++ s.msgChan_.map Msg.key)

/-- The messages whose callback got success, oldest first. -/
def succeeded (s : Sender ι) : List (Msg ι) :=
  (s.answers.filter fun a => decide (a.2 = .success)).map Prod.fst

/-- The messages that were delivered, and those that may still be. -/
def inOrder (s : Sender ι) : List (ι × List UInt8) :=
  s.succeeded.map Msg.key ++ (s.msgSendList_.map Msg.key ++ s.msgChan_.map Msg.key)

variable {s s' : Sender ι} {n : ℕ} {pc pc' : SendPc}

/-- A turn moves messages between places, and loses none. -/
theorem Turn.places_perm (h : Turn s n pc s' pc') : s'.places.Perm s.places := by
  cases h with
  | popDrop i msg chan hi hc ht =>
    simp only [places, hc, map_append, map_cons, map_nil, append_assoc,
      singleton_append]
    exact (perm_middle.symm).append_left _
  | popKeep i msg chan hi hc =>
    simp [places, hc]
  | popEnd i => exact .refl _
  | drop as bs msg buffers hl hh =>
    simp only [places, hl, map_append, map_cons, map_nil, append_assoc,
      cons_append, nil_append]
    exact (perm_middle.symm).append_left _
  | offer as bs msg buffers hl hi => exact .refl _
  | buildEnd i buffers => exact .refl _
  | write buffers hn => exact .refl _
  | sent k msg list hl hk => simp [places, hl]
  | half k msg list hl hk hlt =>
    simp only [places, hl]
    exact .refl _
  | accountEnd k hk => exact .refl _

/-- Inside the loop a callback gets success or a timeout. -/
theorem Turn.answers (h : Turn s n pc s' pc') : ∀ a ∈ s'.answers, a ∈ s.answers ∨
    a.2 = .success ∨ a.2 = makeNetworkErrorCode .ecTimeout := by
  have happend : ∀ (msg : Msg ι) (ec : BoostEc),
      ec = .success ∨ ec = makeNetworkErrorCode .ecTimeout →
      ∀ a ∈ s.answers ++ [(msg, ec)], a ∈ s.answers ∨
        a.2 = .success ∨ a.2 = makeNetworkErrorCode .ecTimeout := by
    intro msg ec hec a ha
    rcases mem_append.mp ha with ha | ha
    · exact .inl ha
    · rw [mem_singleton.mp ha]
      exact .inr hec
  cases h with
  | popDrop i msg chan hi hc ht => exact happend msg _ (.inr rfl)
  | drop as bs msg buffers hl hh => exact happend msg _ (.inr rfl)
  | sent k msg list hl hk => exact happend msg _ (.inl rfl)
  | _ => exact fun a ha => .inl ha

theorem succeeded_append (s : Sender ι) (msg : Msg ι) (ec : BoostEc) :
    ((s.answers ++ [(msg, ec)]).filter fun a => decide (a.2 = .success)).map Prod.fst
      = s.succeeded ++ if ec = .success then [msg] else [] := by
  rw [filter_append, map_append]
  by_cases hec : ec = .success
  · simp [succeeded, hec]
  · simp [succeeded, hec]

/-- A turn drops messages from the order, and changes nothing else about it. -/
theorem Turn.inOrder_sublist (h : Turn s n pc s' pc') : s'.inOrder.Sublist s.inOrder := by
  have htimeout : makeNetworkErrorCode .ecTimeout ≠ BoostEc.success := by decide
  cases h with
  | popDrop i msg chan hi hc ht =>
    simp only [inOrder, succeeded, succeeded_append, if_neg htimeout, hc, map_cons,
      append_nil]
    exact ((sublist_cons_self ..).append_left _).append_left _
  | popKeep i msg chan hi hc => simp [inOrder, succeeded, hc]
  | popEnd i => exact .refl _
  | drop as bs msg buffers hl hh =>
    simp only [inOrder, succeeded, succeeded_append, if_neg htimeout, hl, map_append,
      map_cons, append_nil]
    exact (((sublist_cons_self ..).append_left _).append_right _).append_left _
  | offer as bs msg buffers hl hi => exact .refl _
  | buildEnd i buffers => exact .refl _
  | write buffers hn => exact .refl _
  | sent k msg list hl hk =>
    simp only [inOrder, succeeded, succeeded_append, if_true, hl]
    simp
  | half k msg list hl hk hlt =>
    simp only [inOrder, succeeded, hl]
    exact .refl _
  | accountEnd k hk => exact .refl _

/-! ### The list and the bytes -/

/-- Only the head of the list can be half sent, and then it is marked; what is dropped
has not been touched. -/
structure Sound (s : Sender ι) : Prop where
  fresh : ∀ msg ∈ s.msgChan_, msg.pos = 0 ∧ msg.sendHalf = false ∧ msg.buf ≠ []
  listed : ∀ msg ∈ s.msgSendList_, (msg.sendHalf = true ↔ 0 < msg.pos) ∧ msg.pos < msg.buf.length
  tail : ∀ msg ∈ s.msgSendList_.tail, msg.pos = 0
  dropped : ∀ a ∈ s.answers, a.2 = makeNetworkErrorCode .ecTimeout → a.1.pos = 0

/-- A message of the list that is not marked has not been touched. -/
theorem Sound.pos_eq_zero (h : s.Sound) {msg : Msg ι} (hm : msg ∈ s.msgSendList_)
    (hh : msg.sendHalf = false) : msg.pos = 0 := by
  by_contra hne
  have := (h.listed msg hm).1.mpr (Nat.pos_of_ne_zero hne)
  rw [hh] at this
  cases this

theorem Sound.answer_dropped (h : s.Sound) {msg : Msg ι} (hpos : msg.pos = 0) :
    ∀ a ∈ s.answers ++ [(msg, makeNetworkErrorCode .ecTimeout)],
      a.2 = makeNetworkErrorCode .ecTimeout → a.1.pos = 0 := by
  intro a ha hec
  rcases mem_append.mp ha with ha | ha
  · exact h.dropped a ha hec
  · rw [mem_singleton.mp ha]
    exact hpos

theorem mem_tail_remove {α : Type*} {as bs : List α} {x y : α} (h : y ∈ (as ++ bs).tail) :
    y ∈ (as ++ x :: bs).tail := by
  cases as with
  | nil => exact mem_of_mem_tail h
  | cons a as =>
    rcases mem_append.mp h with h | h
    · exact mem_append_left _ h
    · exact mem_append_right _ (mem_cons_of_mem _ h)

theorem Turn.sound (h : Turn s n pc s' pc') (hs : s.Sound) : s'.Sound := by
  cases h with
  | popDrop i msg chan hi hc ht =>
    have hfresh := hs.fresh
    rw [hc] at hfresh
    exact ⟨fun m hm => hfresh m (mem_cons_of_mem _ hm), hs.listed, hs.tail,
      hs.answer_dropped (hfresh msg mem_cons_self).1⟩
  | popKeep i msg chan hi hc =>
    have hfresh := hs.fresh
    rw [hc] at hfresh
    obtain ⟨hpos, hhalf, hbuf⟩ := hfresh msg mem_cons_self
    refine ⟨fun m hm => hfresh m (mem_cons_of_mem _ hm), fun m hm => ?_, fun m hm => ?_,
      hs.dropped⟩
    · rcases mem_append.mp hm with hm | hm
      · exact hs.listed m hm
      · rw [mem_singleton.mp hm, hpos, hhalf]
        exact ⟨by simp, length_pos_iff.mpr hbuf⟩
    · change m ∈ (s.msgSendList_ ++ [msg]).tail at hm
      cases hl : s.msgSendList_ with
      | nil => simp [hl] at hm
      | cons x xs =>
        rw [hl] at hm
        rcases mem_append.mp hm with hm | hm
        · exact hs.tail m (hl ▸ hm)
        · rw [mem_singleton.mp hm, hpos]
  | popEnd i => exact hs
  | drop as bs msg buffers hl hh =>
    have hmsg : msg ∈ s.msgSendList_ := by simp [hl]
    refine ⟨hs.fresh, fun m hm => hs.listed m ?_, fun m hm => hs.tail m ?_,
      hs.answer_dropped (hs.pos_eq_zero hmsg hh)⟩
    · rw [hl]
      rcases mem_append.mp hm with hm | hm
      · exact mem_append_left _ hm
      · exact mem_append_right _ (mem_cons_of_mem _ hm)
    · rw [hl]
      exact mem_tail_remove hm
  | offer as bs msg buffers hl hi => exact ⟨hs.fresh, hs.listed, hs.tail, hs.dropped⟩
  | buildEnd i buffers => exact hs
  | write buffers hn => exact ⟨hs.fresh, hs.listed, hs.tail, hs.dropped⟩
  | sent k msg list hl hk =>
    have hlisted := hs.listed
    have htail := hs.tail
    rw [hl] at hlisted htail
    refine ⟨hs.fresh, fun m hm => hlisted m (mem_cons_of_mem _ hm),
      fun m hm => htail m (mem_of_mem_tail hm), fun a ha hec => ?_⟩
    rcases mem_append.mp ha with ha | ha
    · exact hs.dropped a ha hec
    · rw [mem_singleton.mp ha] at hec
      have hne : BoostEc.success ≠ makeNetworkErrorCode .ecTimeout := by decide
      exact absurd hec hne
  | half k msg list hl hk hlt =>
    have hlisted := hs.listed
    have htail := hs.tail
    rw [hl] at hlisted htail
    refine ⟨hs.fresh, fun m hm => ?_, htail, hs.dropped⟩
    rcases mem_cons.mp hm with rfl | hm
    · exact ⟨⟨fun _ => Nat.add_pos_right _ hk, fun _ => rfl⟩, Nat.add_lt_of_lt_sub' hlt⟩
    · exact hlisted m (mem_cons_of_mem _ hm)
  | accountEnd k hk => exact hs

/-- All bytes still to be sent. -/
def stream (s : Sender ι) : List UInt8 := (s.msgSendList_.map Msg.rest).flatten

/-- What the socket has accepted of the message at the head of a list. -/
def headPart : List (Msg ι) → List UInt8
  | [] => []
  | msg :: _ => msg.buf.take msg.pos

theorem headPart_eq_nil {list : List (Msg ι)} (h : ∀ msg ∈ list, msg.pos = 0) :
    headPart list = [] := by
  cases list with
  | nil => rfl
  | cons msg list => rw [headPart, h msg mem_cons_self, take_zero]

theorem headPart_append {list : List (Msg ι)} {msg : Msg ι} (h : msg.pos = 0) :
    headPart (list ++ [msg]) = headPart list := by
  cases list with
  | nil => simp [headPart, h]
  | cons m list => rfl

theorem headPart_remove {as bs : List (Msg ι)} {msg : Msg ι} (h : msg.pos = 0)
    (htail : ∀ m ∈ (as ++ msg :: bs).tail, m.pos = 0) :
    headPart (as ++ bs) = headPart (as ++ msg :: bs) := by
  cases as with
  | nil =>
    have hbs : headPart bs = [] := headPart_eq_nil htail
    rw [nil_append, hbs, nil_append, headPart, h, take_zero]
  | cons m as => rfl

/-- What holds at each place of the loop; the list has less than `2 ^ 31` messages
wherever `goSend` does not stop. -/
def At (s : Sender ι) : SendPc → Prop
  | .top => s.msgSendList_.length < 2 ^ 31
  | .popping i => i ≤ cMulti ∧ s.msgSendList_.length < 2 ^ 31 + i
  | .building i buffers => s.msgSendList_.length < 2 ^ 31 ∧ i ≤ s.msgSendList_.length ∧
      buffers.take i = (s.msgSendList_.take i).map Msg.rest ∧
      min s.msgSendList_.length cMulti ≤ buffers.length
  | .writing buffers => s.msgSendList_.length < 2 ^ 31 ∧ buffers <+: s.msgSendList_.map Msg.rest
  | .accounting n => s.msgSendList_.length < 2 ^ 31 ∧ n ≤ s.stream.length
  | .crashed => True

/-- A list of less than `2 ^ 31 + 1025` messages gets buffers only if it is shorter than
`2 ^ 31`: the size is converted to `int`. -/
theorem bufferCount_eq (hlen : s.msgSendList_.length ≤ 2 ^ 31 + cMulti)
    (hcount : ¬s.bufferCount < 0) :
    s.msgSendList_.length < 2 ^ 31 ∧ s.bufferCount = min s.msgSendList_.length cMulti := by
  have hmod : s.msgSendList_.length % 2 ^ 32 = s.msgSendList_.length :=
    Nat.mod_eq_of_lt (by rw [cMulti] at hlen; omega)
  rw [bufferCount, BitVec.toInt_eq_toNat_cond, BitVec.toNat_ofNat, hmod, cMulti] at hcount ⊢
  split_ifs at hcount ⊢ <;> omega

/-- There is a buffer for every message that is offered. -/
theorem At.room {as bs : List (Msg ι)} {msg : Msg ι} {buffers : List (List UInt8)}
    (hat : s.At (.building as.length buffers)) (hl : s.msgSendList_ = as ++ msg :: bs)
    (hi : as.length < cMulti) : as.length < buffers.length := by
  obtain ⟨-, -, -, hmin⟩ := hat
  rw [hl, length_append, length_cons] at hmin
  omega

theorem Turn.at (h : Turn s n pc s' pc') (hat : s.At pc) : s'.At pc' := by
  cases h with
  | popDrop i msg chan hi hc ht => exact ⟨hi, Nat.lt_succ_of_lt hat.2⟩
  | popKeep i msg chan hi hc =>
    refine ⟨hi, ?_⟩
    have := hat.2
    simp only [length_append, length_singleton]
    omega
  | popEnd i =>
    obtain ⟨hi, hlen⟩ := hat
    rw [endPop]
    split_ifs with hnil hcount
    · simp [At, hnil]
    · trivial
    · obtain ⟨hlt, hcount⟩ := bufferCount_eq (by omega) hcount
      refine ⟨hlt, Nat.zero_le _, by simp, ?_⟩
      rw [length_replicate, hcount]
      omega
  | drop as bs msg buffers hl hh =>
    obtain ⟨hlt, hi, htake, hmin⟩ := hat
    rw [hl] at hlt htake hmin
    simp only [length_append, length_cons, take_left'] at hlt htake hmin
    refine ⟨?_, ?_, ?_, ?_⟩ <;> simp only [length_append]
    · omega
    · omega
    · rw [htake]
      simp
    · omega
  | offer as bs msg buffers hl hi =>
    have hroom := hat.room hl hi
    obtain ⟨hlt, hi', htake, hmin⟩ := hat
    have hlen : as.length + 1 ≤ s.msgSendList_.length := by simp [hl]
    refine ⟨hlt, hlen, ?_, by rwa [length_set]⟩
    have hsplit : as ++ msg :: bs = (as ++ [msg]) ++ bs := by simp
    rw [take_add_one, List.getElem?_set_self hroom, take_set_of_le (Nat.le_refl _),
      htake, hl, take_left, hsplit, take_left' (by simp), map_append]
    rfl
  | buildEnd i buffers =>
    obtain ⟨hlt, hi, htake, hmin⟩ := hat
    rw [endBuild]
    split_ifs
    · exact hlt
    · refine ⟨hlt, ?_⟩
      rw [htake]
      exact (List.take_prefix ..).map _
  | write buffers hn =>
    obtain ⟨hlt, hpre⟩ := hat
    refine ⟨hlt, hn.trans ?_⟩
    obtain ⟨more, hmore⟩ := hpre
    simp only [stream, ← hmore, flatten_append, length_append]
    omega
  | sent k msg list hl hk =>
    obtain ⟨hlt, hle⟩ := hat
    simp only [stream, hl, map_cons, flatten_cons, length_append, Msg.rest,
      length_drop, length_cons] at hlt hle
    refine ⟨?_, ?_⟩
    · simp only
      omega
    · simp only [stream]
      omega
  | half k msg list hl hk hlt =>
    have := hat.1
    simpa [At, hl] using this
  | accountEnd k hk => exact hat.1

theorem Turn.overrun (h : Turn s n pc s' pc') (hat : s.At pc) (ho : s.overrun = false) :
    s'.overrun = false := by
  cases h with
  | offer as bs msg buffers hl hi =>
    have := hat.room hl hi
    simp [ho, this]
  | _ => exact ho

/-- The socket has accepted the messages that succeeded, the first part of the head, and
what is not accounted for yet. -/
def Balanced (s : Sender ι) (pc : SendPc) : Prop :=
  s.accepted = (s.succeeded.map Msg.buf).flatten ++ headPart s.msgSendList_ ++
    s.stream.take pc.unaccounted

theorem Turn.balanced (h : Turn s n pc s' pc') (hs : s.Sound) (hat : s.At pc)
    (hb : s.Balanced pc) : s'.Balanced pc' := by
  have htimeout : makeNetworkErrorCode .ecTimeout ≠ BoostEc.success := by decide
  rw [Balanced] at hb ⊢
  cases h with
  | popDrop i msg chan hi hc ht =>
    rw [succeeded, succeeded_append, if_neg htimeout, append_nil]
    exact hb
  | popKeep i msg chan hi hc =>
    have hpos := (hs.fresh msg (hc ▸ mem_cons_self)).1
    show s.accepted = _ ++ headPart (s.msgSendList_ ++ [msg]) ++ List.take 0 _
    rw [headPart_append hpos]
    exact hb
  | popEnd i =>
    have hun : s.endPop.unaccounted = 0 := by rw [endPop]; split_ifs <;> rfl
    rw [hun]
    exact hb
  | drop as bs msg buffers hl hh =>
    have hpos := hs.pos_eq_zero (hl ▸ by simp) hh
    have htail := hs.tail
    rw [hl] at htail
    rw [succeeded, succeeded_append, if_neg htimeout, append_nil]
    show s.accepted = _ ++ headPart (as ++ bs) ++ List.take 0 _
    rw [headPart_remove hpos htail, ← hl]
    exact hb
  | offer as bs msg buffers hl hi => exact hb
  | buildEnd i buffers =>
    have hun : (endBuild i buffers).unaccounted = 0 := by rw [endBuild]; split_ifs <;> rfl
    rw [hun]
    exact hb
  | write buffers hn =>
    obtain ⟨more, hmore⟩ := hat.2
    have hstream : s.stream.take n = buffers.flatten.take n := by
      rw [stream, ← hmore, flatten_append, take_append_of_le_length hn]
    have hb : s.accepted = (s.succeeded.map Msg.buf).flatten ++ headPart s.msgSendList_ ++ [] := hb
    show s.accepted ++ buffers.flatten.take n = _ ++ headPart s.msgSendList_ ++ s.stream.take n
    rw [hb, hstream, append_nil]
    rfl
  | sent k msg list hl hk =>
    have htail := hs.tail
    rw [hl] at htail
    have hlen : msg.rest.length = msg.buf.length - msg.pos := length_drop
    have hstream : s.stream.take k
        = msg.rest ++ ((list.map Msg.rest).flatten).take (k - (msg.buf.length - msg.pos)) := by
      rw [stream, hl, map_cons, flatten_cons, take_append, hlen,
        take_of_length_le (by omega)]
    rw [succeeded, succeeded_append, if_pos rfl]
    show s.accepted = _ ++ headPart list ++ ((list.map Msg.rest).flatten).take _
    have hnil : headPart list = [] := headPart_eq_nil htail
    rw [hnil, hb, SendPc.unaccounted, hstream, hl, headPart, map_append, flatten_append]
    have hwhole : msg.buf.take msg.pos ++ msg.rest = msg.buf := take_append_drop ..
    simp only [SendPc.unaccounted, map_cons, map_nil, flatten_cons,
      flatten_nil, append_nil, append_assoc]
    rw [← append_assoc (msg.buf.take msg.pos), hwhole]
  | half k msg list hl hk hlt =>
    have hlen : msg.rest.length = msg.buf.length - msg.pos := length_drop
    have hstream : s.stream.take k = msg.rest.take k := by
      rw [stream, hl, map_cons, flatten_cons, take_append_of_le_length (by omega)]
    show s.accepted = _ ++ msg.buf.take (msg.pos + k) ++ List.take 0 _
    rw [hb, SendPc.unaccounted, hstream, hl, headPart, take_add, take_zero,
      append_nil, append_assoc]
    rfl
  | accountEnd k hk =>
    have hnil : s.stream.take k = [] := by
      rcases hk with rfl | hl
      · exact take_zero
      · rw [stream, hl]
        exact take_nil
    rw [hb, SendPc.unaccounted, hnil]
    rfl

end Sender

/-! ### Runs of the loop -/

/-- `goSend` next to the calls of `Send` and the timers; `pushed` lists what was put in
the channel, oldest first. -/
structure Sending (ι : Type*) where
  snd : Sender ι
  pc : SendPc
  pushed : List (Msg ι)

namespace Sending

variable {ι : Type*}

inductive Act (ι : Type*)
  | push (id : ι) (buf : List UInt8)
  | expire (id : ι)
  | go (n : ℕ)

def Init (s : Sending ι) : Prop := s = ⟨.new, .top, []⟩

variable [DecidableEq ι]

/-- A message is pushed, its timer fires, or `goSend` takes a turn, in which `write_some`
accepts `n` bytes; `goSend` passes the top of its loop, as nothing is shut down. -/
def step (s : Sending ι) : Act ι → Option (Sending ι)
  | .push id buf =>
    if buf ≠ [] ∧ id ∉ s.pushed.map Msg.id then
      let msg : Msg ι := { id := id, buf := buf }
      some ⟨{ s.snd with msgChan_ := s.snd.msgChan_ ++ [msg] }, s.pc, s.pushed ++ [msg]⟩
    else none
  | .expire id =>
    some { s with snd := { s.snd with timeout := Function.update s.snd.timeout id true } }
  | .go n =>
    if s.pc = .top then some { s with pc := .popping 0 }
    else (s.snd.turn n s.pc).map fun r => ⟨r.1, r.2, s.pushed⟩

structure Inv (s : Sending ι) : Prop where
  sound : s.snd.Sound
  at_pc : s.snd.At s.pc
  overrun : s.snd.overrun = false
  balanced : s.snd.Balanced s.pc
  nodup : (s.pushed.map Msg.id).Nodup
  places : s.snd.places.Perm (s.pushed.map Msg.key)
  order : s.snd.inOrder.Sublist (s.pushed.map Msg.key)
  results : ∀ a ∈ s.snd.answers, a.2 = .success ∨ a.2 = makeNetworkErrorCode .ecTimeout

omit [DecidableEq ι] in
theorem inv_init {s : Sending ι} (h : Init s) : Inv s := by
  subst h
  exact ⟨⟨nofun, nofun, nofun, nofun⟩, Nat.two_pow_pos 31, rfl, rfl, List.nodup_nil, .refl _, .refl _, nofun⟩

/-- **One step** keeps the invariant. -/
theorem step_inv {s s' : Sending ι} {a : Act ι} (h : Inv s) (hst : s.step a = some s') :
    Inv s' := by
  obtain ⟨hsound, hat, hover, hbal, hnodup, hplaces, horder, hresults⟩ := h
  cases a with
  | push id buf =>
    rw [step] at hst
    split_ifs at hst with hok
    cases hst
    refine ⟨⟨fun m hm => ?_, hsound.listed, hsound.tail, hsound.dropped⟩, ?_, hover, hbal, ?_, ?_,
      ?_, hresults⟩
    · rcases List.mem_append.mp hm with hm | hm
      · exact hsound.fresh m hm
      · rw [List.mem_singleton.mp hm]
        exact ⟨rfl, rfl, hok.1⟩
    · cases hpc : s.pc <;> rw [hpc] at hat <;> exact hat
    · rw [List.map_append]
      exact List.nodup_append.mpr ⟨hnodup, List.nodup_singleton _, fun a ha b hb e =>
        hok.2 ((e.trans (List.mem_singleton.mp hb) : a = id) ▸ ha)⟩
    · rw [List.map_append]
      have happ := hplaces.append_right [(id, buf)]
      simpa [Sender.places, Msg.key] using happ
    · rw [List.map_append]
      have happ := horder.append_right [(id, buf)]
      simpa [Sender.inOrder, Sender.succeeded, Msg.key] using happ
  | expire id =>
    rw [step] at hst
    cases hst
    refine ⟨⟨hsound.fresh, hsound.listed, hsound.tail, hsound.dropped⟩, ?_, hover, hbal, hnodup,
      hplaces, horder, hresults⟩
    cases hpc : s.pc <;> rw [hpc] at hat <;> exact hat
  | go n =>
    rw [step] at hst
    split_ifs at hst with hpc
    · cases hst
      rw [hpc] at hat hbal
      exact ⟨hsound, ⟨Nat.zero_le _, hat⟩, hover, hbal, hnodup, hplaces, horder, hresults⟩
    · obtain ⟨r, hr, rfl⟩ := Option.map_eq_some_iff.mp hst
      have hturn := Sender.turn_cases hr
      refine ⟨hturn.sound hsound, hturn.at hat, hturn.overrun hat hover,
        hturn.balanced hsound hat hbal, hnodup, hturn.places_perm.trans hplaces,
        hturn.inOrder_sublist.trans horder, fun a ha => ?_⟩
      exact (hturn.answers a ha).elim (hresults a) id

theorem reach_inv : ∀ s : Sending ι, Reach Init step s → Inv s :=
  ReachIf.invariant (fun _ h => inv_init h) fun _ _ _ h _ hst => step_inv h hst

/-- **Each message is delivered contiguously, in order and once.**  For every sequence of
pushed messages, every moment at which their timers fire and every number of bytes
that the socket accepts each time:
the accepted bytes are the buffers of the messages that got success, which stand in the
order of the channel, then the first `pos` bytes of the head of the list, then what the
running loop still has to account for; a message is marked as half sent iff part of it
was accepted, which can only be at the head, and the last byte of a message in the list
was not; every message is in exactly one place, so that its callback is called at most
once, with success or, if none of its bytes was accepted, with a timeout; and `buffers`
is never indexed past its size. -/
theorem delivers_in_order {s : Sending ι} (hs : Reach Init step s) :
    s.snd.accepted = (s.snd.succeeded.map Msg.buf).flatten ++ Sender.headPart s.snd.msgSendList_ ++
        s.snd.stream.take s.pc.unaccounted ∧
      (s.snd.succeeded.map Msg.key ++ (s.snd.msgSendList_.map Msg.key ++
        s.snd.msgChan_.map Msg.key)).Sublist (s.pushed.map Msg.key) ∧
      (∀ msg ∈ s.snd.msgSendList_, (msg.sendHalf = true ↔ 0 < msg.pos) ∧
        msg.pos < msg.buf.length) ∧
      (∀ msg ∈ s.snd.msgSendList_.tail, msg.pos = 0) ∧
      s.snd.places.Perm (s.pushed.map Msg.key) ∧
      (s.snd.answers.map fun a => a.1.id).Nodup ∧
      (∀ a ∈ s.snd.answers, a.2 = .success ∨
        a.2 = makeNetworkErrorCode .ecTimeout ∧ a.1.pos = 0) ∧
      s.snd.overrun = false := by
  have h := reach_inv s hs
  refine ⟨h.balanced, h.order, h.sound.listed, h.sound.tail, h.places, ?_, fun a ha => ?_,
    h.overrun⟩
  · have hids : (s.snd.places.map Prod.fst).Nodup := by
      rw [(h.places.map Prod.fst).nodup_iff, List.map_map]
      exact h.nodup
    rw [Sender.places, List.map_append, List.map_map] at hids
    exact (List.nodup_append.mp hids).1
  · rcases h.results a ha with hec | hec
    · exact .inl hec
    · exact .inr ⟨hec, h.sound.dropped a ha hec⟩

-- two of three bytes are accepted, then the timer of the message fires: it stays
theorem delivers_in_order_half :
    ∃ s : Sending ℕ, exec step ⟨.new, .top, []⟩
        [.push 0 [1, 2, 3], .push 1 [4], .go 0, .go 0, .go 0, .go 0, .go 0, .go 0, .go 0, .go 2,
          .go 0, .expire 0, .go 0, .go 0, .go 0] = some s ∧
      s.snd.accepted = [1, 2] ∧ s.snd.msgSendList_.map Msg.pos = [2, 0] ∧
      s.snd.accepted = (s.snd.succeeded.map Msg.buf).flatten ++
        Sender.headPart s.snd.msgSendList_ ++ s.snd.stream.take s.pc.unaccounted ∧
      s.snd.overrun = false := by
  refine ⟨_, rfl, rfl, rfl, ?_⟩
  have h := delivers_in_order (reach_exec
    [.push 0 [1, 2, 3], .push 1 [4], .go 0, .go 0, .go 0, .go 0, .go 0, .go 0, .go 0, .go 2,
      .go 0, .expire 0, .go 0, .go 0, .go 0]
    (.start (rfl : Init (⟨.new, .top, []⟩ : Sending ℕ))) rfl)
  exact ⟨h.1, h.2.2.2.2.2.2.2⟩

end Sending
