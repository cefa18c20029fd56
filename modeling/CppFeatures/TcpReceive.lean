/-
The receive loop of `TcpSession` (network/tcp_detail.cpp).

`goReceive` reads into the free part of a fixed buffer, offers everything that has
not been consumed to `receive_cb_`, and moves what the callback leaves to the front.

* `Receiver.read`, `Receiver.round` — one round of the loop, up to the call of the callback
  and to its end;
* `Receiver.kept`, `Receiver.round_kept` — what a round does to the bytes kept;
* `Receiving.no_byte_lost` — over any run, what was consumed and what is kept is
  what was read;
* `Receiver.memcpys_disjoint_iff` — when the source and the destination of every
  `memcpy` are disjoint.

The copy of the kept bytes overlaps itself when few bytes were consumed; for the bytes
it is taken as `memmove`.
-/
import CppFeatures.NetworkError
import CppFeatures.Runs
import Mathlib.Algebra.Group.Nat.Defs
import Mathlib.Data.List.Basic

/-! ### One round -/

/-- `recv_buf_`, and the local variable `pos` of the loop. -/
structure Receiver where
  recvBuf_ : List UInt8
  pos : ℕ
deriving DecidableEq, Repr

/-- How a round ends. -/
inductive RoundEnd
  | next (r : Receiver)
  | error (ec : BoostEc)
  | assertFailed
deriving DecidableEq, Repr

namespace Receiver

open List

-- the constructor, with `max_pack_size`
def new (maxPackSize : UInt32) : Receiver := ⟨List.replicate maxPackSize.toNat 0, 0⟩

/-- The buffer after `read_some` stored `chunk` at `pos`. -/
def fill (r : Receiver) (chunk : List UInt8) : List UInt8 :=
  r.recvBuf_.take r.pos ++ chunk ++ r.recvBuf_.drop (r.pos + chunk.length)

/-- What `receive_cb_` is given: `n + pos` bytes from the front. -/
def offer (r : Receiver) (chunk : List UInt8) : List UInt8 :=
  (r.fill chunk).take (chunk.length + r.pos)

/-- `memcpy(&buf[0], &buf[consume], pos)`, taken as `memmove`: where the ranges overlap, the
result of `memcpy` is not defined. -/
def moveFront (buf : List UInt8) (consume pos : ℕ) : List UInt8 :=
  (buf.drop consume).take pos ++ buf.drop pos

/-- A round up to the call of `receive_cb_`. -/
inductive ReadEnd
  | error (ec : BoostEc)
  | nothing
  -- there is no callback
  | stored
  -- the callback is called with `n` bytes
  | offers (n : ℕ)
deriving DecidableEq, Repr

/-- `read_some` answers `chunk` and `readEc`. -/
def read (receiveCb : Bool) (r : Receiver) (readEc : BoostEc) (chunk : List UInt8) : ReadEnd :=
  if r.pos ≥ r.recvBuf_.length then .error (makeNetworkErrorCode .ecRecvOverflow)
  else if readEc.isError then .error readEc
  else if chunk.length > 0 then if receiveCb then .offers (chunk.length + r.pos) else .stored
  else .nothing

/-- One round; the callback, if it is called, returns `consume`. -/
def round (receiveCb : Bool) (r : Receiver) (readEc : BoostEc) (chunk : List UInt8)
    (consume : ℕ) : RoundEnd :=
  match r.read receiveCb readEc chunk with
  | .error ec => .error ec
  | .nothing => .next r
  | .stored => .next ⟨r.fill chunk, r.pos + chunk.length⟩
  | .offers n =>
    -- `(size_t)-1`
    if consume = 2 ^ 64 - 1 then .error (makeNetworkErrorCode .ecDataParseError)
    else if consume ≤ n then
      let pos := n - consume
      .next ⟨if pos > 0 then moveFront (r.fill chunk) consume pos else r.fill chunk, pos⟩
    else .assertFailed

/-- The bytes that have been read and not consumed. -/
def kept (r : Receiver) : List UInt8 := r.recvBuf_.take r.pos

variable {r : Receiver} {chunk : List UInt8} {consume : ℕ}

theorem length_kept (h : r.pos ≤ r.recvBuf_.length) : r.kept.length = r.pos := by
  rw [kept, length_take, Nat.min_eq_left h]

theorem length_fill (h : r.pos + chunk.length ≤ r.recvBuf_.length) :
    (r.fill chunk).length = r.recvBuf_.length := by
  simp only [fill, length_append, length_take, length_drop]
  omega

/-- The callback is given what was kept, and then what was read. -/
theorem offer_eq (h : r.pos + chunk.length ≤ r.recvBuf_.length) :
    r.offer chunk = r.kept ++ chunk := by
  have hlen : (r.kept ++ chunk).length = chunk.length + r.pos := by
    rw [length_append, length_kept (by omega), Nat.add_comm]
  rw [offer, fill, ← kept, ← hlen, take_left]

theorem length_moveFront {buf : List UInt8} {pos : ℕ} (h : consume + pos ≤ buf.length) :
    (moveFront buf consume pos).length = buf.length := by
  simp only [moveFront, length_append, length_take, length_drop]
  omega

theorem take_moveFront {buf : List UInt8} {pos : ℕ} (h : consume + pos ≤ buf.length) :
    (moveFront buf consume pos).take pos = (buf.drop consume).take pos := by
  have hlen : ((buf.drop consume).take pos).length = pos := by
    rw [length_take, length_drop]
    omega
  rw [moveFront, take_append_of_le_length (Nat.le_of_eq hlen.symm),
    take_of_length_le (Nat.le_of_eq hlen)]

/-- A round that calls `receive_cb_`. -/
def Calls (receiveCb : Bool) (r : Receiver) (readEc : BoostEc) (chunk : List UInt8) : Prop :=
  r.pos < r.recvBuf_.length ∧ readEc.isError = false ∧ 0 < chunk.length ∧ receiveCb = true

instance (receiveCb : Bool) (r : Receiver) (readEc : BoostEc) (chunk : List UInt8) :
    Decidable (r.Calls receiveCb readEc chunk) :=
  inferInstanceAs (Decidable (_ ∧ _))

/-- The ways to the call. -/
inductive Reads (receiveCb : Bool) (r : Receiver) (readEc : BoostEc) (chunk : List UInt8) : ReadEnd → Prop
  | overflow (hpos : r.pos ≥ r.recvBuf_.length) :
      Reads receiveCb r readEc chunk (.error (makeNetworkErrorCode .ecRecvOverflow))
  | readError (hec : readEc.isError = true) : Reads receiveCb r readEc chunk (.error readEc)
  | nothing (hno : ¬ 0 < chunk.length) : Reads receiveCb r readEc chunk .nothing
  | stored (hcb : receiveCb = false) : Reads receiveCb r readEc chunk .stored
  | offers (hcalls : r.Calls receiveCb readEc chunk) :
      Reads receiveCb r readEc chunk (.offers (chunk.length + r.pos))

theorem read_reads (receiveCb : Bool) (r : Receiver) (readEc : BoostEc) (chunk : List UInt8) :
    r.Reads receiveCb readEc chunk (r.read receiveCb readEc chunk) := by
  rw [read]
  split_ifs with hpos hec hchunk hcb
  · exact .overflow hpos
  · exact .readError hec
  · exact .offers ⟨Nat.lt_of_not_le hpos, Bool.eq_false_iff.mpr hec, hchunk, hcb⟩
  · exact .stored (Bool.eq_false_iff.mpr hcb)
  · exact .nothing hchunk

theorem read_of_calls {receiveCb : Bool} {ec : BoostEc} (h : r.Calls receiveCb ec chunk) :
    r.read receiveCb ec chunk = .offers (chunk.length + r.pos) := by
  obtain ⟨hpos, hec, hchunk, hcb⟩ := h
  rw [read, if_neg (Nat.not_le.mpr hpos), if_neg (by rw [hec]; decide), if_pos hchunk, if_pos hcb]

/-- Without a callback what is read stays in the buffer. -/
theorem read_stored {ec : BoostEc} (hpos : r.pos < r.recvBuf_.length) (hec : ec.isError = false)
    (hchunk : 0 < chunk.length) : r.read false ec chunk = .stored := by
  rw [read, if_neg (Nat.not_le.mpr hpos), if_neg (by rw [hec]; decide), if_pos hchunk]
  rfl

/-- What a callback consumes in a round: the front of its offer. -/
def eaten (receiveCb : Bool) (r : Receiver) (chunk : List UInt8) (consume : ℕ) : List UInt8 :=
  if receiveCb then (r.offer chunk).take consume else []

/-- **One round** that reads `chunk` and consumes no more than it offers goes on, and
keeps exactly what was kept or read and not consumed. -/
theorem round_kept {receiveCb : Bool} {ec : BoostEc} (hec : ec.isError = false)
    (hsize : r.recvBuf_.length < 2 ^ 32) (hpos : r.pos < r.recvBuf_.length)
    (hchunk : 0 < chunk.length) (hfit : r.pos + chunk.length ≤ r.recvBuf_.length)
    (hconsume : consume ≤ chunk.length + r.pos) :
    ∃ r', r.round receiveCb ec chunk consume = .next r' ∧
      r'.recvBuf_.length = r.recvBuf_.length ∧ r'.pos ≤ r.recvBuf_.length ∧
      r.eaten receiveCb chunk consume ++ r'.kept = r.kept ++ chunk := by
  have hround : r.round receiveCb ec chunk consume = .next (if receiveCb then
      ⟨if chunk.length + r.pos - consume > 0 then
        moveFront (r.fill chunk) consume (chunk.length + r.pos - consume) else r.fill chunk,
        chunk.length + r.pos - consume⟩ else ⟨r.fill chunk, r.pos + chunk.length⟩) := by
    cases receiveCb with
    | false =>
      rw [round, read_stored hpos hec hchunk]
      rfl
    | true =>
      rw [round, read_of_calls ⟨hpos, hec, hchunk, rfl⟩]
      dsimp only
      rw [if_neg (by omega), if_pos hconsume]
      rfl
  have hfill := length_fill hfit
  have hoffer := offer_eq hfit
  refine ⟨_, hround, ?_⟩
  cases receiveCb with
  | false =>
    simp only [Bool.false_eq_true, if_false, eaten, nil_append]
    refine ⟨hfill, hfit, ?_⟩
    rw [← hoffer, kept, offer, Nat.add_comm r.pos]
  | true =>
    have hmove : consume + (chunk.length + r.pos - consume) ≤ (r.fill chunk).length := by omega
    simp only [if_true, eaten]
    split_ifs with hleft
    · refine ⟨(length_moveFront hmove).trans hfill, by omega, ?_⟩
      -- what is moved is the rest of the offer
      rw [kept, take_moveFront hmove, ← hoffer, ← drop_take]
      exact take_append_drop consume (r.offer chunk)
    · have hall : (r.offer chunk).length ≤ consume := by
        rw [hoffer, length_append, length_kept (by omega)]
        omega
      have hzero : chunk.length + r.pos - consume = 0 := by omega
      refine ⟨hfill, by omega, ?_⟩
      rw [kept, hzero, take_zero, append_nil, take_of_length_le hall, hoffer]

/-- What a round can end with. -/
inductive Ends (r : Receiver) (readEc : BoostEc) (chunk : List UInt8) (consume : ℕ) : RoundEnd → Prop
  | overflow (hpos : r.pos ≥ r.recvBuf_.length) :
      Ends r readEc chunk consume (.error (makeNetworkErrorCode .ecRecvOverflow))
  | readError (hec : readEc.isError = true) : Ends r readEc chunk consume (.error readEc)
  | parseError : Ends r readEc chunk consume (.error (makeNetworkErrorCode .ecDataParseError))
  | assertFailed : Ends r readEc chunk consume .assertFailed
  | moved (hconsume : consume ≤ chunk.length + r.pos) (hleft : chunk.length + r.pos - consume > 0) :
      Ends r readEc chunk consume
        (.next ⟨moveFront (r.fill chunk) consume (chunk.length + r.pos - consume),
          chunk.length + r.pos - consume⟩)
  | filled (pos : ℕ) : Ends r readEc chunk consume (.next ⟨r.fill chunk, pos⟩)
  | idle : Ends r readEc chunk consume (.next r)

theorem round_ends (receiveCb : Bool) (r : Receiver) (readEc : BoostEc) (chunk : List UInt8) (consume : ℕ) :
    r.Ends readEc chunk consume (r.round receiveCb readEc chunk consume) := by
  have hreads := read_reads receiveCb r readEc chunk
  rw [round]
  generalize r.read receiveCb readEc chunk = x at hreads ⊢
  cases hreads with
  | overflow hpos => exact .overflow hpos
  | readError hec => exact .readError hec
  | nothing => exact .idle
  | stored => exact .filled _
  | offers =>
    dsimp only
    split_ifs with hparse hconsume hleft
    · exact .parseError
    · exact .moved hconsume hleft
    · exact .filled _
    · exact .assertFailed

theorem round_overflow_iff {receiveCb : Bool} {ec : BoostEc} (hec : ec.isError = false) :
    r.round receiveCb ec chunk consume = .error (makeNetworkErrorCode .ecRecvOverflow) ↔
      r.pos ≥ r.recvBuf_.length := by
  constructor
  · intro h
    have hends := round_ends receiveCb r ec chunk consume
    generalize r.round receiveCb ec chunk consume = x at h hends
    cases hends with
    | overflow hpos => exact hpos
    | readError hread =>
      rw [hec] at hread
      cases hread
    | parseError => exact absurd h (by decide)
    | _ => cases h
  · intro h
    rw [round, read, if_pos h]

/-- A round that fails does so with an error. -/
theorem round_error {receiveCb : Bool} {readEc ec : BoostEc}
    (h : r.round receiveCb readEc chunk consume = .error ec) : ec.isError = true := by
  have hends := round_ends receiveCb r readEc chunk consume
  rw [h] at hends
  cases hends with
  | overflow _ => rfl
  | readError hread => exact hread
  | parseError => rfl

end Receiver

/-! ### Runs of the loop -/

/-- The loop, with the bytes read, the bytes consumed, and how it ended. -/
structure Receiving where
  rcv : Receiver
  read : List UInt8
  consumed : List UInt8
  ended : Option BoostEc
deriving DecidableEq, Repr

namespace Receiving

/-- What the socket and the callback answer in a round. -/
structure Answer where
  chunk : List UInt8
  consume : ℕ
deriving DecidableEq, Repr

def Init (maxPackSize : UInt32) (s : Receiving) : Prop :=
  s = ⟨.new maxPackSize, [], [], none⟩

/-- One round without an error of the socket. -/
def step (receiveCb : Bool) (s : Receiving) (a : Answer) : Option Receiving :=
  if s.ended.isSome then none
  else match s.rcv.round receiveCb .success a.chunk a.consume with
    | .next r => some ⟨r, s.read ++ a.chunk,
        s.consumed ++ s.rcv.eaten receiveCb a.chunk a.consume, none⟩
    | .error ec => some { s with ended := some ec }
    | .assertFailed => none

/-- `read_some` reads at least one byte and no more than fit, and the callback consumes
no more than it was offered. -/
def Fair (s : Receiving) (a : Answer) : Prop :=
  s.rcv.pos < s.rcv.recvBuf_.length →
    0 < a.chunk.length ∧ a.chunk.length ≤ s.rcv.recvBuf_.length - s.rcv.pos ∧
      a.consume ≤ a.chunk.length + s.rcv.pos

instance (s : Receiving) (a : Answer) : Decidable (s.Fair a) :=
  inferInstanceAs (Decidable (_ → _ ∧ _ ∧ _))

structure Inv (maxPackSize : UInt32) (s : Receiving) : Prop where
  size : s.rcv.recvBuf_.length = maxPackSize.toNat
  pos_le : s.rcv.pos ≤ s.rcv.recvBuf_.length
  bytes : s.consumed ++ s.rcv.kept = s.read
  overflow : ∀ ec, s.ended = some ec → ec = makeNetworkErrorCode .ecRecvOverflow ∧
    s.rcv.pos = s.rcv.recvBuf_.length

variable {maxPackSize : UInt32} {receiveCb : Bool}

theorem inv_init {s : Receiving} (h : Init maxPackSize s) : Inv maxPackSize s := by
  subst h
  exact ⟨List.length_replicate, Nat.zero_le _, rfl, nofun⟩

/-- **One round** keeps the invariant. -/
theorem step_inv {s s' : Receiving} {a : Answer} (h : Inv maxPackSize s) (hfair : s.Fair a)
    (hst : s.step receiveCb a = some s') : Inv maxPackSize s' := by
  have hend : s.ended.isSome = false := by
    by_contra hne
    rw [step, if_pos (Bool.of_not_eq_false hne)] at hst
    cases hst
  rw [step, if_neg (by rw [hend]; decide)] at hst
  by_cases hpos : s.rcv.pos < s.rcv.recvBuf_.length
  · obtain ⟨hchunk, hfit, hconsume⟩ := hfair hpos
    have hsize : s.rcv.recvBuf_.length < 2 ^ 32 := h.size ▸ maxPackSize.toNat_lt
    have hnone : BoostEc.success.isError = false := rfl
    obtain ⟨r, hround, hlen, hle, hkept⟩ :=
      Receiver.round_kept hnone hsize hpos hchunk (by omega) hconsume
    rw [hround] at hst
    cases hst
    refine ⟨hlen.trans h.size, hlen.symm ▸ hle, ?_, nofun⟩
    rw [List.append_assoc, hkept, ← List.append_assoc, h.bytes]
  · have hround : s.rcv.round receiveCb .success a.chunk a.consume
        = .error (makeNetworkErrorCode .ecRecvOverflow) :=
      (Receiver.round_overflow_iff rfl).mpr (Nat.le_of_not_lt hpos)
    rw [hround] at hst
    cases hst
    refine ⟨h.size, h.pos_le, h.bytes, fun ec hec => ?_⟩
    have hle := h.pos_le
    exact ⟨(Option.some_inj.mp hec).symm, by simp only; omega⟩

theorem reach_inv : ∀ s, ReachIf (Init maxPackSize) (step receiveCb) Fair s → Inv maxPackSize s :=
  ReachIf.invariant (fun _ h => inv_init h) fun _ _ _ h hok hst => step_inv h hok hst

/-- **No byte is lost or repeated.**  For every buffer size, every sequence of chunks
that fit and every callback that consumes at most what it was offered, or no callback:
what was consumed followed by what is kept in front of the buffer is what was read;
the callback of the next round is given exactly the unconsumed bytes; and the next
round raises `ec_recv_overflow` exactly when the unconsumed bytes fill the buffer. -/
theorem no_byte_lost {s : Receiving} (hs : ReachIf (Init maxPackSize) (step receiveCb) Fair s) :
    s.consumed ++ s.rcv.recvBuf_.take s.rcv.pos = s.read ∧
      s.rcv.pos ≤ s.rcv.recvBuf_.length ∧ s.rcv.recvBuf_.length = maxPackSize.toNat ∧
      (∀ a, s.Fair a → s.rcv.pos < s.rcv.recvBuf_.length →
        s.consumed ++ s.rcv.offer a.chunk = s.read ++ a.chunk) ∧
      (∀ a : Answer, s.rcv.round receiveCb .success a.chunk a.consume
          = .error (makeNetworkErrorCode .ecRecvOverflow) ↔
        (s.rcv.recvBuf_.take s.rcv.pos).length = s.rcv.recvBuf_.length) ∧
      (∀ ec, s.ended = some ec → ec = makeNetworkErrorCode .ecRecvOverflow) := by
  have h := reach_inv s hs
  refine ⟨h.bytes, h.pos_le, h.size, fun a hfair hpos => ?_, fun a => ?_, fun ec hec => ?_⟩
  · obtain ⟨-, hfit, -⟩ := hfair hpos
    rw [Receiver.offer_eq (by omega), ← List.append_assoc, h.bytes]
  · have hle := h.pos_le
    rw [Receiver.round_overflow_iff rfl, List.length_take, Nat.min_eq_left hle]
    omega
  · exact (h.overflow ec hec).1

-- four bytes fit; one of the first two is consumed, then the buffer fills up
theorem no_byte_lost_four :
    ∃ s, execIf (step true) Fair ⟨.new 4, [], [], none⟩
        [⟨[1, 2], 1⟩, ⟨[3, 4, 5], 0⟩, ⟨[], 0⟩] = some s ∧
      s.ended = some (makeNetworkErrorCode .ecRecvOverflow) ∧ s.read = [1, 2, 3, 4, 5] ∧
      s.consumed ++ s.rcv.recvBuf_.take s.rcv.pos = s.read := by
  have hs : ReachIf (Init 4) (step true) Fair ⟨.new 4, [], [], none⟩ := .start rfl
  refine ⟨⟨⟨[2, 3, 4, 5], 4⟩, [1, 2, 3, 4, 5], [1], some (makeNetworkErrorCode .ecRecvOverflow)⟩,
    by decide, rfl, rfl, ?_⟩
  exact (no_byte_lost (reachIf_exec [⟨[1, 2], 1⟩, ⟨[3, 4, 5], 0⟩, ⟨[], 0⟩] hs (by decide))).1

end Receiving

/-! ### The copy of the kept bytes -/

namespace Receiver

/-- A `memcpy` to the front of the buffer: the index of its source, and how many bytes. -/
structure Memcpy where
  source : ℕ
  size : ℕ
deriving DecidableEq, Repr

/-- What `memcpy` requires: no index lies in the source and in the destination. -/
def Memcpy.Disjoint (c : Memcpy) : Prop :=
  ∀ i, c.source ≤ i → i < c.source + c.size → ¬ i < c.size

theorem Memcpy.disjoint_iff {c : Memcpy} (h : 0 < c.size) : c.Disjoint ↔ c.size ≤ c.source := by
  constructor
  · intro hd
    have := hd c.source (Nat.le_refl _) (by omega)
    omega
  · intro hle i hi _
    omega

/-- The length that a round passes to `receive_cb_`, if it calls it. -/
def offered (receiveCb : Bool) (r : Receiver) (readEc : BoostEc) (chunk : List UInt8) :
    Option ℕ :=
  match r.read receiveCb readEc chunk with
  | .offers n => some n
  | _ => none

/-- The `memcpy` that a round makes, if it makes one. -/
def memcpy (receiveCb : Bool) (r : Receiver) (readEc : BoostEc) (chunk : List UInt8)
    (consume : ℕ) : Option Memcpy :=
  (r.offered receiveCb readEc chunk).bind fun n =>
    if consume ≠ 2 ^ 64 - 1 ∧ consume ≤ n ∧ n - consume > 0 then some ⟨consume, n - consume⟩ else none

variable {r r' : Receiver} {chunk : List UInt8} {consume : ℕ} {receiveCb : Bool} {ec : BoostEc}

theorem offered_eq_some {n : ℕ} (h : r.offered receiveCb ec chunk = some n) :
    r.read receiveCb ec chunk = .offers n ∧ n = chunk.length + r.pos := by
  have hreads := read_reads receiveCb r ec chunk
  rw [offered] at h
  generalize r.read receiveCb ec chunk = x at h hreads ⊢
  cases hreads with
  | offers => exact ⟨congrArg ReadEnd.offers (Option.some_inj.mp h), (Option.some_inj.mp h).symm⟩
  | _ => cases h

/-- The round moves what it copies. -/
theorem round_of_memcpy {c : Memcpy} (h : r.memcpy receiveCb ec chunk consume = some c) :
    r.round receiveCb ec chunk consume
      = .next ⟨moveFront (r.fill chunk) c.source c.size, c.size⟩ := by
  obtain ⟨n, hn, h⟩ := Option.bind_eq_some_iff.mp h
  split_ifs at h with hcopies
  obtain ⟨hparse, hconsume, hleft⟩ := hcopies
  cases h
  rw [round, (offered_eq_some hn).1]
  dsimp only
  rw [if_neg hparse, if_pos hconsume, if_pos hleft]

/-- **One round** copies within its rights iff the callback took at least half of its
offer. -/
theorem memcpy_disjoint_iff (hconsume : consume ≤ chunk.length + r.pos)
    (hsize : chunk.length + r.pos < 2 ^ 64 - 1) :
    (∀ c ∈ r.memcpy receiveCb ec chunk consume, c.Disjoint) ↔
      ∀ n ∈ r.offered receiveCb ec chunk, n ≤ 2 * consume := by
  rw [memcpy]
  cases hoff : r.offered receiveCb ec chunk with
  | none => exact iff_of_true (fun c hc => by cases hc) (fun n hn => by cases hn)
  | some n =>
    obtain ⟨-, rfl⟩ := offered_eq_some hoff
    rw [Option.bind_some]
    simp only [Option.mem_def, Option.some_inj, forall_eq']
    by_cases hleft : chunk.length + r.pos - consume > 0
    · rw [if_pos ⟨by omega, hconsume, hleft⟩]
      simp only [Option.some_inj, forall_eq']
      rw [Memcpy.disjoint_iff hleft]
      show chunk.length + r.pos - consume ≤ consume ↔ _
      omega
    · rw [if_neg fun hcopies => hleft hcopies.2.2]
      exact iff_of_true (fun c hc => by cases hc) (by omega)

/-- The loop, while it goes on. -/
def loop (receiveCb : Bool) (r : Receiver) (a : Receiving.Answer) : Option Receiver :=
  match r.round receiveCb .success a.chunk a.consume with
  | .next r' => some r'
  | _ => none

/-- `read_some` reads no more than fits, and the callback consumes no more than it was
offered. -/
def Fits (r : Receiver) (a : Receiving.Answer) : Prop :=
  r.pos + a.chunk.length ≤ r.recvBuf_.length ∧ a.consume ≤ a.chunk.length + r.pos

instance (r : Receiver) (a : Receiving.Answer) : Decidable (r.Fits a) :=
  inferInstanceAs (Decidable (_ ∧ _))

theorem length_round (hfits : r.pos + chunk.length ≤ r.recvBuf_.length)
    (hconsume : consume ≤ chunk.length + r.pos)
    (h : r.round receiveCb ec chunk consume = .next r') :
    r'.recvBuf_.length = r.recvBuf_.length := by
  have hfill := length_fill hfits
  have hends := round_ends receiveCb r ec chunk consume
  rw [h] at hends
  cases hends with
  | moved _ _ => exact (length_moveFront (by omega)).trans hfill
  | filled pos => exact hfill
  | idle => rfl

/-- The rounds made so far, each with the receiver it started from. -/
def noteRound (r : Receiver) (rounds : List (Receiver × Receiving.Answer))
    (a : Receiving.Answer) : List (Receiver × Receiving.Answer) :=
  rounds ++ [(r, a)]

/-- The runs of the loop on a buffer of `maxPackSize` bytes. -/
def Runs (maxPackSize : UInt32) (receiveCb : Bool) :
    Receiver × List (Receiver × Receiving.Answer) → Prop :=
  ReachIf (fun p => p.1 = .new maxPackSize ∧ p.2 = []) (recorded (loop receiveCb) noteRound)
    fun p => p.1.Fits

/-- Every round starts from a buffer of the size it was made with. -/
theorem runs_fits {maxPackSize : UInt32} : ∀ p, Runs maxPackSize receiveCb p →
    p.1.recvBuf_.length = maxPackSize.toNat ∧
      ∀ q ∈ p.2, q.1.recvBuf_.length = maxPackSize.toNat ∧ q.1.Fits q.2 := by
  refine ReachIf.invariant ?_ ?_
  · rintro ⟨r, rounds⟩ ⟨rfl, rfl⟩
    exact ⟨List.length_replicate, nofun⟩
  · rintro ⟨r, rounds⟩ ⟨r', rounds'⟩ a ⟨hlen, hrounds⟩ hfits hst
    obtain ⟨hst, rfl⟩ := recorded_eq_some.mp hst
    constructor
    · rw [loop] at hst
      split at hst
      · cases hst
        rename_i hround
        exact (length_round hfits.1 hfits.2 hround).trans hlen
      · cases hst
    · intro q hq
      rcases List.mem_append.mp hq with hq | hq
      · exact hrounds q hq
      · rw [List.mem_singleton.mp hq]
        exact ⟨hlen, hfits⟩

/-- **Every `memcpy` of a run copies between disjoint ranges iff every callback took at
least half of what it was offered** — for every buffer size, every sequence of chunks and
every sequence of callback results. -/
theorem memcpys_disjoint_iff {maxPackSize : UInt32}
    {p : Receiver × List (Receiver × Receiving.Answer)} (hp : Runs maxPackSize receiveCb p) :
    (∀ q ∈ p.2, ∀ c ∈ q.1.memcpy receiveCb .success q.2.chunk q.2.consume, c.Disjoint) ↔
      ∀ q ∈ p.2, ∀ n ∈ q.1.offered receiveCb .success q.2.chunk, n ≤ 2 * q.2.consume := by
  have hround : ∀ q ∈ p.2,
      ((∀ c ∈ q.1.memcpy receiveCb .success q.2.chunk q.2.consume, c.Disjoint) ↔
        ∀ n ∈ q.1.offered receiveCb .success q.2.chunk, n ≤ 2 * q.2.consume) := by
    intro q hq
    obtain ⟨hlen, hfits, hconsume⟩ := (runs_fits p hp).2 q hq
    have hsize := maxPackSize.toNat_lt
    exact memcpy_disjoint_iff hconsume (by omega)
  constructor
  · intro h q hq
    exact (hround q hq).mp (h q hq)
  · intro h q hq
    exact (hround q hq).mpr (h q hq)

/-- Three bytes are read. -/
def threeRead (consume : ℕ) : Receiver × List (Receiver × Receiving.Answer) :=
  (⟨moveFront [1, 2, 3, 0] consume (3 - consume), 3 - consume⟩, [(.new 4, ⟨[1, 2, 3], consume⟩)])

theorem runs_threeRead (consume : Fin 3) : Runs 4 true (threeRead consume) := by
  refine reachIf_exec (s := (.new 4, [])) [⟨[1, 2, 3], consume⟩] (.start ⟨rfl, rfl⟩) ?_
  revert consume
  decide

theorem memcpys_disjoint_two : Runs 4 true (threeRead 2) ∧
    ∀ q ∈ (threeRead 2).2, ∀ c ∈ q.1.memcpy true .success q.2.chunk q.2.consume, c.Disjoint :=
  ⟨runs_threeRead 2,
    (memcpys_disjoint_iff (runs_threeRead 2)).mpr (by decide)⟩

/-- The callback takes one byte of three: two bytes are copied from 1 to 0. -/
theorem memcpy_overlaps : Runs 4 true (threeRead 1) ∧
    ∃ q ∈ (threeRead 1).2, ∃ c ∈ q.1.memcpy true .success q.2.chunk q.2.consume,
      c.source ≤ 1 ∧ 1 < c.source + c.size ∧ 1 < c.size :=
  ⟨runs_threeRead 1, _, List.mem_singleton_self _, ⟨1, 2⟩, rfl, by decide⟩

end Receiver
