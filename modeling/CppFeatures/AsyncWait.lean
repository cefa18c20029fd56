/-
`co_await(type)` and the thread pool (coroutine/coroutine.h, thread_pool.h, thread_pool.cpp).

`__async_wait` puts a function and a copy of its channel into `ThreadPool::elem_list_` and
reads the channel, which has capacity 0.  A thread of the pool pops the element, calls the
function unless nobody else has the channel any more (`Unique`), writes what it returned and
deletes the element.  The `void` case, with its `Channel<void>`, is not modelled here.

* `Channel.OneShot` — a channel that is read once and written once;
* `AsyncWait.System` — any number of awaits and pool threads; each operation on
  `elem_list_`, on a use count or on an object of a channel is one step;
* `AsyncWait.System.Inv` — where each element is, and how far its channel has come;
* `AsyncWait.System.await_own_result` — an await returns what its own function returned, the
  function is called once and never skipped; and with a thread in the pool, where no step is
  possible every await has returned or its function threw.
-/
import CppFeatures.ChannelRendezvous
import CppFeatures.ChannelSteps

namespace Channel

variable {τ R : Type*}

/-! ### The stages of one write and one read -/

namespace Stage

def reading : Stage → Bool
  | .idle | .rWakeup | .rWait _ | .rLock _ | .rFront | .rPop | .rUnlock => true
  | _ => false

def writing : Stage → Bool
  | .idle | .wWait _ | .wLock _ | .wPush | .wUnlock | .wWakeup => true
  | _ => false

-- the value is not in the queue yet
def beforePush : Stage → Bool
  | .wWait _ | .wLock _ | .wPush => true
  | _ => false

-- the value has been taken out, or the operation has not started
def afterPop : Stage → Bool
  | .rUnlock | .idle => true
  | _ => false

end Stage

namespace System

variable [DecidableEq τ] {c : ℕ} {s s' : System τ R} {t u : τ}

theorem Woken.reading {x y : Stage} (h : Woken x y) (hx : x.reading = true) :
    y.reading = true ∧ y.afterPop = x.afterPop := by
  rcases h with rfl | ⟨⟨k, hk⟩, rfl⟩
  · exact ⟨hx, rfl⟩
  · cases k <;> cases x <;> simp_all [Stage.parkedOn, Stage.reading, Stage.granted, Stage.afterPop]

theorem Woken.writing {x y : Stage} (h : Woken x y) (hx : x.writing = true) :
    y.writing = true ∧ y.beforePush = x.beforePush ∧ (x = .idle → y = .idle) := by
  rcases h with rfl | ⟨⟨k, hk⟩, rfl⟩
  · exact ⟨hx, rfl, id⟩
  · cases k <;> cases x <;> simp_all [Stage.parkedOn, Stage.writing, Stage.granted, Stage.beforePush]

/-- **A step of `operator>>`**: it waits, it takes the value, or it returns. -/
theorem advance_reader (h : Inv c s) (hr : (s.ops.pc t).reading = true)
    (hig : (s.loc t).ignore = false) (hst : s.advance t = some s') :
    s'.pushed = s.pushed ∧ (∀ u, u ≠ t → Woken (s.ops.pc u) (s'.ops.pc u) ∧ s'.loc u = s.loc u) ∧
      (s'.loc t).ignore = false ∧
      (s.ops.pc t = .rPop ∧ s'.ops.pc t = .rUnlock ∧ s'.loc = s.loc ∧
          (∃ v, (s.loc t).got = some v ∧ s'.popped = s.popped ++ [v]) ∨
        s.ops.pc t = .rUnlock ∧ s'.ops.pc t = .idle ∧ s'.loc = s.loc ∧ s'.popped = s.popped ∨
        (s.ops.pc t).afterPop = false ∧ (s'.ops.pc t).reading = true ∧
          (s'.ops.pc t).afterPop = false ∧ s'.popped = s.popped) := by
  rw [advance] at hst
  cases hpc : s.ops.pc t with
  | rWakeup =>
    simp only [hpc] at hst
    cases hst
    obtain ⟨ht, hu⟩ := wake_pc h .write (.rWait .ready) (t := t) (by rw [hpc]; rfl)
    exact ⟨rfl, fun u hut => ⟨hu u hut, rfl⟩, hig, .inr (.inr ⟨rfl, by rw [ht]; rfl, by rw [ht]; rfl, rfl⟩)⟩
  | rWait ph =>
    cases ph with
    | ready =>
      simp only [hpc] at hst
      cases hst
      obtain ⟨ht, hu⟩ := s.wait_pc .read t .rWait
      refine ⟨rfl, fun u hut => ⟨hu u hut, rfl⟩, hig, .inr (.inr ⟨rfl, ?_, ?_, rfl⟩)⟩ <;>
        rcases ht with ht | ⟨ph, ht⟩ <;> rw [ht] <;> rfl
    | marked =>
      simp only [hpc] at hst
      cases hst
      obtain ⟨ht, hu⟩ := s.park_pc .read t .rWait
      refine ⟨rfl, fun u hut => ⟨hu u hut, rfl⟩, hig, .inr (.inr ⟨rfl, ?_, ?_, rfl⟩)⟩ <;>
        rcases ht with ht | ⟨ph, ht⟩ <;> rw [ht] <;> rfl
    | parked => simp [hpc] at hst
  | rLock ph =>
    cases ph with
    | ready =>
      simp only [hpc] at hst
      cases hst
      obtain ⟨ht, hu⟩ := s.wait_pc .lock t .rLock
      refine ⟨rfl, fun u hut => ⟨hu u hut, rfl⟩, hig, .inr (.inr ⟨rfl, ?_, ?_, rfl⟩)⟩ <;>
        rcases ht with ht | ⟨ph, ht⟩ <;> rw [ht] <;> rfl
    | marked =>
      simp only [hpc] at hst
      cases hst
      obtain ⟨ht, hu⟩ := s.park_pc .lock t .rLock
      refine ⟨rfl, fun u hut => ⟨hu u hut, rfl⟩, hig, .inr (.inr ⟨rfl, ?_, ?_, rfl⟩)⟩ <;>
        rcases ht with ht | ⟨ph, ht⟩ <;> rw [ht] <;> rfl
    | parked => simp [hpc] at hst
  | rFront =>
    simp only [hpc, hig, Bool.false_eq_true, if_false] at hst
    cases hst
    have ht : (s.ops.set t .rPop).pc t = .rPop := Pool.pc_set_self ..
    refine ⟨rfl, fun u hut => ⟨.inl (Pool.pc_set_of_ne _ hut _), Function.update_of_ne hut _ _⟩, ?_,
      .inr (.inr ⟨rfl, ?_, ?_, rfl⟩)⟩
    · show (Function.update s.loc t _ t).ignore = false
      rw [Function.update_self]
    · exact congrArg Stage.reading ht
    · exact congrArg Stage.afterPop ht
  | rPop =>
    obtain ⟨v, q, hq⟩ := List.exists_cons_of_ne_nil (h.queue_ne_nil (t := t) (by rw [hpc]; rfl))
    have hgot : (s.loc t).got = some v := by
      rcases h.front t hpc with hi | hgot
      · rw [hig] at hi
        exact Bool.noConfusion hi
      · rw [hgot, hq, List.head?_cons]
    simp only [hpc, hig, Bool.false_eq_true, if_false] at hst
    cases hst
    refine ⟨rfl, fun u hut => ⟨.inl (Pool.pc_set_of_ne _ hut _), rfl⟩, hig,
      .inl ⟨rfl, Pool.pc_set_self .., rfl, v, hgot, ?_⟩⟩
    show s.popped ++ (s.loc t).got.toList = _
    rw [hgot]
    rfl
  | rUnlock =>
    simp only [hpc] at hst
    cases hst
    obtain ⟨ht, hu⟩ := wake_pc h .lock .idle (t := t) (by rw [hpc]; rfl)
    exact ⟨rfl, fun u hut => ⟨hu u hut, rfl⟩, hig, .inr (.inl ⟨rfl, ht, rfl, rfl⟩)⟩
  | idle => simp [hpc] at hst
  | _ => simp [hpc, Stage.reading] at hr

/-- **A step of `operator<<`**: it waits, it puts the value into the queue, or it goes on to
its end. -/
theorem advance_writer (h : Inv c s) (hw : (s.ops.pc t).writing = true)
    (hst : s.advance t = some s') :
    s'.popped = s.popped ∧ s'.loc = s.loc ∧ (∀ u, u ≠ t → Woken (s.ops.pc u) (s'.ops.pc u)) ∧
      (s'.ops.pc t).writing = true ∧
      (s.ops.pc t = .wPush ∧ (s'.ops.pc t).beforePush = false ∧
          (∃ v, (s.loc t).val = some v ∧ s'.pushed = s.pushed ++ [v]) ∨
        (s'.ops.pc t).beforePush = (s.ops.pc t).beforePush ∧ s'.pushed = s.pushed) := by
  rw [advance] at hst
  cases hpc : s.ops.pc t with
  | wWait ph =>
    cases ph with
    | ready =>
      simp only [hpc] at hst
      cases hst
      obtain ⟨ht, hu⟩ := s.wait_pc .write t .wWait
      refine ⟨rfl, rfl, hu, ?_, .inr ⟨?_, rfl⟩⟩ <;> rcases ht with ht | ⟨ph, ht⟩ <;> rw [ht] <;> rfl
    | marked =>
      simp only [hpc] at hst
      cases hst
      obtain ⟨ht, hu⟩ := s.park_pc .write t .wWait
      refine ⟨rfl, rfl, hu, ?_, .inr ⟨?_, rfl⟩⟩ <;> rcases ht with ht | ⟨ph, ht⟩ <;> rw [ht] <;> rfl
    | parked => simp [hpc] at hst
  | wLock ph =>
    cases ph with
    | ready =>
      simp only [hpc] at hst
      cases hst
      obtain ⟨ht, hu⟩ := s.wait_pc .lock t .wLock
      refine ⟨rfl, rfl, hu, ?_, .inr ⟨?_, rfl⟩⟩ <;> rcases ht with ht | ⟨ph, ht⟩ <;> rw [ht] <;> rfl
    | marked =>
      simp only [hpc] at hst
      cases hst
      obtain ⟨ht, hu⟩ := s.park_pc .lock t .wLock
      refine ⟨rfl, rfl, hu, ?_, .inr ⟨?_, rfl⟩⟩ <;> rcases ht with ht | ⟨ph, ht⟩ <;> rw [ht] <;> rfl
    | parked => simp [hpc] at hst
  | wPush =>
    simp only [hpc, Option.map_eq_some_iff] at hst
    obtain ⟨v, hv, rfl⟩ := hst
    have ht : (s.ops.set t .wUnlock).pc t = .wUnlock := Pool.pc_set_self ..
    exact ⟨rfl, rfl, fun u hut => .inl (Pool.pc_set_of_ne _ hut _), congrArg Stage.writing ht,
      .inl ⟨rfl, congrArg Stage.beforePush ht, v, hv, rfl⟩⟩
  | wUnlock =>
    simp only [hpc] at hst
    cases hst
    obtain ⟨ht, hu⟩ := wake_pc h .lock .wWakeup (t := t) (by rw [hpc]; rfl)
    exact ⟨rfl, rfl, hu, congrArg Stage.writing ht, .inr ⟨(congrArg Stage.beforePush ht).trans rfl, rfl⟩⟩
  | wWakeup =>
    simp only [hpc] at hst
    cases hst
    obtain ⟨ht, hu⟩ := wake_pc h .read .idle (t := t) (by rw [hpc]; rfl)
    exact ⟨rfl, rfl, hu, congrArg Stage.writing ht, .inr ⟨(congrArg Stage.beforePush ht).trans rfl, rfl⟩⟩
  | idle => simp [hpc] at hst
  | _ => simp [hpc, Stage.writing] at hw

end System

/-! ### One write and one read -/

/-- The two users of the channel of an await. -/
inductive Side
  | awaiter
  | worker
deriving DecidableEq, Repr

/-- **A channel that is used once**: `r` tells whether `>>` has been called, and `w` what `<<`
has been called with. -/
structure OneShot (r : Bool) (w : Option R) (ch : System Side R) : Prop where
  inv : ch.Inv 0
  reader : (ch.ops.pc .awaiter).reading = true
  writer : (ch.ops.pc .worker).writing = true
  unread : r = false → ch.ops.pc .awaiter = .idle ∧ ch.popped = []
  ignore : r = true → (ch.loc .awaiter).ignore = false
  waits : r = true → (ch.ops.pc .awaiter).afterPop = false → ch.popped = []
  read : r = true → (ch.ops.pc .awaiter).afterPop = true →
    ∃ v, (ch.loc .awaiter).got = some v ∧ ch.popped = [v]
  unsent : w = none → ch.ops.pc .worker = .idle ∧ ch.pushed = []
  sends : ∀ v, w = some v → (ch.ops.pc .worker).beforePush = true →
    (ch.loc .worker).val = some v ∧ ch.pushed = []
  sent : ∀ v, w = some v → (ch.ops.pc .worker).beforePush = false → ch.pushed = [v]

namespace OneShot

variable {r : Bool} {w : Option R} {ch ch' : System Side R}

theorem new {ch : System Side R} (h : System.Init 0 ch) : OneShot false none ch := by
  have hinv := System.inv_init (by decide) h
  obtain ⟨-, hops, hpushed, hpopped, -⟩ := h
  have hidle : ∀ x, ch.ops.pc x = .idle := fun x => by rw [hops]; rfl
  refine ⟨hinv, by rw [hidle]; rfl, by rw [hidle]; rfl, fun _ => ⟨hidle _, hpopped⟩, by simp, by simp, by simp,
    fun _ => ⟨hidle _, hpushed⟩, by simp, by simp⟩

/-- There are two processes at most, so the permits do not overflow. -/
theorem bounded (ch : System Side R) (a : Act Side R) : System.Bounded 0 ch a := by
  have hle : ch.readers ≤ 2 := by
    refine (Finset.card_le_card (t := {Side.awaiter, Side.worker}) fun x _ => ?_).trans
      Finset.card_le_two
    cases x <;> simp
  rw [System.Bounded]
  omega

/-- `ch_ >> result_` is called. -/
theorem beginRead (h : OneShot false w ch) {co : Bool}
    (hst : ch.step (.pop .awaiter co false) = some ch') : OneShot true w ch' := by
  have hinv := System.step_inv h.inv (bounded ch _) hst
  rw [System.step, System.start, if_pos (h.unread rfl).1] at hst
  cases hst
  have ha : (ch.ops.set .awaiter .rWakeup).pc .awaiter = .rWakeup := Pool.pc_set_self ..
  have hw : (ch.ops.set .awaiter .rWakeup).pc .worker = ch.ops.pc .worker :=
    Pool.pc_set_of_ne _ (by simp) _
  have hla : Function.update ch.loc .awaiter ⟨co, none, false, none⟩ .awaiter
      = ⟨co, none, false, none⟩ := Function.update_self ..
  have hlw : Function.update ch.loc .awaiter ⟨co, none, false, none⟩ .worker = ch.loc .worker :=
    Function.update_of_ne (by simp) _ _
  refine ⟨hinv, congrArg Stage.reading ha, (congrArg Stage.writing hw).trans h.writer, by simp,
    fun _ => congrArg Locals.ignore hla, fun _ _ => (h.unread rfl).2, fun _ hp => ?_,
    fun hn => ⟨hw.trans (h.unsent hn).1, (h.unsent hn).2⟩, fun v hv hb => ?_, fun v hv hb => ?_⟩
  · exact Bool.noConfusion (hp.symm.trans (congrArg Stage.afterPop ha))
  · have := h.sends v hv ((congrArg Stage.beforePush hw).symm.trans hb)
    exact ⟨(congrArg Locals.val hlw).trans this.1, this.2⟩
  · exact h.sent v hv ((congrArg Stage.beforePush hw).symm.trans hb)

/-- `ch_ << v` is called. -/
theorem beginWrite (h : OneShot r none ch) {co : Bool} {v : R}
    (hst : ch.step (.push .worker co v) = some ch') : OneShot r (some v) ch' := by
  have hinv := System.step_inv h.inv (bounded ch _) hst
  obtain ⟨hidle, hpushed⟩ := h.unsent rfl
  rw [System.step, System.start, if_pos hidle] at hst
  cases hst
  have hw : (ch.ops.set .worker (.wWait .ready)).pc .worker = .wWait .ready := Pool.pc_set_self ..
  have ha : (ch.ops.set .worker (.wWait .ready)).pc .awaiter = ch.ops.pc .awaiter :=
    Pool.pc_set_of_ne _ (by simp) _
  have hloc : Function.update ch.loc .worker ⟨co, some v, false, none⟩ .awaiter = ch.loc .awaiter :=
    Function.update_of_ne (by simp) _ _
  have hlw : Function.update ch.loc .worker ⟨co, some v, false, none⟩ .worker
      = ⟨co, some v, false, none⟩ := Function.update_self ..
  refine ⟨hinv, (congrArg Stage.reading ha).trans h.reader, congrArg Stage.writing hw,
    fun hr => ⟨ha.trans (h.unread hr).1, (h.unread hr).2⟩,
    fun hr => (congrArg Locals.ignore hloc).trans (h.ignore hr), fun hr hp => ?_, fun hr hp => ?_, by simp,
    fun v' hv _ => ⟨?_, hpushed⟩, fun v' hv hb => ?_⟩
  · exact h.waits hr ((congrArg Stage.afterPop ha).symm.trans hp)
  · obtain ⟨x, hx, hpop⟩ := h.read hr ((congrArg Stage.afterPop ha).symm.trans hp)
    exact ⟨x, (congrArg Locals.got hloc).trans hx, hpop⟩
  · exact (congrArg Locals.val hlw).trans hv
  · exact Bool.noConfusion (hb.symm.trans (congrArg Stage.beforePush hw))

/-- A step of the reader. -/
theorem stepRead (h : OneShot true w ch) (hst : ch.advance .awaiter = some ch') :
    OneShot true w ch' := by
  have hinv := System.advance_inv h.inv (bounded ch (.advance .awaiter)) hst
  obtain ⟨hpushed, hother, hig, hcases⟩ := System.advance_reader h.inv h.reader (h.ignore rfl) hst
  obtain ⟨hwoken, hloc⟩ := hother .worker (by simp)
  obtain ⟨hwr, hbp, hidle⟩ := hwoken.writing h.writer
  have hreading : (ch'.ops.pc .awaiter).reading = true := by
    rcases hcases with ⟨-, ht, -⟩ | ⟨-, ht, -⟩ | ⟨-, hr, -⟩
    · rw [ht]
      rfl
    · rw [ht]
      rfl
    · exact hr
  refine ⟨hinv, hreading, hwr, by simp, fun _ => hig, fun _ hp => ?_, fun _ hp => ?_, fun hn => ?_,
    fun v hv hb => ?_, fun v hv hb => ?_⟩
  · rcases hcases with ⟨-, ht, -⟩ | ⟨-, ht, -⟩ | ⟨hb, -, -, hpop⟩
    · rw [ht] at hp
      exact Bool.noConfusion hp
    · rw [ht] at hp
      exact Bool.noConfusion hp
    · rw [hpop]
      exact h.waits rfl hb
  · rcases hcases with ⟨hpc, -, hl, v, hgot, hpop⟩ | ⟨hpc, -, hl, hpop⟩ | ⟨-, -, hn, -⟩
    · refine ⟨v, by rw [hl]; exact hgot, ?_⟩
      rw [hpop, h.waits rfl (by rw [hpc]; rfl)]
      rfl
    · rw [hl, hpop]
      exact h.read rfl (by rw [hpc]; rfl)
    · rw [hn] at hp
      exact Bool.noConfusion hp
  · exact ⟨hidle (h.unsent hn).1, by rw [hpushed]; exact (h.unsent hn).2⟩
  · rw [hbp] at hb
    rw [hloc, hpushed]
    exact h.sends v hv hb
  · rw [hbp] at hb
    rw [hpushed]
    exact h.sent v hv hb

/-- A step of the writer. -/
theorem stepWrite (h : OneShot r w ch) (hst : ch.advance .worker = some ch') : OneShot r w ch' := by
  have hinv := System.advance_inv h.inv (bounded ch (.advance .worker)) hst
  obtain ⟨hpopped, hloc, hother, hwr, hcases⟩ := System.advance_writer h.inv h.writer hst
  have hwoken := hother .awaiter (by simp)
  obtain ⟨hrd, hap⟩ := hwoken.reading h.reader
  have hsome : w ≠ none := by
    intro hn
    rw [System.advance, (h.unsent hn).1] at hst
    contradiction
  refine ⟨hinv, hrd, hwr, fun hr => ?_, fun hr => ?_, fun hr hp => ?_, fun hr hp => ?_,
    fun hn => absurd hn hsome, fun v hv hb => ?_, fun v hv hb => ?_⟩
  · refine ⟨?_, by rw [hpopped]; exact (h.unread hr).2⟩
    rcases hwoken with he | ⟨⟨k, hk⟩, -⟩
    · rw [he]
      exact (h.unread hr).1
    · rw [(h.unread hr).1] at hk
      cases k <;> exact Bool.noConfusion hk
  · rw [hloc]
    exact h.ignore hr
  · rw [hpopped]
    exact h.waits hr (hap ▸ hp)
  · rw [hloc, hpopped]
    exact h.read hr (hap ▸ hp)
  · rw [hloc]
    rcases hcases with ⟨-, hn, -⟩ | ⟨he, hp⟩
    · rw [hn] at hb
      exact Bool.noConfusion hb
    · rw [hp]
      exact h.sends v hv (he ▸ hb)
  · rcases hcases with ⟨hpc, -, x, hx, hp⟩ | ⟨he, hp⟩
    · have hs := h.sends v hv (by rw [hpc]; rfl)
      rw [hs.1, Option.some_inj] at hx
      rw [hp, hs.2, hx]
      rfl
    · rw [hp]
      exact h.sent v hv (he ▸ hb)

/-- **What is read is what was written.** -/
theorem result (h : OneShot true w ch) (hidle : ch.ops.pc .awaiter = .idle) :
    ∃ v, w = some v ∧ (ch.loc .awaiter).got = some v := by
  obtain ⟨v, hgot, hpop⟩ := h.read rfl (by rw [hidle]; rfl)
  have hfifo := h.inv.fifo
  rw [hpop] at hfifo
  cases hw : w with
  | none =>
    rw [(h.unsent hw).2] at hfifo
    simp at hfifo
  | some x =>
    refine ⟨x, rfl, ?_⟩
    have hsent : ch.pushed = [x] := by
      cases hb : (ch.ops.pc .worker).beforePush with
      | true =>
        rw [(h.sends x hw hb).2] at hfifo
        simp at hfifo
      | false => exact h.sent x hw hb
    rw [hsent] at hfifo
    simp only [List.cons_append, List.nil_append, List.cons.injEq] at hfifo
    rw [hgot, hfifo.1]

/-- A reader that cannot go on is done or parked. -/
theorem reader_stuck (h : OneShot r w ch) (hstuck : ch.advance .awaiter = none) :
    ch.ops.pc .awaiter = .idle ∨ ∃ k, (ch.ops.pc .awaiter).parkedOn k = true := by
  have hr := h.reader
  rw [System.advance] at hstuck
  cases hpc : ch.ops.pc .awaiter with
  | idle => exact .inl rfl
  | rWait ph => cases ph with
    | parked => exact .inr ⟨.read, rfl⟩
    | _ => simp [hpc] at hstuck
  | rLock ph => cases ph with
    | parked => exact .inr ⟨.lock, rfl⟩
    | _ => simp [hpc] at hstuck
  | rFront =>
    simp only [hpc] at hstuck
    split_ifs at hstuck
  | _ => simp_all [Stage.reading]

/-- A writer that cannot go on is done or parked. -/
theorem writer_stuck {v : R} (h : OneShot r (some v) ch) (hstuck : ch.advance .worker = none) :
    ch.ops.pc .worker = .idle ∨ ∃ k, (ch.ops.pc .worker).parkedOn k = true := by
  have hw := h.writer
  have hsends := h.sends v rfl
  rw [System.advance] at hstuck
  cases hpc : ch.ops.pc .worker with
  | idle => exact .inl rfl
  | wWait ph => cases ph with
    | parked => exact .inr ⟨.write, rfl⟩
    | _ => simp [hpc] at hstuck
  | wLock ph => cases ph with
    | parked => exact .inr ⟨.lock, rfl⟩
    | _ => simp [hpc] at hstuck
  | wPush =>
    rw [hpc] at hsends hstuck
    simp [(hsends rfl).1] at hstuck
  | _ => simp_all [Stage.writing]

/-- **Nobody waits for ever**: if neither side can go on, both are done. -/
theorem idle_of_stuck {v : R} (h : OneShot true (some v) ch) (hw : ch.advance .worker = none)
    (hr : ch.advance .awaiter = none) :
    ch.ops.pc .worker = .idle ∧ ch.ops.pc .awaiter = .idle := by
  have hquiet : layout.Quiescent ch.ops := by
    intro x
    cases x with
    | awaiter => exact h.reader_stuck hr
    | worker => exact h.writer_stuck hw
  have hfifo := h.inv.fifo
  -- the writer would have parked although the reader is done, or parked as well
  have hworker : ch.ops.pc .worker = .idle := by
    rcases h.inv.quiescent_cases hquiet .worker with ht | ht | ht
    · exact ht
    · have hmem : Side.worker ∈ ch.chan.writeBlock_.waitQueue_ :=
        ((h.inv.net.parks .write).2 .worker).mpr (by rw [ht]; rfl)
      obtain ⟨-, hempty⟩ := (h.inv.rendezvous hquiet).1 (List.ne_nil_of_mem hmem)
      rcases h.inv.quiescent_cases hquiet .awaiter with ha | ha | ha
      · obtain ⟨x, -, hpop⟩ := h.read rfl (by rw [ha]; rfl)
        rw [(h.sends v rfl (by rw [ht]; rfl)).2, hpop] at hfifo
        simp at hfifo
      · have hreader := h.reader
        rw [ha] at hreader
        exact Bool.noConfusion hreader
      · have hmem' : Side.awaiter ∈ ch.chan.readBlock_.waitQueue_ :=
          ((h.inv.net.parks .read).2 .awaiter).mpr (by rw [ha]; rfl)
        rw [hempty] at hmem'
        cases hmem'
    · have hwriter := h.writer
      rw [ht] at hwriter
      exact Bool.noConfusion hwriter
  refine ⟨hworker, ?_⟩
  rcases h.inv.quiescent_cases hquiet .awaiter with ht | ht | ht
  · exact ht
  · have hreader := h.reader
    rw [ht] at hreader
    exact Bool.noConfusion hreader
  · -- the value is still in the queue
    have hmem : Side.awaiter ∈ ch.chan.readBlock_.waitQueue_ :=
      ((h.inv.net.parks .read).2 .awaiter).mpr (by rw [ht]; rfl)
    have hq := (h.inv.rendezvous hquiet).2 (List.ne_nil_of_mem hmem)
    rw [h.sent v rfl (by rw [hworker]; rfl), h.waits rfl (by rw [ht]; rfl), hq] at hfifo
    simp at hfifo

end OneShot

end Channel

namespace AsyncWait

open Channel (Side OneShot)

/-! ### Awaits and pool threads -/

/-- Where an await is: `AsyncWait`, `elem_list_.push`, `ch_ >> result_`, and what it
returned. -/
inductive Caller (R : Type*)
  | idle
  | made
  | ready
  | receiving
  | returned (r : Option R)

/-- What a thread of the pool does with an element: `Unique`, `fn_()`, `ch_ <<`, `delete`. -/
inductive Job
  | taken
  | invoking
  | sending
  | deleting
deriving DecidableEq, Repr

inductive Worker (ι : Type*)
  | idle
  | on (i : ι) (k : Job)

/-- One await: the caller, its channel, and what its function has done. -/
structure Await (R : Type*) where
  caller : Caller R
  chan : Channel.System Side R
  -- `use_count()` of the channel
  useCount : ℕ
  -- how often the function was called, what it returned, and whether it threw
  called : ℕ
  results : List R
  thrown : Bool

/-- The awaits `ι`, each with its element, and the pool threads `θ`. -/
structure System (ι θ R : Type*) where
  elemList_ : List ι
  await : ι → Await R
  worker : θ → Worker ι

inductive Act (ι θ R : Type*)
  | asyncWait (i : ι)
  | enqueue (i : ι)
  | receive (i : ι) (co : Bool)
  | advance (i : ι)
  | ret (i : ι)
  | pop (t : θ)
  | doElem (t : θ)
  | fnReturn (t : θ) (v : R) (co : Bool)
  | fnThrow (t : θ)
  | send (t : θ)
  | endDo (t : θ)
  | delete (t : θ)

variable {ι θ R : Type*}

-- `Channel(std::size_t capacity = 0)`
def newChan : Channel.System Side R :=
  ⟨Channel.new 0, Pool.empty, fun _ => ⟨false, none, false, none⟩, [], [], false⟩

namespace System

section Steps

variable [DecidableEq ι] [DecidableEq θ]

def setAwait (s : System ι θ R) (i : ι) (a : Await R) : System ι θ R :=
  { s with await := Function.update s.await i a }

def setWorker (s : System ι θ R) (t : θ) (x : Worker ι) : System ι θ R :=
  { s with worker := Function.update s.worker t x }

def step (s : System ι θ R) : Act ι θ R → Option (System ι θ R)
  | .asyncWait i =>
    let a := s.await i
    match a.caller with
    -- the channel, and its copy in the element
    | .idle => some (s.setAwait i { a with caller := .made, chan := newChan, useCount := 2 })
    | _ => none
  | .enqueue i =>
    let a := s.await i
    match a.caller with
    | .made => some { s.setAwait i { a with caller := .ready } with elemList_ := s.elemList_ ++ [i] }
    | _ => none
  | .receive i co =>
    let a := s.await i
    match a.caller with
    | .ready => (a.chan.step (.pop .awaiter co false)).map fun ch =>
        s.setAwait i { a with caller := .receiving, chan := ch }
    | _ => none
  | .advance i =>
    let a := s.await i
    match a.caller with
    | .receiving => (a.chan.advance .awaiter).map fun ch => s.setAwait i { a with chan := ch }
    | _ => none
  | .ret i =>
    let a := s.await i
    match a.caller, a.chan.ops.pc .awaiter with
    -- `__async_wait` is destroyed with its channel
    | .receiving, .idle => some (s.setAwait i { a with
        caller := .returned (a.chan.loc .awaiter).got
        useCount := a.useCount - 1 })
    | _, _ => none
  | .pop t => match s.worker t, s.elemList_ with
    | .idle, i :: rest => some { s.setWorker t (.on i .taken) with elemList_ := rest }
    | _, _ => none
  | .doElem t => match s.worker t with
    | .on i .taken =>
      let a := s.await i
      if a.useCount = 1 then some (s.setWorker t (.on i .deleting))
      else some ((s.setWorker t (.on i .invoking)).setAwait i { a with called := a.called + 1 })
    | _ => none
  | .fnReturn t v co => match s.worker t with
    | .on i .invoking =>
      let a := s.await i
      (a.chan.step (.push .worker co v)).map fun ch =>
        (s.setWorker t (.on i .sending)).setAwait i { a with chan := ch, results := a.results ++ [v] }
    | _ => none
  | .fnThrow t => match s.worker t with
    -- the exception leaves `ThreadPool::Run`, and the element is not deleted
    | .on i .invoking => some ((s.setWorker t .idle).setAwait i { s.await i with thrown := true })
    | _ => none
  | .send t => match s.worker t with
    | .on i .sending =>
      let a := s.await i
      (a.chan.advance .worker).map fun ch => s.setAwait i { a with chan := ch }
    | _ => none
  | .endDo t => match s.worker t with
    | .on i .sending => match (s.await i).chan.ops.pc .worker with
      | .idle => some (s.setWorker t (.on i .deleting))
      | _ => none
    | _ => none
  | .delete t => match s.worker t with
    | .on i .deleting =>
      let a := s.await i
      some ((s.setWorker t .idle).setAwait i { a with useCount := a.useCount - 1 })
    | _ => none

end Steps

/-- Nobody waits, and the pool is idle. -/
structure Init (s : System ι θ R) : Prop where
  elemList : s.elemList_ = []
  worker : ∀ t, s.worker t = .idle
  caller : ∀ i, (s.await i).caller = .idle
  called : ∀ i, (s.await i).called = 0
  results : ∀ i, (s.await i).results = []
  thrown : ∀ i, (s.await i).thrown = false

end System

/-! ### Where an element is -/

inductive ElemAt (θ : Type*)
  | none
  | made
  | queued
  | held (t : θ) (k : Job)
  | deleted
  | leaked

namespace ElemAt

def calls : ElemAt θ → ℕ
  | .none | .made | .queued | .held _ .taken => 0
  | _ => 1

-- the function has not returned
def pending : ElemAt θ → Bool
  | .none | .made | .queued | .held _ .taken | .held _ .invoking | .leaked => true
  | _ => false

-- the value has been written
def written : ElemAt θ → Bool
  | .held _ .deleting | .deleted => true
  | _ => false

def uses : ElemAt θ → ℕ
  | .none | .deleted => 0
  | _ => 1

end ElemAt

namespace Caller

def reads : Caller R → Bool
  | .receiving | .returned _ => true
  | _ => false

def uses : Caller R → ℕ
  | .idle | .returned _ => 0
  | _ => 1

end Caller

/-- What is so of an await whose element is at `e`. -/
structure Await.Ok (a : Await R) (e : ElemAt θ) : Prop where
  idle : a.caller = .idle ↔ e = .none
  made : a.caller = .made ↔ e = .made
  called : a.called = e.calls
  pending : e.pending = true → a.results = []
  answered : e.pending = false → ∃ v, a.results = [v]
  thrown : a.thrown = true ↔ e = .leaked
  chan : e ≠ .none → OneShot a.caller.reads a.results.head? a.chan
  written : e.written = true → a.chan.ops.pc .worker = .idle
  returned : ∀ r, a.caller = .returned r → ∃ v, r = some v ∧ a.results = [v]
  done : ∀ r, a.caller = .returned r → a.chan.ops.pc .awaiter = .idle
  uses : e ≠ .none → a.useCount = a.caller.uses + e.uses

/-! ### The steps of one await -/

namespace Await.Ok

variable {a : Await R} {e : ElemAt θ} {t : θ} {ch : Channel.System Side R}

theorem asyncWait (h : a.Ok (.none : ElemAt θ)) :
    Await.Ok { a with caller := .made, chan := newChan, useCount := 2 } (.made : ElemAt θ) where
  idle := by simp
  made := by simp
  called := h.called
  pending _ := h.pending rfl
  answered := by simp [ElemAt.pending]
  thrown := h.thrown.trans (by simp)
  chan _ := by
    rw [h.pending rfl]
    exact .new ⟨rfl, rfl, rfl, rfl, rfl⟩
  written := by simp [ElemAt.written]
  returned := by simp
  done := by simp
  uses _ := rfl

theorem enqueue (h : a.Ok (.made : ElemAt θ)) :
    Await.Ok { a with caller := .ready } (.queued : ElemAt θ) where
  idle := by simp
  made := by simp
  called := h.called
  pending _ := h.pending rfl
  answered := by simp [ElemAt.pending]
  thrown := h.thrown.trans (by simp)
  chan _ := by
    have := h.chan (by simp)
    rwa [h.made.mpr rfl] at this
  written := by simp [ElemAt.written]
  returned := by simp
  done := by simp
  uses _ := by
    have := h.uses (by simp)
    rwa [h.made.mpr rfl] at this

/-- The caller goes on with its channel. -/
theorem call (h : a.Ok e) {x : Caller R} (hx : x = .ready ∨ x = .receiving)
    (hold : a.caller = .ready ∨ a.caller = .receiving)
    (hchan : OneShot x.reads a.results.head? ch)
    (hidle : a.chan.ops.pc .worker = .idle → ch.ops.pc .worker = .idle) :
    Await.Ok { a with caller := x, chan := ch } e where
  idle := by
    rw [← h.idle]
    rcases hx with rfl | rfl <;> rcases hold with hc | hc <;> simp [hc]
  made := by
    rw [← h.made]
    rcases hx with rfl | rfl <;> rcases hold with hc | hc <;> simp [hc]
  called := h.called
  pending := h.pending
  answered := h.answered
  thrown := h.thrown
  chan _ := hchan
  written hw := hidle (h.written hw)
  returned r hr := by
    simp only at hr
    rw [hr] at hx
    simp at hx
  done r hr := by
    simp only at hr
    rw [hr] at hx
    simp at hx
  uses he := by
    have := h.uses he
    rcases hx with rfl | rfl <;> rcases hold with hc | hc <;> rw [hc] at this <;> exact this

theorem ne_none (h : a.Ok e) (hc : a.caller ≠ .idle) : e ≠ .none := fun he => hc (h.idle.mpr he)

theorem ret (h : a.Ok e) (hc : a.caller = .receiving) (hidle : a.chan.ops.pc .awaiter = .idle) :
    Await.Ok { a with
      caller := .returned (a.chan.loc .awaiter).got
      useCount := a.useCount - 1 } e := by
  have hne : e ≠ .none := h.ne_none (by simp [hc])
  have hshot := h.chan hne
  rw [hc] at hshot
  obtain ⟨v, hv, hgot⟩ := hshot.result hidle
  have hres : a.results = [v] := by
    cases hp : e.pending with
    | true => simp [h.pending hp] at hv
    | false =>
      obtain ⟨x, hx⟩ := h.answered hp
      rw [hx] at hv ⊢
      simpa using hv
  refine ⟨?_, ?_, h.called, h.pending, h.answered, h.thrown, fun _ => hshot, h.written, fun r hr => ?_,
    fun _ _ => hidle, fun _ => ?_⟩
  · rw [← h.idle]
    simp [hc]
  · rw [← h.made]
    simp [hc]
  · exact ⟨v, (Caller.returned.inj hr).symm.trans hgot, hres⟩
  · have := h.uses hne
    rw [hc] at this
    show a.useCount - 1 = 0 + e.uses
    rw [this]
    simp [Caller.uses]

/-- The thread goes on with an element, or is done with it. -/
theorem move (h : a.Ok e) {e' : ElemAt θ} (hne : e ≠ .none ∧ e' ≠ .none) (hmade : e ≠ .made ∧ e' ≠ .made)
    (hleak : e ≠ .leaked ∧ e' ≠ .leaked) (hcalls : e'.calls = e.calls) (hp : e'.pending = e.pending)
    (hw : e'.written = true → a.chan.ops.pc .worker = .idle) (hu : e'.uses = e.uses) : a.Ok e' where
  idle := h.idle.trans (iff_of_false hne.1 hne.2)
  made := h.made.trans (iff_of_false hmade.1 hmade.2)
  called := h.called.trans hcalls.symm
  pending he := h.pending (hp ▸ he)
  answered he := h.answered (hp ▸ he)
  thrown := h.thrown.trans (iff_of_false hleak.1 hleak.2)
  chan _ := h.chan hne.1
  written := hw
  returned := h.returned
  done := h.done
  uses _ := by rw [hu, h.uses hne.1]

/-- The caller still waits, so it has the channel. -/
theorem useCount_taken (h : a.Ok (.held t .taken)) : a.useCount = 2 := by
  have hres := h.pending rfl
  have huses := h.uses (by simp)
  cases hc : a.caller with
  | idle => exact absurd (h.idle.mp hc) (by simp)
  | made => exact absurd (h.made.mp hc) (by simp)
  | ready => rw [huses, hc]; rfl
  | receiving => rw [huses, hc]; rfl
  | returned r =>
    obtain ⟨v, -, hv⟩ := h.returned r hc
    simp [hres] at hv

theorem invoke (h : a.Ok (.held t .taken)) :
    Await.Ok { a with called := a.called + 1 } (.held t .invoking) where
  idle := h.idle.trans (by simp)
  made := h.made.trans (by simp)
  called := by
    show a.called + 1 = 1
    rw [h.called]
    rfl
  pending _ := h.pending rfl
  answered := by simp [ElemAt.pending]
  thrown := h.thrown.trans (by simp)
  chan _ := h.chan (by simp)
  written := by simp [ElemAt.written]
  returned := h.returned
  done := h.done
  uses _ := h.uses (by simp)

theorem fnReturn (h : a.Ok (.held t .invoking)) {v : R} {co : Bool}
    (hst : a.chan.step (.push .worker co v) = some ch) :
    Await.Ok { a with chan := ch, results := a.results ++ [v] } (.held t .sending) where
  idle := h.idle.trans (by simp)
  made := h.made.trans (by simp)
  called := h.called
  pending := by simp [ElemAt.pending]
  answered _ := ⟨v, by simp [h.pending rfl]⟩
  thrown := h.thrown.trans (by simp)
  chan _ := by
    have hshot := h.chan (by simp)
    rw [h.pending rfl] at hshot ⊢
    exact hshot.beginWrite hst
  written := by simp [ElemAt.written]
  returned r hr := by
    obtain ⟨x, -, hx⟩ := h.returned r hr
    simp [h.pending rfl] at hx
  done r hr := by
    obtain ⟨x, -, hx⟩ := h.returned r hr
    simp [h.pending rfl] at hx
  uses _ := h.uses (by simp)

theorem fnThrow (h : a.Ok (.held t .invoking)) :
    Await.Ok { a with thrown := true } (.leaked : ElemAt θ) where
  idle := h.idle.trans (by simp)
  made := h.made.trans (by simp)
  called := h.called
  pending _ := h.pending rfl
  answered := by simp [ElemAt.pending]
  thrown := by simp
  chan _ := h.chan (by simp)
  written := by simp [ElemAt.written]
  returned := h.returned
  done := h.done
  uses _ := h.uses (by simp)

theorem send (h : a.Ok (.held t .sending)) (hst : a.chan.advance .worker = some ch) :
    Await.Ok { a with chan := ch } (.held t .sending) where
  idle := h.idle
  made := h.made
  called := h.called
  pending := h.pending
  answered := h.answered
  thrown := h.thrown
  chan he := (h.chan he).stepWrite hst
  written := by simp [ElemAt.written]
  returned := h.returned
  done r hr := by
    obtain ⟨-, -, hother, -⟩ := Channel.System.advance_writer (h.chan (by simp)).inv (h.chan (by simp)).writer hst
    rcases hother .awaiter (by simp) with he | ⟨⟨k, hk⟩, -⟩
    · rw [he]
      exact h.done r hr
    · rw [h.done r hr] at hk
      cases k <;> exact Bool.noConfusion hk
  uses := h.uses

theorem delete (h : a.Ok (.held t .deleting)) :
    Await.Ok { a with useCount := a.useCount - 1 } (.deleted : ElemAt θ) where
  idle := h.idle.trans (by simp)
  made := h.made.trans (by simp)
  called := h.called
  pending := by simp [ElemAt.pending]
  answered _ := h.answered rfl
  thrown := h.thrown.trans (by simp)
  chan _ := h.chan (by simp)
  written _ := h.written rfl
  returned := h.returned
  done := h.done
  uses _ := by
    show a.useCount - 1 = a.caller.uses + 0
    rw [h.uses (by simp)]
    rfl

end Await.Ok

/-- **The invariant**: `eloc` says where each element is. -/
structure System.InvAt (s : System ι θ R) (eloc : ι → ElemAt θ) : Prop where
  nodup : s.elemList_.Nodup
  queued : ∀ i, i ∈ s.elemList_ ↔ eloc i = .queued
  held : ∀ t i k, s.worker t = .on i k ↔ eloc i = .held t k
  ok : ∀ i, (s.await i).Ok (eloc i)

namespace System

variable [DecidableEq ι] {s s' : System ι θ R} {eloc : ι → ElemAt θ} {i : ι} {t : θ} {e : ElemAt θ}
  {a : Await R}

/-- One await changes, and its element may move. -/
theorem InvAt.update (h : s.InvAt eloc) (hawait : s'.await = Function.update s.await i a)
    (hnodup : s'.elemList_.Nodup)
    (hqueued : ∀ j, j ∈ s'.elemList_ ↔ Function.update eloc i e j = .queued)
    (hheld : ∀ t j k, s'.worker t = .on j k ↔ Function.update eloc i e j = .held t k)
    (hok : a.Ok e) : s'.InvAt (Function.update eloc i e) := by
  refine ⟨hnodup, hqueued, hheld, fun j => ?_⟩
  rw [hawait, Function.update_apply, Function.update_apply]
  split_ifs
  · exact hok
  · exact h.ok j

/-- One await changes, and its element stays. -/
theorem InvAt.stay (h : s.InvAt eloc) (hok : a.Ok (eloc i)) : (s.setAwait i a).InvAt eloc := by
  refine ⟨h.nodup, h.queued, h.held, fun j => ?_⟩
  show (Function.update s.await i a j).Ok (eloc j)
  rw [Function.update_apply]
  split_ifs with hj
  · exact hj ▸ hok
  · exact h.ok j

/-- An element moves that no thread has. -/
theorem InvAt.held_keep (h : s.InvAt eloc) (hold : ∀ u k, eloc i ≠ .held u k)
    (he : ∀ u k, e ≠ .held u k) (u : θ) (j : ι) (k : Job) :
    s.worker u = .on j k ↔ Function.update eloc i e j = .held u k := by
  rw [h.held, Function.update_apply]
  split_ifs with hj
  · rw [hj]
    exact iff_of_false (hold u k) (he u k)
  · rfl

variable [DecidableEq θ]

/-- A pool thread goes on with an element, takes one or lets one go. -/
theorem InvAt.held_set (h : s.InvAt eloc) {x : Worker ι}
    (hx : ∀ j k, x = .on j k ↔ j = i ∧ e = .held t k) (he : ∀ u k, e = .held u k → u = t)
    (hold : ∀ j k, s.worker t = .on j k → j = i) (hmine : ∀ u k, eloc i = .held u k → u = t)
    (u : θ) (j : ι) (k : Job) :
    Function.update s.worker t x u = .on j k ↔ Function.update eloc i e j = .held u k := by
  rw [Function.update_apply, Function.update_apply]
  split_ifs with hu hj hj
  · rw [hx, hu]
    exact and_iff_right hj
  · refine iff_of_false (fun hxe => hj ((hx j k).mp hxe).1) fun hl => ?_
    rw [hu] at hl
    exact hj (hold j k ((h.held t j k).mpr hl))
  · refine iff_of_false (fun hw => ?_) fun hl => hu (he u k hl)
    rw [hj] at hw
    exact hu (hmine u k ((h.held u i k).mp hw))
  · exact h.held u j k

/-- **A pool thread goes on** with its element `i`, or lets it go. -/
theorem InvAt.work (h : s.InvAt eloc) {k : Job} (hw : s.worker t = .on i k) {x : Worker ι}
    (hx : ∀ j k, x = .on j k ↔ j = i ∧ e = .held t k) (he : ∀ u k, e = .held u k → u = t)
    (hq : e ≠ .queued) (hawait : s'.await = Function.update s.await i a)
    (hlist : s'.elemList_ = s.elemList_) (hworker : s'.worker = Function.update s.worker t x)
    (hok : a.Ok e) : s'.InvAt (Function.update eloc i e) := by
  have hi : eloc i = .held t k := (h.held t i k).mp hw
  refine h.update hawait (hlist ▸ h.nodup) (fun j => ?_) ?_ hok
  · rw [hlist, h.queued, Function.update_apply]
    split_ifs with hj
    · rw [hj, hi]
      exact iff_of_false (by simp) hq
    · rfl
  · intro u j k'
    rw [hworker]
    refine h.held_set hx he (fun j k hj => ?_) (fun u k hu => ?_) u j k'
    · rw [hw] at hj
      exact (Worker.on.inj hj).1.symm
    · rw [hi] at hu
      exact (ElemAt.held.inj hu).1.symm

omit [DecidableEq ι] [DecidableEq θ] in
theorem on_iff {k : Job} (j : ι) (k' : Job) :
    Worker.on i k = .on j k' ↔ j = i ∧ ElemAt.held t k = .held t k' := by
  simp only [Worker.on.injEq, ElemAt.held.injEq, true_and]
  exact and_congr_left' eq_comm

omit [DecidableEq ι] [DecidableEq θ] in
theorem InvAt.at_held (h : s.InvAt eloc) {k : Job} (hw : s.worker t = .on i k) :
    (s.await i).Ok (.held t k) :=
  (h.held t i k).mp hw ▸ h.ok i

/-- **One step** keeps the invariant. -/
theorem step_inv {x : Act ι θ R} (h : s.InvAt eloc) (hst : s.step x = some s') :
    ∃ eloc', s'.InvAt eloc' := by
  cases x with
  | asyncWait i =>
    simp only [step] at hst
    split at hst
    · rename_i hc
      cases hst
      have he : eloc i = .none := (h.ok i).idle.mp hc
      refine ⟨_, h.update (i := i) (e := .made) rfl h.nodup (fun j => ?_)
        (h.held_keep (by simp [he]) (by simp)) (he ▸ h.ok i : (s.await i).Ok .none).asyncWait⟩
      rw [Function.update_apply]
      split_ifs with hj
      · rw [hj]
        exact (h.queued i).trans (by simp [he])
      · exact h.queued j
    · contradiction
  | enqueue i =>
    simp only [step] at hst
    split at hst
    · rename_i hc
      cases hst
      have he : eloc i = .made := (h.ok i).made.mp hc
      have hnot : i ∉ s.elemList_ := by rw [h.queued, he]; simp
      refine ⟨_, h.update (i := i) (e := .queued) rfl ?_ (fun j => ?_)
        (h.held_keep (by simp [he]) (by simp)) (he ▸ h.ok i : (s.await i).Ok .made).enqueue⟩
      · exact List.Nodup.append h.nodup (List.nodup_singleton i) (by simpa using hnot)
      · show j ∈ s.elemList_ ++ [i] ↔ _
        rw [Function.update_apply, List.mem_append, List.mem_singleton]
        split_ifs with hj
        · simp [hj]
        · rw [h.queued]
          simp [hj]
    · contradiction
  | receive i co =>
    simp only [step] at hst
    split at hst
    · rename_i hc
      obtain ⟨ch, hch, rfl⟩ := Option.map_eq_some_iff.mp hst
      have hshot := (h.ok i).chan ((h.ok i).ne_none (by simp [hc]))
      rw [hc] at hshot
      refine ⟨_, h.stay ((h.ok i).call (.inr rfl) (.inl hc) (hshot.beginRead hch) fun hidle => ?_)⟩
      rw [Channel.System.step, Channel.System.start, if_pos (hshot.unread rfl).1, Option.some_inj] at hch
      rw [← hch]
      exact (Pool.pc_set_of_ne _ (by simp) _).trans hidle
    · contradiction
  | advance i =>
    simp only [step] at hst
    split at hst
    · rename_i hc
      obtain ⟨ch, hch, rfl⟩ := Option.map_eq_some_iff.mp hst
      have hshot := (h.ok i).chan ((h.ok i).ne_none (by simp [hc]))
      rw [hc] at hshot
      have hcall := (h.ok i).call (.inr rfl) (.inr hc) (hshot.stepRead hch) fun hidle => ?_
      · rw [← hc] at hcall
        exact ⟨_, h.stay hcall⟩
      · obtain ⟨-, hother, -⟩ :=
          Channel.System.advance_reader hshot.inv hshot.reader (hshot.ignore rfl) hch
        exact ((hother .worker (by simp)).1.writing hshot.writer).2.2 hidle
    · contradiction
  | ret i =>
    simp only [step] at hst
    split at hst
    · rename_i hc hidle
      cases hst
      exact ⟨_, h.stay ((h.ok i).ret hc hidle)⟩
    · contradiction
  | pop t =>
    simp only [step] at hst
    split at hst
    · rename_i i rest hw hlist
      cases hst
      have hnd : (i :: rest).Nodup := hlist ▸ h.nodup
      have he : eloc i = .queued := (h.queued i).mp (by rw [hlist]; exact List.mem_cons_self)
      have hok : (s.await i).Ok (.held t .taken) := by
        refine (h.ok i).move ?_ ?_ ?_ ?_ ?_ Bool.noConfusion ?_ <;> rw [he] <;> simp [ElemAt.calls,
          ElemAt.pending, ElemAt.uses]
      refine ⟨_, h.update (i := i) (a := s.await i) (Function.update_eq_self _ _).symm
        (List.nodup_cons.mp hnd).2 (fun j => ?_) (h.held_set ?_ ?_ ?_ ?_) hok⟩
      · show j ∈ rest ↔ _
        rw [Function.update_apply]
        split_ifs with hj
        · rw [hj]
          exact iff_of_false (List.nodup_cons.mp hnd).1 (by simp)
        · rw [← h.queued, hlist, List.mem_cons]
          simp [hj]
      · exact on_iff
      · intro u k hu
        exact (ElemAt.held.inj hu).1.symm
      · intro j k hj
        rw [hw] at hj
        contradiction
      · intro u k hu
        rw [he] at hu
        contradiction
    · contradiction
  | doElem t =>
    simp only [step] at hst
    split at hst
    · rename_i i hw
      have hok := h.at_held hw
      -- `Unique` is false
      rw [if_neg (by rw [hok.useCount_taken]; decide), Option.some_inj] at hst
      subst hst
      exact ⟨_, h.work hw on_iff (by simp [eq_comm]) (by simp) rfl rfl rfl hok.invoke⟩
    · contradiction
  | fnReturn t v co =>
    simp only [step] at hst
    split at hst
    · rename_i i hw
      obtain ⟨ch, hch, rfl⟩ := Option.map_eq_some_iff.mp hst
      exact ⟨_, h.work hw on_iff (by simp [eq_comm]) (by simp) rfl rfl rfl ((h.at_held hw).fnReturn hch)⟩
    · contradiction
  | fnThrow t =>
    simp only [step] at hst
    split at hst
    · rename_i i hw
      cases hst
      exact ⟨_, h.work hw (by simp) (by simp) (by simp) rfl rfl rfl (h.at_held hw).fnThrow⟩
    · contradiction
  | send t =>
    simp only [step] at hst
    split at hst
    · rename_i i hw
      obtain ⟨ch, hch, rfl⟩ := Option.map_eq_some_iff.mp hst
      have hsend := (h.at_held hw).send hch
      rw [← (h.held t i .sending).mp hw] at hsend
      exact ⟨_, h.stay hsend⟩
    · contradiction
  | endDo t =>
    simp only [step] at hst
    split at hst
    · rename_i i hw
      split at hst
      · rename_i hidle
        cases hst
        have hok : (s.await i).Ok (.held t .deleting) :=
          (h.at_held hw).move (by simp) (by simp) (by simp) rfl rfl (fun _ => hidle) rfl
        exact ⟨_, h.work hw on_iff (by simp [eq_comm]) (by simp) (Function.update_eq_self _ _).symm rfl
          rfl hok⟩
      · contradiction
    · contradiction
  | delete t =>
    simp only [step] at hst
    split at hst
    · rename_i i hw
      cases hst
      exact ⟨_, h.work hw (by simp) (by simp) (by simp) rfl rfl rfl (h.at_held hw).delete⟩
    · contradiction

omit [DecidableEq ι] [DecidableEq θ] in
theorem init_inv (h : Init s) : s.InvAt fun _ => .none := by
  refine ⟨by rw [h.elemList]; exact .nil, fun i => by simp [h.elemList], fun t i k => by simp [h.worker],
    fun i => ⟨by simp [h.caller], by simp [h.caller], h.called i, fun _ => h.results i,
      Bool.noConfusion, by simp [h.thrown], fun hn => absurd rfl hn, Bool.noConfusion, by simp [h.caller],
      by simp [h.caller], fun hn => absurd rfl hn⟩⟩

theorem reach_inv : ∀ s : System ι θ R, Reach Init step s → ∃ eloc, s.InvAt eloc :=
  ReachIf.invariant (fun _ h => ⟨_, init_inv h⟩) fun _ _ _ ⟨_, h⟩ _ hst => step_inv h hst

/-- No step is possible, apart from new awaits. -/
def Stuck (s : System ι θ R) : Prop := ∀ x, (∀ i, x ≠ .asyncWait i) → s.step x = none

/-- The caller of an element that a thread has cannot go on: it has returned, or its channel has
no step for it. -/
theorem InvAt.awaiter_stuck (h : s.InvAt eloc) (hstuck : s.Stuck) {k : Job} (he : eloc i = .held t k) :
    OneShot true (s.await i).results.head? (s.await i).chan ∧
      (s.await i).chan.advance .awaiter = none := by
  have hok := h.ok i
  have hshot := hok.chan (by simp [he])
  cases hc : (s.await i).caller with
  | idle => exact absurd (hok.idle.mp hc) (by simp [he])
  | made => exact absurd (hok.made.mp hc) (by simp [he])
  | ready =>
    have hreceive := hstuck (.receive i true) (by simp)
    rw [hc] at hshot
    simp [step, hc, Channel.System.step, Channel.System.start, (hshot.unread rfl).1] at hreceive
  | receiving =>
    have hadvance := hstuck (.advance i) (by simp)
    rw [hc] at hshot
    exact ⟨hshot, by simpa [step, hc] using hadvance⟩
  | returned r =>
    rw [hc] at hshot
    refine ⟨hshot, ?_⟩
    rw [Channel.System.advance, hok.done r hc]

/-- **No thread of the pool is stuck with an element.** -/
theorem InvAt.not_held (h : s.InvAt eloc) (hstuck : s.Stuck) (k : Job) : eloc i ≠ .held t k := by
  intro he
  have hw : s.worker t = .on i k := (h.held t i k).mpr he
  cases k with
  | taken =>
    have hdo := hstuck (.doElem t) (by simp)
    simp only [step, hw] at hdo
    split_ifs at hdo
  | invoking =>
    have hthrow := hstuck (.fnThrow t) (by simp)
    simp [step, hw] at hthrow
  | deleting =>
    have hdelete := hstuck (.delete t) (by simp)
    simp [step, hw] at hdelete
  | sending =>
    have hsend := hstuck (.send t) (by simp)
    have hend := hstuck (.endDo t) (by simp)
    obtain ⟨hshot, hreader⟩ := h.awaiter_stuck hstuck he
    obtain ⟨v, hv⟩ := (h.ok i).answered (by rw [he]; rfl)
    rw [hv] at hshot
    have hwriter : (s.await i).chan.advance .worker = none := by simpa [step, hw] using hsend
    simp [step, hw, (hshot.idle_of_stuck hwriter hreader).1] at hend

/-- **Where no step is possible**, and the pool has a thread, every await that was started has
returned, or its function threw. -/
theorem InvAt.returned_of_stuck [Nonempty θ] (h : s.InvAt eloc) (hstuck : s.Stuck) (i : ι) :
    (s.await i).caller = .idle ∨ (∃ r, (s.await i).caller = .returned r) ∨ (s.await i).thrown = true := by
  have hok := h.ok i
  have hidle : ∀ t, s.worker t = .idle := by
    intro t
    cases hw : s.worker t with
    | idle => rfl
    | on j k => exact absurd ((h.held t j k).mp hw) (h.not_held hstuck k)
  cases hc : (s.await i).caller with
  | idle => exact .inl rfl
  | returned r => exact .inr (.inl ⟨r, rfl⟩)
  | made =>
    have henqueue := hstuck (.enqueue i) (by simp)
    simp [step, hc] at henqueue
  | ready =>
    have hreceive := hstuck (.receive i true) (by simp)
    have hshot := hok.chan (hok.ne_none (by simp [hc]))
    rw [hc] at hshot
    simp [step, hc, Channel.System.step, Channel.System.start, (hshot.unread rfl).1] at hreceive
  | receiving =>
    cases he : eloc i with
    | none => exact absurd (hok.idle.mpr he) (by simp [hc])
    | made => exact absurd (hok.made.mpr he) (by simp [hc])
    | held t k => exact absurd he (h.not_held hstuck k)
    | leaked => exact .inr (.inr (hok.thrown.mpr he))
    | queued =>
      -- an idle thread could take an element
      obtain ⟨t⟩ := ‹Nonempty θ›
      have hpop := hstuck (.pop t) (by simp)
      obtain ⟨j, rest, hlist⟩ := List.exists_cons_of_ne_nil (List.ne_nil_of_mem ((h.queued i).mpr he))
      simp [step, hidle t, hlist] at hpop
    | deleted =>
      have hadvance := hstuck (.advance i) (by simp)
      have hret := hstuck (.ret i) (by simp)
      have hshot := hok.chan (hok.ne_none (by simp [hc]))
      obtain ⟨v, hv⟩ := hok.answered (by rw [he]; rfl)
      rw [hc, hv] at hshot
      have hwriter : (s.await i).chan.advance .worker = none := by
        rw [Channel.System.advance, hok.written (by rw [he]; rfl)]
      have hreader : (s.await i).chan.advance .awaiter = none := by simpa [step, hc] using hadvance
      simp [step, hc, (hshot.idle_of_stuck hwriter hreader).2] at hret

/-- **An await returns what its function returned.**  With any number of awaits and pool
threads, in every order of their steps: a function is called once at most, and an await that
has returned has what its own function returned.  No element is deleted before its function
has returned (`Unique` is never true), no channel is used after its last owner, and no channel
operation fails.  When the pool has a thread and no step is possible, every await that was
started has returned, or its function threw. -/
theorem await_own_result (hs : Reach Init step s) :
    (∀ i, (s.await i).called ≤ 1 ∧ (s.await i).results.length ≤ (s.await i).called) ∧
      (∀ i r, (s.await i).caller = .returned r → ∃ v, r = some v ∧ (s.await i).results = [v]) ∧
      (∀ t i, s.worker t = .on i .deleting → (s.await i).results ≠ []) ∧
      (∀ i, (s.await i).caller = .receiving ∨ (∃ t k, s.worker t = .on i k) →
        0 < (s.await i).useCount ∧ (s.await i).chan.fault = false) ∧
      (Nonempty θ → s.Stuck → ∀ i, (s.await i).caller = .idle ∨
        (∃ r, (s.await i).caller = .returned r) ∨ (s.await i).thrown = true) := by
  obtain ⟨eloc, h⟩ := reach_inv s hs
  refine ⟨fun i => ?_, fun i r => (h.ok i).returned r, fun t i hw hnil => ?_, fun i hi => ?_,
    fun _ hstuck => h.returned_of_stuck hstuck⟩
  · have hok := h.ok i
    have hcalled := hok.called
    cases he : eloc i with
    | held t k => cases k with
      | taken => simp [hcalled, hok.pending, he, ElemAt.calls, ElemAt.pending]
      | invoking => simp [hcalled, hok.pending, he, ElemAt.calls, ElemAt.pending]
      | _ =>
        obtain ⟨v, hv⟩ := hok.answered (by rw [he]; rfl)
        simp [hcalled, hv, he, ElemAt.calls]
    | deleted =>
      obtain ⟨v, hv⟩ := hok.answered (by rw [he]; rfl)
      simp [hcalled, hv, he, ElemAt.calls]
    | _ => simp [hcalled, hok.pending, he, ElemAt.calls, ElemAt.pending]
  · obtain ⟨v, hv⟩ := (h.at_held hw).answered rfl
    simp [hnil] at hv
  · have hok := h.ok i
    rcases hi with hc | ⟨t, k, hw⟩
    · have hne := hok.ne_none (by simp [hc])
      refine ⟨?_, (hok.chan hne).inv.noFault⟩
      have := hok.uses hne
      rw [hc] at this
      simp only [Caller.uses] at this
      omega
    · have hheld := h.at_held hw
      refine ⟨?_, (hheld.chan (by simp)).inv.noFault⟩
      have := hheld.uses (by simp)
      simp only [ElemAt.uses] at this
      omega

/-- No await, and an idle pool. -/
def start : System ι θ R where
  elemList_ := []
  await _ := ⟨.idle, newChan, 0, 0, [], false⟩
  worker _ := .idle

omit [DecidableEq ι] [DecidableEq θ] in
theorem init_start : Init (start : System ι θ R) :=
  ⟨rfl, fun _ => rfl, fun _ => rfl, fun _ => rfl, fun _ => rfl, fun _ => rfl⟩

/-- Two awaits.  A thread has the first result before its caller reads; the second await is
answered meanwhile; then the first. -/
def twoAwaits : List (Act Bool Bool ℕ) :=
  List.flatten [[.asyncWait false, .enqueue false, .asyncWait true, .enqueue true, .pop false,
    .pop true, .doElem false, .doElem true, .fnReturn false 7 false, .send false, .receive true true],
    List.replicate 3 (.advance true), [.fnReturn true 8 false], List.replicate 5 (.send true),
    [.endDo true, .delete true], List.replicate 4 (.advance true), [.ret true, .receive false true],
    List.replicate 3 (.advance false), List.replicate 5 (.send false),
    List.replicate 4 (.advance false), [.endDo false, .delete false, .ret false]]

theorem await_own_result_two : ∃ s : System Bool Bool ℕ,
    exec step start twoAwaits = some s ∧ s.Stuck ∧ (s.await true).caller = .returned (some 8) ∧
      (∃ v, some 8 = some v ∧ (s.await true).results = [v]) ∧ (∀ i, (s.await i).called ≤ 1) ∧
      ∀ i, (s.await i).caller = .idle ∨ (∃ r, (s.await i).caller = .returned r) ∨
        (s.await i).thrown = true := by
  have hrun : exec step start twoAwaits = some ((exec step start twoAwaits).get rfl) := rfl
  have hstuck : ((exec step start twoAwaits).get rfl).Stuck := by
    intro x hx
    cases x with
    | asyncWait i => exact absurd rfl (hx i)
    | enqueue i => cases i <;> rfl
    | receive i => cases i <;> rfl
    | advance i => cases i <;> rfl
    | ret i => cases i <;> rfl
    | pop t => cases t <;> rfl
    | doElem t => cases t <;> rfl
    | fnReturn t => cases t <;> rfl
    | fnThrow t => cases t <;> rfl
    | send t => cases t <;> rfl
    | endDo t => cases t <;> rfl
    | delete t => cases t <;> rfl
  have h := await_own_result (reach_exec twoAwaits (.start init_start) hrun)
  exact ⟨_, hrun, hstuck, rfl, h.2.1 true (some 8) rfl, fun i => (h.1 i).1, h.2.2.2.2 ⟨true⟩ hstuck⟩

end System

end AsyncWait
