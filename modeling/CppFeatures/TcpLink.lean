/-
Two sessions and the connection between them (network/tcp_detail.cpp).

The bytes that `write_some` of one end accepts arrive at the other end in order, in pieces of
any size and after any time; `read_some` takes what fits into `recv_buf_`.  Either loop of
either end may fail at any moment, messages time out, and `Send` and `Shutdown` are called
from anywhere.  The `memcpy` of `goReceive`, whose ranges overlap where the callback takes
less than half of its offer, is taken as `memmove`.

* `TcpSession.Sent` — how the bytes accepted at an end come from its calls of `Send`;
* `TcpLink` — both ends and the bytes on their way;
* `TcpLink.end_to_end` — what the receive callback of one end consumes is what the other end
  was told to send.
-/
import CppFeatures.TcpSession

/-! ### What an end has sent -/

namespace Sender

open List

variable {ι : Type*} {s s' : Sender ι} {pc : SendPc}

/-- The messages in the order of `Send`, but for the empty ones, which `Send` answers itself. -/
def nonempty (keys : List (ι × List UInt8)) : List (ι × List UInt8) :=
  keys.filter fun k => !k.2.isEmpty

theorem flatten_nonempty (keys : List (ι × List UInt8)) :
    ((nonempty keys).map Prod.snd).flatten = (keys.map Prod.snd).flatten := by
  have hflat : ((keys.map Prod.snd).filter fun l => !l.isEmpty).flatten
      = (keys.map Prod.snd).flatten := flatten_filter_not_isEmpty
  rw [filter_map] at hflat
  exact hflat

theorem nonempty_append (as bs : List (ι × List UInt8)) :
    nonempty (as ++ bs) = nonempty as ++ nonempty bs := filter_append ..

/-- The messages whose callback got success after all their bytes were accepted. -/
def sent (s : Sender ι) : List (ι × List UInt8) := nonempty (s.succeeded.map Msg.key)

/-- The messages that were delivered, and those that may still be. -/
def live (s : Sender ι) : List (ι × List UInt8) := nonempty s.inOrder

theorem sent_prefix_live (s : Sender ι) : s.sent <+: s.live := by
  rw [live, inOrder, nonempty_append]
  exact prefix_append ..

theorem flatten_sent (s : Sender ι) :
    (s.sent.map Prod.snd).flatten = (s.succeeded.map Msg.buf).flatten := by
  rw [sent, flatten_nonempty, map_map]
  rfl

/-- The accepted part of the head and what is still to be sent make the list. -/
theorem headPart_append_stream (h : s.Sound) :
    headPart s.msgSendList_ ++ s.stream = (s.msgSendList_.map Msg.buf).flatten := by
  have htail := h.tail
  rw [stream]
  cases hl : s.msgSendList_ with
  | nil => rfl
  | cons msg list =>
    rw [hl] at htail
    have hrest : list.map Msg.rest = list.map Msg.buf := by
      refine map_congr_left fun m hm => ?_
      rw [Msg.rest, htail m hm, drop_zero]
    rw [headPart, map_cons, map_cons, hrest, flatten_cons, flatten_cons,
      ← append_assoc]
    congr 1
    exact take_append_drop ..

/-- **The accepted bytes** are a first part of the messages, in their order. -/
theorem accepted_prefix_live (h : s.Sound) (hb : s.Balanced pc) :
    s.accepted <+: (s.live.map Prod.snd).flatten := by
  have hlive : (s.live.map Prod.snd).flatten = (s.succeeded.map Msg.buf).flatten ++
      ((s.msgSendList_.map Msg.buf).flatten ++ (s.msgChan_.map Msg.buf).flatten) := by
    rw [live, flatten_nonempty, inOrder]
    simp only [map_append, map_map, flatten_append]
    rfl
  rw [Balanced] at hb
  rw [hlive, hb, ← headPart_append_stream h, append_assoc, append_assoc,
    prefix_append_right_inj, prefix_append_right_inj]
  exact (List.take_prefix ..).trans (prefix_append ..)

/-! ### What goes on at any time -/

/-- Callbacks that are called outside of the loop: no timeout, and success for no byte. -/
def Aside (l : List (Msg ι × BoostEc)) : Prop :=
  ∀ a ∈ l, a.2 ≠ makeNetworkErrorCode .ecTimeout ∧ (a.2 = .success → a.1.buf = [])

/-- Such calls do not count as sent. -/
theorem sent_aside {l : List (Msg ι × BoostEc)} (hl : Aside l)
    (hans : s'.answers = s.answers ++ l) : s'.sent = s.sent := by
  have hnil : nonempty ((((l.filter fun a => decide (a.2 = .success)).map Prod.fst)).map Msg.key)
      = [] := by
    rw [nonempty, filter_eq_nil_iff]
    intro k hk
    obtain ⟨msg, hmsg, rfl⟩ := mem_map.mp hk
    obtain ⟨a, ha, rfl⟩ := mem_map.mp hmsg
    obtain ⟨hal, hok⟩ := mem_filter.mp ha
    have hbuf := (hl a hal).2 (of_decide_eq_true hok)
    rw [Msg.key, hbuf]
    exact Bool.false_ne_true
  rw [sent, sent, succeeded, hans, filter_append, map_append, map_append,
    nonempty_append, hnil, append_nil]
  rfl

theorem live_aside {l : List (Msg ι × BoostEc)} (hl : Aside l) (hans : s'.answers = s.answers ++ l)
    (hlist : s'.msgSendList_ = s.msgSendList_) (hchan : s'.msgChan_ = s.msgChan_) :
    s'.live = s.live := by
  have hsent := sent_aside hl hans
  rw [sent, sent] at hsent
  simp only [live, inOrder, nonempty_append, hsent, hlist, hchan]

theorem Balanced.aside {l : List (Msg ι × BoostEc)} (h : s.Balanced pc) (hl : Aside l)
    (hans : s'.answers = s.answers ++ l) (hlist : s'.msgSendList_ = s.msgSendList_)
    (hacc : s'.accepted = s.accepted) : s'.Balanced pc := by
  rw [Balanced] at h ⊢
  rw [← flatten_sent, sent_aside hl hans, flatten_sent, hacc, h, stream, stream, hlist]

theorem sound_new : (new : Sender ι).Sound := by
  constructor <;> simp [new]

theorem At.congr (h : s.At pc) (hlist : s'.msgSendList_ = s.msgSendList_) : s'.At pc := by
  cases pc with
  | crashed => trivial
  | accounting n =>
    rw [At, stream, hlist]
    exact h
  | _ =>
    rw [At, hlist]
    exact h

/-- What was delivered of the messages `pushed`: `ms` is what will have been sent if the
connection lasts. -/
structure Delivered (s : Sender ι) (pushed ms : List (ι × List UInt8)) : Prop where
  order : ms.Sublist pushed
  bytes : s.accepted <+: (ms.map Prod.snd).flatten
  whole : s.sent <+: ms
  sent : (s.sent.map Prod.snd).flatten <+: s.accepted
  dropped : ∀ a ∈ s.answers, a.2 = makeNetworkErrorCode .ecTimeout → a.1.id ∉ ms.map Prod.fst

variable {pushed pushed' ms : List (ι × List UInt8)}

/-- Nothing is accepted any more. -/
theorem Delivered.aside {l : List (Msg ι × BoostEc)} (h : s.Delivered pushed ms) (hl : Aside l)
    (hans : s'.answers = s.answers ++ l) (hacc : s'.accepted = s.accepted)
    (hpushed : pushed.Sublist pushed') : s'.Delivered pushed' ms := by
  have hsent := sent_aside hl hans
  refine ⟨h.order.trans hpushed, hacc ▸ h.bytes, hsent ▸ h.whole, ?_, fun a ha hec => ?_⟩
  · rw [hsent, hacc]
    exact h.sent
  · rw [hans, mem_append] at ha
    rcases ha with ha | ha
    · exact h.dropped a ha hec
    · exact absurd hec (hl a ha).1

end Sender

/-! ### The calls of an end -/

namespace TcpSession

open List

variable {τ : Type*}

/-- The loop of `goSend` is at `pc`. -/
structure Flowing (s : TcpSession τ) (pc : SendPc) (pushed : List (τ × List UInt8)) : Prop where
  sound : s.snd.Sound
  at_pc : s.snd.At pc
  balanced : s.snd.Balanced pc
  order : s.snd.live.Sublist pushed
  nodup : (s.snd.places.map Prod.fst).Nodup
  returned : ∀ k ∈ s.snd.places, s.calls.pc k.1 = .returned

/-- What has become of the messages that `Send` pushed. -/
structure Sent (s : TcpSession τ) (pushed : List (τ × List UInt8)) : Prop where
  passed : ∀ {t buf}, s.calls.pc t = .passed buf → buf ≠ []
  returned : ∀ k ∈ pushed, s.calls.pc k.1 = .returned
  nodup : (pushed.map Prod.fst).Nodup
  body : ∀ {pc}, s.send = .body pc → s.Flowing pc pushed
  tested : s.send = .tested → s.Flowing .top pushed
  exit : ∀ {pc}, s.send = .exit pc → ∃ ms, s.snd.Delivered pushed ms

variable {s s' : TcpSession τ} {pc : SendPc} {pushed : List (τ × List UInt8)}

theorem Flowing.delivered (h : s.Flowing pc pushed) : s.snd.Delivered pushed s.snd.live := by
  refine ⟨h.order, Sender.accepted_prefix_live h.sound h.balanced, s.snd.sent_prefix_live, ?_,
    fun a ha hec hm => ?_⟩
  · have hb := h.balanced
    rw [Sender.Balanced] at hb
    rw [Sender.flatten_sent, hb, append_assoc]
    exact prefix_append ..
  · -- its id is nowhere else
    obtain ⟨k, hk, hid⟩ := mem_map.mp hm
    have hk := (mem_filter.mp hk).1
    have hnodup := h.nodup
    rw [Sender.places, map_append] at hnodup
    obtain ⟨hans, -, hdisj⟩ := nodup_append.mp hnodup
    have haid : a.1.id ∈ (s.snd.answers.map fun a => a.1.key).map Prod.fst :=
      mem_map_of_mem (mem_map_of_mem ha)
    rcases mem_append.mp hk with hk | hk
    · obtain ⟨msg, hmsg, rfl⟩ := mem_map.mp hk
      obtain ⟨b, hb, rfl⟩ := mem_map.mp hmsg
      obtain ⟨hb, hok⟩ := mem_filter.mp hb
      rw [map_map] at hans
      obtain rfl := inj_on_of_nodup_map hans ha hb hid.symm
      rw [of_decide_eq_true hok] at hec
      exact absurd hec (by decide)
    · exact hdisj _ haid _ (mem_map_of_mem hk) hid.symm

theorem Sent.delivered (h : s.Sent pushed) : ∃ ms, s.snd.Delivered pushed ms := by
  cases hs : s.send with
  | body pc => exact ⟨_, (h.body hs).delivered⟩
  | tested => exact ⟨_, (h.tested hs).delivered⟩
  | exit pc => exact h.exit hs

/-- A step that does not touch the sender. -/
theorem Flowing.congr (h : s.Flowing pc pushed) (hsnd : s'.snd = s.snd)
    (hcalls : ∀ t, s.calls.pc t = .returned → s'.calls.pc t = .returned) :
    s'.Flowing pc pushed := by
  refine ⟨hsnd ▸ h.sound, hsnd ▸ h.at_pc, hsnd ▸ h.balanced, hsnd ▸ h.order, hsnd ▸ h.nodup,
    fun k hk => ?_⟩
  rw [hsnd] at hk
  exact hcalls _ (h.returned k hk)

theorem Sent.congr (h : s.Sent pushed) (hsnd : s'.snd = s.snd) (hsend : s'.send = s.send)
    (hcalls : ∀ t, s.calls.pc t = .returned → s'.calls.pc t = .returned)
    (hpassed : ∀ {t buf}, s'.calls.pc t = .passed buf → buf ≠ []) : s'.Sent pushed := by
  refine ⟨hpassed, fun k hk => hcalls _ (h.returned k hk), h.nodup, fun hs => ?_, fun hs => ?_,
    fun hs => ?_⟩
  · exact (h.body (hsend ▸ hs)).congr hsnd hcalls
  · exact (h.tested (hsend ▸ hs)).congr hsnd hcalls
  · rw [hsnd]
    exact h.exit (hsend ▸ hs)

/-- The timer of a message fires. -/
theorem Sent.expire (h : s.Sent pushed) {f : τ → Bool} :
    Sent { s with snd := { s.snd with timeout := f } } pushed := by
  have hflow : ∀ {pc}, s.Flowing pc pushed →
      Flowing { s with snd := { s.snd with timeout := f } } pc pushed := by
    intro pc hf
    exact ⟨⟨hf.sound.fresh, hf.sound.listed, hf.sound.tail, hf.sound.dropped⟩,
      hf.at_pc.congr rfl, hf.balanced, hf.order, hf.nodup, hf.returned⟩
  refine ⟨h.passed, h.returned, h.nodup, fun hs => hflow (h.body hs), fun hs => hflow (h.tested hs),
    fun hs => ?_⟩
  obtain ⟨ms, hms⟩ := h.exit hs
  exact ⟨ms, hms.order, hms.bytes, hms.whole, hms.sent, hms.dropped⟩

variable [DecidableEq τ] {t : τ} {buf : List UInt8} {ec : BoostEc}

omit [DecidableEq τ] in
/-- A call of `Send` is known by its message from when it returns. -/
theorem Flowing.ids (h : s.Flowing pc pushed) (ht : s.calls.pc t ≠ .returned) {snd : Sender τ}
    (hperm : snd.places.Perm ((t, buf) :: s.snd.places)) :
    (snd.places.map Prod.fst).Nodup ∧ ∀ k ∈ snd.places, k.1 = t ∨ s.calls.pc k.1 = .returned := by
  refine ⟨(hperm.map Prod.fst).nodup_iff.mpr (nodup_cons.mpr ⟨fun hm => ?_, h.nodup⟩),
    fun k hk => ?_⟩
  · obtain ⟨k, hk, rfl⟩ := mem_map.mp hm
    exact ht (h.returned k hk)
  · rcases mem_cons.mp (hperm.mem_iff.mp hk) with rfl | hk
    · exact .inl rfl
    · exact .inr (h.returned k hk)

theorem returned_set {u : τ} (h : u = t ∨ s.calls.pc u = .returned) :
    (s.calls.set t .returned).pc u = .returned := by
  rw [Pool.pc_set]
  split_ifs with hu
  · rfl
  · exact h.resolve_left hu

theorem passed_set {u : τ} (h : s.Sent pushed) (hu : (s.calls.set t .returned).pc u = .passed buf) :
    buf ≠ [] := by
  rw [Pool.pc_set] at hu
  split_ifs at hu
  exact h.passed hu

/-- `Send` answers by itself: the session is shutting down, there is nothing to send, or the
channel is full. -/
theorem Sent.refuse (h : s.Sent pushed) (ht : s.calls.pc t ≠ .returned)
    (hec : ec ≠ makeNetworkErrorCode .ecTimeout) (hok : ec = .success → buf = []) :
    Sent { s.answer { id := t, buf := buf } ec with calls := s.calls.set t .returned } pushed := by
  have hside : Sender.Aside [(({ id := t, buf := buf } : Msg τ), ec)] := by
    intro a ha
    rw [mem_singleton.mp ha]
    exact ⟨hec, hok⟩
  have hflow : ∀ {pc}, s.Flowing pc pushed → Flowing { s.answer { id := t, buf := buf } ec with
      calls := s.calls.set t .returned } pc pushed := by
    intro pc hf
    have hperm : (s.snd.answer { id := t, buf := buf } ec).places.Perm ((t, buf) :: s.snd.places) := by
      rw [Sender.places, Sender.answer, map_append, append_assoc]
      exact perm_middle
    obtain ⟨hnodup, hids⟩ := hf.ids ht hperm
    refine ⟨⟨hf.sound.fresh, hf.sound.listed, hf.sound.tail, fun a ha hae => ?_⟩,
      hf.at_pc.congr rfl, hf.balanced.aside hside rfl rfl rfl, ?_, hnodup,
      fun k hk => returned_set (hids k hk)⟩
    · rcases mem_append.mp ha with ha | ha
      · exact hf.sound.dropped a ha hae
      · exact absurd hae (hside a ha).1
    · have hlive : (s.snd.answer { id := t, buf := buf } ec).live = s.snd.live :=
        Sender.live_aside hside rfl rfl rfl
      exact hlive ▸ hf.order
  refine ⟨passed_set h, fun k hk => returned_set (.inr (h.returned k hk)), h.nodup,
    fun hs => hflow (h.body hs), fun hs => hflow (h.tested hs), fun hs => ?_⟩
  obtain ⟨ms, hms⟩ := h.exit hs
  exact ⟨ms, hms.aside hside rfl rfl (List.Sublist.refl _)⟩

/-- **`Send` pushes a message.** -/
theorem Sent.push (h : s.Sent pushed) (ht : s.calls.pc t = .passed buf) {late : List τ} :
    Sent { s with
      snd := { s.snd with msgChan_ := s.snd.msgChan_ ++ [{ id := t, buf := buf }] }
      calls := s.calls.set t .returned
      late := late } (pushed ++ [(t, buf)]) := by
  have hnot : s.calls.pc t ≠ .returned := by
    rw [ht]
    simp
  have hflow : ∀ {pc}, s.Flowing pc pushed → Flowing { s with
      snd := { s.snd with msgChan_ := s.snd.msgChan_ ++ [{ id := t, buf := buf }] }
      calls := s.calls.set t .returned
      late := late } pc (pushed ++ [(t, buf)]) := by
    intro pc hf
    have hperm : ({ s.snd with msgChan_ := s.snd.msgChan_ ++ [{ id := t, buf := buf }] } :
        Sender τ).places.Perm ((t, buf) :: s.snd.places) := by
      simp only [Sender.places, map_append, ← append_assoc]
      exact perm_append_singleton ..
    obtain ⟨hnodup, hids⟩ := hf.ids hnot hperm
    refine ⟨⟨fun m hm => ?_, hf.sound.listed, hf.sound.tail, hf.sound.dropped⟩, hf.at_pc.congr rfl,
      hf.balanced, ?_, hnodup, fun k hk => returned_set (hids k hk)⟩
    · rcases mem_append.mp hm with hm | hm
      · exact hf.sound.fresh m hm
      · rw [mem_singleton.mp hm]
        exact ⟨rfl, rfl, h.passed ht⟩
    · have hlive : ({ s.snd with msgChan_ := s.snd.msgChan_ ++ [{ id := t, buf := buf }] } :
          Sender τ).live = s.snd.live ++ Sender.nonempty [(t, buf)] := by
        simp only [Sender.live, Sender.inOrder, map_append, ← append_assoc,
          Sender.nonempty_append]
        rfl
      rw [hlive]
      exact hf.order.append filter_sublist
  refine ⟨passed_set h, fun k hk => ?_, ?_, fun hs => hflow (h.body hs),
    fun hs => hflow (h.tested hs), fun hs => ?_⟩
  · rcases mem_append.mp hk with hk | hk
    · exact returned_set (.inr (h.returned k hk))
    · rw [mem_singleton.mp hk]
      exact returned_set (.inl rfl)
  · rw [map_append, nodup_append]
    refine ⟨h.nodup, nodup_singleton _, fun a ha b hb hab => ?_⟩
    obtain ⟨k, hk, rfl⟩ := mem_map.mp ha
    have hret := h.returned k hk
    rw [hab, mem_singleton.mp hb] at hret
    exact hnot hret
  · obtain ⟨ms, hms⟩ := h.exit hs
    exact ⟨ms, hms.aside (l := []) (by simp [Sender.Aside]) (append_nil _).symm rfl
      (sublist_append_left ..)⟩

omit [DecidableEq τ] in
/-- The loop of `goSend` takes a turn. -/
theorem Flowing.turn (h : s.Flowing pc pushed) {n : ℕ} {snd : Sender τ} {pc' : SendPc}
    (ht : s.snd.Turn n pc snd pc') :
    Flowing { s with snd := snd, send := .body pc' } pc' pushed := by
  refine ⟨ht.sound h.sound, ht.at h.at_pc, ht.balanced h.sound h.at_pc h.balanced,
    (ht.inOrder_sublist.filter _).trans h.order, ?_, fun k hk => ?_⟩
  · exact (ht.places_perm.map Prod.fst).nodup_iff.mpr h.nodup
  · exact h.returned k (ht.places_perm.mem_iff.mp hk)

omit [DecidableEq τ] in
/-- The loop of `goSend` goes from `pc` to `pc'`. -/
theorem Sent.body_of (h : s.Sent pushed) {pc' : SendPc} (hsend : s'.send = .body pc')
    (hcalls : s'.calls = s.calls) (hf : s'.Flowing pc' pushed) : s'.Sent pushed := by
  refine ⟨fun {t buf} ht => h.passed (hcalls ▸ ht), fun k hk => ?_, h.nodup, fun {x} hs => ?_,
    fun hs => ?_, fun {x} hs => ?_⟩
  · rw [hcalls]
    exact h.returned k hk
  · rw [hsend] at hs
    cases hs
    exact hf
  · rw [hsend] at hs
    cases hs
  · rw [hsend] at hs
    cases hs

omit [DecidableEq τ] in
/-- `goSend` has left its loop. -/
theorem Sent.exit_of (h : s.Sent pushed) {x : ExitPc} (hsend : s'.send = .exit x)
    (hcalls : s'.calls = s.calls) (hd : ∃ ms, s'.snd.Delivered pushed ms) : s'.Sent pushed := by
  refine ⟨fun {t buf} ht => h.passed (hcalls ▸ ht), fun k hk => ?_, h.nodup, fun {x} hs => ?_,
    fun hs => ?_, fun {x} hs => hd⟩
  · rw [hcalls]
    exact h.returned k hk
  · rw [hsend] at hs
    cases hs
  · rw [hsend] at hs
    cases hs

omit [DecidableEq τ] in
/-- What a loop on its way out does to the sender. -/
theorem Leave.sender {x x' : ExitPc} (hl : Leave s x s' x') :
    s'.send = s.send ∧ s'.calls = s.calls ∧ s'.snd.accepted = s.snd.accepted ∧
      (x.isClosing = false → s'.snd = s.snd) ∧
      ∃ l, Sender.Aside l ∧ s'.snd.answers = s.snd.answers ++ l := by
  have hshut : ∀ msg : Msg τ, (msg, makeNetworkErrorCode .ecShutdown).2 ≠
        makeNetworkErrorCode .ecTimeout ∧
      ((msg, makeNetworkErrorCode .ecShutdown).2 = .success →
        (msg, makeNetworkErrorCode .ecShutdown).1.buf = []) := by
    intro msg
    exact ⟨by simp only; decide, fun hok => absurd hok (by simp only; decide)⟩
  have hnone : Sender.Aside ([] : List (Msg τ × BoostEc)) := by simp [Sender.Aside]
  cases hl with
  | drain msg chan hc =>
    refine ⟨rfl, rfl, rfl, by simp, _, fun a ha => ?_, rfl⟩
    rw [mem_singleton.mp ha]
    exact hshut msg
  | clear =>
    refine ⟨rfl, rfl, rfl, by simp, _, fun a ha => ?_, rfl⟩
    obtain ⟨msg, -, rfl⟩ := mem_map.mp ha
    exact hshut msg
  | _ => exact ⟨rfl, rfl, rfl, fun _ => rfl, [], hnone, (append_nil _).symm⟩

omit [DecidableEq τ] in
theorem Sent.sendLeave (h : s.Sent pushed) {x x' : ExitPc} (hs : s.send = .exit x)
    (hl : Leave s x s' x') : Sent { s' with send := .exit x' } pushed := by
  obtain ⟨-, hcalls, hacc, -, l, hside, hans⟩ := hl.sender
  obtain ⟨ms, hms⟩ := h.exit hs
  exact h.exit_of rfl hcalls ⟨ms, hms.aside hside hans hacc (List.Sublist.refl _)⟩

omit [DecidableEq τ] in
theorem Sent.receiveLeave (h : s.Sent pushed) (hc : s.Closing) {x x' : ExitPc}
    (hr : s.receive = .exit x) (hl : Leave s x s' x') :
    Sent { s' with receive := .exit x' } pushed := by
  obtain ⟨hsend, hcalls, hacc, hopen, l, hside, hans⟩ := hl.sender
  cases hclosing : x.isClosing with
  | false =>
    refine h.congr (hopen hclosing) hsend (fun t ht => ?_) fun {t buf} ht => ?_
    · show s'.calls.pc t = .returned
      rw [hcalls]
      exact ht
    · have ht : s'.calls.pc t = .passed buf := ht
      exact h.passed (hcalls ▸ ht)
  | true =>
    -- the counter is 0, so that `goSend` has left
    have hleft : s.Left := by
      refine hc.left ?_
      have hrunning := hc.running
      rw [hr, ReceivePc.has, hclosing, Bool.toNat_true] at hrunning
      omega
    cases hs : s.send with
    | exit y =>
      obtain ⟨ms, hms⟩ := h.exit hs
      exact h.exit_of (hsend.trans hs) hcalls
        ⟨ms, hms.aside hside hans hacc (List.Sublist.refl _)⟩
    | body pc =>
      have := hleft.2
      rw [hs] at this
      cases this
    | tested =>
      have := hleft.2
      rw [hs] at this
      cases this

/-- The message that a step pushes. -/
def pushedBy (s : TcpSession τ) : Act τ → List (τ × List UInt8)
  | .send t full => match s.calls.pc t with
    | .passed buf => if full then [] else [(t, buf)]
    | _ => []
  | .call _ _ | .expire _ | .shutdown | .receive _ _ _ | .go _ _ => []

theorem sendStep_sent (h : s.Sent pushed) {full : Bool} (hst : s.sendStep t full = some s') :
    s'.Sent (pushed ++ s.pushedBy (.send t full)) := by
  rw [sendStep] at hst
  rw [pushedBy]
  cases ht : s.calls.pc t with
  | idle => simp [ht] at hst
  | returned => simp [ht] at hst
  | called buf =>
    have hnot : s.calls.pc t ≠ .returned := by simp [ht]
    simp only [ht, append_nil] at hst ⊢
    split_ifs at hst with href hempty
    · exact Option.some_inj.mp hst ▸ h.refuse hnot (by decide) fun hok => absurd hok (by decide)
    · exact Option.some_inj.mp hst ▸ h.refuse hnot (by decide) fun _ => hempty
    · refine Option.some_inj.mp hst ▸ h.congr rfl rfl (fun u hu => ?_) fun {u b} hu => ?_
      · have hne : u ≠ t := by
          rintro rfl
          exact hnot hu
        show (s.calls.set t _).pc u = _
        rw [Pool.pc_set_of_ne _ hne]
        exact hu
      · have hu : (s.calls.set t (.passed buf)).pc u = .passed b := hu
        rw [Pool.pc_set] at hu
        split_ifs at hu
        · cases hu
          exact hempty
        · exact h.passed hu
  | passed buf =>
    have hnot : s.calls.pc t ≠ .returned := by simp [ht]
    cases full with
    | true =>
      simp only [ht, if_true, append_nil] at hst ⊢
      exact Option.some_inj.mp hst ▸ h.refuse hnot (by decide) fun hok => absurd hok (by decide)
    | false =>
      simp only [ht, Bool.false_eq_true, if_false] at hst ⊢
      exact Option.some_inj.mp hst ▸ h.push ht

omit [DecidableEq τ] in
theorem goStep_sent (h : s.Sent pushed) {n : ℕ} {writeEc : BoostEc}
    (hst : s.goStep n writeEc = some s') : s'.Sent pushed := by
  have hturn : ∀ {pc}, s.send = .body pc →
      ((s.snd.turn n pc).map fun r => { s with snd := r.1, send := .body r.2 }) = some s' →
      s'.Sent pushed := by
    intro pc hs hmap
    obtain ⟨r, hr, rfl⟩ := Option.map_eq_some_iff.mp hmap
    exact h.body_of rfl rfl ((h.body hs).turn (Sender.turn_cases hr))
  rw [goStep] at hst
  cases hs : s.send with
  | body pc =>
    cases pc with
    | top =>
      simp only [hs] at hst
      cases hst
      have hf := h.body hs
      split_ifs
      · refine ⟨h.passed, h.returned, h.nodup, fun {pc} hs' => ?_, fun _ => hf.congr rfl fun _ hu => hu,
          fun {x} hs' => ?_⟩
        · cases hs'
        · cases hs'
      · exact h.body_of rfl rfl
          ⟨hf.sound, ⟨Nat.zero_le _, hf.at_pc⟩, hf.balanced, hf.order, hf.nodup, hf.returned⟩
    | writing buffers =>
      simp only [hs] at hst
      split_ifs at hst with hec
      · exact Option.some_inj.mp hst ▸ h.exit_of rfl rfl ⟨_, (h.body hs).delivered⟩
      · exact hturn hs hst
    | popping i | building i buffers | accounting n' | crashed =>
      simp only [hs] at hst
      exact hturn hs hst
  | tested =>
    simp only [hs, Option.some_inj] at hst
    exact hst ▸ h.exit_of rfl rfl ⟨_, (h.tested hs).delivered⟩
  | exit x =>
    simp only [hs] at hst
    obtain ⟨r, hr, rfl⟩ := Option.map_eq_some_iff.mp hst
    exact h.sendLeave hs (leave_cases hr)

omit [DecidableEq τ] in
theorem receiveStep_sent (h : s.Sent pushed) (hc : s.Closing) {receiveCb : Bool} {readEc : BoostEc}
    {chunk : List UInt8} {consume : ℕ}
    (hst : s.receiveStep receiveCb readEc chunk consume = some s') : s'.Sent pushed := by
  rw [receiveStep] at hst
  cases hr : s.receive with
  | looping =>
    simp only [hr] at hst
    split at hst
    · exact Option.some_inj.mp hst ▸ h.congr rfl rfl (fun _ hu => hu) h.passed
    · exact Option.some_inj.mp hst ▸ h.congr rfl rfl (fun _ hu => hu) h.passed
    · cases hst
  | exit x =>
    simp only [hr] at hst
    obtain ⟨r, hleave, rfl⟩ := Option.map_eq_some_iff.mp hst
    exact h.receiveLeave hc hr (leave_cases hleave)

/-- **One step** of an end. -/
theorem step_sent (h : s.Sent pushed) (hc : s.Closing) {receiveCb : Bool} {a : Act τ}
    (hst : s.step receiveCb a = some s') : s'.Sent (pushed ++ s.pushedBy a) := by
  cases a with
  | send t full => exact sendStep_sent h hst
  | call t buf =>
    rw [pushedBy, append_nil]
    rw [step] at hst
    split_ifs at hst with hidle
    refine Option.some_inj.mp hst ▸ h.congr rfl rfl (fun u hu => ?_) fun {u b} hu => ?_
    · have hne : u ≠ t := by
        rintro rfl
        rw [hidle] at hu
        cases hu
      show (s.calls.set t _).pc u = _
      rw [Pool.pc_set_of_ne _ hne]
      exact hu
    · have hu : (s.calls.set t (.called buf)).pc u = .passed b := hu
      rw [Pool.pc_set] at hu
      split_ifs at hu
      exact h.passed hu
  | expire t =>
    rw [pushedBy, append_nil]
    exact Option.some_inj.mp hst ▸ h.expire
  | shutdown =>
    rw [pushedBy, append_nil]
    exact Option.some_inj.mp hst ▸ h.congr rfl rfl (fun _ hu => hu) h.passed
  | receive readEc chunk consume =>
    rw [pushedBy, append_nil]
    exact receiveStep_sent h hc hst
  | go n writeEc =>
    rw [pushedBy, append_nil]
    exact goStep_sent h hst

end TcpSession

namespace TcpSession

variable {τ : Type*} {s s' : TcpSession τ}

/-- `goReceive` writes nothing. -/
theorem receiveStep_accepted {receiveCb : Bool} {readEc : BoostEc} {chunk : List UInt8} {consume : ℕ}
    (hst : s.receiveStep receiveCb readEc chunk consume = some s') :
    s'.snd.accepted = s.snd.accepted := by
  rw [receiveStep] at hst
  cases hr : s.receive with
  | looping =>
    simp only [hr] at hst
    split at hst
    · exact Option.some_inj.mp hst ▸ rfl
    · exact Option.some_inj.mp hst ▸ rfl
    · cases hst
  | exit x =>
    simp only [hr] at hst
    obtain ⟨r, hleave, rfl⟩ := Option.map_eq_some_iff.mp hst
    exact (leave_cases hleave).sender.2.2.1

/-- `goSend` reads nothing, and the socket keeps what it has accepted. -/
theorem goStep_frame {n : ℕ} {writeEc : BoostEc} (hst : s.goStep n writeEc = some s') :
    s'.rcv = s.rcv ∧ s'.receive = s.receive ∧ s.snd.accepted <+: s'.snd.accepted := by
  have hturn : ∀ pc, ((s.snd.turn n pc).map fun r => { s with snd := r.1, send := .body r.2 }) = some s' →
      s'.rcv = s.rcv ∧ s'.receive = s.receive ∧ s.snd.accepted <+: s'.snd.accepted := by
    intro pc hmap
    obtain ⟨r, hr, rfl⟩ := Option.map_eq_some_iff.mp hmap
    refine ⟨rfl, rfl, ?_⟩
    have ht := Sender.turn_cases hr
    generalize r.1 = snd, r.2 = pc' at ht
    cases ht with
    | write buffers hn => exact List.prefix_append ..
    | _ => exact List.prefix_rfl
  rw [goStep] at hst
  cases hs : s.send with
  | body pc =>
    cases pc with
    | top =>
      simp only [hs, Option.some_inj] at hst
      exact hst ▸ ⟨rfl, rfl, List.prefix_rfl⟩
    | writing buffers =>
      simp only [hs] at hst
      split_ifs at hst with hec
      · exact Option.some_inj.mp hst ▸ ⟨rfl, rfl, List.prefix_rfl⟩
      · exact hturn _ hst
    | popping i | building i buffers | accounting n' | crashed =>
      simp only [hs] at hst
      exact hturn _ hst
  | tested =>
    simp only [hs, Option.some_inj] at hst
    exact hst ▸ ⟨rfl, rfl, List.prefix_rfl⟩
  | exit x =>
    simp only [hs] at hst
    obtain ⟨r, hr, rfl⟩ := Option.map_eq_some_iff.mp hst
    have hl := leave_cases hr
    exact ⟨hl.frame.2.2.1, hl.frame.1, by rw [hl.sender.2.2.1]⟩

variable [DecidableEq τ] {t : τ}

/-- `Send` neither reads nor writes. -/
theorem sendStep_frame {full : Bool} (hst : s.sendStep t full = some s') :
    s'.rcv = s.rcv ∧ s'.receive = s.receive ∧ s'.snd.accepted = s.snd.accepted := by
  rw [sendStep] at hst
  cases ht : s.calls.pc t with
  | idle => simp [ht] at hst
  | returned => simp [ht] at hst
  | called buf =>
    simp only [ht] at hst
    split_ifs at hst <;> exact Option.some_inj.mp hst ▸ ⟨rfl, rfl, rfl⟩
  | passed buf =>
    cases full with
    | true =>
      simp only [ht, if_true] at hst
      exact Option.some_inj.mp hst ▸ ⟨rfl, rfl, rfl⟩
    | false =>
      simp only [ht, Bool.false_eq_true, if_false] at hst
      exact Option.some_inj.mp hst ▸ ⟨rfl, rfl, rfl⟩

end TcpSession

/-- A round that goes on keeps what it read and did not consume. -/
theorem Receiver.round_next {r r' : Receiver} {receiveCb : Bool} {ec : BoostEc} {chunk : List UInt8}
    {consume : ℕ} (hec : ec.isError = false) (hsize : r.recvBuf_.length < 2 ^ 32)
    (hpos : r.pos < r.recvBuf_.length) (hchunk : 0 < chunk.length)
    (hfit : r.pos + chunk.length ≤ r.recvBuf_.length)
    (hround : r.round receiveCb ec chunk consume = .next r') :
    r'.recvBuf_.length = r.recvBuf_.length ∧ r'.pos ≤ r.recvBuf_.length ∧
      r.eaten receiveCb chunk consume ++ r'.kept = r.kept ++ chunk := by
  -- a round that offers at least `c` bytes goes on as `round_kept` says
  have hkept : ∀ c ≤ chunk.length + r.pos, r.round receiveCb ec chunk c = .next r' →
      r'.recvBuf_.length = r.recvBuf_.length ∧ r'.pos ≤ r.recvBuf_.length ∧
        r.eaten receiveCb chunk c ++ r'.kept = r.kept ++ chunk := by
    intro c hc hnext
    obtain ⟨r'', hnext', hr⟩ : ∃ r'', r.round receiveCb ec chunk c = .next r'' ∧ _ :=
      round_kept hec hsize hpos hchunk hfit hc
    rw [hnext] at hnext'
    cases hnext'
    exact hr
  by_cases hconsume : consume ≤ chunk.length + r.pos
  · exact hkept consume hconsume hround
  · cases receiveCb with
    | false =>
      -- nobody is asked how much to consume
      have hsame : r.round false ec chunk 0 = r.round false ec chunk consume := by
        rw [round, round, read_stored hpos hec hchunk]
      exact hkept 0 (Nat.zero_le _) (hsame.trans hround)
    | true =>
      rw [round, read_of_calls ⟨hpos, hec, hchunk, rfl⟩] at hround
      dsimp only at hround
      rw [if_neg hconsume] at hround
      split_ifs at hround

/-! ### The connection -/

/-- The two ends of a connection. -/
inductive End
  | client
  | server
deriving DecidableEq, Repr

namespace End

def peer : End → End
  | .client => .server
  | .server => .client

@[simp] theorem peer_peer (e : End) : e.peer.peer = e := by
  cases e <;> rfl

@[simp] theorem peer_ne (e : End) : e.peer ≠ e := by
  cases e <;> decide

theorem eq_or_eq_peer (e d : End) : e = d ∨ d = e.peer := by
  cases e <;> cases d <;> decide

end End

/-- Both ends, and for each of them: the bytes accepted there and not yet read at the other
end, the bytes that its callback consumed, and the messages that its calls of `Send`
pushed. -/
structure TcpLink (τ : Type*) where
  sess : End → TcpSession τ
  inFlight : End → List UInt8
  consumed : End → List UInt8
  pushed : End → List (τ × List UInt8)

namespace TcpLink

open Function List

variable {τ : Type*}

def new (maxPackSize : End → UInt32) : TcpLink τ :=
  ⟨fun e => .new (maxPackSize e), fun _ => [], fun _ => [], fun _ => []⟩

/-- The round has room, and `read_some` does not fail. -/
def reads (sess : TcpSession τ) (readEc : BoostEc) : Bool :=
  decide (sess.receive = .looping) && decide (sess.rcv.pos < sess.rcv.recvBuf_.length) &&
    !readEc.isError

/-- What `read_some` may answer: bytes that have arrived and fit. -/
def arrives (sess : TcpSession τ) (inFlight chunk : List UInt8) : Bool :=
  !chunk.isEmpty && decide (chunk.length ≤ sess.rcv.recvBuf_.length - sess.rcv.pos) &&
    chunk.isPrefixOf inFlight

variable [DecidableEq τ]

/-- A step of one end. -/
def step (receiveCb : End → Bool) (s : TcpLink τ) (a : End × TcpSession.Act τ) :
    Option (TcpLink τ) :=
  ((s.sess a.1).step (receiveCb a.1) a.2).bind fun sess =>
    let s' : TcpLink τ := { s with
      sess := update s.sess a.1 sess
      pushed := update s.pushed a.1 (s.pushed a.1 ++ (s.sess a.1).pushedBy a.2) }
    match a.2 with
    | .receive readEc chunk consume =>
      if reads (s.sess a.1) readEc then
        if arrives (s.sess a.1) (s.inFlight a.1.peer) chunk then
          some { s' with
            inFlight := update s.inFlight a.1.peer
              ((s.inFlight a.1.peer).drop chunk.length)
            -- a callback that asks to close has consumed nothing
            consumed := update s.consumed a.1 (s.consumed a.1 ++
              if sess.receive = .looping then
                (s.sess a.1).rcv.eaten (receiveCb a.1) chunk consume else []) }
        else none
      else some s'
    | .go _ _ =>
      some { s' with
        inFlight := update s.inFlight a.1
          (s.inFlight a.1 ++ sess.snd.accepted.drop (s.sess a.1).snd.accepted.length) }
    | _ => some s'

/-- The bytes from `e` to the other end. -/
structure Stream (s : TcpLink τ) (e : End) : Prop where
  size : (s.sess e.peer).rcv.recvBuf_.length < 2 ^ 32
  pos : (s.sess e.peer).rcv.pos ≤ (s.sess e.peer).rcv.recvBuf_.length
  bytes : (s.sess e.peer).receive = .looping →
    s.consumed e.peer ++ (s.sess e.peer).rcv.kept ++ s.inFlight e = (s.sess e).snd.accepted
  read : s.consumed e.peer <+: (s.sess e).snd.accepted

variable {s s' : TcpLink τ} {e d : End} {receiveCb : End → Bool}

omit [DecidableEq τ] in
theorem Stream.congr (h : s.Stream e) (hrcv : (s'.sess e.peer).rcv = (s.sess e.peer).rcv)
    (hreceive : (s'.sess e.peer).receive = (s.sess e.peer).receive)
    (hacc : (s'.sess e).snd.accepted = (s.sess e).snd.accepted)
    (hflight : s'.inFlight e = s.inFlight e) (hcons : s'.consumed e.peer = s.consumed e.peer) :
    s'.Stream e := by
  refine ⟨hrcv ▸ h.size, hrcv ▸ h.pos, fun hr => ?_, ?_⟩
  · rw [hrcv, hacc, hflight, hcons]
    exact h.bytes (hreceive ▸ hr)
  · rw [hacc, hcons]
    exact h.read

omit [DecidableEq τ] in
/-- The receiving end has stopped reading. -/
theorem Stream.stop (h : s.Stream e) (hrcv : (s'.sess e.peer).rcv = (s.sess e.peer).rcv)
    (hstop : (s'.sess e.peer).receive ≠ .looping)
    (hacc : (s'.sess e).snd.accepted = (s.sess e).snd.accepted)
    (hcons : s'.consumed e.peer = s.consumed e.peer) : s'.Stream e := by
  refine ⟨hrcv ▸ h.size, hrcv ▸ h.pos, fun hr => absurd hr hstop, ?_⟩
  rw [hacc, hcons]
  exact h.read

omit [DecidableEq τ] in
/-- **The sending end** hands bytes to the socket. -/
theorem Stream.write (h : s.Stream e) (hpeer : s'.sess e.peer = s.sess e.peer)
    (hacc : (s.sess e).snd.accepted <+: (s'.sess e).snd.accepted)
    (hflight : s'.inFlight e = s.inFlight e ++
      (s'.sess e).snd.accepted.drop (s.sess e).snd.accepted.length)
    (hcons : s'.consumed e.peer = s.consumed e.peer) : s'.Stream e := by
  refine ⟨hpeer ▸ h.size, hpeer ▸ h.pos, fun hr => ?_, ?_⟩
  · rw [hpeer] at hr
    rw [hpeer, hflight, hcons, ← append_assoc, h.bytes hr]
    exact (prefix_append_drop hacc).symm
  · rw [hcons]
    exact h.read.trans hacc

omit [DecidableEq τ] in
/-- **The receiving end** reads what has arrived. -/
theorem Stream.receive (h : s.Stream e) {readEc : BoostEc} {chunk : List UInt8} {consume : ℕ}
    {cb : Bool} (hst : (s.sess e.peer).receiveStep cb readEc chunk consume = some (s'.sess e.peer))
    (hreads : reads (s.sess e.peer) readEc = true)
    (harrives : arrives (s.sess e.peer) (s.inFlight e) chunk = true)
    (hacc : (s'.sess e).snd.accepted = (s.sess e).snd.accepted)
    (hflight : s'.inFlight e = (s.inFlight e).drop chunk.length)
    (hcons : s'.consumed e.peer = s.consumed e.peer ++
      if (s'.sess e.peer).receive = .looping then
        (s.sess e.peer).rcv.eaten cb chunk consume else []) : s'.Stream e := by
  simp only [reads, arrives, Bool.and_eq_true, decide_eq_true_eq, Bool.not_eq_true',
    isEmpty_eq_false_iff] at hreads harrives
  obtain ⟨⟨hr, hpos⟩, hec⟩ := hreads
  obtain ⟨⟨hne, hfit⟩, hpre⟩ := harrives
  have hpre : chunk <+: s.inFlight e := isPrefixOf_iff_prefix.mp hpre
  simp only [TcpSession.receiveStep, hr] at hst
  cases hround : (s.sess e.peer).rcv.round cb readEc chunk consume with
  | next r =>
    simp only [hround, Option.some_inj] at hst
    obtain ⟨hsize, hle, hbytes⟩ := Receiver.round_next hec h.size hpos
      (length_pos_iff.mpr hne) (by omega) hround
    have hr' : (s'.sess e.peer).receive = .looping := by rw [← hst]
    have hall : s'.consumed e.peer ++ r.kept ++ s'.inFlight e = (s.sess e).snd.accepted := by
      obtain ⟨later, hlater⟩ := hpre
      rw [hcons, if_pos hr', hflight, ← h.bytes hr, ← hlater, drop_left,
        append_assoc (s.consumed e.peer), hbytes]
      simp only [append_assoc]
    refine ⟨?_, ?_, fun _ => ?_, ?_⟩
    · rw [← hst]
      exact hsize ▸ h.size
    · rw [← hst]
      exact hsize ▸ hle
    · rw [hacc, ← hall, ← hst]
    · rw [hacc, ← hall, append_assoc]
      exact prefix_append ..
  | error ec =>
    simp only [hround, Option.some_inj] at hst
    refine h.stop (by rw [← hst]) (by rw [← hst]; simp) hacc ?_
    rw [hcons, if_neg (by rw [← hst]; simp), append_nil]
  | assertFailed => simp [hround] at hst

omit [DecidableEq τ] in
/-- Without a successful `read_some` the receiving end stops, or has stopped. -/
theorem receiveStep_stops {sess sess' : TcpSession τ} {readEc : BoostEc} {chunk : List UInt8}
    {consume : ℕ} {cb : Bool} (hst : sess.receiveStep cb readEc chunk consume = some sess')
    (hreads : reads sess readEc = false) : sess'.rcv = sess.rcv ∧ sess'.receive ≠ .looping := by
  rw [TcpSession.receiveStep] at hst
  cases hr : sess.receive with
  | looping =>
    simp only [hr] at hst
    have herror : ∃ ec, sess.rcv.round cb readEc chunk consume = .error ec := by
      rw [Receiver.round, Receiver.read]
      by_cases hpos : sess.rcv.pos ≥ sess.rcv.recvBuf_.length
      · rw [if_pos hpos]
        exact ⟨_, rfl⟩
      · have hec : readEc.isError = true := by
          simp only [reads, hr, decide_true, Bool.true_and, Bool.and_eq_false_iff,
            decide_eq_false_iff_not, Bool.not_eq_false'] at hreads
          exact hreads.resolve_left (by omega)
        rw [if_neg hpos, if_pos hec]
        exact ⟨_, rfl⟩
    obtain ⟨ec, hround⟩ := herror
    simp only [hround, Option.some_inj] at hst
    exact hst ▸ ⟨rfl, by simp⟩
  | exit x =>
    simp only [hr] at hst
    obtain ⟨r, hleave, rfl⟩ := Option.map_eq_some_iff.mp hst
    exact ⟨(TcpSession.leave_cases hleave).frame.2.2.1, by simp⟩

omit [DecidableEq τ] in
theorem view_update {γ : Type*} (f : TcpSession τ → γ) {sess : TcpSession τ}
    (h : f sess = f (s.sess d)) (x : End) : f (update s.sess d sess x) = f (s.sess x) := by
  rw [update_apply]
  split_ifs with hx
  · rw [hx, h]
  · rfl

/-- **One step** of either end keeps both streams. -/
theorem step_stream {a : TcpSession.Act τ} (h : ∀ e, s.Stream e)
    (hst : s.step receiveCb (d, a) = some s') (e : End) : s'.Stream e := by
  obtain ⟨sess, hsess, hrest⟩ := Option.bind_eq_some_iff.mp hst
  -- an act that neither reads nor writes
  have hframe : ∀ {pushed}, sess.rcv = (s.sess d).rcv ∧ sess.receive = (s.sess d).receive ∧
      sess.snd.accepted = (s.sess d).snd.accepted →
      Stream { s with sess := update s.sess d sess, pushed := pushed } e := by
    rintro pushed ⟨hrcv, hreceive, hacc⟩
    exact (h e).congr (view_update TcpSession.rcv hrcv _) (view_update TcpSession.receive hreceive _)
      (view_update (fun x => x.snd.accepted) hacc _) rfl rfl
  cases a with
  | call t buf =>
    rw [TcpSession.step] at hsess
    split_ifs at hsess
    exact Option.some_inj.mp hrest ▸ hframe (Option.some_inj.mp hsess ▸ ⟨rfl, rfl, rfl⟩)
  | send t full => exact Option.some_inj.mp hrest ▸ hframe (TcpSession.sendStep_frame hsess)
  | expire t => exact Option.some_inj.mp hrest ▸ hframe (Option.some_inj.mp hsess ▸ ⟨rfl, rfl, rfl⟩)
  | shutdown => exact Option.some_inj.mp hrest ▸ hframe (Option.some_inj.mp hsess ▸ ⟨rfl, rfl, rfl⟩)
  | go n writeEc =>
    obtain ⟨hrcv, hreceive, hacc⟩ := TcpSession.goStep_frame hsess
    rw [← Option.some_inj.mp hrest]
    rcases e.eq_or_eq_peer d with rfl | rfl
    · exact (h e).write (update_of_ne (by simp) ..) (by simpa using hacc) (by simp) rfl
    · have hne : e ≠ e.peer := (End.peer_ne e).symm
      exact (h e).congr (view_update TcpSession.rcv hrcv _) (view_update TcpSession.receive hreceive _)
        (by simp [hne]) (by simp [hne]) rfl
  | receive readEc chunk consume =>
    have hacc := TcpSession.receiveStep_accepted hsess
    cases hreads : reads (s.sess d) readEc with
    | false =>
      obtain ⟨hrcv, hstop⟩ := receiveStep_stops hsess hreads
      simp only [hreads, Bool.false_eq_true, if_false] at hrest
      rw [← Option.some_inj.mp hrest]
      rcases e.eq_or_eq_peer d with rfl | rfl
      · exact (h e).congr (by simp) (by simp) (by simpa using hacc) rfl rfl
      · exact (h e).stop (by simpa using hrcv) (by simpa using hstop)
          (view_update (fun x => x.snd.accepted) hacc _) rfl
    | true =>
      cases harrives : arrives (s.sess d) (s.inFlight d.peer) chunk with
      | false => simp [hreads, harrives] at hrest
      | true =>
        simp only [hreads, harrives, if_true] at hrest
        rw [← Option.some_inj.mp hrest]
        rcases e.eq_or_eq_peer d with rfl | rfl
        · have hne : e ≠ e.peer := (End.peer_ne e).symm
          exact (h e).congr (by simp) (by simp) (by simpa using hacc) (by simp [hne]) (by simp)
        · rw [End.peer_peer] at harrives
          have hsess : (s.sess e.peer).receiveStep (receiveCb e.peer) readEc chunk consume
              = some sess := hsess
          exact (h e).receive (by simpa using hsess) hreads harrives
            (view_update (fun x => x.snd.accepted) hacc _) (by simp) (by simp)

structure Inv (s : TcpLink τ) : Prop where
  closing : ∀ e, (s.sess e).Closing
  sent : ∀ e, (s.sess e).Sent (s.pushed e)
  stream : ∀ e, s.Stream e

omit [DecidableEq τ] in
theorem init_inv (maxPackSize : End → UInt32) : (new maxPackSize : TcpLink τ).Inv := by
  refine ⟨fun e => ⟨rfl, by simp [new, TcpSession.new], rfl, rfl⟩, fun e => ?_, fun e => ?_⟩
  · have hflow : (TcpSession.new (maxPackSize e) : TcpSession τ).Flowing .top [] :=
      ⟨Sender.sound_new, Nat.two_pow_pos 31, rfl, .refl _, nodup_nil,
        fun k hk => absurd hk not_mem_nil⟩
    refine ⟨fun {t buf} ht => ?_, by simp [new], nodup_nil, fun {pc} hs => ?_, fun hs => ?_,
      fun {x} hs => ?_⟩
    · cases ht
    · cases hs
      exact hflow
    · cases hs
    · cases hs
  · refine ⟨?_, Nat.zero_le _, fun _ => rfl, nil_prefix⟩
    show (List.replicate (maxPackSize e.peer).toNat (0 : UInt8)).length < 2 ^ 32
    rw [length_replicate]
    exact (maxPackSize e.peer).toNat_lt

theorem step_sess {a : TcpSession.Act τ} (hst : s.step receiveCb (d, a) = some s') :
    ∃ sess, (s.sess d).step (receiveCb d) a = some sess ∧
      s'.sess = update s.sess d sess ∧
      s'.pushed = update s.pushed d (s.pushed d ++ (s.sess d).pushedBy a) := by
  obtain ⟨sess, hsess, hrest⟩ := Option.bind_eq_some_iff.mp hst
  refine ⟨sess, hsess, ?_⟩
  cases a with
  | receive readEc chunk consume =>
    dsimp only at hrest
    split at hrest
    · split at hrest
      · exact Option.some_inj.mp hrest ▸ ⟨rfl, rfl⟩
      · cases hrest
    · exact Option.some_inj.mp hrest ▸ ⟨rfl, rfl⟩
  | _ => exact Option.some_inj.mp hrest ▸ ⟨rfl, rfl⟩

theorem step_inv {a : End × TcpSession.Act τ} (h : s.Inv) (hst : s.step receiveCb a = some s') :
    s'.Inv := by
  obtain ⟨d, a⟩ := a
  obtain ⟨sess, hsess, hs', hpushed⟩ := step_sess hst
  refine ⟨fun e => ?_, fun e => ?_, step_stream h.stream hst⟩
  · rw [hs', update_apply]
    split_ifs
    · exact (TcpSession.step_cases hsess).closing (h.closing d)
    · exact h.closing e
  · rw [hs', hpushed, update_apply, update_apply]
    split_ifs
    · exact TcpSession.step_sent (h.sent d) (h.closing d) hsess
    · exact h.sent e

theorem reach_inv (maxPackSize : End → UInt32) : ∀ s : TcpLink τ,
    Reach (· = new maxPackSize) (step receiveCb) s → s.Inv :=
  ReachIf.invariant (fun _ h => h ▸ init_inv maxPackSize) fun _ _ _ h _ hst => step_inv h hst

/-- **What one end consumes is what the other was told to send.**  Over every interleaving of
two connected sessions, with any buffer sizes, callbacks, timeouts, partial reads and writes,
failures and shutdowns: the bytes that the receive callbacks of one end have consumed are a
first part of the messages `ms`, one after the other, where `ms` are messages that `Send` of the
other end pushed, in the order in which it did.  All bytes of a message whose callback got
success were handed over, after those of the messages before it; not one byte of a message whose
callback got a timeout is among them.  As long as the receiving loop runs, what it consumed,
what it keeps and what is on the way are all that was handed over. -/
theorem end_to_end (maxPackSize : End → UInt32)
    (hs : Reach (· = new maxPackSize) (step receiveCb) s) (e : End) :
    ∃ ms : List (τ × List UInt8), ms.Sublist (s.pushed e) ∧ (ms.map Prod.fst).Nodup ∧
      s.consumed e.peer <+: (ms.map Prod.snd).flatten ∧
      (∀ a ∈ (s.sess e).snd.answers, a.2 = .success → a.1.buf ≠ [] →
        ∃ before after, ms = before ++ a.1.key :: after ∧
          (before.map Prod.snd).flatten ++ a.1.buf <+: (s.sess e).snd.accepted) ∧
      (∀ a ∈ (s.sess e).snd.answers, a.2 = makeNetworkErrorCode .ecTimeout →
        a.1.id ∉ ms.map Prod.fst) ∧
      ((s.sess e.peer).receive = .looping →
        s.consumed e.peer ++ (s.sess e.peer).rcv.kept ++ s.inFlight e
          = (s.sess e).snd.accepted) := by
  obtain ⟨-, hsent, hstream⟩ := reach_inv maxPackSize s hs
  obtain ⟨ms, hms⟩ := (hsent e).delivered
  refine ⟨ms, hms.order, (hms.order.map Prod.fst).nodup (hsent e).nodup,
    (hstream e).read.trans hms.bytes, fun a ha hok hbuf => ?_, hms.dropped, (hstream e).bytes⟩
  have hmem : a.1.key ∈ (s.sess e).snd.sent := by
    refine mem_filter.mpr ⟨mem_map_of_mem (mem_map_of_mem ?_), ?_⟩
    · exact mem_filter.mpr ⟨ha, decide_eq_true hok⟩
    · simpa [Msg.key] using hbuf
  obtain ⟨before, after, hsplit⟩ := append_of_mem hmem
  obtain ⟨more, hmore⟩ := hms.whole
  refine ⟨before, after ++ more, by rw [← hmore, hsplit]; simp, ?_⟩
  refine List.IsPrefix.trans ?_ hms.sent
  rw [hsplit, map_append, flatten_append, map_cons, flatten_cons,
    ← append_assoc]
  exact prefix_append ..

-- the client sends three bytes, two are accepted, and the server consumes one of them
def halfWay : List (End × TcpSession.Act ℕ) :=
  [(.client, .call 0 [1, 2, 3]), (.client, .send 0 false), (.client, .send 0 false),
    (.client, .go 0 .success), (.client, .go 0 .success), (.client, .go 0 .success),
    (.client, .go 0 .success), (.client, .go 0 .success), (.client, .go 2 .success),
    (.server, .receive .success [1, 2] 1)]

theorem end_to_end_halfWay : ∃ s : TcpLink ℕ,
    exec (step fun _ => true) (new fun _ => 4) halfWay = some s ∧ s.consumed .server = [1] ∧
      s.pushed .client = [(0, [1, 2, 3])] ∧ (s.sess .server).rcv.kept = [2] ∧
      s.consumed .server ++ (s.sess .server).rcv.kept ++ s.inFlight .client
        = (s.sess .client).snd.accepted := by
  have hrun : ((exec (step fun _ => true) (new fun _ => 4) halfWay).map fun s =>
      (s.consumed .server, s.pushed .client, (s.sess .server).rcv.kept, (s.sess .server).receive))
      = some ([1], [(0, [1, 2, 3])], [2], .looping) := by
    decide +kernel
  obtain ⟨s, hs, heq⟩ := Option.map_eq_some_iff.mp hrun
  simp only [Prod.mk.injEq] at heq
  obtain ⟨hcons, hpushed, hkept, hloop⟩ := heq
  refine ⟨s, hs, hcons, hpushed, hkept, ?_⟩
  obtain ⟨ms, -, -, -, -, -, hbytes⟩ :=
    end_to_end (fun _ => 4) (reach_exec halfWay (.start rfl) hs) .client
  exact hbytes hloop

end TcpLink
