/-
No missed rendezvous: when every operation on a channel has either returned or
is parked, writers and readers are not parked side by side.

The argument needs only the ledgers, so it is made once for any layout with a
`write` and a `read` object (`Layout.Holds.rendezvous`), and used for both
`Channel<T>` and `Channel<void>` (`Channel.no_missed_rendezvous`).
-/
import CppFeatures.ChannelSafety
import CppFeatures.ChannelVoid

namespace Layout

variable {τ σ κ : Type*} [Inhabited σ] [DecidableEq κ]

/-- Every process is idle or parked. -/
def Quiescent (L : Layout κ σ) (P : Pool τ σ) : Prop :=
  ∀ t, P.pc t = default ∨ ∃ k, L.parkedOn k (P.pc t) = true

/-- With nothing in progress, a parked writer means a full buffer and no parked
reader, and a parked reader an empty buffer. -/
theorem Holds.rendezvous {L : Layout κ σ} {sem : κ → BlockObject τ} {P : Pool τ σ}
    {target : κ → ℤ} (h : L.Holds sem P target) {w r : κ} {c n : ℤ} (hc : 0 ≤ c)
    (hw : target w = c - n) (hr : target r = n)
    (hread : ∀ t, L.weight r (P.pc t) = 0)
    (hwrite : ∀ t, L.weight w (P.pc t) + ((L.parkedOn r (P.pc t)).toNat : ℤ) = 0) :
    ((sem w).waitQueue_ ≠ [] → n = c ∧ (sem r).waitQueue_ = []) ∧
      ((sem r).waitQueue_ ≠ [] → n = 0) := by
  have hR := h.ledger r
  have hW := h.ledger w
  rw [Pool.total_eq_zero hread, hr] at hR
  have htotal := Pool.total_eq_zero (P := P)
    (w := fun x => L.weight w x + ((L.parkedOn r x).toNat : ℤ)) hwrite
  rw [Pool.total_add, Pool.total_toNat] at htotal
  rw [hw] at hW
  -- a queue that is not empty means that no permit is stored
  have hstored : ∀ k, (sem k).waitQueue_ ≠ [] → (sem k).wakeup_ = 0 := fun k hk =>
    Nat.eq_zero_of_not_pos fun hpos => hk ((h.sound k).noWaiter hpos)
  have hreader : (sem r).waitQueue_ ≠ [] → 0 < P.count (L.parkedOn r) := fun hne => by
    obtain ⟨t, q, hq⟩ := List.exists_cons_of_ne_nil hne
    exact Pool.count_pos (L.parkedOn_idle r) (((h.parks r).2 t).mp (hq ▸ List.mem_cons_self))
  have hnone : (sem r).waitQueue_ = [] → P.count (L.parkedOn r) = 0 := fun hnil =>
    (Pool.count_eq_zero (L.parkedOn_idle r)).mpr fun t => by
      by_contra ht
      have := ((h.parks r).2 t).mpr (Bool.of_not_eq_false ht)
      rw [hnil] at this
      exact List.not_mem_nil this
  refine ⟨fun hne => ?_, fun hne => ?_⟩
  · have hW0 := hstored w hne
    by_cases hrq : (sem r).waitQueue_ = []
    · have := hnone hrq
      exact ⟨by omega, hrq⟩
    · have := hreader hrq
      have := hstored r hrq
      omega
  · have := hstored r hne
    omega

end Layout

namespace Channel.System

variable {τ T : Type*} {c : ℕ} {s : System τ T}

/-- With nothing in progress nobody waits for the mutex, so only operations parked
in `write_block_` and `read_block_` are left. -/
theorem Inv.quiescent_cases (h : Inv c s) (hq : layout.Quiescent s.ops) (t : τ) :
    s.ops.pc t = .idle ∨ s.ops.pc t = .wWait .parked ∨ s.ops.pc t = .rWait .parked := by
  have hparked : ∀ u, s.ops.pc u = .idle ∨ ∃ k, (s.ops.pc u).parkedOn k = true := hq
  have hfree : 0 < (s.chan.sem .lock).wakeup_ := by
    have hl := h.lock_ledger
    have hnone : s.ops.count (Stage.holds .lock) = 0 :=
      (Pool.count_eq_zero rfl).mpr fun u => by
        rcases hparked u with hu | ⟨k, hu⟩
        · rw [hu]; rfl
        · cases k <;> revert hu <;> cases s.ops.pc u <;> simp [Stage.parkedOn, Stage.holds]
    simp only [sem]
    omega
  have hlock : (s.ops.pc t).parkedOn .lock = false := by
    by_contra ht
    have := ((h.net.parks .lock).2 t).mpr (Bool.of_not_eq_false ht)
    rw [(h.net.sound .lock).noWaiter hfree] at this
    exact List.not_mem_nil this
  rcases hparked t with ht | ⟨k, ht⟩
  · exact .inl ht
  · right
    cases k
    · revert ht
      cases s.ops.pc t with
      | wWait ph => cases ph <;> simp [Stage.parkedOn]
      | _ => simp [Stage.parkedOn]
    · revert ht
      cases s.ops.pc t with
      | rWait ph => cases ph <;> simp [Stage.parkedOn]
      | _ => simp [Stage.parkedOn]
    · rw [hlock] at ht
      cases ht

theorem Inv.rendezvous (h : Inv c s) (hq : layout.Quiescent s.ops) :
    (s.chan.writeBlock_.waitQueue_ ≠ [] →
        s.chan.queue_.length = c ∧ s.chan.readBlock_.waitQueue_ = []) ∧
      (s.chan.readBlock_.waitQueue_ ≠ [] → s.chan.queue_ = []) := by
  have := h.net.rendezvous (w := .write) (r := .read) (c := c) (n := s.chan.queue_.length)
    (by omega) rfl rfl (fun t => ?_) (fun t => ?_)
  · refine ⟨fun hne => ?_, fun hne => ?_⟩
    · obtain ⟨hlen, hnil⟩ := this.1 hne
      exact ⟨by omega, hnil⟩
    · exact List.length_eq_zero_iff.mp (by have := this.2 hne; omega)
  · rcases h.quiescent_cases hq t with ht | ht | ht <;> rw [ht] <;> rfl
  · rcases h.quiescent_cases hq t with ht | ht | ht <;> rw [ht] <;> rfl

end Channel.System

namespace ChannelVoid.System

variable {τ : Type*} {c : ℕ} {s : System τ}

theorem Inv.rendezvous (h : Inv c s) (hq : layout.Quiescent s.ops) :
    (s.chan.writeBlock_.waitQueue_ ≠ [] →
        s.buffered = c ∧ s.chan.readBlock_.waitQueue_ = []) ∧
      (s.chan.readBlock_.waitQueue_ ≠ [] → s.buffered = 0) := by
  have hcases : ∀ t, s.ops.pc t = .idle ∨ s.ops.pc t = .wWait .parked ∨
      s.ops.pc t = .rWait .parked := by
    intro t
    rcases hq t with ht | ⟨k, ht⟩
    · exact .inl ht
    · right
      revert ht
      cases k <;> cases s.ops.pc t with
      | wWait ph => cases ph <;> simp [layout, Stage.parkedOn]
      | rWait ph => cases ph <;> simp [layout, Stage.parkedOn]
      | _ => simp [layout, Stage.parkedOn]
  refine Layout.Holds.rendezvous h (w := .write) (r := .read) (c := c) (n := s.buffered)
    (by omega) rfl rfl (fun t => ?_) (fun t => ?_)
  · rcases hcases t with ht | ht | ht <;> rw [ht] <;> rfl
  · rcases hcases t with ht | ht | ht <;> rw [ht] <;> rfl

end ChannelVoid.System

namespace Channel

variable {τ T : Type*} [DecidableEq τ]

/-- **No missed rendezvous.**  In every reachable state of a channel with values or
of a channel without, in which every operation has returned or is parked: no
writer is parked next to a parked reader; a parked writer means that exactly `c`
values are buffered and no reader is parked; a parked reader, that nothing is. -/
theorem no_missed_rendezvous {c : ℕ} (hc : c < 2 ^ 64 - 1) :
    (∀ s : System τ T, ReachIf (System.Init c) System.step (System.Bounded c) s →
      layout.Quiescent s.ops →
        ¬(s.chan.writeBlock_.waitQueue_ ≠ [] ∧ s.chan.readBlock_.waitQueue_ ≠ []) ∧
        (s.chan.writeBlock_.waitQueue_ ≠ [] →
          s.chan.queue_.length = c ∧ s.chan.readBlock_.waitQueue_ = []) ∧
        (s.chan.readBlock_.waitQueue_ ≠ [] → s.chan.queue_ = [])) ∧
    (∀ s : ChannelVoid.System τ,
      ReachIf (ChannelVoid.System.Init c) ChannelVoid.System.step (ChannelVoid.System.Bounded c) s →
      ChannelVoid.layout.Quiescent s.ops →
        ¬(s.chan.writeBlock_.waitQueue_ ≠ [] ∧ s.chan.readBlock_.waitQueue_ ≠ []) ∧
        (s.chan.writeBlock_.waitQueue_ ≠ [] →
          s.buffered = c ∧ s.chan.readBlock_.waitQueue_ = []) ∧
        (s.chan.readBlock_.waitQueue_ ≠ [] → s.buffered = 0)) := by
  refine ⟨fun s hs hq => ?_, fun s hs hq => ?_⟩
  · obtain ⟨hw, hr⟩ := (System.reach_inv hc s hs).rendezvous hq
    exact ⟨fun ⟨hne, hne'⟩ => hne' (hw hne).2, hw, hr⟩
  · obtain ⟨hw, hr⟩ := (ChannelVoid.System.reach_inv hc s hs).rendezvous hq
    exact ⟨fun ⟨hne, hne'⟩ => hne' (hw hne).2, hw, hr⟩

/-- Capacity 1: writer 1 fills the channel, writer 2 is parked. -/
def fullThenParked : List (Act ℕ ℕ) :=
  [.push 1 true 7, .advance 1, .advance 1, .advance 1, .advance 1, .advance 1,
    .push 2 true 8, .advance 2, .advance 2]

theorem no_missed_rendezvous_full : ∃ s : System ℕ ℕ,
    execIf System.step (System.Bounded 1) (System.initial 1) fullThenParked = some s ∧
      s.chan.writeBlock_.waitQueue_ = [2] ∧
      s.chan.queue_.length = 1 ∧ s.chan.readBlock_.waitQueue_ = [] := by
  have hinit : ReachIf (System.Init 1) System.step (System.Bounded 1) (System.initial 1) :=
    .start ⟨rfl, rfl, rfl, rfl, rfl⟩
  have h := (no_missed_rendezvous (c := 1) (by decide)).1 _ (reachIf_exec fullThenParked hinit rfl)
    fun t => by
      by_cases h2 : t = 2
      · subst h2
        exact .inr ⟨.write, rfl⟩
      · by_cases h1 : t = 1
        · subst h1
          exact .inl rfl
        · refine .inl (Pool.idle_of_notMem _ t fun hmem => ?_)
          have hsub : ∀ u, u ∈ ({1, 2} : Finset ℕ) → u = 1 ∨ u = 2 := by simp
          exact absurd (hsub t (by revert hmem; apply Finset.mem_of_subset; decide)) (by simp [h1, h2])
  exact ⟨_, rfl, rfl, h.2.1 (by decide)⟩

end Channel
