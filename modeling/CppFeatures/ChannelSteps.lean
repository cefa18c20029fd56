/-
Where the atomic steps of `Channel<T>` (coroutine/channel.h) take the operations: the one
that makes the step, and the others, of which a `Wakeup` may grant one what it waits for.
-/
import CppFeatures.ChannelSafety

namespace Channel

namespace System

variable {τ T : Type*} [DecidableEq τ] {c : ℕ} {s s' : System τ T} {t u : τ}

/-- A process that another wakes goes on where it was granted. -/
def Woken (x y : Stage) : Prop := y = x ∨ (∃ k, x.parkedOn k = true) ∧ y = x.granted

/-- `Wakeup` by `t`: it moves on, and the oldest waiter may be granted. -/
theorem wake_pc (h : Inv c s) (k : Sem) (x : Stage) (hrun : (s.ops.pc t).parkedOn k = false) :
    (s.wake k t x).ops.pc t = x ∧ ∀ u, u ≠ t → Woken (s.ops.pc u) ((s.wake k t x).ops.pc u) := by
  rw [wake, System.setSem, BlockObject.wakeBy, BlockObject.wakeup]
  cases hq : (s.chan.sem k).waitQueue_ with
  | nil =>
    have hset : ∀ u, u ≠ t → Woken (s.ops.pc u) ((s.ops.set t x).pc u) := fun u hu =>
      .inl (Pool.pc_set_of_ne _ hu x)
    dsimp only
    split_ifs <;> exact ⟨Pool.pc_set_self .., hset⟩
  | cons w rest =>
    have hw : (s.ops.pc w).parkedOn k = true :=
      ((h.net.parks k).2 w).mp (by rw [hq]; exact List.mem_cons_self)
    have hwt : w ≠ t := by
      rintro rfl
      rw [hrun] at hw
      exact Bool.noConfusion hw
    refine ⟨?_, fun u hu => ?_⟩
    · exact (Pool.pc_set_of_ne _ hwt.symm _).trans (Pool.pc_set_self ..)
    · by_cases huw : u = w
      · subst huw
        refine .inr ⟨⟨k, hw⟩, (Pool.pc_set_self ..).trans ?_⟩
        rw [Pool.pc_set_of_ne _ hu]
      · exact .inl ((Pool.pc_set_of_ne _ huw _).trans (Pool.pc_set_of_ne _ hu _))

theorem wait_pc (s : System τ T) (k : Sem) (t : τ) (x : WaitPhase → Stage) :
    ((s.wait k t x).ops.pc t = (x .ready).granted ∨ ∃ ph, (s.wait k t x).ops.pc t = x ph) ∧
      ∀ u, u ≠ t → Woken (s.ops.pc u) ((s.wait k t x).ops.pc u) := by
  rw [wait, System.setSem, BlockObject.waitBy]
  refine ⟨?_, fun u hu => .inl (Pool.pc_set_of_ne _ hu _)⟩
  rw [Pool.pc_set_self]
  split_ifs
  · exact .inl rfl
  · exact .inr ⟨.marked, rfl⟩
  · exact .inr ⟨.ready, rfl⟩

theorem park_pc (s : System τ T) (k : Sem) (t : τ) (x : WaitPhase → Stage) :
    ((s.park k t x).ops.pc t = (x .ready).granted ∨ ∃ ph, (s.park k t x).ops.pc t = x ph) ∧
      ∀ u, u ≠ t → Woken (s.ops.pc u) ((s.park k t x).ops.pc u) := by
  rw [park, System.setSem, BlockObject.parkBy]
  refine ⟨?_, fun u hu => .inl (Pool.pc_set_of_ne _ hu _)⟩
  rw [Pool.pc_set_self]
  split_ifs
  · exact .inr ⟨.parked, rfl⟩
  · exact .inl rfl

end System

end Channel
