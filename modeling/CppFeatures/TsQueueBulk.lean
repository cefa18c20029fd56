/-
`pop(n)` and `erase` of `TSQueue` at their boundaries (coroutine/ts_queue.h).

`pop(n)` counts from its first element, so that it never takes fewer than one, and an
empty queue gives a list without an owner, which `push` refuses.  `erase` looks at
`check_` alone, which the elements of a popped list keep.

* `QueueHeap.takesExactly_iff` — `pop(n)` takes `min n m` of `m` elements, and pushing
  them back rotates the queue, exactly if neither `n` nor `m` is zero;
* `QueueHeap.erase_tells_membership_iff` — after any sequence of operations `erase`
  tells membership exactly for the hooks that are in no popped list.
-/
import CppFeatures.TsQueueFifo
import Mathlib.Data.List.Rotate

namespace QueueHeap

variable {α κ : Type*} [DecidableEq α] [DecidableEq κ] {this : κ} {c : QueueHeap α κ}

/-! ### `pop(n)` -/

/-- What a bulk pop of a queue with the elements `xs` promises: `pop(n)` returns the
first `min n m` elements, and pushing the list back rotates the queue. -/
structure TakesExactly (this : κ) (c : QueueHeap α κ) (xs : List α) (i n : ℕ) : Prop where
  takes : ∃ c' l, c.apply this (.popN i n) = .ok (c', .void) ∧ c'.lists i = some l ∧
    l.Represents c'.heap (xs.take (min n xs.length)) ∧
    c'.queue.Represents c'.heap this (xs.drop (min n xs.length))
  rotates : ∃ c', c.run this [.popN i n, .pushList i] = .ok (c', [.void, .void]) ∧
    c'.queue.Represents c'.heap this (xs.rotate (min n xs.length)) ∧
    c'.queue.count_ = c.queue.count_

/-- `pop(n)` and `push` of what it returns, with the assertion. -/
theorem run_popN_pushList (c : QueueHeap α κ) (i n : ℕ) :
    c.run this [.popN i n, .pushList i] =
      let popped := TSQueue.popN c.heap this c.queue n
      let pushed := TSQueue.pushList popped.1 popped.2.1 popped.2.2
      if popped.2.2.check_ = some this then
        .ok (⟨pushed.1, pushed.2, Function.update
          (Function.update c.lists i (some popped.2.2)) i none⟩, [.void, .void])
      else .error .check := by
  simp only [run, apply, bind, Except.bind, Function.update_self]
  split_ifs
  · rfl
  · rfl

omit [DecidableEq α] [DecidableEq κ] in
/-- A list of length `m` is cut at `min n m` where it is cut at `max 1 n`, for `n ≥ 1`. -/
theorem take_drop_max (xs : List α) {n : ℕ} (hn : 1 ≤ n) :
    xs.take (max 1 n) = xs.take (min n xs.length) ∧
      xs.drop (max 1 n) = xs.drop (min n xs.length) := by
  rw [List.take_eq_take_iff, List.drop_eq_drop_iff]
  omega

/-- The list that `pop(n)` leaves in its variable. -/
theorem eq_of_apply_popN {c' : QueueHeap α κ} {l : SList α κ} {i n : ℕ}
    (hpop : c.apply this (.popN i n) = .ok (c', .void)) (hl : c'.lists i = some l) :
    c'.heap = (TSQueue.popN c.heap this c.queue n).1 ∧
      l = (TSQueue.popN c.heap this c.queue n).2.2 := by
  have heq : c' = ⟨(TSQueue.popN c.heap this c.queue n).1, (TSQueue.popN c.heap this c.queue n).2.1,
      Function.update c.lists i (some (TSQueue.popN c.heap this c.queue n).2.2)⟩ :=
    (Prod.mk.inj (Except.ok.inj hpop)).1.symm
  rw [heq] at hl ⊢
  simp only [Function.update_self, Option.some_inj] at hl
  exact ⟨rfl, hl.symm⟩

/-- `pop(0)` takes the first element of a queue that is not empty. -/
theorem not_takesExactly_zero {xs : List α} (h : c.queue.Represents c.heap this xs) (i : ℕ)
    (hne : xs ≠ []) : ¬ c.TakesExactly this xs i 0 := by
  rintro ⟨⟨c', l, hpop, hl, hrep, -⟩, -⟩
  obtain ⟨x, xs, rfl⟩ := List.exists_cons_of_ne_nil hne
  obtain ⟨-, hl⟩ := eq_of_apply_popN hpop hl
  have hhead := (h.popN 0).2.1.head
  rw [← hl, hrep.head, Nat.zero_min] at hhead
  cases hhead

theorem takesExactly_of_pos {xs : List α} (h : c.queue.Represents c.heap this xs) (i : ℕ) {n : ℕ}
    (hn : 1 ≤ n) (hne : xs ≠ []) : c.TakesExactly this xs i n := by
  obtain ⟨hq, hl, hhead, -⟩ := h.popN n
  obtain ⟨htake, hdrop⟩ := take_drop_max xs hn
  rw [htake] at hl
  rw [hdrop] at hq
  have hcheck := h.popN_check hne n
  have hdisj : ∀ y ∈ xs.take (min n xs.length),
      y ∉ (TSQueue.popN c.heap this c.queue n).2.1.head_ :: xs.drop (min n xs.length) := by
    intro y hy hm
    obtain ⟨hhd, hnd⟩ := List.nodup_cons.mp h.nodup
    rcases List.mem_cons.mp hm with heq | hm
    · exact hhd (hhead ▸ heq ▸ List.mem_of_mem_take hy)
    · exact List.disjoint_take_drop hnd le_rfl hy hm
  obtain ⟨hpush, -, -⟩ := hq.pushList hl (fun _ => hcheck) hdisj
  rw [← List.rotate_eq_drop_append_take (Nat.min_le_right ..)] at hpush
  have hrun : c.run this [.popN i n, .pushList i] = _ :=
    (run_popN_pushList c i n).trans (if_pos hcheck)
  refine ⟨⟨_, _, rfl, Function.update_self .., hl, hq⟩, _, hrun, hpush, ?_⟩
  rw [hpush.count, h.count, List.length_rotate]

/-- **A bulk pop takes exactly what was asked** for `n ≥ 1` on a queue that is not empty.
`pop(0)` takes one element, and the list that an empty queue returns trips the
assertion of `push`. -/
theorem takesExactly_iff {xs : List α} (h : c.queue.Represents c.heap this xs) (i : ℕ)
    (n : BitVec 32) : c.TakesExactly this xs i n.toNat ↔ n ≠ 0 ∧ xs ≠ [] := by
  constructor
  · intro htakes
    obtain ⟨c', hrun, -⟩ := htakes.rotates
    have hne : xs ≠ [] := by
      rintro rfl
      rw [run_popN_pushList, TSQueue.popN, if_pos (h.head_eq_tail.mpr rfl)] at hrun
      cases hrun
    refine ⟨?_, hne⟩
    rintro rfl
    exact not_takesExactly_zero h i hne htakes
  · rintro ⟨hn, hne⟩
    refine takesExactly_of_pos h i ?_ hne
    have hpos : n.toNat ≠ 0 := fun h0 => hn (BitVec.eq_of_toNat_eq h0)
    omega

/-- A queue that holds the hooks 1, 2, 3 at addresses other than the sentinel's. -/
def threeHooks : Except AssertFailure (QueueHeap (BitVec 64) Unit × List (QueueRet (BitVec 64))) :=
  (new 0 blankHooks).run () [.push 1, .push 2, .push 3]

theorem represents_threeHooks : ∃ c, threeHooks = .ok (c, [.void, .void, .void]) ∧
    c.queue.Represents c.heap () [1, 2, 3] := by
  have hops : Fifo.empty.Follows (Fifo.Allowed (0 : BitVec 64)) [.push 1, .push 2, .push 3] := by
    simp [Fifo.Follows, Fifo.Allowed, Fifo.apply, Fifo.empty, Fifo.Unheld]
  obtain ⟨c, hrun, href⟩ := (refines_new fresh_blankHooks).run hops
    (by simp [Fifo.Follows, Fifo.PushesTaken])
  exact ⟨c, hrun, href.queue⟩

theorem takesExactly_iff_two : ∃ c, threeHooks = .ok (c, [.void, .void, .void]) ∧
    c.TakesExactly () [1, 2, 3] 0 2 := by
  obtain ⟨c, hrun, hrep⟩ := represents_threeHooks
  exact ⟨c, hrun, (takesExactly_iff hrep 0 2).mpr ⟨by decide, by decide⟩⟩

/-- `pop(0)` takes the first of three elements; and popping from an empty queue and
pushing the result back trips the assertion. -/
theorem popN_zero_takes_one :
    (∃ c, threeHooks = .ok (c, [.void, .void, .void]) ∧ c.queue.Represents c.heap () [1, 2, 3] ∧
      (TSQueue.popN c.heap () c.queue 0).2.2.Represents
        (TSQueue.popN c.heap () c.queue 0).1 [1] ∧
      ¬ c.TakesExactly () [1, 2, 3] 0 0) ∧
    (new 0 blankHooks).run () [.popN 0 1, .pushList 0] = .error .check := by
  obtain ⟨c, hrun, hrep⟩ := represents_threeHooks
  exact ⟨⟨c, hrun, hrep, (hrep.popN 0).2.1, not_takesExactly_zero hrep 0 (by simp)⟩, rfl⟩

/-! ### `erase` -/

/-- What `erase(x)` on a queue with the given elements promises: it returns whether `x`
is one of them, and if not changes nothing. -/
def TellsMembership (this : κ) (c : QueueHeap α κ) (elems : List α) (x : α) : Prop :=
  ∃ c' b, c.apply this (.erase x) = .ok (c', .bool b) ∧ (b = true ↔ x ∈ elems) ∧
    (b = false → c' = c)

/-- `erase` answers by `check_`. -/
theorem apply_erase_of_check {x : α} (h : c.heap.check_ x = some this) :
    ∃ c', c.apply this (.erase x) = .ok (c', .bool true) := by
  simp only [apply, TSQueue.erase, if_neg (not_not.mpr h)]
  exact ⟨_, rfl⟩

theorem apply_erase_of_not_check {x : α} (h : c.heap.check_ x ≠ some this) :
    c.apply this (.erase x) = .ok (c, .bool false) := by
  simp only [apply, TSQueue.erase, if_pos h]

theorem Refines.tellsMembership_iff {f : Fifo α} (h : Refines this c f) (x : α) :
    c.TellsMembership this f.elems x ↔ f.Unheld x := by
  constructor
  · rintro ⟨c', b, hap, hb, -⟩ i p hp hx
    -- a hook of a popped list has `check_` set, and is not in the queue
    obtain ⟨c'', hap'⟩ := apply_erase_of_check ((h.check x).mpr (.inr ⟨i, p, hp, hx⟩))
    rw [hap'] at hap
    obtain ⟨-, hret⟩ := Prod.mk.inj (Except.ok.inj hap)
    have hmem := hb.mp (QueueRet.bool.inj hret).symm
    exact h.apart i p hp x hx (List.mem_cons_of_mem _ hmem)
  · intro hun
    by_cases hx : x ∈ f.elems
    · obtain ⟨c', hap⟩ := apply_erase_of_check ((h.check x).mpr (.inl hx))
      exact ⟨c', true, hap, by simp [hx], nofun⟩
    · have hcheck : c.heap.check_ x ≠ some this := by
        intro hc
        rcases (h.check x).mp hc with hx' | ⟨i, p, hp, hx'⟩
        · exact hx hx'
        · exact hun i p hp hx'
      exact ⟨c, false, apply_erase_of_not_check hcheck, by simp [hx], fun _ => rfl⟩

/-- **`erase` tells membership except for hooks in popped lists.**  After any sequence of
operations that keeps to the rules, `erase(x)` returns `true` exactly for the elements
of the queue, and changes nothing when it returns `false`, if and only if `x` is in no
list that was popped and not pushed back. -/
theorem erase_tells_membership_iff {sentinel : α} {H : Hooks α κ} (hH : Fresh this sentinel H)
    {ops : List (QueueOp α)} (hops : Fifo.empty.Follows (Fifo.Allowed sentinel) ops)
    (htaken : Fifo.empty.Follows Fifo.PushesTaken ops) (x : α) :
    ∃ c, (new sentinel H).run this ops = .ok (c, (Fifo.empty.run ops).2) ∧
      (c.TellsMembership this (Fifo.empty.run ops).1.elems x ↔
        (Fifo.empty.run ops).1.Unheld x) := by
  obtain ⟨c, hrun, href⟩ := (refines_new hH).run hops htaken
  exact ⟨c, hrun, href.tellsMembership_iff x⟩

-- a hook that was taken out with `pop` is in no list
theorem erase_tells_membership_iff_popped : ∃ c,
    (new 0 blankHooks).run () [.push 1, .push 2, .pop] = .ok (c, [.void, .void, .ptr (some 1)]) ∧
      c.TellsMembership () [2] 1 := by
  have hops : Fifo.empty.Follows (Fifo.Allowed (0 : BitVec 64)) [.push 1, .push 2, .pop] := by
    simp [Fifo.Follows, Fifo.Allowed, Fifo.apply, Fifo.empty, Fifo.Unheld]
  obtain ⟨c, hrun, hiff⟩ := erase_tells_membership_iff fresh_blankHooks hops
    (by simp [Fifo.Follows, Fifo.PushesTaken]) 1
  exact ⟨c, hrun, hiff.mpr (by simp [Fifo.Unheld, Fifo.run, Fifo.apply, Fifo.empty])⟩

/-- Hook 1 is in the list that `pop_all` returned, and `erase` still finds it in the
queue: it returns `true`, and `count_` of the empty queue becomes `2 ^ 64 - 1`. -/
theorem erase_finds_held_hook : Fresh () 0 blankHooks ∧
    Fifo.empty.Follows (Fifo.Allowed (0 : BitVec 64)) [.push 1, .push 2, .popAll 0] ∧
    ∃ c c', (new 0 blankHooks).run () [.push 1, .push 2, .popAll 0]
        = .ok (c, [.void, .void, .void]) ∧
      c.queue.Represents c.heap () [] ∧ c.apply () (.erase 1) = .ok (c', .bool true) ∧
      c'.queue.count_ = BitVec.allOnes 64 ∧ ¬ c.TellsMembership () [] 1 := by
  have hops : Fifo.empty.Follows (Fifo.Allowed (0 : BitVec 64)) [.push 1, .push 2, .popAll 0] := by
    simp [Fifo.Follows, Fifo.Allowed, Fifo.apply, Fifo.empty, Fifo.Unheld]
  obtain ⟨c, hrun, href⟩ := (refines_new fresh_blankHooks).run hops
    (by simp [Fifo.Follows, Fifo.PushesTaken])
  have hheld : ¬ (Fifo.empty.run [.push 1, .push 2, .popAll 0]).1.Unheld (1 : BitVec 64) := by
    intro h
    exact h 0 ⟨[1, 2], true⟩ rfl (by simp)
  have hcheck : c.heap.check_ 1 = some () :=
    (href.check 1).mpr (.inr ⟨0, ⟨[1, 2], true⟩, rfl, by simp⟩)
  obtain ⟨c', hap⟩ := apply_erase_of_check hcheck
  refine ⟨fresh_blankHooks, hops, c, c', hrun, href.queue, hap, ?_, fun h =>
    hheld ((href.tellsMembership_iff 1).mp h)⟩
  simp only [apply, TSQueue.erase, if_neg (not_not.mpr hcheck)] at hap
  obtain ⟨rfl, -⟩ := Prod.mk.inj (Except.ok.inj hap)
  show c.queue.count_ - 1 = _
  rw [href.queue.count]
  rfl

end QueueHeap
