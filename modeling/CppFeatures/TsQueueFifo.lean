/-
`TSQueue` as a first-in first-out queue (coroutine/ts_queue.h).

A queue is used together with the lists popped from it: callers pop segments,
erase elements from them and push them back.  `Fifo` is what they mean, sequences
without any pointers; `QueueHeap` is the code, run on one heap of hooks.

* `Fifo.Allowed` — what callers may do: push elements that are in no list, erase
  through the queue only what is in no popped list;
* `QueueHeap.Refines` — the heap stands for the sequences: every list well formed,
  all of them apart, and `check_` is the queue exactly on their elements;
* `QueueHeap.Refines.apply` — one operation, with what it returns;
* `QueueHeap.fifo_refinement` — any sequence of operations;
* `QueueHeap.pushList_of_empty_asserts` — a list popped from an empty queue does not
  know its queue, and pushing it back trips the assertion.
-/
import CppFeatures.TsQueue

/-! ### What the operations mean -/

/-- A popped list; `taken` tells that the queue was not empty when it was popped. -/
structure Popped (α : Type*) where
  elems : List α
  taken : Bool
deriving DecidableEq, Repr

/-- A queue and the lists popped from it, by the variable that holds them. -/
structure Fifo (α : Type*) where
  elems : List α
  lists : ℕ → Option (Popped α)

inductive QueueOp (α : Type*)
  | push (x : α)
  | pop
  | popN (i n : ℕ)
  | popAll (i : ℕ)
  | listErase (i : ℕ) (x : α)
  | pushList (i : ℕ)
  | erase (x : α)
deriving DecidableEq, Repr

inductive QueueRet (α : Type*)
  | void
  | ptr (p : Option α)
  | bool (b : Bool)
deriving DecidableEq, Repr

namespace Fifo

variable {α : Type*}

def empty : Fifo α := ⟨[], fun _ => none⟩

variable [DecidableEq α]

def apply (f : Fifo α) : QueueOp α → Fifo α × QueueRet α
  | .push x => ({ f with elems := f.elems ++ [x] }, .void)
  | .pop => ({ f with elems := f.elems.tail }, .ptr f.elems.head?)
  | .popN i n =>
    (⟨f.elems.drop (max 1 n),
      Function.update f.lists i (some ⟨f.elems.take (max 1 n), !f.elems.isEmpty⟩)⟩, .void)
  | .popAll i =>
    (⟨[], Function.update f.lists i (some ⟨f.elems, !f.elems.isEmpty⟩)⟩, .void)
  | .listErase i x => match f.lists i with
    | none => (f, .void)
    | some p => ({ f with lists := Function.update f.lists i (some ⟨p.elems.erase x, p.taken⟩) },
        .ptr (p.elems.drop (p.elems.idxOf x + 1)).head?)
  | .pushList i => match f.lists i with
    | none => (f, .void)
    | some p => (⟨f.elems ++ p.elems, Function.update f.lists i none⟩, .void)
  | .erase x => ({ f with elems := f.elems.erase x }, .bool (decide (x ∈ f.elems)))

/-- In no popped list. -/
def Unheld (f : Fifo α) (x : α) : Prop := ∀ i p, f.lists i = some p → x ∉ p.elems

/-- What callers may do, with `sentinel` the queue's own hook. -/
def Allowed (sentinel : α) (f : Fifo α) : QueueOp α → Prop
  | .push x => x ≠ sentinel ∧ x ∉ f.elems ∧ f.Unheld x
  | .pop => True
  | .popN i _ => f.lists i = none
  | .popAll i => f.lists i = none
  | .listErase i x => ∃ p, f.lists i = some p ∧ x ∈ p.elems
  | .pushList i => ∃ p, f.lists i = some p
  | .erase x => f.Unheld x

/-- A list to be pushed back was not popped from an empty queue. -/
def PushesTaken (f : Fifo α) : QueueOp α → Prop
  | .pushList i => ∀ p, f.lists i = some p → p.taken = true
  | _ => True

/-- The operations, one after the other, with what they return. -/
def run : Fifo α → List (QueueOp α) → Fifo α × List (QueueRet α)
  | f, [] => (f, [])
  | f, op :: ops => (((f.apply op).1.run ops).1, (f.apply op).2 :: ((f.apply op).1.run ops).2)

/-- Every operation of a sequence meets `rule` where it is made. -/
def Follows (rule : Fifo α → QueueOp α → Prop) : Fifo α → List (QueueOp α) → Prop
  | _, [] => True
  | f, op :: ops => rule f op ∧ Follows rule (f.apply op).1 ops

end Fifo

/-! ### The code -/

/-- A queue and its popped lists on one heap. -/
structure QueueHeap (α κ : Type*) where
  heap : Hooks α κ
  queue : TSQueue α
  lists : ℕ → Option (SList α κ)

/-- `assert(elements.check(this))` failed. -/
inductive AssertFailure
  | check
deriving DecidableEq, Repr

namespace QueueHeap

open Function List

variable {α κ : Type*} [DecidableEq α] [DecidableEq κ]

def apply (this : κ) (c : QueueHeap α κ) :
    QueueOp α → Except AssertFailure (QueueHeap α κ × QueueRet α)
  | .push x =>
    let (H, q) := TSQueue.push c.heap this c.queue x
    .ok (⟨H, q, c.lists⟩, .void)
  | .pop =>
    let (H, q, ptr) := TSQueue.pop c.heap c.queue
    .ok (⟨H, q, c.lists⟩, .ptr ptr)
  | .popN i n =>
    let (H, q, l) := TSQueue.popN c.heap this c.queue n
    .ok (⟨H, q, update c.lists i (some l)⟩, .void)
  | .popAll i =>
    let (H, q, l) := TSQueue.popAll c.heap this c.queue
    .ok (⟨H, q, update c.lists i (some l)⟩, .void)
  | .listErase i x => match c.lists i with
    | none => .ok (c, .void)
    | some l =>
      let (H, l, it) := SList.erase c.heap l x
      .ok (⟨H, c.queue, update c.lists i (some l)⟩, .ptr it)
  | .pushList i => match c.lists i with
    | none => .ok (c, .void)
    | some l =>
      if l.check_ = some this then
        let (H, q) := TSQueue.pushList c.heap c.queue l
        .ok (⟨H, q, update c.lists i none⟩, .void)
      else .error .check
  | .erase x =>
    let (H, q, b) := TSQueue.erase c.heap this c.queue x
    .ok (⟨H, q, c.lists⟩, .bool b)

def run (this : κ) : QueueHeap α κ → List (QueueOp α) →
    Except AssertFailure (QueueHeap α κ × List (QueueRet α))
  | c, [] => .ok (c, [])
  | c, op :: ops => do
    let (c, r) ← c.apply this op
    let (c, rs) ← run this c ops
    .ok (c, r :: rs)

/-! ### One operation -/

/-- The heap stands for the sequences of `f`. -/
structure Refines (this : κ) (c : QueueHeap α κ) (f : Fifo α) : Prop where
  queue : c.queue.Represents c.heap this f.elems
  list : ∀ i p, f.lists i = some p → ∃ l, c.lists i = some l ∧ l.Represents c.heap p.elems ∧
    (p.taken = true → l.check_ = some this) ∧ (p.taken = false → p.elems = [])
  apart : ∀ i p, f.lists i = some p → ∀ y ∈ p.elems, y ∉ c.queue.head_ :: f.elems
  lists_apart : ∀ i j p r, i ≠ j → f.lists i = some p → f.lists j = some r →
    ∀ y ∈ p.elems, y ∉ r.elems
  check : ∀ y, c.heap.check_ y = some this ↔
    y ∈ f.elems ∨ ∃ i p, f.lists i = some p ∧ y ∈ p.elems

/-- What a table holds after one entry was written. -/
theorem update_eq_some {β : Type*} {g : ℕ → Option β} {i j : ℕ} {v : Option β} {b : β} :
    update g i v j = some b ↔ j = i ∧ v = some b ∨ j ≠ i ∧ g j = some b := by
  by_cases hj : j = i
  · subst hj
    simp
  · simp [hj]

namespace Refines

variable {this : κ} {c : QueueHeap α κ} {f : Fifo α} {H : Hooks α κ} {q : TSQueue α}
  {l : SList α κ} {xs ys S : List α} {p : Popped α} {x : α} {i : ℕ}

omit [DecidableEq α] [DecidableEq κ]

/-- A node of the queue is in no popped list. -/
theorem unheld (h : Refines this c f) (hx : x ∈ c.queue.head_ :: f.elems) : f.Unheld x :=
  fun i p hp hm => h.apart i p hp x hm hx

/-- Popped lists survive writes to other nodes. -/
theorem list_frame (h : Refines this c f) (heq : Hooks.EqOff S c.heap H) (hp : f.lists i = some p)
    (hS : ∀ y ∈ p.elems, y ∉ S) : ∃ l, c.lists i = some l ∧ l.Represents H p.elems ∧
      (p.taken = true → l.check_ = some this) ∧ (p.taken = false → p.elems = []) := by
  obtain ⟨l, hl, hrep, htaken⟩ := h.list i p hp
  exact ⟨l, hl, hrep.frame heq hS, htaken⟩

/-- An operation on the queue alone. -/
theorem queue_step (h : Refines this c f) (hq : q.Represents H this xs)
    (hhead : q.head_ = c.queue.head_) (heq : Hooks.EqOff S c.heap H) (hS : ∀ y ∈ S, f.Unheld y)
    (hxs : ∀ y ∈ xs, f.Unheld y)
    (hcheck : ∀ y, H.check_ y = some this ↔
      y ∈ xs ∨ ∃ i p, f.lists i = some p ∧ y ∈ p.elems) :
    Refines this ⟨H, q, c.lists⟩ ⟨xs, f.lists⟩ where
  queue := hq
  list := fun i p hp => h.list_frame heq hp fun y hy hm => hS y hm i p hp hy
  apart := by
    intro i p hp y hy hm
    rcases mem_cons.mp hm with rfl | hm
    · exact h.apart i p hp _ hy (hhead ▸ mem_cons_self)
    · exact hxs y hm i p hp hy
  lists_apart := h.lists_apart
  check := hcheck

/-- An operation that takes `x` out of the queue. -/
theorem remove_step [DecidableEq α] {a b : List α} (h : Refines this c f)
    (hxs : f.elems = a ++ x :: b) (hq : q.Represents H this (a ++ b))
    (hhead : q.head_ = c.queue.head_)
    (heq : Hooks.EqOff (c.queue.head_ :: f.elems) c.heap H)
    (hcheck : H.check_ = update c.heap.check_ x none) :
    Refines this ⟨H, q, c.lists⟩ ⟨a ++ b, f.lists⟩ := by
  have hx : x ∉ a ++ b := by
    have hnd := (nodup_cons.mp h.queue.nodup).2
    rw [hxs] at hnd
    exact (nodup_cons.mp (perm_middle.nodup_iff.mp hnd)).1
  have hmem : ∀ y, y ∈ f.elems ↔ y = x ∨ y ∈ a ++ b := by
    intro y
    rw [hxs, perm_middle.mem_iff, mem_cons]
  have hun : ∀ y ∈ f.elems, f.Unheld y := fun y hy => h.unheld (mem_cons_of_mem _ hy)
  refine h.queue_step hq hhead heq (fun y hy => h.unheld hy)
    (fun y hy => hun y ((hmem y).mpr (.inr hy))) fun y => ?_
  rw [hcheck]
  by_cases hyx : y = x
  · subst hyx
    rw [update_self]
    refine ⟨nofun, ?_⟩
    rintro (hy | ⟨i, p, hp, hy⟩)
    · exact absurd hy hx
    · exact absurd hy (hun y ((hmem y).mpr (.inl rfl)) i p hp)
  · rw [update_of_ne hyx, h.check, hmem]
    simp [hyx]

/-- An operation that takes a first part off the queue. -/
theorem pop_step (h : Refines this c f) (hi : f.lists i = none) (hsplit : f.elems = ys ++ xs)
    (hq : q.Represents H this xs) (hl : l.Represents H ys) (hhead : q.head_ = c.queue.head_)
    (heq : Hooks.EqOff (c.queue.head_ :: f.elems) c.heap H) (hcheck : H.check_ = c.heap.check_)
    (htaken : f.elems ≠ [] → l.check_ = some this) :
    Refines this ⟨H, q, update c.lists i (some l)⟩
      ⟨xs, update f.lists i (some ⟨ys, !f.elems.isEmpty⟩)⟩ := by
  have hnd := nodup_cons.mp h.queue.nodup
  rw [hsplit] at hnd
  have hdisj := (nodup_append.mp hnd.2).2.2
  have hsub : ∀ y ∈ ys, y ∈ c.queue.head_ :: f.elems := fun y hy =>
    mem_cons_of_mem _ (hsplit ▸ mem_append_left _ hy)
  refine ⟨hq, fun j p hp => ?_, fun j p hp y hy hm => ?_, fun j k p r hjk hp hr y hy => ?_,
    fun y => ?_⟩
  · rcases update_eq_some.mp hp with ⟨rfl, ⟨⟩⟩ | ⟨hj, hp⟩
    · refine ⟨l, update_self .., hl, fun ht => htaken (by simpa using ht), fun ht => ?_⟩
      have hnil : f.elems = [] := by simpa using ht
      rw [hnil] at hsplit
      exact (append_eq_nil_iff.mp hsplit.symm).1
    · obtain ⟨l', hl', hrest⟩ := h.list_frame heq hp (h.apart j p hp)
      exact ⟨l', update_eq_some.mpr (.inr ⟨hj, hl'⟩), hrest⟩
  · rcases update_eq_some.mp hp with ⟨rfl, ⟨⟩⟩ | ⟨hj, hp⟩
    · rcases mem_cons.mp hm with rfl | hm
      · exact hnd.1 (hhead ▸ mem_append_left _ hy)
      · exact hdisj y hy y hm rfl
    · refine h.apart j p hp y hy ?_
      rw [hsplit, ← hhead]
      rcases mem_cons.mp hm with rfl | hm
      · exact mem_cons_self
      · exact mem_cons_of_mem _ (mem_append_right _ hm)
  · rcases update_eq_some.mp hp with ⟨rfl, ⟨⟩⟩ | ⟨hj, hpj⟩ <;>
      rcases update_eq_some.mp hr with ⟨rfl, ⟨⟩⟩ | ⟨hk, hrk⟩
    · exact absurd rfl hjk
    · exact h.unheld (hsub y hy) k r hrk
    · exact fun hm => h.apart j p hpj y hy (hsub y hm)
    · exact h.lists_apart j k p r hjk hpj hrk y hy
  · show H.check_ y = some this ↔ _
    rw [hcheck, h.check, hsplit, mem_append]
    constructor
    · rintro ((hy | hy) | ⟨j, p, hp, hy⟩)
      · exact .inr ⟨i, _, update_self .., hy⟩
      · exact .inl hy
      · have hj : j ≠ i := fun e => by rw [e, hi] at hp; cases hp
        exact .inr ⟨j, p, update_eq_some.mpr (.inr ⟨hj, hp⟩), hy⟩
    · rintro (hy | ⟨j, p, hp, hy⟩)
      · exact .inl (.inr hy)
      · rcases update_eq_some.mp hp with ⟨rfl, ⟨⟩⟩ | ⟨hj, hp⟩
        ·     exact .inl (.inl hy)
        · exact .inr ⟨j, p, hp, hy⟩

/-- An operation that takes `x` out of a popped list. -/
theorem list_step [DecidableEq α] (h : Refines this c f) (hi : f.lists i = some p)
    (hl : l.Represents H (p.elems.erase x)) (heq : Hooks.EqOff p.elems c.heap H) (hx : x ∈ p.elems)
    (hcheck : H.check_ = update c.heap.check_ x none) {l₀ : SList α κ}
    (hl₀ : c.lists i = some l₀) (hchk : l.check_ = l₀.check_) :
    Refines this ⟨H, c.queue, update c.lists i (some l)⟩
      ⟨f.elems, update f.lists i (some ⟨p.elems.erase x, p.taken⟩)⟩ := by
  obtain ⟨l₁, hl₁, hrep, htaken, hnil⟩ := h.list i p hi
  obtain rfl : l₀ = l₁ := Option.some_inj.mp (hl₀.symm.trans hl₁)
  have hsub : ∀ y ∈ p.elems.erase x, y ∈ p.elems := fun y hy => mem_of_mem_erase hy
  refine ⟨h.queue.frame heq fun y hy hm => h.apart i p hi y hm hy, fun j r hr => ?_,
    fun j r hr y hy => ?_, fun j k r r' hjk hr hr' y hy => ?_, fun y => ?_⟩
  · rcases update_eq_some.mp hr with ⟨rfl, ⟨⟩⟩ | ⟨hj, hr⟩
    · refine ⟨l, update_self .., hl, fun ht => hchk.trans (htaken ht), fun ht => ?_⟩
      show p.elems.erase x = []
      rw [hnil ht]
      rfl
    · obtain ⟨l', hl', hrest⟩ := h.list_frame heq hr (h.lists_apart j i r p hj hr hi)
      exact ⟨l', update_eq_some.mpr (.inr ⟨hj, hl'⟩), hrest⟩
  · rcases update_eq_some.mp hr with ⟨rfl, ⟨⟩⟩ | ⟨hj, hr⟩
    · exact h.apart j p hi y (hsub y hy)
    · exact h.apart j r hr y hy
  · rcases update_eq_some.mp hr with ⟨rfl, ⟨⟩⟩ | ⟨hj, hrj⟩ <;>
      rcases update_eq_some.mp hr' with ⟨rfl, ⟨⟩⟩ | ⟨hk, hrk⟩
    · exact absurd rfl hjk
    · exact h.lists_apart j k p r' hjk hi hrk y (hsub y hy)
    · exact fun hm => h.lists_apart j k r p hjk hrj hi y hy (hsub y hm)
    · exact h.lists_apart j k r r' hjk hrj hrk y hy
  · show H.check_ y = some this ↔ _
    rw [hcheck]
    by_cases hyx : y = x
    · -- `x` is in no list any more
      subst hyx
      rw [update_self]
      refine ⟨nofun, ?_⟩
      rintro (hy | ⟨j, r, hr, hy⟩)
      · exact absurd (mem_cons_of_mem _ hy) (h.apart i p hi y hx)
      · rcases update_eq_some.mp hr with ⟨rfl, ⟨⟩⟩ | ⟨hj, hr⟩
        · exact absurd hy hrep.nodup.not_mem_erase
        · exact absurd hy (h.lists_apart i j p r hj.symm hi hr y hx)
    · rw [update_of_ne hyx, h.check]
      refine or_congr_right ⟨?_, ?_⟩
      · rintro ⟨j, r, hr, hy⟩
        by_cases hj : j = i
        · subst hj
          obtain rfl : p = r := Option.some_inj.mp (hi.symm.trans hr)
          exact ⟨j, _, update_self .., (mem_erase_of_ne hyx).mpr hy⟩
        · exact ⟨j, r, update_eq_some.mpr (.inr ⟨hj, hr⟩), hy⟩
      · rintro ⟨j, r, hr, hy⟩
        rcases update_eq_some.mp hr with ⟨rfl, ⟨⟩⟩ | ⟨hj, hr⟩
        · exact ⟨j, p, hi, hsub y hy⟩
        · exact ⟨j, r, hr, hy⟩

/-- An operation that gives a popped list back to the queue. -/
theorem pushList_step (h : Refines this c f) (hi : f.lists i = some p)
    (hq : q.Represents H this (f.elems ++ p.elems)) (hhead : q.head_ = c.queue.head_)
    (heq : Hooks.EqOff (c.queue.head_ :: (f.elems ++ p.elems)) c.heap H)
    (hcheck : H.check_ = c.heap.check_) :
    Refines this ⟨H, q, update c.lists i none⟩
      ⟨f.elems ++ p.elems, update f.lists i none⟩ := by
  have hother : ∀ {j r}, update f.lists i none j = some r → j ≠ i ∧ f.lists j = some r := by
    intro j r hr
    rcases update_eq_some.mp hr with ⟨-, ⟨⟩⟩ | hr
    exact hr
  have hapart : ∀ {j r}, j ≠ i → f.lists j = some r → ∀ y ∈ r.elems,
      y ∉ c.queue.head_ :: (f.elems ++ p.elems) := by
    intro j r hj hr y hy hm
    rw [← cons_append] at hm
    rcases mem_append.mp hm with hm | hm
    · exact h.apart j r hr y hy hm
    · exact h.lists_apart j i r p hj hr hi y hy hm
  refine ⟨hq, fun j r hr => ?_, fun j r hr y hy => ?_, fun j k r r' hjk hr hr' => ?_, fun y => ?_⟩
  · obtain ⟨hj, hr⟩ := hother hr
    obtain ⟨l', hl', hrest⟩ := h.list_frame heq hr (hapart hj hr)
    exact ⟨l', update_eq_some.mpr (.inr ⟨hj, hl'⟩), hrest⟩
  · obtain ⟨hj, hr⟩ := hother hr
    show y ∉ q.head_ :: _
    rw [hhead]
    exact hapart hj hr y hy
  · exact h.lists_apart j k r r' hjk (hother hr).2 (hother hr').2
  · show H.check_ y = some this ↔ y ∈ f.elems ++ p.elems ∨ _
    rw [hcheck, h.check, mem_append, or_assoc]
    refine or_congr_right ⟨?_, ?_⟩
    · rintro ⟨j, r, hr, hy⟩
      by_cases hj : j = i
      · subst hj
        obtain rfl : p = r := Option.some_inj.mp (hi.symm.trans hr)
        exact .inl hy
      · exact .inr ⟨j, r, update_eq_some.mpr (.inr ⟨hj, hr⟩), hy⟩
    · rintro (hy | ⟨j, r, hr, hy⟩)
      · exact ⟨i, p, hi, hy⟩
      · exact ⟨j, r, (hother hr).2, hy⟩

/-- **One operation** that callers may make runs, returns what it should, and
leaves what it should. -/
theorem apply [DecidableEq α] [DecidableEq κ] (h : Refines this c f) {op : QueueOp α}
    (hop : f.Allowed c.queue.head_ op) (htaken : f.PushesTaken op) :
    ∃ c', c.apply this op = .ok (c', (f.apply op).2) ∧ Refines this c' (f.apply op).1 ∧
      c'.queue.head_ = c.queue.head_ := by
  cases op with
  | push x =>
    obtain ⟨hne, hx, hun⟩ := hop
    obtain ⟨hq, hhead, heq⟩ := h.queue.push (x := x) (by simp [hne, hx])
    refine ⟨_, rfl, h.queue_step hq hhead heq ?_ ?_ fun y => ?_, hhead⟩
    · intro y hy
      rcases mem_cons.mp hy with rfl | hy
      · exact hun
      · exact h.unheld hy
    · intro y hy
      rcases mem_append.mp hy with hy | hy
      · exact h.unheld (mem_cons_of_mem _ hy)
      · exact mem_singleton.mp hy ▸ hun
    · show update c.heap.check_ x (some this) y = some this ↔ _
      rw [mem_append, mem_singleton]
      by_cases hyx : y = x
      · simp [hyx]
      · rw [update_of_ne hyx, h.check]
        simp [hyx]
  | pop =>
    rcases f with ⟨_ | ⟨x, xs⟩, lists⟩
    · refine ⟨c, ?_, h, rfl⟩
      rw [QueueHeap.apply, h.queue.pop_nil]
      rfl
    · obtain ⟨hret, hq, hhead, heq⟩ := h.queue.pop
      refine ⟨⟨_, _, c.lists⟩, ?_,
        h.remove_step (a := []) rfl hq hhead heq h.queue.check_pop, hhead⟩
      show Except.ok (_, QueueRet.ptr (TSQueue.pop c.heap c.queue).2.2) = _
      rw [hret]
      rfl
  | popN i n =>
    obtain ⟨hq, hl, hhead, heq⟩ := h.queue.popN n
    refine ⟨_, rfl, h.pop_step hop ?_ hq hl hhead heq ?_ ?_, hhead⟩
    · exact (take_append_drop ..).symm
    · exact TSQueue.check_popN n
    · exact fun hne => h.queue.popN_check hne n
  | popAll i =>
    obtain ⟨hq, hl, hhead, heq⟩ := h.queue.popAll
    refine ⟨_, rfl, h.pop_step hop ?_ hq hl hhead heq ?_ ?_, hhead⟩
    · exact (append_nil _).symm
    · exact TSQueue.check_popAll
    · exact fun hne => h.queue.popAll_check hne
  | listErase i x =>
    obtain ⟨p, hp, hx⟩ := hop
    obtain ⟨l, hl, hrep, -⟩ := h.list i p hp
    obtain ⟨a, b, hxa, hsplit, herase⟩ := exists_erase_eq hx
    have hret : p.elems.drop (p.elems.idxOf x + 1) = b := by
      rw [hsplit, idxOf_append_of_notMem hxa, idxOf_cons_self]
      simp
    rw [hsplit] at hrep
    obtain ⟨hq, hit, heq⟩ := hrep.erase
    rw [← hsplit] at heq
    rw [← herase] at hq
    simp only [QueueHeap.apply, hl, Fifo.apply, hp]
    refine ⟨⟨_, c.queue, _⟩, ?_, h.list_step hp hq heq hx SList.check_erase hl rfl, rfl⟩
    rw [hit, hret]
  | pushList i =>
    obtain ⟨p, hp⟩ := hop
    obtain ⟨l, hl, hrep, hchk, -⟩ := h.list i p hp
    have hchk := hchk (htaken p hp)
    obtain ⟨hq, hhead, heq⟩ := h.queue.pushList hrep (fun _ => hchk) (h.apart i p hp)
    simp only [QueueHeap.apply, hl, hchk, if_true, Fifo.apply, hp]
    exact ⟨_, rfl, h.pushList_step hp hq hhead heq TSQueue.check_pushList, hhead⟩
  | erase x =>
    by_cases hx : x ∈ f.elems
    · obtain ⟨a, b, hxa, hsplit, herase⟩ := exists_erase_eq hx
      have hrep := h.queue
      rw [hsplit] at hrep
      obtain ⟨hret, hq, hhead, heq⟩ := hrep.erase
      have hcheck : c.heap.check_ x = some this := h.queue.check x hx
      simp only [QueueHeap.apply, hret, Fifo.apply, hx, decide_true, herase]
      exact ⟨_, rfl, h.remove_step hsplit hq hhead (hsplit ▸ heq) (TSQueue.check_erase hcheck),
        hhead⟩
    · have hcheck : c.heap.check_ x ≠ some this := by
        rw [Ne, h.check, not_or]
        exact ⟨hx, fun ⟨i, p, hp, hm⟩ => hop i p hp hm⟩
      have herase : TSQueue.erase c.heap this c.queue x = (c.heap, c.queue, false) := by
        rw [TSQueue.erase, if_pos hcheck]
      simp only [QueueHeap.apply, herase, Fifo.apply, hx, decide_false, erase_of_not_mem hx]
      exact ⟨c, rfl, h, rfl⟩

end Refines

/-! ### Sequences of operations -/

variable {this : κ}

/-- **A sequence of operations** runs through, and returns what it should. -/
theorem Refines.run {c : QueueHeap α κ} {f : Fifo α} (h : Refines this c f)
    {ops : List (QueueOp α)} (hops : f.Follows (Fifo.Allowed c.queue.head_) ops)
    (htaken : f.Follows Fifo.PushesTaken ops) :
    ∃ c', c.run this ops = .ok (c', (f.run ops).2) ∧ Refines this c' (f.run ops).1 := by
  induction ops generalizing c f with
  | nil => exact ⟨c, rfl, h⟩
  | cons op ops ih =>
    obtain ⟨c₁, h₁, href, hhead⟩ := h.apply hops.1 htaken.1
    obtain ⟨c', h', href'⟩ := ih href (hhead ▸ hops.2) htaken.2
    refine ⟨c', ?_, href'⟩
    rw [QueueHeap.run, h₁]
    show (do
      let (c, rs) ← c₁.run this ops
      .ok (c, (f.apply op).2 :: rs)) = _
    rw [h']
    rfl

/-- The heap when the queue has just been made around its `sentinel`: no other hook
belongs to it. -/
structure Fresh (this : κ) (sentinel : α) (H : Hooks α κ) : Prop where
  prev : H.prev sentinel = none
  next : H.next sentinel = none
  check : ∀ x, H.check_ x ≠ some this

def new (sentinel : α) (H : Hooks α κ) : QueueHeap α κ := ⟨H, TSQueue.new sentinel, fun _ => none⟩

omit [DecidableEq α] [DecidableEq κ] in
theorem refines_new {sentinel : α} {H : Hooks α κ} (h : Fresh this sentinel H) :
    Refines this (new sentinel H) Fifo.empty where
  queue := TSQueue.represents_new h.prev h.next
  list := nofun
  apart := nofun
  lists_apart := nofun
  check := fun y => ⟨fun hy => absurd hy (h.check y), by simp [Fifo.empty]⟩

/-- Distinct addresses, one of them set apart, are fewer than `2 ^ 64`. -/
theorem length_lt_of_nodup {x : BitVec 64} {xs : List (BitVec 64)} (h : (x :: xs).Nodup) :
    xs.length < 2 ^ 64 := by
  have hinj : Function.Injective (BitVec.toFin (w := 64)) := fun a b hab => BitVec.eq_of_toFin_eq hab
  have hle := (h.map hinj).length_le_card
  rw [length_map, length_cons, Fintype.card_fin] at hle
  exact hle

/-- **`TSQueue` is a first-in first-out queue.**  Take any sequence of `push`, `pop`,
`pop(n)`, `pop_all`, `SList::erase`, `push(SList)` and `erase` in which callers keep to
the rules and push back no list that was popped from an empty queue, on hooks at
64-bit addresses.  It runs without tripping the assertion and returns what the
sequences of `Fifo` say; and the heap it leaves stands for them, with `count_` of the
queue and of every popped list their exact lengths. -/
theorem fifo_refinement {sentinel : BitVec 64} {H : Hooks (BitVec 64) κ}
    (hH : Fresh this sentinel H) {ops : List (QueueOp (BitVec 64))}
    (hops : Fifo.empty.Follows (Fifo.Allowed sentinel) ops)
    (htaken : Fifo.empty.Follows Fifo.PushesTaken ops) :
    ∃ c, (new sentinel H).run this ops = .ok (c, (Fifo.empty.run ops).2) ∧
      Refines this c (Fifo.empty.run ops).1 ∧
      c.queue.count_.toNat = (Fifo.empty.run ops).1.elems.length ∧
      ∀ i p l, (Fifo.empty.run ops).1.lists i = some p → c.lists i = some l →
        l.count_.toNat = p.elems.length := by
  obtain ⟨c, hrun, href⟩ := (refines_new hH).run hops htaken
  refine ⟨c, hrun, href, ?_, fun i p l hp hl => ?_⟩
  · rw [href.queue.count, BitVec.toNat_ofNat]
    exact Nat.mod_eq_of_lt (length_lt_of_nodup href.queue.nodup)
  · obtain ⟨l', hl', hrep, -⟩ := href.list i p hp
    obtain rfl : l = l' := Option.some_inj.mp (hl.symm.trans hl')
    have hnd : (c.queue.head_ :: p.elems).Nodup := nodup_cons.mpr
      ⟨fun hm => href.apart i p hp _ hm mem_cons_self, hrep.nodup⟩
    rw [hrep.count, BitVec.toNat_ofNat]
    exact Nat.mod_eq_of_lt (length_lt_of_nodup hnd)

-- hooks that are in no list
def blankHooks : Hooks (BitVec 64) Unit := ⟨⟨fun _ => none, fun _ => none⟩, fun _ => none⟩

theorem fresh_blankHooks : Fresh () 0 blankHooks := ⟨rfl, rfl, nofun⟩

-- a segment is popped, shortened, and pushed back behind what came in meanwhile
theorem fifo_refinement_pushBack :
    ∃ c, (new 0 blankHooks).run ()
        [.push 1, .push 2, .push 3, .popN 0 2, .listErase 0 1, .push 4, .pushList 0, .erase 3, .pop]
        = .ok (c, [.void, .void, .void, .void, .ptr (some 2), .void, .void, .bool true,
          .ptr (some 4)]) ∧ c.queue.count_ = 1 := by
  have hops : Fifo.empty.Follows (Fifo.Allowed (0 : BitVec 64)) [.push 1, .push 2, .push 3,
      .popN 0 2, .listErase 0 1, .push 4, .pushList 0, .erase 3, .pop] := by
    simp [Fifo.Follows, Fifo.Allowed, Fifo.apply, Fifo.empty, Fifo.Unheld, update_apply]
  have htaken : Fifo.empty.Follows Fifo.PushesTaken [.push (1 : BitVec 64), .push 2, .push 3,
      .popN 0 2, .listErase 0 1, .push 4, .pushList 0, .erase 3, .pop] := by
    simp [Fifo.Follows, Fifo.PushesTaken, Fifo.apply, Fifo.empty]
  obtain ⟨c, hrun, -, hcount, -⟩ := fifo_refinement fresh_blankHooks hops htaken
  exact ⟨c, hrun, BitVec.eq_of_toNat_eq hcount⟩

/-- Popping everything from an empty queue and pushing the result back keeps to the
rules, and trips the assertion: the list that `pop_all` returns has no `check_`. -/
theorem pushList_of_empty_asserts :
    Fresh () 0 blankHooks ∧ Fifo.empty.Follows (Fifo.Allowed 0) [.popAll 0, .pushList 0] ∧
      (new 0 blankHooks).run () [.popAll 0, .pushList 0] = .error .check :=
  ⟨fresh_blankHooks, ⟨rfl, ⟨_, rfl⟩, trivial⟩, rfl⟩

end QueueHeap
