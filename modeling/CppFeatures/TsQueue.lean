/-
`TSQueue` and `SList` (coroutine/ts_queue.h): intrusive doubly linked lists.

The elements carry their own hook (`prev`, `next`, `check_`), so one heap of hooks
serves every queue and every popped list, and an operation on one of them may
break another.  Each operation is written statement by statement on that heap.

* `TSQueue.Represents`, `SList.Represents` — the list a queue, or a popped list,
  stands for;
* one lemma per operation says what list it leaves, and that it writes only to its
  own nodes (`Hooks.EqOff`).

A queue is identified by an address `this`, which `push` writes to `check_`.
-/
import CppFeatures.LinkedHeap
import Mathlib.Data.BitVec

/-- The hooks of all elements (`TSQueueHook`), sentinels included. -/
structure Hooks (α κ : Type*) extends Links α where
  check_ : α → Option κ

structure TSQueue (α : Type*) where
  head_ : α
  tail_ : α
  count_ : BitVec 64
deriving DecidableEq, Repr

structure SList (α κ : Type*) where
  head_ : Option α
  tail_ : Option α
  check_ : Option κ
  count_ : BitVec 64
deriving DecidableEq, Repr

variable {α κ : Type*}

namespace Hooks

variable [DecidableEq α]

def setPrev (H : Hooks α κ) (x : α) (v : Option α) : Hooks α κ :=
  { H with toLinks := H.toLinks.setPrev x v }

def setNext (H : Hooks α κ) (x : α) (v : Option α) : Hooks α κ :=
  { H with toLinks := H.toLinks.setNext x v }

def setCheck (H : Hooks α κ) (x : α) (v : Option κ) : Hooks α κ :=
  { H with check_ := Function.update H.check_ x v }

-- `hook->prev = hook->next = NULL; hook->check_ = NULL`
def reset (H : Hooks α κ) (x : α) : Hooks α κ :=
  ((H.setPrev x none).setNext x none).setCheck x none

end Hooks

namespace TSQueue

-- the constructor, around a new sentinel
def new (sentinel : α) : TSQueue α := ⟨sentinel, sentinel, 0⟩

variable [DecidableEq α]

def empty (q : TSQueue α) : Bool := q.head_ == q.tail_

def push (H : Hooks α κ) (this : κ) (q : TSQueue α) (hook : α) : Hooks α κ × TSQueue α :=
  let H := H.setNext q.tail_ (some hook)
  let H := H.setPrev hook (some q.tail_)
  let H := H.setNext hook none
  let H := H.setCheck hook (some this)
  (H, { q with tail_ := hook, count_ := q.count_ + 1 })

/-- `pop`; a null `head_->next` of a non-empty queue does not occur. -/
def pop (H : Hooks α κ) (q : TSQueue α) : Hooks α κ × TSQueue α × Option α :=
  if q.head_ = q.tail_ then (H, q, none)
  else match H.next q.head_ with
    | none => (H, q, none)
    | some ptr =>
      let tail := if ptr = q.tail_ then q.head_ else q.tail_
      let next := H.next ptr
      let H := H.setNext q.head_ next
      let H := match next with
        | some y => H.setPrev y (some q.head_)
        | none => H
      (H.reset ptr, ⟨q.head_, tail, q.count_ - 1⟩, some ptr)

/-- `push` of a popped list. -/
def pushList (H : Hooks α κ) (q : TSQueue α) (elements : SList α κ) : Hooks α κ × TSQueue α :=
  match elements.head_, elements.tail_ with
  | some h, some t =>
    let H := H.setNext q.tail_ (some h)
    let H := H.setPrev h (some q.tail_)
    let H := H.setNext t none
    (H, { q with tail_ := t, count_ := q.count_ + elements.count_ })
  | _, _ => (H, q)

-- `for (; c < n && last->next; ++c) last = last->next`, with `n - c` as the first argument
def lastOf (H : Hooks α κ) : ℕ → α → ℕ → α × ℕ
  | 0, last, c => (last, c)
  | k + 1, last, c => match H.next last with
    | some y => lastOf H k y (c + 1)
    | none => (last, c)

/-- `pop(n)`. -/
def popN (H : Hooks α κ) (this : κ) (q : TSQueue α) (n : ℕ) :
    Hooks α κ × TSQueue α × SList α κ :=
  if q.head_ = q.tail_ then (H, q, ⟨none, none, none, 0⟩)
  else match H.next q.head_ with
    | none => (H, q, ⟨none, none, none, 0⟩)
    | some first =>
      let (last, c) := lastOf H (n - 1) first 1
      let tail := if last = q.tail_ then q.head_ else q.tail_
      let next := H.next last
      let H := H.setNext q.head_ next
      let H := match next with
        | some y => H.setPrev y (some q.head_)
        | none => H
      let H := (H.setNext last none).setPrev first none
      (H, ⟨q.head_, tail, q.count_ - BitVec.ofNat 64 c⟩,
        ⟨some first, some last, some this, BitVec.ofNat 64 c⟩)

def popAll (H : Hooks α κ) (this : κ) (q : TSQueue α) : Hooks α κ × TSQueue α × SList α κ :=
  if q.head_ = q.tail_ then (H, q, ⟨none, none, none, 0⟩)
  else match H.next q.head_ with
    | none => (H, q, ⟨none, none, none, 0⟩)
    | some first =>
      let last := q.tail_
      let H := H.setNext q.head_ none
      let H := (H.setNext last none).setPrev first none
      (H, ⟨q.head_, q.head_, 0⟩, ⟨some first, some last, some this, q.count_⟩)

/-- `erase(hook)`; `true` when the hook belonged to this queue. -/
def erase [DecidableEq κ] (H : Hooks α κ) (this : κ) (q : TSQueue α) (hook : α) :
    Hooks α κ × TSQueue α × Bool :=
  if H.check_ hook ≠ some this then (H, q, false)
  else
    let prev := H.prev hook
    let next := H.next hook
    let H₁ := match prev with
      | some y => H.setNext y next
      | none => H
    let H₂ := match next with
      | some z => H₁.setPrev z prev
      | none => H₁
    let tail := if next = none ∧ hook = q.tail_ then prev.getD q.tail_ else q.tail_
    (H₂.reset hook, ⟨q.head_, tail, q.count_ - 1⟩, true)

end TSQueue

namespace SList

variable [DecidableEq α]

/-- `erase(it)`, with the iterator it returns. -/
def erase (H : Hooks α κ) (l : SList α κ) (hook : α) : Hooks α κ × SList α κ × Option α :=
  let prev := H.prev hook
  let next := H.next hook
  let H₁ := match prev with
    | some y => H.setNext y next
    | none => H
  let head := match prev with
    | some _ => l.head_
    | none => l.head_.bind H.next
  let H₂ := match next with
    | some z => H₁.setPrev z prev
    | none => H₁
  let tail := match next with
    | some _ => l.tail_
    | none => l.tail_.bind H.prev
  (H₂.reset hook, ⟨head, tail, l.check_, l.count_ - 1⟩, next)

end SList

/-! ### Writes outside the nodes of a list -/

namespace Hooks

/-- `H'` differs from `H` at the nodes `S` only. -/
def EqOff (S : List α) (H H' : Hooks α κ) : Prop :=
  ∀ y, y ∉ S → H'.prev y = H.prev y ∧ H'.next y = H.next y ∧ H'.check_ y = H.check_ y

variable {S : List α} {H H' : Hooks α κ} {x : α}

theorem EqOff.refl : EqOff S H H := fun _ _ => ⟨rfl, rfl, rfl⟩

/-- A segment elsewhere survives. -/
theorem EqOff.seg (h : EqOff S H H') {p n : Option α} {xs : List α} (hseg : H.Seg p xs n)
    (hd : ∀ y ∈ xs, y ∉ S) : H'.Seg p xs n :=
  hseg.congr fun y hy => ⟨(h y (hd y hy)).1, (h y (hd y hy)).2.1⟩

variable [DecidableEq α]

theorem EqOff.setPrev (h : EqOff S H H') (hx : x ∈ S) (v : Option α) :
    EqOff S H (H'.setPrev x v) := by
  intro y hy
  have hne : y ≠ x := fun e => hy (e ▸ hx)
  exact ⟨(Links.prev_setPrev_of_ne hne).trans (h y hy).1, (h y hy).2.1, (h y hy).2.2⟩

theorem EqOff.setNext (h : EqOff S H H') (hx : x ∈ S) (v : Option α) :
    EqOff S H (H'.setNext x v) := by
  intro y hy
  have hne : y ≠ x := fun e => hy (e ▸ hx)
  exact ⟨(h y hy).1, (Links.next_setNext_of_ne hne).trans (h y hy).2.1, (h y hy).2.2⟩

theorem EqOff.setCheck (h : EqOff S H H') (hx : x ∈ S) (v : Option κ) :
    EqOff S H (H'.setCheck x v) := by
  intro y hy
  have hne : y ≠ x := fun e => hy (e ▸ hx)
  exact ⟨(h y hy).1, (h y hy).2.1, (Function.update_of_ne hne ..).trans (h y hy).2.2⟩

theorem EqOff.reset (h : EqOff S H H') (hx : x ∈ S) : EqOff S H (H'.reset x) :=
  ((h.setPrev hx none).setNext hx none).setCheck hx none

@[simp] theorem toLinks_setPrev (v : Option α) :
    (H.setPrev x v).toLinks = H.toLinks.setPrev x v := rfl

@[simp] theorem toLinks_setNext (v : Option α) :
    (H.setNext x v).toLinks = H.toLinks.setNext x v := rfl

@[simp] theorem toLinks_setCheck (v : Option κ) : (H.setCheck x v).toLinks = H.toLinks := rfl

theorem seg_reset {p n : Option α} {xs : List α} (h : H.Seg p xs n) (hx : x ∉ xs) :
    (H.reset x).Seg p xs n :=
  (h.setPrev_of_notMem hx none).setNext_of_notMem hx none

end Hooks

/-! ### What queues and lists stand for -/

/-- The queue at address `this` holds `xs`, first in front. -/
structure TSQueue.Represents (H : Hooks α κ) (this : κ) (q : TSQueue α) (xs : List α) : Prop where
  seg : H.Seg none (q.head_ :: xs) none
  tail : (q.head_ :: xs).getLast? = some q.tail_
  count : q.count_ = BitVec.ofNat 64 xs.length
  nodup : (q.head_ :: xs).Nodup
  check : ∀ x ∈ xs, H.check_ x = some this

structure SList.Represents (H : Hooks α κ) (l : SList α κ) (xs : List α) : Prop where
  seg : H.Seg none xs none
  head : l.head_ = xs.head?
  tail : l.tail_ = xs.getLast?
  count : l.count_ = BitVec.ofNat 64 xs.length
  nodup : xs.Nodup
  check : ∀ x ∈ xs, H.check_ x = l.check_

theorem SList.represents_nil (H : Hooks α κ) (c : Option κ) :
    SList.Represents H ⟨none, none, c, 0⟩ [] where
  seg := trivial
  head := rfl
  tail := rfl
  count := rfl
  nodup := List.nodup_nil
  check := by simp

variable {H H' : Hooks α κ} {this : κ} {q : TSQueue α} {l : SList α κ} {xs ys S : List α} {x : α}

/-- Writes elsewhere do not change a queue. -/
theorem TSQueue.Represents.frame (h : q.Represents H this xs) (heq : Hooks.EqOff S H H')
    (hd : ∀ y ∈ q.head_ :: xs, y ∉ S) : q.Represents H' this xs where
  seg := heq.seg h.seg hd
  tail := h.tail
  count := h.count
  nodup := h.nodup
  check := fun y hy =>
    (heq y (hd y (List.mem_cons_of_mem _ hy))).2.2.trans (h.check y hy)

theorem SList.Represents.frame (h : l.Represents H xs) (heq : Hooks.EqOff S H H')
    (hd : ∀ y ∈ xs, y ∉ S) : l.Represents H' xs where
  seg := heq.seg h.seg hd
  head := h.head
  tail := h.tail
  count := h.count
  nodup := h.nodup
  check := fun y hy => (heq y (hd y hy)).2.2.trans (h.check y hy)

theorem TSQueue.Represents.tail_mem (h : q.Represents H this xs) : q.tail_ ∈ q.head_ :: xs :=
  List.mem_of_getLast? h.tail

/-- `head_ == tail_` tests emptiness. -/
theorem TSQueue.Represents.head_eq_tail (h : q.Represents H this xs) :
    q.head_ = q.tail_ ↔ xs = [] := by
  have ht := h.tail
  constructor
  · intro he
    by_contra hne
    obtain ⟨ys, y, rfl⟩ := (List.eq_nil_or_concat xs).resolve_left hne
    rw [List.concat_eq_append, ← List.cons_append, List.getLast?_append,
      List.getLast?_singleton, Option.some_or, Option.some_inj] at ht
    have hnot := (List.nodup_cons.mp h.nodup).1
    rw [he, ← ht, List.concat_eq_append] at hnot
    exact hnot (by simp)
  · rintro rfl
    rw [List.getLast?_singleton, Option.some_inj] at ht
    exact ht

/-- A queue splits into the nodes before its tail and the tail. -/
theorem TSQueue.Represents.exists_init (h : q.Represents H this xs) :
    ∃ zs, q.head_ :: xs = zs ++ [q.tail_] ∧ q.tail_ ∉ zs := by
  obtain ⟨zs, hzs⟩ := List.getLast?_eq_some_iff.mp h.tail
  refine ⟨zs, hzs, fun hm => ?_⟩
  have := h.nodup
  rw [hzs] at this
  exact (List.nodup_append.mp this).2.2 _ hm _ (List.mem_singleton_self _) rfl

/-! ### One lemma per operation -/

section Operations

open List

theorem ofNat_length_sub {m c : ℕ} (h : c ≤ m) :
    BitVec.ofNat 64 m - BitVec.ofNat 64 c = BitVec.ofNat 64 (m - c) := by
  have hm : m = (m - c) + c := by omega
  rw [hm, BitVec.ofNat_add, BitVec.add_sub_cancel, Nat.add_sub_cancel]

/-- A new queue is empty. -/
theorem TSQueue.represents_new (hp : H.prev x = none) (hn : H.next x = none) :
    (TSQueue.new x).Represents H this [] where
  seg := Links.seg_singleton.mpr ⟨hp, hn⟩
  tail := rfl
  count := rfl
  nodup := nodup_singleton x
  check := by simp

variable [DecidableEq α]

/-- **`push`** appends an element that is in no list. -/
theorem TSQueue.Represents.push (h : q.Represents H this xs) (hx : x ∉ q.head_ :: xs) :
    (TSQueue.push H this q x).2.Represents (TSQueue.push H this q x).1 this (xs ++ [x]) ∧
      (TSQueue.push H this q x).2.head_ = q.head_ ∧
      Hooks.EqOff (x :: q.head_ :: xs) H (TSQueue.push H this q x).1 := by
  obtain ⟨zs, hzs, htail⟩ := h.exists_init
  have hxt : x ≠ q.tail_ := fun e => hx (e ▸ h.tail_mem)
  have hmem : q.tail_ ∈ x :: q.head_ :: xs := mem_cons_of_mem _ h.tail_mem
  refine ⟨⟨?_, ?_, ?_, ?_, ?_⟩, rfl, ?_⟩
  · have hseg := h.seg
    rw [hzs] at hseg
    have hx' : x ∉ zs ++ [q.tail_] := hzs ▸ hx
    show Links.Seg _ none (q.head_ :: (xs ++ [x])) none
    rw [← cons_append, hzs]
    simp only [TSQueue.push, Hooks.toLinks_setCheck, Hooks.toLinks_setNext, Hooks.toLinks_setPrev]
    refine Links.seg_append.mpr ⟨?_, ?_⟩
    · exact ((hseg.setNext_last htail (some x)).setPrev_of_notMem hx' _).setNext_of_notMem hx' _
    · rw [List.getLast?_append, List.getLast?_singleton, Option.some_or, Option.some_or]
      exact Links.seg_singleton.mpr ⟨Links.prev_setPrev, Links.next_setNext⟩
  · show (q.head_ :: (xs ++ [x])).getLast? = some x
    rw [← cons_append, List.getLast?_append, List.getLast?_singleton, Option.some_or]
  · show q.count_ + 1 = _
    rw [h.count, length_append, length_singleton, BitVec.ofNat_add]
    rfl
  · show (q.head_ :: (xs ++ [x])).Nodup
    rw [← cons_append]
    exact nodup_append.mpr ⟨h.nodup, nodup_singleton x, fun a ha b hb e =>
      hx (by rw [mem_singleton] at hb; rwa [← hb, ← e])⟩
  · intro y hy
    show Function.update H.check_ x (some this) y = some this
    by_cases hyx : y = x
    · rw [hyx, Function.update_self]
    · rw [Function.update_of_ne hyx]
      exact h.check y ((mem_append.mp hy).resolve_right (by simpa using hyx))
  · exact (((Hooks.EqOff.refl.setNext hmem _).setPrev mem_cons_self _).setNext
      mem_cons_self _).setCheck mem_cons_self _

/-- The writes that unlink `hook` from between `prev` and `next`. -/
theorem Hooks.eqOff_unlink (hS : x ∈ S) {p n : Option α} (hp : ∀ y ∈ p, y ∈ S)
    (hn : ∀ y ∈ n, y ∈ S) :
    let H₁ := match p with
      | some y => H.setNext y n
      | none => H
    let H₂ := match n with
      | some z => H₁.setPrev z p
      | none => H₁
    Hooks.EqOff S H (H₂.reset x) := by
  intro H₁ H₂
  have h₁ : Hooks.EqOff S H H₁ := by
    cases p with
    | none => exact .refl
    | some y => exact Hooks.EqOff.refl.setNext (hp y rfl) _
  have h₂ : Hooks.EqOff S H H₂ := by
    cases n with
    | none => exact h₁
    | some z => exact h₁.setPrev (hn z rfl) _
  exact h₂.reset hS

/-- Unlinking a node from the middle of a segment. -/
theorem Hooks.seg_unlink {a b : List α} (h : H.Seg none (a ++ x :: b) none)
    (hnd : (a ++ x :: b).Nodup) :
    let H₁ := match H.prev x with
      | some y => H.setNext y (H.next x)
      | none => H
    let H₂ := match H.next x with
      | some z => H₁.setPrev z (H.prev x)
      | none => H₁
    (H₂.reset x).Seg none (a ++ b) none ∧ Hooks.EqOff (a ++ x :: b) H (H₂.reset x) ∧
      ∀ y ∈ a ++ b, (H₂.reset x).check_ y = H.check_ y := by
  have hprev := h.prev_eq
  have hnext := h.next_eq
  have hun := h.unlink hnd
  rw [Option.or_none] at hprev hnext
  simp only [Option.or_none] at hun
  have hx : x ∉ a ++ b := (nodup_cons.mp (perm_middle.nodup_iff.mp hnd)).1
  intro H₁ H₂
  refine ⟨?_, ?_, fun y hy => ?_⟩
  · have hlinks : H₂.toLinks = (match b.head? with
        | some z => (match a.getLast? with
          | some y => H.toLinks.setNext y b.head?
          | none => H.toLinks).setPrev z a.getLast?
        | none => match a.getLast? with
          | some y => H.toLinks.setNext y b.head?
          | none => H.toLinks) := by
      simp only [H₂, H₁, hprev, hnext]
      cases a.getLast? <;> cases b.head? <;> rfl
    exact Hooks.seg_reset (hlinks ▸ hun) hx
  · refine Hooks.eqOff_unlink (by simp) ?_ ?_
    · intro y hy
      rw [hprev] at hy
      exact mem_append_left _ (mem_of_getLast? hy)
    · intro y hy
      rw [hnext] at hy
      exact mem_append_right _ (mem_cons_of_mem _ (mem_of_head? hy))
  · have hcheck : H₂.check_ = H.check_ := by
      simp only [H₂, H₁]
      cases H.prev x <;> cases H.next x <;> rfl
    show Function.update H₂.check_ x none y = H.check_ y
    rw [Function.update_of_ne fun e => hx (by rwa [← e]), hcheck]

/-- **`SList::erase`** removes the element at the iterator and returns the next
one. -/
theorem SList.Represents.erase {a b : List α} (h : l.Represents H (a ++ x :: b)) :
    (SList.erase H l x).2.1.Represents (SList.erase H l x).1 (a ++ b) ∧
      (SList.erase H l x).2.2 = b.head? ∧
      Hooks.EqOff (a ++ x :: b) H (SList.erase H l x).1 := by
  obtain ⟨hseg, heq, hcheck⟩ := Hooks.seg_unlink h.seg h.nodup
  have hprev := h.seg.prev_eq
  have hnext := h.seg.next_eq
  rw [Option.or_none] at hprev hnext
  refine ⟨⟨hseg, ?_, ?_, ?_, ?_, ?_⟩, hnext, heq⟩
  · show (match H.prev x with
      | some _ => l.head_
      | none => l.head_.bind H.next) = (a ++ b).head?
    rw [hprev, h.head]
    cases a with
    | nil => simpa using hnext
    | cons y a => simp [List.getLast?_cons]
  · show (match H.next x with
      | some _ => l.tail_
      | none => l.tail_.bind H.prev) = (a ++ b).getLast?
    rw [hnext, h.tail]
    rcases eq_nil_or_concat b with rfl | ⟨b', z, rfl⟩
    · simpa using hprev
    · cases b' <;> simp [concat_eq_append, List.getLast?_append, List.getLast?_cons]
  · show l.count_ - 1 = _
    rw [h.count, show (1 : BitVec 64) = BitVec.ofNat 64 1 from rfl,
      ofNat_length_sub (by simp; omega)]
    congr 1
    simp
  · exact (nodup_cons.mp (perm_middle.nodup_iff.mp h.nodup)).2
  · intro y hy
    refine (hcheck y hy).trans (h.check y ?_)
    rw [mem_append] at hy ⊢
    exact hy.imp_right (mem_cons_of_mem x)

/-- **`pop`** takes the first element. -/
theorem TSQueue.Represents.pop (h : q.Represents H this (x :: xs)) :
    (TSQueue.pop H q).2.2 = some x ∧
      (TSQueue.pop H q).2.1.Represents (TSQueue.pop H q).1 this xs ∧
      (TSQueue.pop H q).2.1.head_ = q.head_ ∧
      Hooks.EqOff (q.head_ :: x :: xs) H (TSQueue.pop H q).1 := by
  have hne : q.head_ ≠ q.tail_ := fun e => cons_ne_nil _ _ (h.head_eq_tail.mp e)
  have hseg : H.Seg none ([q.head_] ++ x :: xs) none := h.seg
  have hnd : ([q.head_] ++ x :: xs).Nodup := h.nodup
  obtain ⟨hseg', heq, hcheck⟩ := Hooks.seg_unlink hseg hnd
  have hprev : H.prev x = some q.head_ := hseg.prev_eq
  have hhead : H.next q.head_ = some x := (Links.seg_cons.mp h.seg).2.1
  have hpop : TSQueue.pop H q = (((match H.next x with
      | some z => (H.setNext q.head_ (H.next x)).setPrev z (some q.head_)
      | none => H.setNext q.head_ (H.next x)).reset x),
      ⟨q.head_, if x = q.tail_ then q.head_ else q.tail_, q.count_ - 1⟩, some x) := by
    rw [TSQueue.pop, if_neg hne, hhead]
  simp only [hprev] at hseg' heq hcheck
  rw [hpop]
  refine ⟨rfl, ⟨hseg', ?_, ?_, ?_, ?_⟩, rfl, heq⟩
  · show (q.head_ :: xs).getLast? = some (if x = q.tail_ then q.head_ else q.tail_)
    have ht := h.tail
    have hx : x ∉ xs := (nodup_cons.mp (nodup_cons.mp h.nodup).2).1
    rcases eq_nil_or_concat xs with rfl | ⟨ys, y, rfl⟩
    · rw [List.getLast?_cons_cons, List.getLast?_singleton, Option.some_inj] at ht
      rw [if_pos ht, List.getLast?_singleton]
    · rw [concat_eq_append] at ht hx ⊢
      rw [← cons_append, ← cons_append, List.getLast?_append, List.getLast?_singleton,
        Option.some_or, Option.some_inj] at ht
      have hxt : x ≠ q.tail_ := fun e => hx (by rw [e, ← ht]; simp)
      rw [if_neg hxt, ← cons_append, List.getLast?_append, List.getLast?_singleton,
        Option.some_or, ht]
  · show q.count_ - 1 = _
    rw [h.count, show (1 : BitVec 64) = BitVec.ofNat 64 1 from rfl,
      ofNat_length_sub (by simp)]
    rfl
  · exact (nodup_cons.mp (perm_middle.nodup_iff.mp hnd)).2
  · intro y hy
    exact (hcheck y (mem_append_right _ hy)).trans (h.check y (mem_cons_of_mem _ hy))

theorem TSQueue.Represents.pop_nil (h : q.Represents H this []) :
    TSQueue.pop H q = (H, q, none) := by
  rw [TSQueue.pop, if_pos (h.head_eq_tail.mpr rfl)]

/-- **`erase`** takes an element out of its queue. -/
theorem TSQueue.Represents.erase [DecidableEq κ] {a b : List α}
    (h : q.Represents H this (a ++ x :: b)) :
    (TSQueue.erase H this q x).2.2 = true ∧
      (TSQueue.erase H this q x).2.1.Represents (TSQueue.erase H this q x).1 this (a ++ b) ∧
      (TSQueue.erase H this q x).2.1.head_ = q.head_ ∧
      Hooks.EqOff (q.head_ :: (a ++ x :: b)) H (TSQueue.erase H this q x).1 := by
  have hseg : H.Seg none ((q.head_ :: a) ++ x :: b) none := h.seg
  have hnd : ((q.head_ :: a) ++ x :: b).Nodup := h.nodup
  obtain ⟨hseg', heq, hcheck⟩ := Hooks.seg_unlink hseg hnd
  have hprev := hseg.prev_eq
  have hnext := hseg.next_eq
  rw [Option.or_none] at hprev hnext
  have hmem : x ∈ a ++ x :: b := by simp
  have hx : x ∉ b := (nodup_cons.mp (nodup_append.mp hnd).2.1).1
  have herase : TSQueue.erase H this q x = ((match H.next x with
      | some z => (match H.prev x with
        | some y => H.setNext y (H.next x)
        | none => H).setPrev z (H.prev x)
      | none => match H.prev x with
        | some y => H.setNext y (H.next x)
        | none => H).reset x,
      ⟨q.head_, if H.next x = none ∧ x = q.tail_ then (H.prev x).getD q.tail_ else q.tail_,
        q.count_ - 1⟩, true) := by
    rw [TSQueue.erase, if_neg (by rw [h.check x hmem]; simp)]
  rw [herase]
  refine ⟨rfl, ⟨hseg', ?_, ?_, ?_, ?_⟩, rfl, heq⟩
  · show (q.head_ :: (a ++ b)).getLast? = some _
    have ht := h.tail
    rw [hprev, hnext]
    rcases eq_nil_or_concat b with rfl | ⟨b', z, rfl⟩
    · rw [← cons_append, List.getLast?_append, List.getLast?_singleton, Option.some_or,
        Option.some_inj] at ht
      simp [ht, List.getLast?_eq_some_getLast (cons_ne_nil q.head_ a)]
    · rw [concat_eq_append] at *
      have hz : z = q.tail_ := by
        have h' : (q.head_ :: (a ++ x :: (b' ++ [z]))).getLast? = some z := by
          rw [show q.head_ :: (a ++ x :: (b' ++ [z])) = (q.head_ :: (a ++ x :: b')) ++ [z] by simp,
            List.getLast?_append, List.getLast?_singleton, Option.some_or]
        rw [h', Option.some_inj] at ht
        exact ht
      have hxt : x ≠ q.tail_ := fun e => hx (by rw [e, ← hz]; simp)
      rw [if_neg fun hc => hxt hc.2, ← append_assoc, ← cons_append, List.getLast?_append,
        List.getLast?_singleton, Option.some_or, hz]
  · show q.count_ - 1 = _
    rw [h.count, show (1 : BitVec 64) = BitVec.ofNat 64 1 from rfl,
      ofNat_length_sub (by simp; omega)]
    congr 1
    simp
  · exact (nodup_cons.mp (perm_middle.nodup_iff.mp hnd)).2
  · intro y hy
    refine (hcheck y (mem_cons_of_mem _ hy)).trans (h.check y ?_)
    rw [mem_append] at hy ⊢
    exact hy.imp_right (mem_cons_of_mem x)

/-- **Cutting** the nodes after the sentinel `hd`: `ys` comes off as a list of its
own, and the sentinel is linked to what follows. -/
theorem Hooks.seg_cut {hd first last : α} {ys zs : List α}
    (h : H.Seg none (hd :: (ys ++ zs)) none) (hnd : (hd :: (ys ++ zs)).Nodup)
    (hfirst : ys.head? = some first) (hlast : ys.getLast? = some last) :
    let H₁ := H.setNext hd (H.next last)
    let H₂ := match H.next last with
      | some z => H₁.setPrev z (some hd)
      | none => H₁
    let H' := (H₂.setNext last none).setPrev first none
    H.next last = zs.head? ∧ H'.Seg none (hd :: zs) none ∧ H'.Seg none ys none ∧
      Hooks.EqOff (hd :: (ys ++ zs)) H H' ∧ H'.check_ = H.check_ := by
  obtain ⟨ys', rfl⟩ := List.head?_eq_some_iff.mp hfirst
  obtain ⟨ys'', hys⟩ := List.getLast?_eq_some_iff.mp hlast
  obtain ⟨hhd, hnd'⟩ := nodup_cons.mp hnd
  obtain ⟨hndy, hndz, hdisj⟩ := nodup_append.mp hnd'
  have hlastmem : last ∈ first :: ys' := mem_of_getLast? hlast
  have hfirstmem : first ∈ first :: ys' := mem_cons_self
  obtain ⟨hphd, -, hrest⟩ := Links.seg_cons.mp h
  obtain ⟨hsegy, hsegz⟩ := Links.seg_append.mp hrest
  have hnext : H.next last = zs.head? := by
    rw [hys] at hsegy
    simpa using hsegy.next_eq (b := [])
  have hhdy : hd ∉ first :: ys' := fun hm => hhd (mem_append_left _ hm)
  have hhdz : hd ∉ zs := fun hm => hhd (mem_append_right _ hm)
  have hyz : ∀ y ∈ first :: ys', y ∉ zs := fun y hy hz => hdisj y hy y hz rfl
  intro H₁ H₂ H'
  -- the two parts after the first two writes
  have hmid : H₂.Seg none (hd :: zs) none ∧ H₂.Seg (some hd) (first :: ys') zs.head? := by
    have hy₁ : H₁.Seg (some hd) (first :: ys') zs.head? := by
      rw [Option.or_none] at hsegy
      exact hsegy.setNext_of_notMem hhdy _
    have hz₁ : H₁.Seg ((first :: ys').getLast?.or (some hd)) zs none :=
      hsegz.setNext_of_notMem hhdz _
    have hn₁ : H₁.next hd = zs.head? := by
      show (H.toLinks.setNext hd (H.next last)).next hd = _
      rw [Links.next_setNext, hnext]
    simp only [H₂, hnext]
    cases zs with
    | nil =>
      refine ⟨Links.seg_singleton.mpr ⟨hphd, hn₁⟩, hy₁⟩
    | cons z zs =>
      have hz : z ∉ zs := (nodup_cons.mp hndz).1
      have hzy : z ∉ first :: ys' := fun hm => hyz z hm mem_cons_self
      refine ⟨Links.seg_cons.mpr ⟨?_, ?_, hz₁.setPrev_head hz _⟩, hy₁.setPrev_of_notMem hzy _⟩
      · exact (Links.prev_setPrev_of_ne fun e => hhdz (by rw [e]; exact mem_cons_self)).trans
          hphd
      · exact hn₁
  refine ⟨hnext, ?_, ?_, ?_, ?_⟩
  · have hln : last ∉ hd :: zs := by
      rw [mem_cons, not_or]
      exact ⟨fun e => hhdy (e ▸ hlastmem), hyz last hlastmem⟩
    have hfn : first ∉ hd :: zs := by
      rw [mem_cons, not_or]
      exact ⟨fun e => hhdy (e ▸ hfirstmem), hyz first hfirstmem⟩
    exact (hmid.1.setNext_of_notMem hln _).setPrev_of_notMem hfn _
  · have hl : last ∉ ys'' := by
      rw [hys] at hndy
      exact fun hm => (nodup_append.mp hndy).2.2 _ hm _ (mem_singleton_self _) rfl
    have hcut : (H₂.setNext last none).Seg (some hd) (first :: ys') none := by
      rw [hys] at hmid ⊢
      exact hmid.2.setNext_last hl none
    exact hcut.setPrev_head (nodup_cons.mp hndy).1 none
  · have hl : last ∈ hd :: (first :: ys' ++ zs) :=
      mem_cons_of_mem _ (mem_append_left _ hlastmem)
    have hf : first ∈ hd :: (first :: ys' ++ zs) :=
      mem_cons_of_mem _ (mem_append_left _ hfirstmem)
    have h₂ : Hooks.EqOff (hd :: (first :: ys' ++ zs)) H H₂ := by
      simp only [H₂, hnext]
      cases zs with
      | nil => exact Hooks.EqOff.refl.setNext mem_cons_self _
      | cons z zs =>
        exact (Hooks.EqOff.refl.setNext mem_cons_self _).setPrev (by simp) _
    exact (h₂.setNext hl _).setPrev hf _
  · simp only [H', H₂]
    cases H.next last <;> rfl

omit [DecidableEq α] in
theorem TSQueue.lastOf_eq {p : Option α} {ys : List α} (h : H.Seg p (x :: ys) none) (k c : ℕ) :
    ∃ last, TSQueue.lastOf H k x c = (last, c + min k ys.length) ∧
      (x :: ys.take k).getLast? = some last := by
  induction k generalizing p x ys c with
  | zero => exact ⟨x, by simp [TSQueue.lastOf], by simp⟩
  | succ k ih =>
    obtain ⟨-, hn, hs⟩ := Links.seg_cons.mp h
    cases ys with
    | nil =>
      rw [Option.or_none] at hn
      exact ⟨x, by simp [TSQueue.lastOf, hn], rfl⟩
    | cons y ys =>
      obtain ⟨last, hl, hlast⟩ := ih hs (c + 1)
      refine ⟨last, ?_, ?_⟩
      · have hny : H.next x = some y := hn
        rw [TSQueue.lastOf, hny]
        simp only [hl, length_cons]
        congr 1
        omega
      · rw [take_succ_cons, List.getLast?_cons_cons]
        exact hlast

/-- The tail after the first `ys` nodes were taken off. -/
theorem TSQueue.Represents.tail_cut {zs : List α} {last : α} (h : q.Represents H this (ys ++ zs))
    (hlast : ys.getLast? = some last) :
    (q.head_ :: zs).getLast? = some (if last = q.tail_ then q.head_ else q.tail_) := by
  have ht := h.tail
  obtain ⟨ys', rfl⟩ := List.getLast?_eq_some_iff.mp hlast
  rcases eq_nil_or_concat zs with rfl | ⟨zs', z, rfl⟩
  · rw [append_nil, ← cons_append, List.getLast?_append, List.getLast?_singleton,
      Option.some_or, Option.some_inj] at ht
    rw [if_pos ht, List.getLast?_singleton]
  · rw [concat_eq_append] at *
    rw [← append_assoc, ← cons_append, List.getLast?_append, List.getLast?_singleton,
      Option.some_or, Option.some_inj] at ht
    have hne : last ≠ q.tail_ := by
      intro e
      have hd := (nodup_append.mp (nodup_cons.mp h.nodup).2).2.2
      exact hd last (by simp) z (by simp) (e.trans ht.symm)
    rw [if_neg hne, ← cons_append, List.getLast?_append, List.getLast?_singleton,
      Option.some_or, ht]

/-- **`pop(n)`** takes off the first `max 1 n` elements, or all of them. -/
theorem TSQueue.Represents.popN (h : q.Represents H this xs) (n : ℕ) :
    (TSQueue.popN H this q n).2.1.Represents (TSQueue.popN H this q n).1 this
        (xs.drop (max 1 n)) ∧
      (TSQueue.popN H this q n).2.2.Represents (TSQueue.popN H this q n).1
        (xs.take (max 1 n)) ∧
      (TSQueue.popN H this q n).2.1.head_ = q.head_ ∧
      Hooks.EqOff (q.head_ :: xs) H (TSQueue.popN H this q n).1 := by
  cases xs with
  | nil =>
    have hpop : TSQueue.popN H this q n = (H, q, ⟨none, none, none, 0⟩) := by
      rw [TSQueue.popN, if_pos (h.head_eq_tail.mpr rfl)]
    rw [hpop, drop_nil, take_nil]
    exact ⟨h, SList.represents_nil _ _, rfl, .refl⟩
  | cons first rest =>
    have hne : q.head_ ≠ q.tail_ := fun e => cons_ne_nil _ _ (h.head_eq_tail.mp e)
    obtain ⟨-, hhead, hsegx⟩ := Links.seg_cons.mp h.seg
    obtain ⟨last, hl, hlast⟩ := TSQueue.lastOf_eq hsegx (n - 1) 1
    have htake : (first :: rest).take (max 1 n) = first :: rest.take (n - 1) := by
      rw [show max 1 n = (n - 1) + 1 by omega, take_succ_cons]
    have hdrop : (first :: rest).drop (max 1 n) = rest.drop (n - 1) := by
      rw [show max 1 n = (n - 1) + 1 by omega, drop_succ_cons]
    have hsplit : first :: rest = (first :: rest.take (n - 1)) ++ rest.drop (n - 1) := by
      rw [cons_append, take_append_drop]
    have hlen : 1 + min (n - 1) rest.length = (first :: rest.take (n - 1)).length := by
      rw [length_cons, length_take]
      omega
    rw [htake, hdrop]
    rw [hsplit] at h ⊢
    obtain ⟨hnext, hq, hsl, heq, hcheck⟩ :=
      Hooks.seg_cut h.seg h.nodup (List.head?_cons) hlast
    have hpop : TSQueue.popN H this q n = ((((match H.next last with
          | some z => (H.setNext q.head_ (H.next last)).setPrev z (some q.head_)
          | none => H.setNext q.head_ (H.next last)).setNext last none).setPrev first none),
        ⟨q.head_, if last = q.tail_ then q.head_ else q.tail_,
          q.count_ - BitVec.ofNat 64 (first :: rest.take (n - 1)).length⟩,
        ⟨some first, some last, some this,
          BitVec.ofNat 64 (first :: rest.take (n - 1)).length⟩) := by
      have hhead' : H.next q.head_ = some first := hhead
      rw [TSQueue.popN, if_neg hne, hhead']
      simp only [hl, hlen]
    rw [hpop]
    refine ⟨⟨hq, h.tail_cut hlast, ?_, ?_, ?_⟩, ⟨hsl, rfl, hlast.symm, rfl, ?_, ?_⟩, rfl, heq⟩
    · show q.count_ - _ = _
      rw [h.count, ofNat_length_sub (by simp), length_append, Nat.add_sub_cancel_left]
    · obtain ⟨hhd, hnd⟩ := nodup_cons.mp h.nodup
      exact nodup_cons.mpr ⟨fun hm => hhd (mem_append_right _ hm),
        (nodup_append.mp hnd).2.1⟩
    · intro y hy
      exact (congrFun hcheck y).trans (h.check y (mem_append_right _ hy))
    · exact (nodup_append.mp (nodup_cons.mp h.nodup).2).1
    · intro y hy
      exact (congrFun hcheck y).trans (h.check y (mem_append_left _ hy))

/-- **`pop_all`** takes off everything. -/
theorem TSQueue.Represents.popAll (h : q.Represents H this xs) :
    (TSQueue.popAll H this q).2.1.Represents (TSQueue.popAll H this q).1 this [] ∧
      (TSQueue.popAll H this q).2.2.Represents (TSQueue.popAll H this q).1 xs ∧
      (TSQueue.popAll H this q).2.1.head_ = q.head_ ∧
      Hooks.EqOff (q.head_ :: xs) H (TSQueue.popAll H this q).1 := by
  cases xs with
  | nil =>
    have hpop : TSQueue.popAll H this q = (H, q, ⟨none, none, none, 0⟩) := by
      rw [TSQueue.popAll, if_pos (h.head_eq_tail.mpr rfl)]
    rw [hpop]
    exact ⟨h, SList.represents_nil _ _, rfl, .refl⟩
  | cons first rest =>
    have hne : q.head_ ≠ q.tail_ := fun e => cons_ne_nil _ _ (h.head_eq_tail.mp e)
    have hhead : H.next q.head_ = some first := (Links.seg_cons.mp h.seg).2.1
    have hlast : (first :: rest).getLast? = some q.tail_ := by
      rw [← h.tail, List.getLast?_cons_cons]
    have hseg : H.Seg none (q.head_ :: ((first :: rest) ++ [])) none := by
      rw [append_nil]
      exact h.seg
    obtain ⟨hnext, hq, hsl, heq, hcheck⟩ :=
      Hooks.seg_cut hseg (by rw [append_nil]; exact h.nodup) (List.head?_cons) hlast
    rw [append_nil] at heq
    have hnext' : H.next q.tail_ = none := hnext
    have hpop : TSQueue.popAll H this q = ((((match H.next q.tail_ with
          | some z => (H.setNext q.head_ (H.next q.tail_)).setPrev z (some q.head_)
          | none => H.setNext q.head_ (H.next q.tail_)).setNext q.tail_ none).setPrev first none),
        ⟨q.head_, q.head_, 0⟩, ⟨some first, some q.tail_, some this, q.count_⟩) := by
      rw [TSQueue.popAll, if_neg hne, hhead]
      simp only [hnext']
    rw [hpop]
    refine ⟨⟨hq, rfl, rfl, nodup_singleton _, by simp⟩,
      ⟨hsl, rfl, hlast.symm, h.count, (nodup_cons.mp h.nodup).2, ?_⟩, rfl, heq⟩
    intro y hy
    exact (congrFun hcheck y).trans (h.check y hy)

theorem TSQueue.Represents.popAll_check (h : q.Represents H this xs) (hne : xs ≠ []) :
    (TSQueue.popAll H this q).2.2.check_ = some this := by
  obtain ⟨x, xs, rfl⟩ := exists_cons_of_ne_nil hne
  have hhead : H.next q.head_ = some x := (Links.seg_cons.mp h.seg).2.1
  rw [TSQueue.popAll, if_neg fun e => hne (h.head_eq_tail.mp e), hhead]

theorem TSQueue.Represents.popN_check (h : q.Represents H this xs) (hne : xs ≠ []) (n : ℕ) :
    (TSQueue.popN H this q n).2.2.check_ = some this := by
  obtain ⟨x, xs, rfl⟩ := exists_cons_of_ne_nil hne
  have hhead : H.next q.head_ = some x := (Links.seg_cons.mp h.seg).2.1
  rw [TSQueue.popN, if_neg fun e => hne (h.head_eq_tail.mp e), hhead]

/-- **`push(SList)`** appends a list that was popped from this queue. -/
theorem TSQueue.Represents.pushList (h : q.Represents H this xs) (hl : l.Represents H ys)
    (hcheck : ys ≠ [] → l.check_ = some this) (hd : ∀ y ∈ ys, y ∉ q.head_ :: xs) :
    (TSQueue.pushList H q l).2.Represents (TSQueue.pushList H q l).1 this (xs ++ ys) ∧
      (TSQueue.pushList H q l).2.head_ = q.head_ ∧
      Hooks.EqOff (q.head_ :: (xs ++ ys)) H (TSQueue.pushList H q l).1 := by
  obtain ⟨zs, hzs, htail⟩ := h.exists_init
  cases ys with
  | nil =>
    have hpush : TSQueue.pushList H q l = (H, q) := by
      rw [TSQueue.pushList, hl.head]
      rfl
    rw [hpush, append_nil]
    exact ⟨h, rfl, .refl⟩
  | cons first rest =>
    obtain ⟨ini, last, hini⟩ : ∃ ini last, first :: rest = ini ++ [last] := by
      obtain ⟨ini, last, hc⟩ := (eq_nil_or_concat (first :: rest)).resolve_left (by simp)
      exact ⟨ini, last, by rw [hc, concat_eq_append]⟩
    have hlast : (first :: rest).getLast? = some last := by
      rw [hini, List.getLast?_append, List.getLast?_singleton, Option.some_or]
    have hpush : TSQueue.pushList H q l = (((H.setNext q.tail_ (some first)).setPrev first
        (some q.tail_)).setNext last none,
        { q with tail_ := last, count_ := q.count_ + l.count_ }) := by
      rw [TSQueue.pushList, hl.head, hl.tail, hlast]
      rfl
    have hlastmem : last ∈ first :: rest := mem_of_getLast? hlast
    have hfirst := hd first mem_cons_self
    have htl : q.tail_ ∉ first :: rest := fun hm => hd _ hm h.tail_mem
    rw [hpush]
    refine ⟨⟨?_, ?_, ?_, ?_, ?_⟩, rfl, ?_⟩
    · show Links.Seg _ none (q.head_ :: (xs ++ first :: rest)) none
      have hseg := h.seg
      rw [← cons_append, hzs] at *
      simp only [Hooks.toLinks_setNext, Hooks.toLinks_setPrev]
      refine Links.seg_append.mpr ⟨?_, ?_⟩
      · exact ((hseg.setNext_last htail (some first)).setPrev_of_notMem hfirst _).setNext_of_notMem
          (hd last hlastmem) _
      · rw [List.getLast?_append, List.getLast?_singleton, Option.some_or, Option.some_or]
        have hys := (hl.seg.setNext_of_notMem htl (some first)).setPrev_head
          (nodup_cons.mp hl.nodup).1 (some q.tail_)
        have hnot : last ∉ ini := by
          have := hl.nodup
          rw [hini] at this
          exact fun hm => (nodup_append.mp this).2.2 _ hm _ (mem_singleton_self _) rfl
        rw [hini] at hys ⊢
        exact hys.setNext_last hnot none
    · show (q.head_ :: (xs ++ first :: rest)).getLast? = some last
      rw [← cons_append, List.getLast?_append, hlast, Option.some_or]
    · show q.count_ + l.count_ = _
      rw [h.count, hl.count, length_append, BitVec.ofNat_add]
    · show (q.head_ :: (xs ++ first :: rest)).Nodup
      rw [← cons_append]
      exact nodup_append.mpr ⟨h.nodup, hl.nodup, fun a ha b hb e => hd b hb (e ▸ ha)⟩
    · intro y hy
      show H.check_ y = some this
      rcases mem_append.mp hy with hy | hy
      · exact h.check y hy
      · rw [hl.check y hy, hcheck (by simp)]
    · have htm : q.tail_ ∈ q.head_ :: (xs ++ first :: rest) := by
        rw [← cons_append]
        exact mem_append_left _ h.tail_mem
      have hin : ∀ y ∈ first :: rest, y ∈ q.head_ :: (xs ++ first :: rest) := fun y hy =>
        mem_cons_of_mem _ (mem_append_right _ hy)
      exact ((Hooks.EqOff.refl.setNext htm _).setPrev (hin _ mem_cons_self) _).setNext
        (hin _ hlastmem) _

/-! The operations write `check_` of the nodes that they link or take out only. -/

theorem TSQueue.Represents.check_pop (h : q.Represents H this (x :: xs)) :
    (TSQueue.pop H q).1.check_ = Function.update H.check_ x none := by
  have hne : q.head_ ≠ q.tail_ := fun e => cons_ne_nil _ _ (h.head_eq_tail.mp e)
  have hhead : H.next q.head_ = some x := (Links.seg_cons.mp h.seg).2.1
  rw [TSQueue.pop, if_neg hne, hhead]
  dsimp only
  cases H.next x <;> rfl

theorem TSQueue.check_popN (n : ℕ) : (TSQueue.popN H this q n).1.check_ = H.check_ := by
  rw [TSQueue.popN]
  split_ifs
  · rfl
  · cases H.next q.head_ with
    | none => rfl
    | some first =>
      dsimp only
      cases H.next (TSQueue.lastOf H (n - 1) first 1).1 <;> rfl

theorem TSQueue.check_popAll : (TSQueue.popAll H this q).1.check_ = H.check_ := by
  rw [TSQueue.popAll]
  split_ifs
  · rfl
  · cases H.next q.head_ <;> rfl

theorem TSQueue.check_pushList : (TSQueue.pushList H q l).1.check_ = H.check_ := by
  rw [TSQueue.pushList]
  split <;> rfl

theorem TSQueue.check_erase [DecidableEq κ] (hx : H.check_ x = some this) :
    (TSQueue.erase H this q x).1.check_ = Function.update H.check_ x none := by
  rw [TSQueue.erase, if_neg (not_not.mpr hx)]
  dsimp only
  cases H.prev x <;> cases H.next x <;> rfl

theorem SList.check_erase :
    (SList.erase H l x).1.check_ = Function.update H.check_ x none := by
  rw [SList.erase]
  dsimp only
  cases H.prev x <;> cases H.next x <;> rfl

end Operations
