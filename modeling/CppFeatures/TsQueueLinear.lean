/-
`TSQueue` under its lock (coroutine/ts_queue.h, coroutine/spinlock.h).

Any number of threads use one queue.  `pop`, `pop(n)` and `pop_all` test
`head_ == tail_` before they take `lck`, and the others write `tail_` meanwhile; all else
is done inside, one statement at a time.

* `Call`, `Ret` — the methods with the values they take and return;
* `TSQueue.pushBody` and its like — the statements between lock and unlock; the one that
  writes `tail_` is where the method takes effect;
* `TSQueue.guarded` — the queue as operations under a spin lock;
* `QueueMem.run_body` — the statements, run without interruption, are the methods of
  `TsQueue`;
* `QueueMem.linearizable` — in every interleaving the threads get the answers of one
  first-in first-out queue.
-/
import CppFeatures.TsQueueFifo
import CppFeatures.CriticalSections

/-- The methods; `i` is the variable of the caller a popped list goes to, or comes from. -/
inductive Call (α κ : Type*)
  | push (x : α)
  | pop
  | popN (i n : ℕ)
  | popAll (i : ℕ)
  | pushList (i : ℕ) (elements : SList α κ)
  | erase (x : α)
  | size
  | empty
deriving DecidableEq, Repr

inductive Ret (α κ : Type*)
  | void
  | ptr (p : Option α)
  | list (l : SList α κ)
  | bool (b : Bool)
  | size (n : BitVec 64)
  | assertFailed
deriving DecidableEq, Repr

/-- What the lock protects: the hooks and the queue's own fields. -/
structure QueueMem (α κ : Type*) where
  heap : Hooks α κ
  queue : TSQueue α

variable {α κ : Type*} [DecidableEq α]

/-! ### The statements -/

namespace QueueMem

def setNext (m : QueueMem α κ) (x : α) (v : Option α) : QueueMem α κ :=
  { m with heap := m.heap.setNext x v }

def setPrev (m : QueueMem α κ) (x : α) (v : Option α) : QueueMem α κ :=
  { m with heap := m.heap.setPrev x v }

def setCheck (m : QueueMem α κ) (x : α) (v : Option κ) : QueueMem α κ :=
  { m with heap := m.heap.setCheck x v }

def setTail (m : QueueMem α κ) (x : α) : QueueMem α κ :=
  { m with queue := { m.queue with tail_ := x } }

def setCount (m : QueueMem α κ) (c : BitVec 64) : QueueMem α κ :=
  { m with queue := { m.queue with count_ := c } }

-- what the unlocked test sees
def isEmpty (m : QueueMem α κ) : Bool := m.queue.empty

end QueueMem

/-- The statements of a method. -/
abbrev Stmts (α κ : Type*) := Body (QueueMem α κ) (Ret α κ)

namespace Stmts

def stmt (write : QueueMem α κ → QueueMem α κ) (rest : Stmts α κ) : Stmts α κ :=
  .act false write fun _ => rest

def read (rest : QueueMem α κ → Stmts α κ) : Stmts α κ := .act false id rest

/-- The statement with which the method takes effect. -/
def commit (write : QueueMem α κ → QueueMem α κ) (rest : Stmts α κ) : Stmts α κ :=
  .act true write fun _ => rest

-- a method that changes nothing takes effect when it returns
def give (r : QueueMem α κ → Ret α κ) : Stmts α κ := .act true id fun m => .ret (r m)

end Stmts

namespace TSQueue

open Stmts

-- `tail_->next = hook; hook->prev = tail_; hook->next = NULL; hook->check_ = this;
-- tail_ = hook; ++count_`
def pushBody (this : κ) (hook : α) : Stmts α κ :=
  stmt (fun m => m.setNext m.queue.tail_ (some hook)) <|
  stmt (fun m => m.setPrev hook (some m.queue.tail_)) <|
  stmt (fun m => m.setNext hook none) <|
  stmt (fun m => m.setCheck hook (some this)) <|
  commit (fun m => m.setTail hook) <|
  stmt (fun m => m.setCount (m.queue.count_ + 1)) <|
  .ret .void

-- `head_->next = ptr->next; if (ptr->next) ptr->next->prev = head_`
def unlinkHead (last : α) (rest : Stmts α κ) : Stmts α κ :=
  stmt (fun m => m.setNext m.queue.head_ (m.heap.next last)) <|
  stmt (fun m => match m.heap.next last with
    | some y => m.setPrev y (some m.queue.head_)
    | none => m) rest

-- `hook->prev = hook->next = NULL; hook->check_ = NULL; --count_`
def resetHook (hook : α) (r : Ret α κ) : Stmts α κ :=
  stmt (fun m => m.setNext hook none) <|
  stmt (fun m => m.setPrev hook none) <|
  stmt (fun m => m.setCheck hook none) <|
  stmt (fun m => m.setCount (m.queue.count_ - 1)) <|
  .ret r

/-- `pop` after the lock; a null `head_->next` of a non-empty queue does not occur. -/
def popBody : Stmts α κ :=
  read fun m => if m.queue.head_ = m.queue.tail_ then give fun _ => .ptr none else
  read fun m => match m.heap.next m.queue.head_ with
    | none => give fun _ => .ptr none
    | some ptr =>
      commit (fun m => if ptr = m.queue.tail_ then m.setTail m.queue.head_ else m) <|
      unlinkHead ptr <|
      resetHook ptr (.ptr (some ptr))

/-- `push(SList)`; the two tests before the lock look at the caller's own list. -/
def pushListBody [DecidableEq κ] (this : κ) (elements : SList α κ) : Stmts α κ :=
  if elements.check_ ≠ some this then give fun _ => .assertFailed
  else match elements.head_, elements.tail_ with
    | some h, some t =>
      stmt (fun m => m.setCount (m.queue.count_ + elements.count_)) <|
      stmt (fun m => m.setNext m.queue.tail_ (some h)) <|
      stmt (fun m => m.setPrev h (some m.queue.tail_)) <|
      stmt (fun m => m.setNext t none) <|
      commit (fun m => m.setTail t) <|
      .ret .void
    | _, _ => give fun _ => .void

-- the loop of `pop(n)`, one read for each round; `n - c` is the first argument
def scan (rest : α → ℕ → Stmts α κ) : ℕ → α → ℕ → Stmts α κ
  | 0, last, c => rest last c
  | k + 1, last, c => read fun m => match m.heap.next last with
    | some y => scan rest k y (c + 1)
    | none => rest last c

def emptyList : SList α κ := ⟨none, none, none, 0⟩

/-- `pop(n)` after the lock. -/
def popNBody (this : κ) (n : ℕ) : Stmts α κ :=
  read fun m => if m.queue.head_ = m.queue.tail_ then give fun _ => .list emptyList else
  read fun m => match m.heap.next m.queue.head_ with
    | none => give fun _ => .list emptyList
    | some first => scan (fun last c =>
        commit (fun m => if last = m.queue.tail_ then m.setTail m.queue.head_ else m) <|
        unlinkHead last <|
        stmt (fun m => m.setNext last none) <|
        stmt (fun m => m.setPrev first none) <|
        stmt (fun m => m.setCount (m.queue.count_ - BitVec.ofNat 64 c)) <|
        .ret (.list ⟨some first, some last, some this, BitVec.ofNat 64 c⟩)) (n - 1) first 1

/-- `pop_all` after the lock. -/
def popAllBody (this : κ) : Stmts α κ :=
  read fun m => if m.queue.head_ = m.queue.tail_ then give fun _ => .list emptyList else
  read fun m => match m.heap.next m.queue.head_ with
    | none => give fun _ => .list emptyList
    | some first => read fun m =>
      let last := m.queue.tail_
      commit (fun m => m.setTail m.queue.head_) <|
      stmt (fun m => m.setNext m.queue.head_ none) <|
      stmt (fun m => m.setNext last none) <|
      stmt (fun m => m.setPrev first none) <|
      read fun m =>
        let c := m.queue.count_
        stmt (fun m => m.setCount 0) <|
        .ret (.list ⟨some first, some last, some this, c⟩)

/-- `erase`; of the two branches of the second statement one writes `tail_`. -/
def eraseBody [DecidableEq κ] (this : κ) (hook : α) : Stmts α κ :=
  read fun m => if m.heap.check_ hook ≠ some this then give fun _ => .bool false else
  stmt (fun m => match m.heap.prev hook with
    | some y => m.setNext y (m.heap.next hook)
    | none => m) <|
  commit (fun m => match m.heap.next hook with
    | some z => m.setPrev z (m.heap.prev hook)
    | none => if hook = m.queue.tail_ then
        m.setTail ((m.heap.prev m.queue.tail_).getD m.queue.tail_) else m) <|
  resetHook hook (.bool true)

def body [DecidableEq κ] (this : κ) : Call α κ → Stmts α κ
  | .push x => pushBody this x
  | .pop => popBody
  | .popN _ n => popNBody this n
  | .popAll _ => popAllBody this
  | .pushList _ elements => pushListBody this elements
  | .erase x => eraseBody this x
  | .size => give fun m => .size m.queue.count_
  | .empty => give fun m => .bool m.isEmpty

/-- What is done before the lock.  `head_` never changes, so the test reads `tail_` only. -/
def look [DecidableEq κ] (this : κ) : Call α κ → Bool → Option (Ret α κ)
  | .pop, true => some (.ptr none)
  | .popN _ _, true => some (.list emptyList)
  | .popAll _, true => some (.list emptyList)
  | .pushList _ elements, _ =>
    if elements.check_ ≠ some this then some .assertFailed
    else if elements.head_ = none then some .void
    else none
  | _, _ => none

/-! ### The queue under its lock -/

section Quiet

variable {write : QueueMem α κ → QueueMem α κ} {rest : Stmts α κ}

theorem steady_stmt (hw : ∀ m, (write m).isEmpty = m.isEmpty) (h : rest.Steady QueueMem.isEmpty) :
    (stmt write rest).Steady QueueMem.isEmpty :=
  ⟨rfl, fun m => ⟨hw m, h⟩⟩

theorem commits_stmt (hw : ∀ m, (write m).isEmpty = m.isEmpty)
    (h : rest.Commits QueueMem.isEmpty) : (stmt write rest).Commits QueueMem.isEmpty :=
  fun m => ⟨hw m, h⟩

theorem commits_read {rest : QueueMem α κ → Stmts α κ}
    (h : ∀ m, (rest m).Commits QueueMem.isEmpty) : (read rest).Commits QueueMem.isEmpty :=
  fun m => ⟨rfl, h m⟩

theorem commits_commit (h : rest.Steady QueueMem.isEmpty) :
    (commit write rest).Commits QueueMem.isEmpty :=
  fun _ => h

theorem commits_give (r : QueueMem α κ → Ret α κ) : (give r).Commits QueueMem.isEmpty :=
  fun _ => trivial

theorem steady_resetHook (hook : α) (r : Ret α κ) : (resetHook hook r).Steady QueueMem.isEmpty :=
  steady_stmt (fun _ => rfl) <| steady_stmt (fun _ => rfl) <| steady_stmt (fun _ => rfl) <|
    steady_stmt (fun _ => rfl) trivial

theorem steady_unlinkHead (last : α) (h : rest.Steady QueueMem.isEmpty) :
    (unlinkHead last rest).Steady QueueMem.isEmpty := by
  refine steady_stmt (fun _ => rfl) (steady_stmt (fun m => ?_) h)
  split
  · rfl
  · rfl

theorem commits_scan {rest : α → ℕ → Stmts α κ}
    (h : ∀ last c, (rest last c).Commits QueueMem.isEmpty) (k : ℕ) (last : α) (c : ℕ) :
    (scan rest k last c).Commits QueueMem.isEmpty := by
  induction k generalizing last c with
  | zero => exact h last c
  | succ k ih =>
    refine commits_read fun m => ?_
    split
    · exact ih ..
    · exact h last c

end Quiet

theorem commits_popBody : (popBody : Stmts α κ).Commits QueueMem.isEmpty := by
  refine commits_read fun m => ?_
  split_ifs
  · exact commits_give _
  · refine commits_read fun m => ?_
    split
    · exact commits_give _
    · exact commits_commit (steady_unlinkHead _ (steady_resetHook ..))

theorem commits_popNBody (this : κ) (n : ℕ) :
    (popNBody this n : Stmts α κ).Commits QueueMem.isEmpty := by
  refine commits_read fun m => ?_
  split_ifs
  · exact commits_give _
  · refine commits_read fun m => ?_
    split
    · exact commits_give _
    · refine commits_scan (fun last c => commits_commit (steady_unlinkHead _ ?_)) ..
      exact steady_stmt (fun _ => rfl) <| steady_stmt (fun _ => rfl) <|
        steady_stmt (fun _ => rfl) trivial

theorem commits_popAllBody (this : κ) : (popAllBody this : Stmts α κ).Commits QueueMem.isEmpty := by
  refine commits_read fun m => ?_
  split_ifs
  · exact commits_give _
  · refine commits_read fun m => ?_
    split
    · exact commits_give _
    · refine commits_read fun m => commits_commit ?_
      refine steady_stmt (fun _ => rfl) <| steady_stmt (fun _ => rfl) <|
        steady_stmt (fun _ => rfl) ⟨rfl, fun m => ⟨rfl, ?_⟩⟩
      exact steady_stmt (fun _ => rfl) trivial

theorem commits_eraseBody [DecidableEq κ] (this : κ) (hook : α) :
    (eraseBody this hook).Commits QueueMem.isEmpty := by
  refine commits_read fun m => ?_
  split_ifs
  · exact commits_give _
  · refine commits_stmt (fun m => ?_) (commits_commit (steady_resetHook ..))
    split
    · rfl
    · rfl

theorem commits_pushBody (this : κ) (hook : α) : (pushBody this hook).Commits QueueMem.isEmpty :=
  commits_stmt (fun _ => rfl) <| commits_stmt (fun _ => rfl) <| commits_stmt (fun _ => rfl) <|
    commits_stmt (fun _ => rfl) <| commits_commit <| steady_stmt (fun _ => rfl) trivial

theorem commits_pushListBody [DecidableEq κ] (this : κ) (elements : SList α κ) :
    (pushListBody this elements).Commits QueueMem.isEmpty := by
  rw [pushListBody]
  split_ifs
  · exact commits_give _
  · split
    · exact commits_stmt (fun _ => rfl) <| commits_stmt (fun _ => rfl) <|
        commits_stmt (fun _ => rfl) <| commits_stmt (fun _ => rfl) <| commits_commit trivial
    · exact commits_give _

/-- **The queue under its lock**: only the statement that writes `tail_` can change what
an unlocked test sees, and a test that answers gives the answer of the method. -/
def guarded [DecidableEq κ] (this : κ) :
    Guarded (Call α κ) (QueueMem α κ) (Ret α κ) Bool where
  obs := QueueMem.isEmpty
  look := look this
  body := body this
  commits := by
    intro op
    cases op with
    | push x => exact commits_pushBody this x
    | pop => exact commits_popBody
    | popN i n => exact commits_popNBody this n
    | popAll i => exact commits_popAllBody this
    | pushList i l => exact commits_pushListBody this l
    | erase x => exact commits_eraseBody this x
    | size => exact commits_give _
    | empty => exact commits_give _
  run_of_look := by
    intro op m r h
    cases op with
    | pop | popN i n | popAll i =>
      cases he : m.isEmpty with
      | true =>
        rw [he] at h
        have hq : m.queue.head_ = m.queue.tail_ := of_decide_eq_true he
        obtain rfl := Option.some_inj.mp h
        simp [body, popBody, popNBody, popAllBody, Stmts.read, Body.run, hq, give]
      | false =>
        rw [he] at h
        contradiction
    | pushList i l =>
      simp only [look] at h
      simp only [body, pushListBody]
      split_ifs at h with hc hl
      · obtain rfl := Option.some_inj.mp h
        rw [if_pos hc]
        rfl
      · obtain rfl := Option.some_inj.mp h
        rw [if_neg hc, hl]
        rfl
    | push x | erase x | size | empty => contradiction

/-! ### The statements without interruption -/

section Run

variable {m : QueueMem α κ} {this : κ} {rest : Stmts α κ} {last x : α} {xs : List α}

theorem run_unlinkHead (hne : last ≠ m.queue.head_) :
    (unlinkHead last rest).run m = rest.run
      ⟨match m.heap.next last with
        | some y => (m.heap.setNext m.queue.head_ (m.heap.next last)).setPrev y (some m.queue.head_)
        | none => m.heap.setNext m.queue.head_ (m.heap.next last), m.queue⟩ := by
  have hnext : (m.setNext m.queue.head_ (m.heap.next last)).heap.next last = m.heap.next last :=
    Links.next_setNext_of_ne hne
  simp only [unlinkHead, stmt, Body.run, hnext]
  cases m.heap.next last <;> rfl

omit [DecidableEq α] in
theorem run_scan {rest : α → ℕ → Stmts α κ} (k : ℕ) (last : α) (c : ℕ) :
    (scan rest k last c).run m =
      (rest (lastOf m.heap k last c).1 (lastOf m.heap k last c).2).run m := by
  induction k generalizing last c with
  | zero => rfl
  | succ k ih =>
    simp only [scan, Stmts.read, Body.run, lastOf, id]
    cases m.heap.next last with
    | some y => exact ih ..
    | none => rfl

omit [DecidableEq α] in
/-- The sentinel is not one of its elements. -/
theorem ne_head (h : m.queue.Represents m.heap this xs) (hx : x ∈ xs) : x ≠ m.queue.head_ :=
  fun e => (List.nodup_cons.mp h.nodup).1 (e ▸ hx)

theorem run_popBody (h : m.queue.Represents m.heap this xs) :
    popBody.run m =
      (⟨(pop m.heap m.queue).1, (pop m.heap m.queue).2.1⟩, .ptr (pop m.heap m.queue).2.2) := by
  cases xs with
  | nil =>
    have he : m.queue.head_ = m.queue.tail_ := h.head_eq_tail.mpr rfl
    simp [popBody, Stmts.read, Body.run, he, give, pop]
  | cons x xs =>
    have he : m.queue.head_ ≠ m.queue.tail_ := fun e => List.cons_ne_nil _ _ (h.head_eq_tail.mp e)
    have hnext : m.heap.next m.queue.head_ = some x := (Links.seg_cons.mp h.seg).2.1
    have hx : x ≠ m.queue.head_ := ne_head h List.mem_cons_self
    simp only [popBody, Stmts.read, Body.run, id, he, if_false, hnext, commit, pop]
    split_ifs
    · rw [run_unlinkHead (by exact hx)]
      rfl
    · rw [run_unlinkHead hx]
      rfl

theorem run_popNBody (h : m.queue.Represents m.heap this xs) (n : ℕ) :
    (popNBody this n).run m = (⟨(popN m.heap this m.queue n).1, (popN m.heap this m.queue n).2.1⟩,
      .list (popN m.heap this m.queue n).2.2) := by
  cases xs with
  | nil =>
    have he : m.queue.head_ = m.queue.tail_ := h.head_eq_tail.mpr rfl
    simp [popNBody, Stmts.read, Body.run, he, give, popN, emptyList]
  | cons x xs =>
    have he : m.queue.head_ ≠ m.queue.tail_ := fun e => List.cons_ne_nil _ _ (h.head_eq_tail.mp e)
    have hnext : m.heap.next m.queue.head_ = some x := (Links.seg_cons.mp h.seg).2.1
    obtain ⟨last, hlast, hget⟩ := lastOf_eq (Links.seg_cons.mp h.seg).2.2 (n - 1) 1
    have hmem : last ∈ x :: xs := by
      rcases List.mem_cons.mp (List.mem_of_getLast? hget) with rfl | hm
      · exact List.mem_cons_self
      · exact List.mem_cons_of_mem _ (List.mem_of_mem_take hm)
    have hne : last ≠ m.queue.head_ := ne_head h hmem
    simp only [popNBody, Stmts.read, Body.run, id, he, if_false, hnext, run_scan, hlast, commit,
      popN]
    split_ifs
    · rw [run_unlinkHead (by exact hne)]
      rfl
    · rw [run_unlinkHead hne]
      rfl

theorem run_popAllBody :
    (popAllBody this).run m = (⟨(popAll m.heap this m.queue).1, (popAll m.heap this m.queue).2.1⟩,
      .list (popAll m.heap this m.queue).2.2) := by
  by_cases he : m.queue.head_ = m.queue.tail_
  · simp [popAllBody, Stmts.read, Body.run, he, give, popAll, emptyList]
  · cases hnext : m.heap.next m.queue.head_ with
    | none => simp [popAllBody, Stmts.read, Body.run, he, hnext, give, popAll, emptyList]
    | some first =>
      simp only [popAllBody, Stmts.read, Body.run, id, he, if_false, hnext, popAll]
      rfl

theorem run_pushListBody [DecidableEq κ] {l : SList α κ} (hl : l.check_ = some this) :
    (pushListBody this l).run m =
      (⟨(pushList m.heap m.queue l).1, (pushList m.heap m.queue l).2⟩, .void) := by
  rw [pushListBody, if_neg (not_not.mpr hl), pushList]
  cases l.head_ <;> cases l.tail_ <;> rfl

/-- `erase`, where the hook does not come before itself. -/
theorem run_eraseBody [DecidableEq κ]
    (hx : m.heap.check_ x = some this → m.heap.prev x ≠ some x) :
    (eraseBody this x).run m = (⟨(erase m.heap this m.queue x).1, (erase m.heap this m.queue x).2.1⟩,
      .bool (erase m.heap this m.queue x).2.2) := by
  by_cases hc : m.heap.check_ x ≠ some this
  · simp [eraseBody, Stmts.read, Body.run, hc, give, erase]
  · have hx := hx (not_not.mp hc)
    simp only [eraseBody, Stmts.read, Body.run, id, if_neg hc, stmt, commit, erase]
    cases hp : m.heap.prev x with
    | none =>
      cases hn : m.heap.next x with
      | some z =>
        simp only [hp]
        rfl
      | none =>
        simp only [true_and]
        by_cases ht : x = m.queue.tail_
        · rw [if_pos ht, if_pos ht, ← ht, hp]
          rfl
        · rw [if_neg ht, if_neg ht]
          rfl
    | some y =>
      -- the statement before leaves the two pointers of the hook as they are
      have hprev : (m.setNext y (m.heap.next x)).heap.prev x = some y := hp
      have hnext : (m.setNext y (m.heap.next x)).heap.next x = m.heap.next x :=
        Links.next_setNext_of_ne fun e => hx (e ▸ hp)
      cases hn : m.heap.next x with
      | some z =>
        rw [hn] at hprev hnext
        simp only [hnext, hprev]
        rfl
      | none =>
        rw [hn] at hprev hnext
        have hqueue : (m.setNext y none).queue = m.queue := rfl
        simp only [hnext, hqueue, true_and]
        by_cases ht : x = m.queue.tail_
        · rw [if_pos ht, if_pos ht, ← ht, hprev]
          rfl
        · rw [if_neg ht, if_neg ht]
          rfl

end Run

end TSQueue

/-! ### What the calls mean -/

/-- The list object a popped list is in the hands of its caller. -/
def Popped.handle (this : κ) (p : Popped α) : SList α κ :=
  if p.taken then ⟨p.elems.head?, p.elems.getLast?, some this, BitVec.ofNat 64 p.elems.length⟩
  else TSQueue.emptyList

namespace Fifo

/-- A call on the sequences, with its answer. -/
def call (this : κ) (f : Fifo α) : Call α κ → Fifo α × Ret α κ
  | .push x => ((f.apply (.push x)).1, .void)
  | .pop => ((f.apply .pop).1, .ptr f.elems.head?)
  | .popN i n => ((f.apply (.popN i n)).1,
      .list (Popped.handle this ⟨f.elems.take (max 1 n), !f.elems.isEmpty⟩))
  | .popAll i => ((f.apply (.popAll i)).1, .list (Popped.handle this ⟨f.elems, !f.elems.isEmpty⟩))
  | .pushList i _ => ((f.apply (.pushList i)).1, .void)
  | .erase x => ((f.apply (.erase x)).1, .bool (decide (x ∈ f.elems)))
  | .size => (f, .size (BitVec.ofNat 64 f.elems.length))
  | .empty => (f, .bool f.elems.isEmpty)

/-- What callers may do: as in `Allowed`, and a list is pushed back as it was popped, from
a queue that was not empty then. -/
def MayCall (this : κ) (sentinel : α) (f : Fifo α) : Call α κ → Prop
  | .push x => f.Allowed sentinel (.push x)
  | .pop => True
  | .popN i n => f.Allowed sentinel (.popN i n)
  | .popAll i => f.Allowed sentinel (.popAll i)
  | .pushList i l => ∃ p, f.lists i = some p ∧ p.taken = true ∧ l = p.handle this
  | .erase x => f.Allowed sentinel (.erase x)
  | .size => True
  | .empty => True

def calls (this : κ) : Fifo α → List (Call α κ) → Fifo α × List (Ret α κ)
  | f, [] => (f, [])
  | f, op :: ops =>
    (((f.call this op).1.calls this ops).1, (f.call this op).2 :: ((f.call this op).1.calls this ops).2)

/-- Every call of a sequence is allowed where it is made. -/
def MayCalls (this : κ) (sentinel : α) : Fifo α → List (Call α κ) → Prop
  | _, [] => True
  | f, op :: ops => f.MayCall this sentinel op ∧ MayCalls this sentinel (f.call this op).1 ops

end Fifo

namespace QueueMem

open QueueHeap

variable {this : κ} {m : QueueMem α κ} {lists : ℕ → Option (SList α κ)} {f : Fifo α}

omit [DecidableEq α] in
/-- A list object is determined by what it stands for. -/
theorem eq_handle {H : Hooks α κ} {l : SList α κ} {p : Popped α} (h : l.Represents H p.elems)
    (ht : p.taken = true) (hc : l.check_ = some this) : l = p.handle this := by
  obtain ⟨hd, tl, ck, n⟩ := l
  rw [Popped.handle, if_pos ht, SList.mk.injEq]
  exact ⟨h.head, h.tail, hc, h.count⟩

omit [DecidableEq α] in
/-- A popped list, as it is returned. -/
theorem popped_eq {H : Hooks α κ} {l : SList α κ} {ys : List α} {q : TSQueue α}
    (hq : q.Represents H this f.elems) (hempty : q.head_ = q.tail_ → l = TSQueue.emptyList)
    {H' : Hooks α κ} (h : l.Represents H' ys) (hc : f.elems ≠ [] → l.check_ = some this) :
    l = Popped.handle this ⟨ys, !f.elems.isEmpty⟩ := by
  by_cases he : f.elems = []
  · rw [hempty (hq.head_eq_tail.mpr he), Popped.handle, he]
    rfl
  · refine eq_handle (p := ⟨ys, !f.elems.isEmpty⟩) h ?_ (hc he)
    simpa using he

variable [DecidableEq κ]

/-- A method of the queue, by the operation on the heap it is. -/
theorem run_of_apply (h : Refines this ⟨m.heap, m.queue, lists⟩ f) (op : QueueOp α)
    (m' : QueueMem α κ) (hop : f.Allowed m.queue.head_ op) (htaken : f.PushesTaken op)
    {lists' : ℕ → Option (SList α κ)} {r : QueueRet α}
    (happly : QueueHeap.apply this ⟨m.heap, m.queue, lists⟩ op = .ok (⟨m'.heap, m'.queue, lists'⟩, r)) :
    r = (f.apply op).2 ∧ Refines this ⟨m'.heap, m'.queue, lists'⟩ (f.apply op).1 ∧
      m'.queue.head_ = m.queue.head_ := by
  obtain ⟨c', hc', href, hhead⟩ := h.apply hop htaken
  obtain ⟨rfl, rfl⟩ := Prod.mk.inj (Except.ok.inj (happly.symm.trans hc'))
  exact ⟨rfl, href, hhead⟩

/-- **One call**, its statements run without interruption: it gives the answer of the
sequences and leaves what they say. -/
theorem run_body (h : Refines this ⟨m.heap, m.queue, lists⟩ f) {op : Call α κ}
    (hop : f.MayCall this m.queue.head_ op) :
    ((TSQueue.body this op).run m).2 = (f.call this op).2 ∧
      (∃ lists', Refines this ⟨((TSQueue.body this op).run m).1.heap,
        ((TSQueue.body this op).run m).1.queue, lists'⟩ (f.call this op).1) ∧
      ((TSQueue.body this op).run m).1.queue.head_ = m.queue.head_ := by
  have hq : m.queue.Represents m.heap this f.elems := h.queue
  cases op with
  | push x =>
    obtain ⟨-, href, hhead⟩ := run_of_apply h (.push x)
      (((TSQueue.body this (.push x)).run m).1) hop trivial rfl
    exact ⟨rfl, ⟨_, href⟩, hhead⟩
  | pop =>
    obtain ⟨hr, href, hhead⟩ := run_of_apply h .pop
      ⟨(TSQueue.pop m.heap m.queue).1, (TSQueue.pop m.heap m.queue).2.1⟩ hop trivial rfl
    rw [TSQueue.body, TSQueue.run_popBody hq]
    exact ⟨congrArg Ret.ptr (QueueRet.ptr.inj hr), ⟨_, href⟩, hhead⟩
  | popN i n =>
    obtain ⟨-, href, hhead⟩ := run_of_apply h (.popN i n)
      ⟨(TSQueue.popN m.heap this m.queue n).1, (TSQueue.popN m.heap this m.queue n).2.1⟩
      hop trivial rfl
    rw [TSQueue.body, TSQueue.run_popNBody hq]
    refine ⟨congrArg Ret.list (popped_eq hq (fun he => ?_) (hq.popN n).2.1 fun hne =>
      hq.popN_check hne n), ⟨_, href⟩, hhead⟩
    rw [TSQueue.popN, if_pos he]
    rfl
  | popAll i =>
    obtain ⟨-, href, hhead⟩ := run_of_apply h (.popAll i)
      ⟨(TSQueue.popAll m.heap this m.queue).1, (TSQueue.popAll m.heap this m.queue).2.1⟩
      hop trivial rfl
    rw [TSQueue.body, TSQueue.run_popAllBody]
    refine ⟨congrArg Ret.list (popped_eq hq (fun he => ?_) hq.popAll.2.1 fun hne =>
      hq.popAll_check hne), ⟨_, href⟩, hhead⟩
    rw [TSQueue.popAll, if_pos he]
    rfl
  | pushList i l =>
    obtain ⟨p, hp, ht, rfl⟩ := hop
    obtain ⟨l, hl, hrep, hchk, -⟩ := h.list i p hp
    have hc := hchk ht
    have hl' : lists i = some (p.handle this) := hl.trans (congrArg some (eq_handle hrep ht hc))
    have hcheck : (p.handle this).check_ = some this := by rw [Popped.handle, if_pos ht]
    have happly : QueueHeap.apply this ⟨m.heap, m.queue, lists⟩ (.pushList i)
        = .ok (⟨(TSQueue.pushList m.heap m.queue (p.handle this)).1,
          (TSQueue.pushList m.heap m.queue (p.handle this)).2, Function.update lists i none⟩, .void) := by
      simp only [QueueHeap.apply, hl', hcheck, if_true]
    obtain ⟨-, href, hhead⟩ := run_of_apply h (.pushList i) ⟨_, _⟩ ⟨p, hp⟩
      (fun p' hp' => by rwa [← Option.some_inj.mp (hp.symm.trans hp')]) happly
    rw [TSQueue.body, TSQueue.run_pushListBody hcheck]
    exact ⟨rfl, ⟨_, href⟩, hhead⟩
  | erase x =>
    have hx : m.heap.check_ x = some this → m.heap.prev x ≠ some x := by
      intro hc hp
      have hmem : x ∈ f.elems := by
        rcases (h.check x).mp hc with hm | ⟨i, p, hi, hm⟩
        · exact hm
        · exact absurd hm (hop i p hi)
      obtain ⟨a, b, hab⟩ := List.append_of_mem hmem
      have hseg : m.heap.Seg none ((m.queue.head_ :: a) ++ x :: b) none := by
        rw [List.cons_append, ← hab]
        exact hq.seg
      have hnd : ((m.queue.head_ :: a) ++ x :: b).Nodup := by
        rw [List.cons_append, ← hab]
        exact hq.nodup
      rw [hseg.prev_eq, Option.or_none] at hp
      exact (List.nodup_append.mp hnd).2.2 x (List.mem_of_getLast? hp) x List.mem_cons_self rfl
    obtain ⟨hr, href, hhead⟩ := run_of_apply h (.erase x)
      ⟨(TSQueue.erase m.heap this m.queue x).1, (TSQueue.erase m.heap this m.queue x).2.1⟩
      hop trivial rfl
    rw [TSQueue.body, TSQueue.run_eraseBody hx]
    exact ⟨congrArg Ret.bool (QueueRet.bool.inj hr), ⟨_, href⟩, hhead⟩
  | size => exact ⟨congrArg Ret.size hq.count, ⟨_, h⟩, rfl⟩
  | empty =>
    refine ⟨congrArg Ret.bool ?_, ⟨_, h⟩, rfl⟩
    rw [Bool.eq_iff_iff, List.isEmpty_iff]
    exact decide_eq_true_iff.trans hq.head_eq_tail

/-- **A history of calls** that gives the answers of its uninterrupted bodies gives those of
the sequences. -/
theorem calls_of_legal {θ : Type*} {hist : List (θ × Call α κ × Ret α κ)}
    (h : Refines this ⟨m.heap, m.queue, lists⟩ f)
    (hcalls : f.MayCalls this m.queue.head_ (hist.map fun e => e.2.1))
    (hlegal : (TSQueue.guarded this).Legal m hist) :
    (f.calls this (hist.map fun e => e.2.1)).2 = hist.map (fun e => e.2.2) ∧
      ∃ lists', Refines this ⟨((TSQueue.guarded this).after m hist).heap,
        ((TSQueue.guarded this).after m hist).queue, lists'⟩
        (f.calls this (hist.map fun e => e.2.1)).1 := by
  induction hist generalizing m lists f with
  | nil => exact ⟨rfl, lists, h⟩
  | cons e hist ih =>
    obtain ⟨hop, hops⟩ := hcalls
    obtain ⟨hr, hrest⟩ := hlegal
    obtain ⟨hret, ⟨lists₁, href⟩, hhead⟩ := run_body h hop
    obtain ⟨hrets, href'⟩ := ih href (hhead ▸ hops) hrest
    refine ⟨?_, href'⟩
    rw [List.map_cons, List.map_cons, Fifo.calls, hrets, ← hret, ← hr]
    rfl

/-- **`TSQueue` is linearizable.**  Any number of threads call `push`, `pop`, `pop(n)`,
`pop_all`, `push(SList)`, `erase`, `size` and `empty`, and their statements are interleaved
in any way, the unlocked tests of `head_ == tail_` included.  Where the calls keep to the
rules in the order in which they take effect:
the answers are those of one first-in first-out queue in that order;
the order agrees with what every thread was answered, and only grows at its end, so that a
call that returned comes before every call made later;
and whenever the lock is free the hooks stand for that queue. -/
theorem linearizable {θ : Type*} [DecidableEq θ] {sentinel : α} {H : Hooks α κ}
    (hH : Fresh this sentinel H) {s : Guarded.System θ (Call α κ) (QueueMem α κ) (Ret α κ)}
    (hs : Reach (Guarded.System.Init ⟨H, TSQueue.new sentinel⟩)
      (Guarded.System.step (TSQueue.guarded this)) s)
    (hcalls : Fifo.empty.MayCalls this sentinel (s.hist.map fun e => e.2.1)) :
    (Fifo.empty.calls this (s.hist.map fun e => e.2.1)).2 = s.hist.map (fun e => e.2.2) ∧
      (∀ t, Guarded.ofThread t s.hist = s.rets t ++ (s.pc t).committed) ∧
      (∀ a s', s.step (TSQueue.guarded this) a = some s' → s.hist <+: s'.hist) ∧
      (s.lck = false → ∃ lists, Refines this ⟨s.state.heap, s.state.queue, lists⟩
        (Fifo.empty.calls this (s.hist.map fun e => e.2.1)).1) := by
  have hinv := Guarded.System.reach_inv s hs
  obtain ⟨hrets, lists, href⟩ := calls_of_legal (m := ⟨H, TSQueue.new sentinel⟩) (refines_new hH)
    hcalls hinv.legal
  refine ⟨hrets, hinv.rets, fun a s' hst => Guarded.System.hist_step hst, fun hl => ⟨lists, ?_⟩⟩
  rw [(hinv.free hl).1]
  exact href

-- thread 1 looks before thread 0 has written `tail_`, then pops what thread 0 has pushed
def raceActs : List (Guarded.Act ℕ (Call (BitVec 64) Unit)) :=
  [.call 0 (.push 1), .advance 0, .advance 0, .advance 0, .advance 0, .call 1 .pop, .advance 1,
    .advance 0, .advance 0, .advance 0, .call 1 .pop, .advance 1, .advance 0, .advance 0] ++
    List.replicate 11 (.advance 1)

theorem linearizable_race :
    ∃ s, exec (Guarded.System.step (TSQueue.guarded ()))
        ⟨false, ⟨blankHooks, TSQueue.new 0⟩, fun _ => .idle, [], fun _ => []⟩ raceActs = some s ∧
      s.hist = [(1, .pop, .ptr none), (0, .push 1, .void), (1, .pop, .ptr (some 1))] ∧
      s.rets 1 = [(.pop, .ptr none), (.pop, .ptr (some 1))] ∧
      (Fifo.empty.calls () (s.hist.map fun e => e.2.1)).2 = s.hist.map (fun e => e.2.2) := by
  refine ⟨_, rfl, rfl, rfl, ?_⟩
  refine (linearizable fresh_blankHooks (reach_exec raceActs (.start rfl) rfl) ?_).1
  exact ⟨trivial, ⟨by decide, List.not_mem_nil, fun _ _ hp => absurd hp (Option.some_ne_none _).symm⟩, trivial, trivial⟩

end QueueMem
