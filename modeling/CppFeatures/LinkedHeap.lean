/-
Doubly linked segments in a heap.

`Links α` gives every address a `prev` and a `next` pointer.  `Seg L p xs n` says
that the nodes `xs` are chained in that order, with `p` before the first node and
`n` after the last.  A segment splits wherever its list does (`seg_append`), does
not see writes outside its nodes, and its two ends can be redirected; every
operation on an intrusive list is verified by cutting and joining segments with
these rules.
-/
import Mathlib.Data.List.Basic
import Mathlib.Logic.Function.Basic
import Mathlib.Tactic.Common

structure Links (α : Type*) where
  prev : α → Option α
  next : α → Option α

namespace Links

variable {α : Type*} {L L' : Links α} {p q n m : Option α} {x y : α} {xs ys : List α}

/-- The nodes are chained in order between `p` and `n`. -/
def Seg (L : Links α) : Option α → List α → Option α → Prop
  | _, [], _ => True
  | p, x :: xs, n => L.prev x = p ∧ L.next x = xs.head?.or n ∧ Seg L (some x) xs n

@[simp] theorem seg_nil : Seg L p [] n := trivial

theorem seg_cons : Seg L p (x :: xs) n ↔
    L.prev x = p ∧ L.next x = xs.head?.or n ∧ Seg L (some x) xs n := Iff.rfl

theorem seg_singleton : Seg L p [x] n ↔ L.prev x = p ∧ L.next x = n := by
  simp [seg_cons]

/-- **Cutting and joining**: the two parts see each other's end. -/
theorem seg_append : Seg L p (xs ++ ys) n ↔
    Seg L p xs (ys.head?.or n) ∧ Seg L (xs.getLast?.or p) ys n := by
  induction xs generalizing p with
  | nil => simp
  | cons x xs ih =>
    rw [List.cons_append, seg_cons, seg_cons, ih]
    have hlast : (x :: xs).getLast?.or p = xs.getLast?.or (some x) := by
      cases xs with
      | nil => rfl
      | cons y ys => simp [List.getLast?_cons]
    have hhead : (xs ++ ys).head?.or n = xs.head?.or (ys.head?.or n) := by
      rw [List.head?_append, Option.or_assoc]
    rw [hlast, hhead, and_assoc, and_assoc]

/-- A segment depends on its own nodes only. -/
theorem Seg.congr (h : Seg L p xs n)
    (heq : ∀ x ∈ xs, L'.prev x = L.prev x ∧ L'.next x = L.next x) : Seg L' p xs n := by
  induction xs generalizing p with
  | nil => trivial
  | cons x xs ih =>
    obtain ⟨hp, hn, hs⟩ := h
    obtain ⟨hpx, hnx⟩ := heq x List.mem_cons_self
    exact ⟨hpx.trans hp, hnx.trans hn, ih hs fun y hy => heq y (List.mem_cons_of_mem x hy)⟩

variable [DecidableEq α]

def setPrev (L : Links α) (x : α) (v : Option α) : Links α :=
  { L with prev := Function.update L.prev x v }

def setNext (L : Links α) (x : α) (v : Option α) : Links α :=
  { L with next := Function.update L.next x v }

@[simp] theorem prev_setNext : (L.setNext x n).prev = L.prev := rfl

@[simp] theorem next_setPrev : (L.setPrev x p).next = L.next := rfl

@[simp] theorem prev_setPrev : (L.setPrev x p).prev x = p := Function.update_self ..

@[simp] theorem next_setNext : (L.setNext x n).next x = n := Function.update_self ..

theorem prev_setPrev_of_ne (h : y ≠ x) : (L.setPrev x p).prev y = L.prev y :=
  Function.update_of_ne h ..

theorem next_setNext_of_ne (h : y ≠ x) : (L.setNext x n).next y = L.next y :=
  Function.update_of_ne h ..

theorem Seg.setPrev_of_notMem (h : Seg L p xs n) (hx : x ∉ xs) (v : Option α) :
    Seg (L.setPrev x v) p xs n :=
  h.congr fun _ hy => ⟨prev_setPrev_of_ne fun e => hx (e ▸ hy), rfl⟩

theorem Seg.setNext_of_notMem (h : Seg L p xs n) (hx : x ∉ xs) (v : Option α) :
    Seg (L.setNext x v) p xs n :=
  h.congr fun _ hy => ⟨rfl, next_setNext_of_ne fun e => hx (e ▸ hy)⟩

/-- Redirecting the first node's `prev`. -/
theorem Seg.setPrev_head (h : Seg L p (x :: xs) n) (hx : x ∉ xs) (q : Option α) :
    Seg (L.setPrev x q) q (x :: xs) n :=
  ⟨prev_setPrev, h.2.1, Seg.setPrev_of_notMem h.2.2 hx q⟩

/-- Redirecting the last node's `next`. -/
theorem Seg.setNext_last (h : Seg L p (xs ++ [x]) n) (hx : x ∉ xs) (m : Option α) :
    Seg (L.setNext x m) p (xs ++ [x]) m := by
  obtain ⟨hxs, hlast⟩ := seg_append.mp h
  refine seg_append.mpr ⟨hxs.setNext_of_notMem hx m, ?_⟩
  exact seg_singleton.mpr ⟨(seg_singleton.mp hlast).1, next_setNext⟩

/-! ### Reading pointers off a segment -/

omit [DecidableEq α] in
theorem Seg.next_eq {a b : List α} (h : Seg L p (a ++ x :: b) n) : L.next x = b.head?.or n :=
  (seg_append.mp h).2.2.1

omit [DecidableEq α] in
theorem Seg.prev_eq {a b : List α} (h : Seg L p (a ++ x :: b) n) : L.prev x = a.getLast?.or p :=
  (seg_append.mp h).2.1

omit [DecidableEq α] in
/-- A node has one chain after it. -/
theorem Seg.unique (h : Seg L p (x :: xs) none) (h' : Seg L q (x :: ys) none) : xs = ys := by
  have hhead : xs.head? = ys.head? := by
    have := h.2.1.symm.trans h'.2.1
    rwa [Option.or_none, Option.or_none] at this
  induction xs generalizing p q x ys with
  | nil => exact (List.head?_eq_none_iff.mp hhead.symm).symm
  | cons y xs ih =>
    obtain ⟨ys, rfl⟩ := List.head?_eq_some_iff.mp hhead.symm
    rw [ih h.2.2 h'.2.2 (by
      have := h.2.2.2.1.symm.trans h'.2.2.2.1
      rwa [Option.or_none, Option.or_none] at this)]

/-- The node `n + 1` steps after `x`. -/
def nth (L : Links α) : ℕ → α → Option α
  | 0, x => L.next x
  | n + 1, x => (L.next x).bind (nth L n)

omit [DecidableEq α] in
theorem Seg.nth_eq (h : Seg L p (x :: xs) none) (k : ℕ) : L.nth k x = xs[k]? := by
  induction k generalizing p x xs with
  | zero =>
    rw [nth, h.2.1, Option.or_none]
    cases xs <;> rfl
  | succ k ih =>
    rw [nth, h.2.1, Option.or_none]
    cases xs with
    | nil => rfl
    | cons y ys => exact ih h.2.2

/-- **Unlinking** a node between two others: the neighbours that exist point past
it. -/
theorem Seg.unlink {a b : List α} (h : Seg L p (a ++ x :: b) n) (hnd : (a ++ x :: b).Nodup) :
    let L₁ := match a.getLast? with
      | some y => L.setNext y (b.head?.or n)
      | none => L
    let L₂ := match b.head? with
      | some z => L₁.setPrev z (a.getLast?.or p)
      | none => L₁
    Seg L₂ p (a ++ b) n := by
  obtain ⟨ha, -, -, hb⟩ := seg_append.mp h
  obtain ⟨hnda, hndxb, hdisj⟩ := List.nodup_append.mp hnd
  obtain ⟨-, hndb⟩ := List.nodup_cons.mp hndxb
  -- nodes of one part do not occur in the other
  have hab : ∀ y ∈ a, y ∉ b := fun y hy hy' =>
    hdisj y hy y (List.mem_cons_of_mem x hy') rfl
  have hleft : ∀ L₁ : Links α, (L₁ = match a.getLast? with
      | some y => L.setNext y (b.head?.or n)
      | none => L) → Seg L₁ p a (b.head?.or n) ∧ Seg L₁ (some x) b n := by
    rintro L₁ rfl
    rcases List.eq_nil_or_concat a with rfl | ⟨a', y, rfl⟩
    · exact ⟨trivial, hb⟩
    · rw [List.concat_eq_append] at *
      simp only [List.getLast?_append, List.getLast?_singleton, Option.some_or]
      have hy : y ∉ a' := fun hm => (List.nodup_append.mp hnda).2.2 y hm y
        (List.mem_singleton_self y) rfl
      exact ⟨ha.setNext_last hy _, hb.setNext_of_notMem (hab y (by simp)) _⟩
  intro L₁ L₂
  obtain ⟨hla, hlb⟩ := hleft L₁ rfl
  refine seg_append.mpr ?_
  show Seg L₂ p a (b.head?.or n) ∧ Seg L₂ (a.getLast?.or p) b n
  cases b with
  | nil => exact ⟨hla, trivial⟩
  | cons z b =>
    have hz : z ∉ b := (List.nodup_cons.mp hndb).1
    exact ⟨hla.setPrev_of_notMem (fun hm => hab z hm List.mem_cons_self) _, hlb.setPrev_head hz _⟩

end Links
