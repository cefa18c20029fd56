/-
Pools of processes with program counters.

A `Pool τ σ` gives each process of `τ` a program counter in `σ`; all but
finitely many stand at the idle counter `default`, so the processes whose
counter satisfies a predicate can be counted.  Every step of an interleaving
model moves one process, and `Pool.total_set` and `Pool.count_set` say what that
does to a sum of weights and to a count: with them a conservation law over all
processes becomes linear arithmetic.

`Parks q P p` ties a wait queue to the pool: `q` lists, without repetition,
exactly the processes whose counter satisfies `p`.
-/
import Mathlib.Algebra.BigOperators.Group.Finset.Piecewise
import Mathlib.Algebra.BigOperators.Ring.Finset
import Mathlib.Data.Finset.Card
import Mathlib.Tactic.Common
import Mathlib.Tactic.Ring

/-- Program counters of all processes; finitely many are not idle. -/
structure Pool (τ σ : Type*) [Inhabited σ] where
  pc : τ → σ
  support : Finset τ
  idle_of_notMem : ∀ t, t ∉ support → pc t = default

namespace Pool

variable {τ σ : Type*} [Inhabited σ]

def empty : Pool τ σ where
  pc := fun _ => default
  support := ∅
  idle_of_notMem := fun _ _ => rfl

/-- How many processes stand at a counter satisfying `p`. -/
def count (P : Pool τ σ) (p : σ → Bool) : ℕ :=
  (P.support.filter fun t => p (P.pc t)).card

@[simp] theorem pc_empty (t : τ) : (empty : Pool τ σ).pc t = default := rfl

@[simp] theorem count_empty (p : σ → Bool) : (empty : Pool τ σ).count p = 0 := rfl

theorem mem_support_of_pc {P : Pool τ σ} {t : τ} {p : σ → Bool} (hp : p default = false)
    (h : p (P.pc t) = true) : t ∈ P.support := by
  by_contra hn
  rw [P.idle_of_notMem t hn, hp] at h
  exact Bool.false_ne_true h

theorem count_pos {p : σ → Bool} (hp : p default = false) {P : Pool τ σ} {t : τ}
    (h : p (P.pc t) = true) : 0 < P.count p :=
  Finset.card_pos.mpr ⟨t, Finset.mem_filter.mpr ⟨mem_support_of_pc hp h, h⟩⟩

/-- Where at most one process satisfies `p`, two that do are the same. -/
theorem eq_of_count_le_one {p : σ → Bool} (hp : p default = false) {P : Pool τ σ} {t u : τ}
    (hc : P.count p ≤ 1) (ht : p (P.pc t) = true) (hu : p (P.pc u) = true) : t = u :=
  Finset.card_le_one.mp hc t (Finset.mem_filter.mpr ⟨mem_support_of_pc hp ht, ht⟩)
    u (Finset.mem_filter.mpr ⟨mem_support_of_pc hp hu, hu⟩)

theorem count_eq_zero {p : σ → Bool} (hp : p default = false) {P : Pool τ σ} :
    P.count p = 0 ↔ ∀ t, p (P.pc t) = false := by
  constructor
  · intro h t
    by_contra ht
    have := count_pos hp (Bool.of_not_eq_false ht)
    omega
  · intro h
    rw [count, Finset.card_eq_zero, Finset.filter_eq_empty_iff]
    intro t _
    simp [h t]

theorem count_mono {p q : σ → Bool} (h : ∀ x, p x = true → q x = true) (P : Pool τ σ) :
    P.count p ≤ P.count q :=
  Finset.card_le_card fun _ ht =>
    Finset.mem_filter.mpr ⟨(Finset.mem_filter.mp ht).1, h _ (Finset.mem_filter.mp ht).2⟩

theorem count_congr {p q : σ → Bool} {P : Pool τ σ} (h : ∀ t, p (P.pc t) = q (P.pc t)) :
    P.count p = P.count q := by
  rw [count, count]
  refine congrArg Finset.card (Finset.filter_congr fun t _ => ?_)
  rw [h t]

/-- The sum of a weight over all processes. -/
def total (P : Pool τ σ) (w : σ → ℤ) : ℤ := ∑ t ∈ P.support, w (P.pc t)

@[simp] theorem total_empty (w : σ → ℤ) : (empty : Pool τ σ).total w = 0 := rfl

theorem total_add (P : Pool τ σ) (v w : σ → ℤ) :
    P.total (fun x => v x + w x) = P.total v + P.total w :=
  Finset.sum_add_distrib

theorem total_sub (P : Pool τ σ) (v w : σ → ℤ) :
    P.total (fun x => v x - w x) = P.total v - P.total w :=
  Finset.sum_sub_distrib ..

theorem total_eq_zero {P : Pool τ σ} {w : σ → ℤ} (h : ∀ t, w (P.pc t) = 0) : P.total w = 0 :=
  Finset.sum_eq_zero fun t _ => h t

theorem total_toNat (P : Pool τ σ) (p : σ → Bool) :
    P.total (fun x => ((p x).toNat : ℤ)) = P.count p := by
  rw [total, count, Finset.card_filter, Nat.cast_sum]
  refine Finset.sum_congr rfl fun t _ => ?_
  cases p (P.pc t) <;> rfl

variable [DecidableEq τ]

def set (P : Pool τ σ) (t : τ) (x : σ) : Pool τ σ where
  pc := Function.update P.pc t x
  support := insert t P.support
  idle_of_notMem := by
    intro u hu
    rw [Finset.mem_insert, not_or] at hu
    rw [Function.update_of_ne hu.1]
    exact P.idle_of_notMem u hu.2

@[simp] theorem pc_set_self (P : Pool τ σ) (t : τ) (x : σ) : (P.set t x).pc t = x :=
  Function.update_self ..

theorem pc_set_of_ne (P : Pool τ σ) {t u : τ} (h : u ≠ t) (x : σ) :
    (P.set t x).pc u = P.pc u :=
  Function.update_of_ne h ..

theorem pc_set (P : Pool τ σ) (t u : τ) (x : σ) :
    (P.set t x).pc u = if u = t then x else P.pc u :=
  Function.update_apply ..

/-- Moving a process away from `y` brings nobody to `y`. -/
theorem pc_set_ne (P : Pool τ σ) {t u : τ} {x y : σ} (hu : P.pc u ≠ y) (hx : x ≠ y) :
    (P.set t x).pc u ≠ y := by
  rw [pc_set]
  split_ifs
  · exact hx
  · exact hu

/-- **Moving one process** trades its old weight for its new one.  Idle processes
must weigh nothing. -/
theorem total_set {w : σ → ℤ} (hw : w default = 0) (P : Pool τ σ) (t : τ) (x : σ) :
    (P.set t x).total w = P.total w - w (P.pc t) + w x := by
  have hrest : ∀ Q : Pool τ σ, Q.total w = ∑ u ∈ Q.support.erase t, w (Q.pc u) + w (Q.pc t) := by
    intro Q
    by_cases ht : t ∈ Q.support
    · exact (Finset.sum_erase_add _ _ ht).symm
    · rw [Finset.erase_eq_of_notMem ht, Q.idle_of_notMem t ht, hw, add_zero]
      rfl
  have hsame : ∑ u ∈ (P.set t x).support.erase t, w ((P.set t x).pc u)
      = ∑ u ∈ P.support.erase t, w (P.pc u) := by
    have hsupp : (P.set t x).support.erase t = P.support.erase t := Finset.erase_insert_eq_erase ..
    rw [hsupp]
    refine Finset.sum_congr rfl fun u hu => ?_
    rw [pc_set_of_ne P (Finset.ne_of_mem_erase hu)]
  rw [hrest P, hrest (P.set t x), hsame, pc_set_self]
  ring

theorem count_set {p : σ → Bool} (hp : p default = false) (P : Pool τ σ) (t : τ) (x : σ) :
    (P.set t x).count p + (p (P.pc t)).toNat = P.count p + (p x).toNat := by
  have h := total_set (w := fun y => ((p y).toNat : ℤ)) (by rw [hp]; rfl) P t x
  rw [total_toNat, total_toNat] at h
  omega

/-- Nobody stands at `z` in `Q` who did not stand there in `P`. -/
def NoEntry (z : σ) (P Q : Pool τ σ) : Prop := ∀ t, Q.pc t = z → P.pc t = z

theorem noEntry_set {x z : σ} (hx : x ≠ z) (P : Pool τ σ) (t : τ) : NoEntry z P (P.set t x) := by
  intro u hu
  by_contra hne
  exact P.pc_set_ne hne hx hu

end Pool

/-- `q` lists, once each, the processes whose counter satisfies `p`. -/
def Parks {τ σ : Type*} [Inhabited σ] (q : List τ) (P : Pool τ σ) (p : σ → Bool) : Prop :=
  q.Nodup ∧ ∀ t, t ∈ q ↔ p (P.pc t) = true

namespace Parks

variable {τ σ : Type*} [Inhabited σ] {q : List τ} {P : Pool τ σ} {p : σ → Bool}

theorem empty (hp : p default = false) : Parks ([] : List τ) (Pool.empty : Pool τ σ) p :=
  ⟨List.nodup_nil, fun t => by simp [hp]⟩

theorem head {t : τ} (h : Parks (t :: q) P p) : p (P.pc t) = true :=
  (h.2 t).mp List.mem_cons_self

variable [DecidableEq τ]

/-- A process that is not parked, and does not park, leaves the queue right. -/
theorem stay (h : Parks q P p) {t : τ} {x : σ} (ht : p (P.pc t) = false) (hx : p x = false) :
    Parks q (P.set t x) p := by
  refine ⟨h.1, fun u => ?_⟩
  by_cases hu : u = t
  · subst hu
    rw [Pool.pc_set_self, h.2, ht, hx]
  · rw [Pool.pc_set_of_ne P hu, h.2]

/-- Parking a process appends it to the queue. -/
theorem push (h : Parks q P p) {t : τ} {x : σ} (ht : p (P.pc t) = false) (hx : p x = true) :
    Parks (q ++ [t]) (P.set t x) p := by
  have hnot : t ∉ q := fun hm => by rw [h.2, ht] at hm; exact Bool.false_ne_true hm
  refine ⟨List.nodup_append.mpr ⟨h.1, List.nodup_singleton t, ?_⟩, fun u => ?_⟩
  · intro a ha b hb hab
    rw [List.mem_singleton] at hb
    exact hnot (hb ▸ hab ▸ ha)
  · by_cases hu : u = t
    · subst hu
      simp [hx]
    · rw [Pool.pc_set_of_ne P hu, ← h.2]
      simp [hu]

theorem pop {t : τ} (h : Parks (t :: q) P p) {x : σ} (hx : p x = false) :
    Parks q (P.set t x) p := by
  obtain ⟨hnot, hnd⟩ := List.nodup_cons.mp h.1
  refine ⟨hnd, fun u => ?_⟩
  by_cases hu : u = t
  · subst hu
    simp [hx, hnot]
  · rw [Pool.pc_set_of_ne P hu, ← h.2]
    simp [hu]

end Parks
