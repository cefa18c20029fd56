/-
The store of `CoTimerMgr` (coroutine/timer.cpp): two indexes of the same timers.

`timers_` finds a timer by its id, `deadlines_` keeps them in the order in which
they fall due.  The model runs any sequence of `ExpireAt`, `Cancel`, `BlockCancel`
and `GetExpired` on one manager, next to the rest of the process: ids are drawn
from a counter that all managers share, and expired timers are fired at any time.
The counter has 64 bits and is kept as a natural number.

* `CoTimerMgr.Consistent` — both indexes hold the same timers, in order;
* `CoTimerMgr.Consistent.expireAt`, `cancel`, `getExpired` — each operation keeps
  that, and what it does to the store;
* `TimerStore.store_invariant` — the run of a manager.
-/
import CppFeatures.Runs
import CppFeatures.Timer
import Mathlib.Data.List.TakeWhile

namespace CoTimerMgr

open List

variable {F : Type*} {m : CoTimerMgr F} {t : CoTimer F}

/-- The timers of the store, in the order of `deadlines_`. -/
def store (m : CoTimerMgr F) : List (CoTimer F) := m.deadlines_.map Prod.snd

/-- How many entries are due at `now`. -/
def dueCount (m : CoTimerMgr F) (now : ℤ) : ℕ := m.deadlines_.countP fun d => decide (d.1 ≤ now)

/-- Falls due earlier, or at the same time and was made earlier. -/
def Earlier (a b : CoTimer F) : Prop :=
  a.nextTimePoint_ < b.nextTimePoint_ ∨ a.nextTimePoint_ = b.nextTimePoint_ ∧ a.id_ < b.id_

/-- Both indexes hold the same timers, each once, under their own deadline and id. -/
structure Consistent (m : CoTimerMgr F) : Prop where
  key : ∀ d ∈ m.deadlines_, d.1 = d.2.nextTimePoint_
  nodup : (m.store.map CoTimer.id_).Nodup
  same : ∀ id t, m.timers_.lookup id = some t ↔ t ∈ m.store ∧ t.id_ = id
  sorted : m.store.Pairwise Earlier

theorem consistent_new : (new : CoTimerMgr F).Consistent where
  key := by simp [new]
  nodup := by simp [store, new]
  same := by simp [store, new]
  sorted := by simp [store, new]

/-! ### The operations -/

theorem store_expireAt_perm (m : CoTimerMgr F) (t : CoTimer F) :
    (m.expireAt t).store.Perm (t :: m.store) :=
  (insertDeadline_perm m.deadlines_ (t.nextTimePoint_, t)).map Prod.snd

/-- A timer younger than all others goes behind those with its deadline. -/
theorem pairwise_insertDeadline {ds : List (ℤ × CoTimer F)}
    (hkey : ∀ d ∈ ds, d.1 = d.2.nextTimePoint_) (hyoung : ∀ d ∈ ds, d.2.id_ < t.id_)
    (hs : (ds.map Prod.snd).Pairwise Earlier) :
    ((insertDeadline ds (t.nextTimePoint_, t)).map Prod.snd).Pairwise Earlier := by
  induction ds with
  | nil => simp [insertDeadline]
  | cons d ds ih =>
    have hd := hkey d mem_cons_self
    have hy := hyoung d mem_cons_self
    rw [map_cons, pairwise_cons] at hs
    rw [insertDeadline]
    split_ifs with hle
    · have ih := ih (fun d hd => hkey d (mem_cons_of_mem _ hd))
        (fun d hd => hyoung d (mem_cons_of_mem _ hd)) hs.2
      refine pairwise_cons.mpr ⟨fun b hb => ?_, ih⟩
      rw [((insertDeadline_perm ds _).map Prod.snd).mem_iff, map_cons, mem_cons] at hb
      rcases hb with rfl | hb
      · rw [hd] at hle
        rcases Int.lt_or_eq_of_le hle with hlt | heq
        · exact .inl hlt
        · exact .inr ⟨heq, hy⟩
      · exact hs.1 b hb
    · have hlt : t.nextTimePoint_ < d.2.nextTimePoint_ := by
        rw [← hd]
        exact Int.not_le.mp hle
      refine pairwise_cons.mpr ⟨fun b hb => ?_, pairwise_cons.mpr hs⟩
      rcases mem_cons.mp hb with rfl | hb
      · exact .inl hlt
      · rcases hs.1 b hb with h | h
        · exact .inl (Int.lt_trans hlt h)
        · exact .inl (h.1 ▸ hlt)

/-- **`ExpireAt`** puts a new timer into both indexes. -/
theorem Consistent.expireAt (h : m.Consistent) (hyoung : ∀ t' ∈ m.store, t'.id_ < t.id_) :
    (m.expireAt t).Consistent ∧ ∀ t', t' ∈ (m.expireAt t).store ↔ t' ∈ m.store ∨ t' = t := by
  have hperm := store_expireAt_perm m t
  have hmem : ∀ t', t' ∈ (m.expireAt t).store ↔ t' ∈ m.store ∨ t' = t := by
    intro t'
    rw [hperm.mem_iff, mem_cons, or_comm]
  refine ⟨⟨?_, ?_, ?_, ?_⟩, hmem⟩
  · intro d hd
    rcases mem_cons.mp ((insertDeadline_perm ..).mem_iff.mp hd) with rfl | hd
    · rfl
    · exact h.key d hd
  · rw [(hperm.map CoTimer.id_).nodup_iff]
    refine nodup_cons.mpr ⟨fun hm => ?_, h.nodup⟩
    obtain ⟨t', ht', hid⟩ := mem_map.mp hm
    exact absurd hid (hyoung t' ht').ne
  · intro id t'
    rw [hmem]
    show (m.timers_.insert t.id_ t).lookup id = some t' ↔ _
    by_cases hid : id = t.id_
    · subst hid
      rw [AList.lookup_insert, Option.some_inj]
      constructor
      · rintro rfl
        exact ⟨.inr rfl, rfl⟩
      · rintro ⟨ht' | ht', hid⟩
        · exact absurd hid (hyoung t' ht').ne
        · exact ht'.symm
    · rw [AList.lookup_insert_ne hid, h.same]
      constructor
      · rintro ⟨ht', hid'⟩
        exact ⟨.inl ht', hid'⟩
      · rintro ⟨ht' | rfl, hid'⟩
        · exact ⟨ht', hid'⟩
        · exact absurd hid'.symm hid
  · exact pairwise_insertDeadline h.key
      (fun d hd => hyoung d.2 (mem_map_of_mem hd)) h.sorted

/-- **`__Cancel`** takes the timer out of both indexes, and nothing else. -/
theorem Consistent.cancel (h : m.Consistent) (hsole : ∀ t' ∈ m.store, t'.id_ = t.id_ → t' = t) :
    (m.cancel t.id_ t.nextTimePoint_).Consistent ∧
      ∀ t', t' ∈ (m.cancel t.id_ t.nextTimePoint_).store ↔ t' ∈ m.store ∧ t' ≠ t := by
  rw [CoTimerMgr.cancel]
  cases hl : m.timers_.lookup t.id_ with
  | none =>
    have hnot : t ∉ m.store := fun ht => by
      rw [(h.same t.id_ t).mpr ⟨ht, rfl⟩] at hl
      cases hl
    exact ⟨h, fun t' => ⟨fun ht' => ⟨ht', fun e => hnot (e ▸ ht')⟩, And.left⟩⟩
  | some u =>
    obtain ⟨hu, hid⟩ := (h.same _ _).mp hl
    have htmem : t ∈ m.store := hsole u hu hid ▸ hu
    obtain ⟨d, hd, hdt⟩ := mem_map.mp htmem
    obtain ⟨e, as, bs, -, hpe, hsplit, herase⟩ := exists_of_eraseP
      (p := fun d => decide (d.1 = t.nextTimePoint_) && decide (d.2.id_ = t.id_)) hd
      (by simp [h.key d hd, hdt])
    -- the entry that `eraseP` finds is the one of `t`
    have het : e.2 = t := by
      simp only [Bool.and_eq_true, decide_eq_true_eq] at hpe
      exact hsole e.2 (mem_map_of_mem (hsplit ▸ by simp)) hpe.2
    have hstore : m.store = as.map Prod.snd ++ t :: bs.map Prod.snd := by
      rw [store, hsplit, map_append, map_cons, het]
    have hsub : (as.map Prod.snd ++ bs.map Prod.snd).Sublist m.store := by
      rw [hstore]
      exact (List.Sublist.refl _).append (sublist_cons_self ..)
    have hnodup : m.store.Nodup := List.Nodup.of_map _ h.nodup
    have hmem : ∀ t', t' ∈ as.map Prod.snd ++ bs.map Prod.snd ↔ t' ∈ m.store ∧ t' ≠ t := by
      intro t'
      rw [hstore] at hnodup ⊢
      have hnot := (nodup_cons.mp (perm_middle.nodup_iff.mp hnodup)).1
      constructor
      · intro ht'
        refine ⟨?_, fun e => hnot (e ▸ ht')⟩
        rw [mem_append] at ht' ⊢
        exact ht'.imp_right (mem_cons_of_mem t)
      · rintro ⟨ht', hne⟩
        rw [mem_append] at ht' ⊢
        exact ht'.imp_right fun hm => (mem_cons.mp hm).resolve_left hne
    simp only [herase]
    have hstore' : store ⟨m.timers_.erase t.id_, as ++ bs⟩ = as.map Prod.snd ++ bs.map Prod.snd :=
      map_append
    refine ⟨⟨?_, ?_, ?_, ?_⟩, fun t' => by rw [hstore']; exact hmem t'⟩
    · intro d hd
      refine h.key d ?_
      rw [hsplit]
      rw [mem_append] at hd ⊢
      exact hd.imp_right (mem_cons_of_mem e)
    · rw [hstore']
      exact h.nodup.sublist (hsub.map _)
    · intro id t'
      rw [hstore', hmem]
      by_cases hid' : id = t.id_
      · subst hid'
        simp only [AList.lookup_erase]
        constructor
        · intro hc
          cases hc
        · rintro ⟨⟨ht', hne⟩, heq⟩
          exact absurd (hsole t' ht' heq) hne
      · rw [AList.lookup_erase_ne hid', h.same]
        constructor
        · rintro ⟨ht', heq⟩
          exact ⟨⟨ht', fun e => hid' (e ▸ heq.symm)⟩, heq⟩
        · rintro ⟨⟨ht', -⟩, heq⟩
          exact ⟨ht', heq⟩
    · rw [hstore']
      exact h.sorted.sublist hsub

theorem lookup_foldl_erase (ds : List (ℤ × CoTimer F)) (ts : AList fun _ : ℕ => CoTimer F)
    (id : ℕ) : (ds.foldl (fun ts d => ts.erase d.2.id_) ts).lookup id
      = if id ∈ ds.map (fun d => d.2.id_) then none else ts.lookup id := by
  induction ds generalizing ts with
  | nil => simp
  | cons d ds ih =>
    rw [foldl_cons, ih, map_cons]
    by_cases hid : id = d.2.id_
    · subst hid
      simp
    · rw [AList.lookup_erase_ne hid]
      simp only [mem_cons, hid, false_or]

/-- In a list where `p` passes from an entry to all entries before it, the entries
with `p` stand in front. -/
theorem takeWhile_eq_filter_of_pairwise {α : Type*} {p : α → Bool} {l : List α}
    (h : l.Pairwise fun a b => p b = true → p a = true) : l.takeWhile p = l.filter p := by
  induction l with
  | nil => rfl
  | cons a l ih =>
    obtain ⟨ha, hl⟩ := pairwise_cons.mp h
    by_cases hp : p a = true
    · rw [takeWhile_cons_of_pos hp, filter_cons_of_pos hp, ih hl]
    · rw [takeWhile_cons_of_neg hp, filter_cons_of_neg hp]
      exact (filter_eq_nil_iff.mpr fun b hb hpb => hp (ha b hb hpb)).symm

/-- The entries that `GetExpired` hands out. -/
theorem Consistent.due_eq (h : m.Consistent) (now : ℤ) (n : ℕ) :
    (m.deadlines_.takeWhile fun d => decide (d.1 ≤ now)).take n
      = m.deadlines_.take (min n (m.dueCount now)) := by
  have hpair : m.deadlines_.Pairwise fun a b => decide (b.1 ≤ now) = true →
      decide (a.1 ≤ now) = true := by
    refine (pairwise_map.mp h.sorted).imp_of_mem fun {a b} ha hb hab hle => ?_
    have hle := of_decide_eq_true hle
    rw [Earlier, ← h.key a ha, ← h.key b hb] at hab
    exact decide_eq_true (by omega)
  have hlen : (m.deadlines_.takeWhile fun d => decide (d.1 ≤ now)).length = m.dueCount now := by
    rw [takeWhile_eq_filter_of_pairwise hpair, dueCount, countP_eq_length_filter]
  obtain ⟨rest, hrest⟩ := takeWhile_prefix (l := m.deadlines_) fun d => decide (d.1 ≤ now)
  conv_rhs => rw [← hrest]
  rw [← hlen, take_append_of_le_length (Nat.min_le_right ..), take_eq_take_min]

/-- **`GetExpired`** hands out the first `n` due timers, or all that are due, and takes
exactly them out of both indexes. -/
theorem Consistent.getExpired (h : m.Consistent) (now : ℤ) (n : ℕ) :
    (m.getExpired now n).2.Consistent ∧
      (m.getExpired now n).1 = m.store.take (min n (m.dueCount now)) ∧
      (m.getExpired now n).2.store = m.store.drop (min n (m.dueCount now)) ∧
      ∀ t ∈ (m.getExpired now n).1, t.nextTimePoint_ ≤ now := by
  have hdue : ∀ t ∈ (m.getExpired now n).1, t.nextTimePoint_ ≤ now := by
    intro t ht
    obtain ⟨d, hd, rfl⟩ := mem_map.mp ht
    have hd := mem_of_mem_take hd
    rw [← h.key d ((List.takeWhile_prefix _).mem hd)]
    have hp := mem_takeWhile_imp hd
    exact of_decide_eq_true hp
  have hexp : m.getExpired now n = ((m.deadlines_.take (min n (m.dueCount now))).map Prod.snd,
      ⟨(m.deadlines_.take (min n (m.dueCount now))).foldl (fun ts d => ts.erase d.2.id_) m.timers_,
        m.deadlines_.drop (min n (m.dueCount now))⟩) := by
    have hle : min n (m.dueCount now) ≤ m.deadlines_.length :=
      (Nat.min_le_right ..).trans countP_le_length
    rw [CoTimerMgr.getExpired, h.due_eq]
    simp only [length_take, Nat.min_eq_left hle]
  generalize hk : min n (m.dueCount now) = k at hexp
  have hstore : m.store = m.store.take k ++ m.store.drop k := (take_append_drop ..).symm
  have hnd := h.nodup
  rw [hstore, map_append, nodup_append] at hnd
  rw [hexp] at hdue ⊢
  have hdrop : store ⟨(m.deadlines_.take k).foldl (fun ts d => ts.erase d.2.id_) m.timers_,
      m.deadlines_.drop k⟩ = m.store.drop k := map_drop
  have hids : (m.deadlines_.take k).map (fun d => d.2.id_)
      = (m.store.take k).map CoTimer.id_ := by
    rw [store, ← map_take, map_map]
    rfl
  refine ⟨⟨?_, ?_, ?_, ?_⟩, map_take, hdrop, hdue⟩
  · exact fun d hd => h.key d (mem_of_mem_drop hd)
  · rw [hdrop]
    exact hnd.2.1
  · intro id t
    rw [hdrop, lookup_foldl_erase, hids]
    split_ifs with hid
    · constructor
      · intro hc
        cases hc
      · rintro ⟨ht, rfl⟩
        exact absurd rfl (hnd.2.2 _ hid _ (mem_map_of_mem ht))
    · rw [h.same, hstore, mem_append]
      constructor
      · rintro ⟨ht | ht, rfl⟩
        · exact absurd (mem_map_of_mem ht) hid
        · exact ⟨by rwa [← hstore], rfl⟩
      · rintro ⟨ht, heq⟩
        rw [← hstore] at ht
        exact ⟨.inr ht, heq⟩
  · rw [hdrop]
    exact h.sorted.sublist (drop_sublist ..)

end CoTimerMgr

/-! ### Runs of one manager -/

/-- One manager among the timers of the process.  The last three members record the
calls: the timers made by `ExpireAt`, those whose cancel returned `true`, and those
handed out, with the time of the call. -/
structure TimerStore (F : Type*) where
  heap : TimerHeap
  mgr : CoTimerMgr F
  added : List (CoTimer F)
  cancelled : List (CoTimer F)
  handed : List (ℤ × CoTimer F)

namespace TimerStore

open List

variable {F : Type*}

/-- The calls on the manager.  `Cancel` may find the lock of its timer `busy`.  The
last two are what others do: a timer is made by another manager, or fired. -/
inductive Act (F : Type*)
  | expireAt (timePoint : ℤ) (fn : F)
  | cancel (id : ℕ) (busy : Bool)
  | blockCancel (id : ℕ)
  | getExpired (now : ℤ) (n : ℕ)
  | newElsewhere
  | fire (id : ℕ)

def Init (s : TimerStore F) : Prop :=
  s.mgr = .new ∧ s.added = [] ∧ s.cancelled = [] ∧ s.handed = []

/-- `Cancel` and `BlockCancel`, with the lock of the timer. -/
def settle (s : TimerStore F) (t : CoTimer F) : TimerStore F :=
  let (heap, active) := s.heap.deactivate t.id_
  if active then { s with
    heap := heap
    mgr := s.mgr.cancel t.id_ t.nextTimePoint_
    cancelled := s.cancelled ++ [t] }
  else s

/-- One call.  Only timers that the manager made are cancelled. -/
def step (s : TimerStore F) : Act F → Option (TimerStore F)
  | .expireAt timePoint fn =>
    let t : CoTimer F := ⟨s.heap.new.sId, fn, timePoint⟩
    some { s with heap := s.heap.new, mgr := s.mgr.expireAt t, added := s.added ++ [t] }
  | .cancel id busy => (s.added.find? fun t => decide (t.id_ = id)).map fun t =>
      if busy then s else s.settle t
  | .blockCancel id => (s.added.find? fun t => decide (t.id_ = id)).map s.settle
  | .getExpired now n =>
    let (result, mgr) := s.mgr.getExpired now n
    some { s with mgr := mgr, handed := s.handed ++ result.map fun t => (now, t) }
  | .newElsewhere => some { s with heap := s.heap.new }
  | .fire id => some { s with heap := (s.heap.deactivate id).1 }

/-- The timers that have been handed out. -/
def handedOut (s : TimerStore F) : List (CoTimer F) := s.handed.map Prod.snd

structure Inv (s : TimerStore F) : Prop where
  consistent : s.mgr.Consistent
  ids : s.added.Pairwise fun a b => a.id_ < b.id_
  le_sId : ∀ t ∈ s.added, t.id_ ≤ s.heap.sId
  handed_sub : ∀ t ∈ s.handedOut, t ∈ s.added
  cancelled_sub : ∀ t ∈ s.cancelled, t ∈ s.added
  mem : ∀ t, t ∈ s.mgr.store ↔ t ∈ s.added ∧ t ∉ s.cancelled ∧ t ∉ s.handedOut
  once : s.handedOut.Nodup
  due : ∀ e ∈ s.handed, e.2.nextTimePoint_ ≤ e.1

theorem inv_init {s : TimerStore F} (h : Init s) : Inv s := by
  obtain ⟨hm, ha, hc, hh⟩ := h
  have hstore : s.mgr.store = [] := by rw [hm]; rfl
  refine ⟨hm ▸ CoTimerMgr.consistent_new, ?_, ?_, ?_, ?_, ?_, ?_, ?_⟩ <;>
    simp [handedOut, ha, hc, hh, hstore]

theorem Inv.eq_of_id {s : TimerStore F} (h : Inv s) {a b : CoTimer F} (ha : a ∈ s.added)
    (hb : b ∈ s.added) (hid : a.id_ = b.id_) : a = b := by
  have hnodup : (s.added.map CoTimer.id_).Nodup :=
    pairwise_map.mpr (h.ids.imp fun hlt => hlt.ne)
  exact inj_on_of_nodup_map hnodup ha hb hid

theorem Inv.settle {s : TimerStore F} (h : Inv s) {t : CoTimer F} (ht : t ∈ s.added) :
    Inv (s.settle t) := by
  by_cases hact : s.heap.active_ t.id_ = true
  · obtain ⟨hcons, hmem⟩ := h.consistent.cancel (t := t)
      fun t' ht' hid => h.eq_of_id ((h.mem t').mp ht').1 ht hid
    simp only [TimerStore.settle, TimerHeap.deactivate, hact, if_true]
    refine ⟨hcons, h.ids, h.le_sId, h.handed_sub, ?_, fun t' => ?_, h.once, h.due⟩
    · intro t' ht'
      rcases mem_append.mp ht' with ht' | ht'
      · exact h.cancelled_sub t' ht'
      · exact mem_singleton.mp ht' ▸ ht
    · show t' ∈ (s.mgr.cancel t.id_ t.nextTimePoint_).store ↔
        t' ∈ s.added ∧ t' ∉ s.cancelled ++ [t] ∧ t' ∉ s.handedOut
      rw [hmem, h.mem, mem_append, mem_singleton]
      tauto
  · simp only [TimerStore.settle, TimerHeap.deactivate, hact]
    exact h

/-- **One call** keeps the invariant. -/
theorem step_inv {s s' : TimerStore F} {a : Act F} (h : Inv s) (hst : s.step a = some s') :
    Inv s' := by
  have hfind : ∀ {id t}, s.added.find? (fun t => decide (t.id_ = id)) = some t → t ∈ s.added :=
    fun hf => mem_of_find?_eq_some hf
  cases a with
  | expireAt timePoint fn =>
    rw [step, Option.some_inj] at hst
    subst hst
    have hyoung : ∀ t ∈ s.added, t.id_ < s.heap.new.sId := fun t ht =>
      Nat.lt_succ_of_le (h.le_sId t ht)
    obtain ⟨hcons, hmem⟩ := h.consistent.expireAt (t := ⟨s.heap.new.sId, fn, timePoint⟩)
      fun t ht => hyoung t ((h.mem t).mp ht).1
    refine ⟨hcons, ?_, ?_, ?_, ?_, fun t => ?_, h.once, h.due⟩
    · exact pairwise_append.mpr ⟨h.ids, pairwise_singleton .., fun a ha b hb => by
        rw [mem_singleton] at hb
        exact hb ▸ hyoung a ha⟩
    · intro t ht
      rcases mem_append.mp ht with ht | ht
      · exact (hyoung t ht).le
      · rw [mem_singleton.mp ht]
    · exact fun t ht => mem_append_left _ (h.handed_sub t ht)
    · exact fun t ht => mem_append_left _ (h.cancelled_sub t ht)
    · show t ∈ (s.mgr.expireAt _).store ↔ t ∈ s.added ++ [_] ∧ t ∉ s.cancelled ∧ t ∉ s.handedOut
      rw [hmem, h.mem, mem_append, mem_singleton]
      constructor
      · rintro (⟨ht, hrest⟩ | rfl)
        · exact ⟨.inl ht, hrest⟩
        · -- the new timer has an id of its own
          exact ⟨.inr rfl, fun hc => (hyoung _ (h.cancelled_sub _ hc)).ne rfl,
            fun hh => (hyoung _ (h.handed_sub _ hh)).ne rfl⟩
      · rintro ⟨ht | ht, hrest⟩
        · exact .inl ⟨ht, hrest⟩
        · exact .inr ht
  | cancel id busy =>
    obtain ⟨t, hf, rfl⟩ := Option.map_eq_some_iff.mp hst
    split_ifs
    · exact h
    · exact h.settle (hfind hf)
  | blockCancel id =>
    obtain ⟨t, hf, rfl⟩ := Option.map_eq_some_iff.mp hst
    exact h.settle (hfind hf)
  | getExpired now n =>
    rw [step, Option.some_inj] at hst
    subst hst
    obtain ⟨hcons, hres, hstore, hdue⟩ := h.consistent.getExpired now n
    generalize min n (s.mgr.dueCount now) = k at hres hstore
    have hsplit : s.mgr.store = s.mgr.store.take k ++ s.mgr.store.drop k :=
      (take_append_drop ..).symm
    have hnodup : s.mgr.store.Nodup := List.Nodup.of_map _ h.consistent.nodup
    rw [hsplit] at hnodup
    obtain ⟨htake, -, hdisj⟩ := nodup_append.mp hnodup
    have hhanded : (s.handed ++ (s.mgr.getExpired now n).1.map fun t => (now, t)).map Prod.snd
        = s.handedOut ++ s.mgr.store.take k := by
      rw [map_append, map_map, hres]
      exact congrArg (s.handedOut ++ ·) (map_id _)
    have htaken : ∀ t ∈ s.mgr.store.take k, t ∈ s.added ∧ t ∉ s.cancelled ∧ t ∉ s.handedOut :=
      fun t ht => (h.mem t).mp (mem_of_mem_take ht)
    refine ⟨hcons, h.ids, h.le_sId, ?_, h.cancelled_sub, fun t => ?_, ?_, ?_⟩
    · intro t ht
      rw [handedOut, hhanded] at ht
      rcases mem_append.mp ht with ht | ht
      · exact h.handed_sub t ht
      · exact (htaken t ht).1
    · rw [handedOut, hhanded, mem_append]
      show t ∈ (s.mgr.getExpired now n).2.store ↔
        t ∈ s.added ∧ t ∉ s.cancelled ∧ ¬(t ∈ s.handedOut ∨ t ∈ s.mgr.store.take k)
      have hmem := h.mem t
      have hnot : t ∈ s.mgr.store.drop k → t ∉ s.mgr.store.take k := fun h1 h2 =>
        hdisj t h2 t h1 rfl
      rw [hsplit, mem_append] at hmem
      rw [hstore]
      tauto
    · rw [handedOut, hhanded]
      exact nodup_append.mpr ⟨h.once, htake, fun a ha b hb e => (htaken b hb).2.2 (e ▸ ha)⟩
    · intro e he
      rcases mem_append.mp he with he | he
      · exact h.due e he
      · obtain ⟨t, ht, rfl⟩ := mem_map.mp he
        exact hdue t ht
  | newElsewhere =>
    rw [step, Option.some_inj] at hst
    subst hst
    exact ⟨h.consistent, h.ids, fun t ht => (h.le_sId t ht).trans (Nat.le_succ _), h.handed_sub,
      h.cancelled_sub, h.mem, h.once, h.due⟩
  | fire id =>
    rw [step, Option.some_inj] at hst
    subst hst
    exact ⟨h.consistent, h.ids, h.le_sId, h.handed_sub, h.cancelled_sub, h.mem, h.once, h.due⟩

theorem reach_inv : ∀ s : TimerStore F, Reach Init step s → Inv s :=
  ReachIf.invariant (fun _ h => inv_init h) fun _ _ _ h _ hst => step_inv h hst

/-- **The store of a manager.**  After any sequence of calls: the two indexes hold the
same timers, each once and under its own deadline, in the order of their deadlines
and, among equal ones, of their ids, that is, of the calls of `ExpireAt`; a timer is
in the store iff it was added, not cancelled and not handed out; `GetExpired` hands
out the first `min n (number of due entries)` timers of the store, all of them due,
and keeps the others; and no timer was handed out twice or before its deadline. -/
theorem store_invariant {s : TimerStore F} (hs : Reach Init step s) :
    s.mgr.Consistent ∧ s.added.Pairwise (fun a b => a.id_ < b.id_) ∧
      (∀ t, t ∈ s.mgr.store ↔ t ∈ s.added ∧ t ∉ s.cancelled ∧ t ∉ s.handedOut) ∧
      (∀ now n, (s.mgr.getExpired now n).1 = s.mgr.store.take (min n (s.mgr.dueCount now)) ∧
        (s.mgr.getExpired now n).2.store = s.mgr.store.drop (min n (s.mgr.dueCount now)) ∧
        (s.mgr.getExpired now n).2.Consistent ∧
        ∀ t ∈ (s.mgr.getExpired now n).1, t.nextTimePoint_ ≤ now) ∧
      s.handedOut.Nodup ∧ ∀ e ∈ s.handed, e.2.nextTimePoint_ ≤ e.1 := by
  have h := reach_inv s hs
  refine ⟨h.consistent, h.ids, h.mem, fun now n => ?_, h.once, h.due⟩
  obtain ⟨hcons, hres, hstore, hdue⟩ := h.consistent.getExpired now n
  exact ⟨hres, hstore, hcons, hdue⟩

-- the second timer is cancelled, the third falls due before the first
theorem store_invariant_cancelOne :
    ∃ s : TimerStore ℕ, exec step ⟨⟨0, fun _ => false⟩, .new, [], [], []⟩
        [.expireAt 7 0, .expireAt 5 0, .expireAt 3 0, .cancel 2 false, .getExpired 6 9] = some s ∧
      s.handedOut.map CoTimer.id_ = [3] ∧ s.mgr.store.map CoTimer.id_ = [1] ∧
      s.mgr.Consistent ∧ s.handedOut.Nodup := by
  refine ⟨_, rfl, rfl, rfl, ?_⟩
  have h := store_invariant (reach_exec
    [.expireAt 7 0, .expireAt 5 0, .expireAt 3 0, .cancel 2 false, .getExpired 6 9]
    (.start (⟨rfl, rfl, rfl, rfl⟩ : Init (⟨⟨0, fun _ => false⟩, .new, [], [], []⟩ : TimerStore ℕ))) rfl)
  exact ⟨h.1, h.2.2.2.2.1⟩

end TimerStore
