/-
Regular expressions with groups, matched by backtracking.

A matcher of the Perl family tries the ways to match in a fixed order: the longest
repetition first, an optional part before its absence.  What follows a part is a
continuation, and the first way in which the continuation succeeds is the result.

* `Regex.search`, `Regex.fullMatch` — the matcher, and the match of a whole text;
* `Regex.Matches`, `Regex.search_sound` — what a match can be, apart from the order;
* `Regex.Takes` — what the matcher tries first, with a rule for each constructor.
-/
import Mathlib.Data.List.Basic
import Mathlib.Logic.Function.Basic
import Mathlib.Tactic.Common

/-- Regular expressions over characters `α`; only classes of characters are repeated. -/
inductive Regex (α : Type*)
  | chars (u : List α)
  | star (p : α → Bool)
  | plus (p : α → Bool)
  | seq (r s : Regex α)
  | opt (r : Regex α)
  | group (n : ℕ) (r : Regex α)

namespace Regex

open List

variable {α β : Type*}

/-- The text of each group; a group that took no part has none. -/
abbrev Captures (α : Type*) := ℕ → List α

/-! ### The matcher -/

/-- What is left after a repetition of a class, the longest repetition first. -/
@[simp] def splits (p : α → Bool) : List α → List (List α)
  | [] => [[]]
  | c :: s => if p c then splits p s ++ [c :: s] else [c :: s]

/-- Match a first part of the text and continue with the rest. -/
@[simp] def search [DecidableEq α] :
    Regex α → Captures α → List α → (Captures α → List α → Option β) → Option β
  | chars u, g, s, k => if u <+: s then k g (s.drop u.length) else none
  | star p, g, s, k => (splits p s).findSome? (k g)
  | plus p, g, s, k => match s with
    | [] => none
    | c :: s => if p c then (splits p s).findSome? (k g) else none
  | seq r r', g, s, k => search r g s fun g s => search r' g s k
  | opt r, g, s, k => (search r g s k).or (k g s)
  | group n r, g, s, k =>
    search r g s fun g s' => k (Function.update g n (s.take (s.length - s'.length))) s'

/-- Nothing may be left. -/
def atEnd : Captures α → List α → Option (Captures α)
  | g, [] => some g
  | _, _ :: _ => none

/-- The match of the whole text. -/
def fullMatch [DecidableEq α] (r : Regex α) (s : List α) : Option (Captures α) :=
  search r (fun _ => []) s atEnd

/-! ### What a match can be -/

/-- `u` is matched, and takes the groups `g` to `g'`. -/
inductive Matches : Regex α → Captures α → List α → Captures α → Prop
  | chars (u : List α) (g : Captures α) : Matches (.chars u) g u g
  | star {p : α → Bool} {u : List α} (g : Captures α) (h : ∀ c ∈ u, p c = true) :
      Matches (.star p) g u g
  | plus {p : α → Bool} {u : List α} (g : Captures α) (hne : u ≠ []) (h : ∀ c ∈ u, p c = true) :
      Matches (.plus p) g u g
  | seq {r r' : Regex α} {g g' g'' : Captures α} {u v : List α} (h : Matches r g u g')
      (h' : Matches r' g' v g'') : Matches (.seq r r') g (u ++ v) g''
  | opt {r : Regex α} {g g' : Captures α} {u : List α} (h : Matches r g u g') :
      Matches (.opt r) g u g'
  | absent (r : Regex α) (g : Captures α) : Matches (.opt r) g [] g
  | group {r : Regex α} {g g' : Captures α} {u : List α} (n : ℕ) (h : Matches r g u g') :
      Matches (.group n r) g u (Function.update g' n u)

theorem exists_of_mem_splits {p : α → Bool} {s t : List α} (h : t ∈ splits p s) :
    ∃ u, s = u ++ t ∧ ∀ c ∈ u, p c = true := by
  induction s with
  | nil => exact ⟨[], (mem_singleton.mp h).symm, forall_mem_nil _⟩
  | cons c s ih =>
    have hself : t = c :: s → ∃ u, c :: s = u ++ t ∧ ∀ c ∈ u, p c = true := fun he =>
      ⟨[], he.symm, forall_mem_nil _⟩
    rw [splits] at h
    split_ifs at h with hc
    · rcases mem_append.mp h with h | h
      · obtain ⟨u, rfl, hu⟩ := ih h
        exact ⟨c :: u, rfl, forall_mem_cons.mpr ⟨hc, hu⟩⟩
      · exact hself (mem_singleton.mp h)
    · exact hself (mem_singleton.mp h)

theorem exists_of_findSome?_splits {p : α → Bool} {s : List α} {k : List α → Option β} {b : β}
    (h : (splits p s).findSome? k = some b) :
    ∃ u t, s = u ++ t ∧ (∀ c ∈ u, p c = true) ∧ k t = some b := by
  obtain ⟨t, ht, hk⟩ := exists_of_findSome?_eq_some h
  obtain ⟨u, hs, hu⟩ := exists_of_mem_splits ht
  exact ⟨u, t, hs, hu, hk⟩

@[simp] theorem take_append_length_sub (u t : List α) :
    (u ++ t).take ((u ++ t).length - t.length) = u := by
  rw [length_append, Nat.add_sub_cancel, take_left]

/-- The groups of an expression. -/
def groups : Regex α → List ℕ
  | chars _ | star _ | plus _ => []
  | seq r s => groups r ++ groups s
  | opt r => groups r
  | group n r => n :: groups r

theorem Matches.apply_of_notMem {r : Regex α} {g g' : Captures α} {u : List α}
    (h : Matches r g u g') {n : ℕ} (hn : n ∉ groups r) : g' n = g n := by
  induction h with
  | chars | star | plus | absent => rfl
  | seq _ _ ih ih' =>
    rw [groups, mem_append, not_or] at hn
    rw [ih' hn.2, ih hn.1]
  | opt _ ih => exact ih hn
  | group m _ ih =>
    rw [groups, mem_cons, not_or] at hn
    rw [Function.update_of_ne hn.1, ih hn.2]

/-- An optional group, absent when its text is empty. -/
def put (g : Captures α) (n : ℕ) (u : List α) : Captures α :=
  if u = [] then g else Function.update g n u

theorem put_self {g : Captures α} {u : List α} (n : ℕ) (h : g n = []) : put g n u n = u := by
  rw [put]
  split_ifs with hu
  · rw [h, hu]
  · exact Function.update_self ..

theorem put_of_ne {g : Captures α} {u : List α} {n m : ℕ} (h : m ≠ n) : put g n u m = g m := by
  rw [put]
  split_ifs
  · rfl
  · exact Function.update_of_ne h ..

theorem Matches.eq_of_groups {r : Regex α} {g g' : Captures α} {u : List α} (h : Matches r g u g')
    (hr : groups r = []) : g' = g :=
  funext fun n => h.apply_of_notMem (by rw [hr]; exact not_mem_nil)

/-- An optional group that begins with given characters. -/
theorem Matches.optGroup {r : Regex α} {g g' : Captures α} {u w : List α} {n : ℕ}
    (h : Matches (.opt (.group n (.seq (.chars w) r))) g u g') :
    (u = [] ∧ g' = g) ∨ ∃ v g'', u = w ++ v ∧ Matches r g v g'' ∧ g' = Function.update g'' n u := by
  cases h with
  | absent => exact .inl ⟨rfl, rfl⟩
  | opt h =>
    cases h with
    | group _ h =>
      cases h with
      | seq hw hv =>
        cases hw
        exact .inr ⟨_, _, rfl, hv, rfl⟩

theorem Matches.optGroup_put {r : Regex α} {g g' : Captures α} {u w : List α} {n : ℕ}
    (h : Matches (.opt (.group n (.seq (.chars w) r))) g u g') (hr : groups r = []) (hw : w ≠ []) :
    (u = [] ∨ ∃ v, u = w ++ v ∧ Matches r g v g) ∧ g' = put g n u := by
  rcases h.optGroup with ⟨rfl, rfl⟩ | ⟨v, g'', rfl, hv, rfl⟩
  · exact ⟨.inl rfl, (if_pos rfl).symm⟩
  · obtain rfl := hv.eq_of_groups hr
    refine ⟨.inr ⟨v, rfl, hv⟩, ?_⟩
    rw [put, if_neg (by simp [hw])]

/-! ### Repetitions -/

section Splits

variable {p : α → Bool} {k : List α → Option β}

theorem mem_splits_append {u : List α} (hu : ∀ c ∈ u, p c = true) (t : List α) :
    t ∈ splits p (u ++ t) := by
  induction u with
  | nil =>
    cases t with
    | nil => exact mem_singleton_self _
    | cons c t =>
      rw [nil_append, splits]
      split_ifs
      · exact mem_append_right _ (mem_singleton_self _)
      · exact mem_singleton_self _
  | cons c u ih =>
    obtain ⟨hc, hu⟩ := forall_mem_cons.mp hu
    rw [cons_append, splits, if_pos hc]
    exact mem_append_left _ (ih hu)

theorem findSome?_splits_cons {c : α} {s : List α} (hc : p c = true) :
    (splits p (c :: s)).findSome? k = ((splits p s).findSome? k).or (k (c :: s)) := by
  rw [splits, if_pos hc, List.findSome?_append, List.findSome?_singleton]

/-- A longer repetition comes first. -/
theorem findSome?_splits_append {u s : List α} {b : β} (hu : ∀ c ∈ u, p c = true)
    (h : (splits p s).findSome? k = some b) : (splits p (u ++ s)).findSome? k = some b := by
  induction u with
  | nil => exact h
  | cons c u ih =>
    obtain ⟨hc, hu⟩ := forall_mem_cons.mp hu
    rw [cons_append, findSome?_splits_cons hc, ih hu]
    rfl

/-- A repetition that cannot be longer. -/
theorem findSome?_splits_last {u s : List α} {b : β} (hu : ∀ c ∈ u, p c = true) (hk : k s = some b)
    (hlast : ∀ v t, v ≠ [] → s = v ++ t → (∀ c ∈ v, p c = true) → k t = none) :
    (splits p (u ++ s)).findSome? k = some b := by
  refine findSome?_splits_append hu ?_
  cases s with
  | nil => exact List.findSome?_singleton.trans hk
  | cons c s =>
    by_cases hc : p c = true
    · have hnone : (splits p s).findSome? k = none := by
        rw [List.findSome?_eq_none_iff]
        intro t ht
        obtain ⟨v, rfl, hv⟩ := exists_of_mem_splits ht
        exact hlast (c :: v) t (cons_ne_nil c v) rfl (forall_mem_cons.mpr ⟨hc, hv⟩)
      rw [findSome?_splits_cons hc, hnone, Option.none_or]
      exact hk
    · rw [splits, if_neg hc]
      exact List.findSome?_singleton.trans hk

theorem findSome?_splits_of_stop {s : List α} (h : ∀ c ∈ s.head?, p c = false) :
    (splits p s).findSome? k = k s := by
  cases s with
  | nil => exact List.findSome?_singleton
  | cons c s =>
    rw [splits, if_neg (Bool.eq_false_iff.mp (h c rfl))]
    exact List.findSome?_singleton

end Splits

variable [DecidableEq α]

/-- **What the matcher returns is a match** of a first part, and what the continuation
returns for the rest. -/
theorem search_sound {r : Regex α} {g : Captures α} {s : List α}
    {k : Captures α → List α → Option β} {b : β} (h : search r g s k = some b) :
    ∃ g' u t, s = u ++ t ∧ Matches r g u g' ∧ k g' t = some b := by
  induction r generalizing g s k with
  | chars u =>
    rw [search] at h
    split_ifs at h with hp
    obtain ⟨t, rfl⟩ := hp
    rw [drop_left] at h
    exact ⟨g, u, t, rfl, .chars u g, h⟩
  | star p =>
    obtain ⟨u, t, hs, hu, hk⟩ := exists_of_findSome?_splits h
    exact ⟨g, u, t, hs, .star g hu, hk⟩
  | plus p =>
    cases s with
    | nil => cases h
    | cons c s =>
      rw [search] at h
      split_ifs at h with hc
      obtain ⟨u, t, rfl, hu, hk⟩ := exists_of_findSome?_splits h
      exact ⟨g, c :: u, t, rfl, .plus g (cons_ne_nil c u) (forall_mem_cons.mpr ⟨hc, hu⟩), hk⟩
  | seq r r' ih ih' =>
    obtain ⟨g', u, t, rfl, hu, hk⟩ := ih h
    obtain ⟨g'', v, t', rfl, hv, hk'⟩ := ih' hk
    exact ⟨g'', u ++ v, t', (append_assoc u v t').symm, .seq hu hv, hk'⟩
  | opt r ih =>
    rw [search, Option.or_eq_some_iff] at h
    rcases h with h | ⟨-, h⟩
    · obtain ⟨g', u, t, hs, hu, hk⟩ := ih h
      exact ⟨g', u, t, hs, .opt hu, hk⟩
    · exact ⟨g, [], s, rfl, .absent r g, h⟩
  | group n r ih =>
    obtain ⟨g', u, t, rfl, hu, hk⟩ := ih h
    rw [take_append_length_sub] at hk
    exact ⟨_, u, t, rfl, .group n hu, hk⟩

theorem matches_of_atEnd {r : Regex α} {s : List α} {g b : Captures α}
    (h : search r g s atEnd = some b) : Matches r g s b := by
  obtain ⟨g', u, t, rfl, hu, hk⟩ := search_sound h
  cases t with
  | nil =>
    cases hk
    rw [append_nil]
    exact hu
  | cons c t => cases hk

/-! ### What is tried first -/

/-- In front of `t`, the first thing that the matcher tries and that can succeed is `u`,
which takes the groups `g` to `g'`. -/
def Takes (r : Regex α) (g : Captures α) (u t : List α) (g' : Captures α) : Prop :=
  ∀ (k : Captures α → List α → Option (Captures α)) (b : Captures α),
    k g' t = some b → search r g (u ++ t) k = some b

section Takes

variable {r r' : Regex α} {g g' g'' : Captures α} {p : α → Bool} {u v t : List α}

theorem takes_chars : Takes (.chars u) g u t g := by
  intro k b hk
  rw [search, if_pos (prefix_append u t), drop_left]
  exact hk

/-- A repetition is as long as it can be. -/
theorem takes_star (hu : ∀ c ∈ u, p c = true) (ht : ∀ c ∈ t.head?, p c = false) :
    Takes (.star p) g u t g := by
  intro k b hk
  refine findSome?_splits_append hu ?_
  rw [findSome?_splits_of_stop ht]
  exact hk

theorem takes_plus (hne : u ≠ []) (hu : ∀ c ∈ u, p c = true) (ht : ∀ c ∈ t.head?, p c = false) :
    Takes (.plus p) g u t g := by
  obtain ⟨c, u, rfl⟩ := exists_cons_of_ne_nil hne
  obtain ⟨hc, hu⟩ := forall_mem_cons.mp hu
  intro k b hk
  rw [cons_append, search, if_pos hc]
  exact takes_star (g := g) hu ht k b hk

theorem Takes.seq (h : Takes r g u (v ++ t) g') (h' : Takes r' g' v t g'') :
    Takes (.seq r r') g (u ++ v) t g'' := by
  intro k b hk
  rw [append_assoc, search]
  exact h _ b (h' k b hk)

theorem Takes.opt (h : Takes r g u t g') : Takes (.opt r) g u t g' := by
  intro k b hk
  rw [search, h k b hk]
  rfl

theorem takes_absent (h : ∀ k : Captures α → List α → Option (Captures α), search r g t k = none) :
    Takes (.opt r) g [] t g := by
  intro k b hk
  rw [nil_append, search, h k]
  exact hk

theorem Takes.group (n : ℕ) (h : Takes r g u t g') :
    Takes (.group n r) g u t (Function.update g' n u) := by
  intro k b hk
  rw [search]
  refine h _ b ?_
  rw [take_append_length_sub]
  exact hk

theorem Takes.atEnd (h : Takes r g u [] g') : search r g u Regex.atEnd = some g' := by
  have := h Regex.atEnd g' rfl
  rwa [append_nil] at this

/-- An optional group that begins with given characters is there if they are. -/
theorem takes_optGroup {w : List α} (n : ℕ) (habsent : u = [] → ¬ w <+: t)
    (h : u ≠ [] → Takes (.seq (.chars w) r) g u t g') :
    Takes (.opt (.group n (.seq (.chars w) r))) g u t (if u = [] then g else Function.update g' n u) := by
  by_cases hu : u = []
  · subst hu
    rw [if_pos rfl]
    refine takes_absent fun k => ?_
    rw [search, search, search, if_neg (habsent rfl)]
  · rw [if_neg hu]
    exact ((h hu).group n).opt

end Takes

end Regex
