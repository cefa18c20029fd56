/-
Items kept in a family of lists, each item in at most one of them.

A family `L : ι → List α` of containers places the items where `loc : α → Option ι`
says: the items of `L i` are exactly those with `loc a = some i`, each of them once.
Since `loc` is a function, no item is in two containers.

* `Places.relocate` — one item comes, goes or moves, said place by place;
* `Places.push`, `Places.remove`, `Places.move` — the same, for containers that are known;
* `Places.splice` — a whole container is emptied into another;
* `Places.moveAll` — a part of a container goes to another.
-/
import Mathlib.Data.List.Nodup
import Mathlib.Logic.Function.Basic
import Mathlib.Tactic.Common

variable {ι α : Type*} {L : ι → List α} {loc : α → Option ι}

/-- Every item is in the container that `loc` names, once, and in no other. -/
structure Places (L : ι → List α) (loc : α → Option ι) : Prop where
  nodup : ∀ i, (L i).Nodup
  mem : ∀ {i a}, a ∈ L i ↔ loc a = some i

theorem places_empty : Places (fun _ : ι => ([] : List α)) fun _ => none :=
  ⟨fun _ => .nil, by simp⟩

/-- An item is in one container only. -/
theorem Places.unique {i j : ι} {a : α} (h : Places L loc) (hi : a ∈ L i) (hj : a ∈ L j) :
    i = j := by
  have := (h.mem.mp hi).symm.trans (h.mem.mp hj)
  exact Option.some_inj.mp this

theorem Places.ne_none {i : ι} {a : α} (h : Places L loc) (ha : a ∈ L i) : loc a ≠ none := by
  simp [h.mem.mp ha]

/-- The order in a container does not matter. -/
theorem Places.perm {L' : ι → List α} (h : Places L loc) (hp : ∀ i, (L' i).Perm (L i)) :
    Places L' loc where
  nodup i := (hp i).nodup_iff.mpr (h.nodup i)
  mem := (hp _).mem_iff.trans h.mem

section Update

open Function

variable [DecidableEq ι] [DecidableEq α]

theorem places_iff_count :
    Places L loc ↔ ∀ i a, (L i).count a = if loc a = some i then 1 else 0 := by
  refine ⟨fun h i a => ?_, fun h => ⟨fun i => ?_, fun {i a} => ?_⟩⟩
  · split_ifs with ha
    · exact List.count_eq_one_of_mem (h.nodup i) (h.mem.mpr ha)
    · exact List.count_eq_zero.mpr fun hm => ha (h.mem.mp hm)
  · refine List.nodup_iff_count_le_one.mpr fun a => ?_
    rw [h]
    split_ifs <;> omega
  · rw [← List.count_pos_iff, h]
    split_ifs with ha <;> simp [ha]

/-- **One item** comes, goes or moves: at each place, what is there now and what left it are
what was there before and what came. -/
theorem Places.relocate {L' : ι → List α} {a : α} {z : Option ι} (h : Places L loc)
    (hk : ∀ k, (L' k ++ if loc a = some k then [a] else []).Perm
      (L k ++ if z = some k then [a] else [])) : Places L' (update loc a z) := by
  rw [places_iff_count] at h ⊢
  intro k b
  have hcount := (hk k).count_eq b
  rw [List.count_append, List.count_append, h k b] at hcount
  by_cases hb : b = a
  · subst hb
    rw [update_self]
    split_ifs at hcount ⊢ <;> simp at hcount ⊢ <;> omega
  · rw [update_of_ne hb]
    split_ifs at hcount ⊢ <;> simp [Ne.symm hb] at hcount ⊢ <;> omega

/-- **A new item** enters a container. -/
theorem Places.push {i : ι} {a : α} (h : Places L loc) (ha : loc a = none) :
    Places (update L i (L i ++ [a])) (update loc a (some i)) := by
  refine h.relocate fun k => .of_eq ?_
  rw [ha, update_apply]
  split_ifs <;> simp_all

/-- **An item leaves** its container. -/
theorem Places.remove {i : ι} {a : α} {xs : List α} (h : Places L loc)
    (hp : (L i).Perm (a :: xs)) :
    Places (update L i xs) (update loc a none) := by
  have ha : loc a = some i := h.mem.mp (hp.mem_iff.mpr List.mem_cons_self)
  refine h.relocate fun k => ?_
  by_cases hk : k = i
  · rw [hk, ha, update_self, if_pos rfl, if_neg (by simp), List.append_nil]
    exact (List.perm_append_singleton a xs).trans hp.symm
  · rw [ha, update_of_ne hk, if_neg (by simp [Ne.symm hk]), if_neg (by simp)]

/-- **An item moves** to the end of another container. -/
theorem Places.move {i j : ι} {a : α} {xs : List α} (h : Places L loc) (hij : j ≠ i)
    (hp : (L i).Perm (a :: xs)) :
    Places (update (update L i xs) j (L j ++ [a]))
      (update loc a (some j)) := by
  have := (h.remove hp).push (i := j) (a := a) (update_self ..)
  rwa [update_of_ne hij, update_idem] at this

omit [DecidableEq α] in
/-- **A container is emptied** into another. -/
theorem Places.splice {i j : ι} (h : Places L loc) (hij : j ≠ i) :
    Places (update (update L i []) j (L j ++ L i))
      fun a => if loc a = some i then some j else loc a := by
  classical
  rw [places_iff_count] at h ⊢
  intro k a
  grind [update_apply]

/-- **A part of a container** goes to the end of another. -/
theorem Places.moveAll {i j : ι} {xs ys : List α} (h : Places L loc) (hij : j ≠ i)
    (hp : (L i).Perm (ys ++ xs)) :
    Places (update (update L i xs) j (L j ++ ys))
      fun a => if a ∈ ys then some j else loc a := by
  rw [places_iff_count] at h ⊢
  intro k a
  have hi := hp.count_eq a
  grind [update_apply, List.count_eq_zero]

end Update
