/-
Trees of words that grow inside a graph.

The nodes of a graph have a successor for each letter.  A tree of words grows from a node
`start`: a letter that leads nowhere leads to a node `err`, and the last letter of a word
leads to a node outside of the tree.  What the tree is, is said by one function: `spell v` is
where the letters of `v` lead.

* `Spells` — a graph has such a tree, with one inner node for each beginning;
* `Spells.link` — a new link keeps this;
* `Changes`, `Holds` — what inserting a word changes, and which words are there;
* `Holds.follow_eq`, `Holds.spell_eq_iff`, `Holds.spell_eq_err_iff` — where a word leads.
-/
import Mathlib.Data.List.Induction
import Mathlib.Logic.Function.Basic
import Mathlib.Tactic.Common

namespace Trie

variable {ν α : Type*}

/-- Following the letters of a word. -/
def follow (next : ν → α → ν) (p : ν) (w : List α) : ν := w.foldl next p

theorem follow_concat (next : ν → α → ν) (p : ν) (w : List α) (c : α) :
    follow next p (w ++ [c]) = next (follow next p w) c := by
  rw [follow, List.foldl_append]
  rfl

/-! ### The tree -/

section Spells

variable {Inner : ν → Prop} {start err : ν} {next : ν → α → ν} {spell : List α → ν}

/-- `spell` says where the words lead: from an inner node on, as its successors say, and from
elsewhere to `err`.  An inner node is reached by one word only. -/
structure Spells (Inner : ν → Prop) (start err : ν) (next : ν → α → ν) (spell : List α → ν) :
    Prop where
  spell_nil : spell [] = start
  inner_start : Inner start
  not_inner_err : ¬ Inner err
  loop : ∀ c, next err c = err
  step : ∀ v c, Inner (spell v) → next (spell v) c = spell (v ++ [c])
  outer : ∀ v c, ¬ Inner (spell v) → spell (v ++ [c]) = err
  inj : ∀ u v, Inner (spell u) → spell u = spell v → u = v

/-- The successors of other nodes do not matter. -/
theorem Spells.congr {next' : ν → α → ν} (h : Spells Inner start err next spell)
    (herr : ∀ c, next' err c = next err c)
    (hinner : ∀ v c, Inner (spell v) → next' (spell v) c = next (spell v) c) :
    Spells Inner start err next' spell :=
  { h with
    loop := fun c => (herr c).trans (h.loop c)
    step := fun v c hv => (hinner v c hv).trans (h.step v c hv) }

/-- **One link.**  A letter that led to `err` gets a successor: a node outside, or a new inner
node without successors. -/
theorem Spells.link [DecidableEq ν] [DecidableEq α] (h : Spells Inner start err next spell)
    {v : List α} {c : α} {t : ν} (hv : Inner (spell v)) (hc : spell (v ++ [c]) = err)
    (ht : Inner t → (∀ u, spell u ≠ t) ∧ ∀ d, next t d = err) :
    Spells Inner start err (fun p d => if p = spell v ∧ d = c then t else next p d)
      (Function.update spell (v ++ [c]) t) := by
  have hold : ∀ {u : List α}, u ≠ v ++ [c] → Function.update spell (v ++ [c]) t u = spell u :=
    fun hu => Function.update_of_ne hu t spell
  have hself : Function.update spell (v ++ [c]) t (v ++ [c]) = t := Function.update_self ..
  -- nothing is spelled behind the new successor
  have hbehind : ∀ d, Function.update spell (v ++ [c]) t (v ++ [c] ++ [d]) = err := by
    intro d
    rw [hold (by simp)]
    exact h.outer _ _ (hc ▸ h.not_inner_err)
  refine ⟨?_, h.inner_start, h.not_inner_err, fun d => ?_, fun u d hu => ?_, fun u d hu => ?_,
    fun u u' hu heq => ?_⟩
  · rw [hold (by simp), h.spell_nil]
  · have hne : ¬ (err = spell v ∧ d = c) := fun hp => h.not_inner_err (hp.1 ▸ hv)
    rw [if_neg hne, h.loop d]
  · by_cases huv : u = v ++ [c]
    · rw [huv, hself] at hu ⊢
      obtain ⟨hfresh, hempty⟩ := ht hu
      rw [if_neg (fun hp => hfresh v hp.1.symm), hempty, hbehind]
    · rw [hold huv] at hu ⊢
      by_cases hp : spell u = spell v ∧ d = c
      · rw [if_pos hp, h.inj u v hu hp.1, hp.2, hself]
      · rw [if_neg hp, h.step u d hu, hold]
        intro happ
        obtain ⟨rfl, hd⟩ := List.append_inj' happ rfl
        exact hp ⟨rfl, (List.cons.inj hd).1⟩
  · by_cases huv : u = v ++ [c]
    · rw [huv]
      exact hbehind d
    · rw [hold huv] at hu
      rw [hold, h.outer u d hu]
      intro happ
      obtain ⟨rfl, -⟩ := List.append_inj' happ rfl
      exact hu hv
  · by_cases huv : u = v ++ [c]
    · rw [huv, hself] at hu heq
      by_contra hne
      rw [hold (fun h' => hne (huv.trans h'.symm))] at heq
      exact (ht hu).1 u' heq.symm
    · rw [hold huv] at hu heq
      by_cases huv' : u' = v ++ [c]
      · rw [huv', hself] at heq
        exact absurd heq ((ht (heq ▸ hu)).1 u)
      · rw [hold huv'] at heq
        exact h.inj u u' hu heq

/-- What is in front of a word of the tree is inner. -/
theorem Spells.inner_of_prefix (h : Spells Inner start err next spell) {v w : List α}
    (hw : spell w ≠ err) (hv : v <+: w) (hne : v ≠ w) : Inner (spell v) := by
  by_contra hv'
  -- behind a node that is not inner everything leads to `err`
  have hbehind : ∀ x, x ≠ [] → spell (v ++ x) = err := by
    intro x
    induction x using List.reverseRecOn with
    | nil => exact fun hx => absurd rfl hx
    | append_singleton x c ih =>
      intro _
      rw [← List.append_assoc]
      by_cases hx : x = []
      · rw [hx, List.append_nil]
        exact h.outer v c hv'
      · exact h.outer _ c (ih hx ▸ h.not_inner_err)
  obtain ⟨x, rfl⟩ := hv
  refine hw (hbehind x fun hx => hne ?_)
  rw [hx, List.append_nil]

end Spells

/-! ### The words -/

section Words

variable {Inner : ν → Prop} {start err : ν} {next : ν → α → ν} {spell spell' spell'' : List α → ν}

/-- What inserting `w` may change: beginnings of `w` that led to `err`. -/
def Changes (err : ν) (w : List α) (spell spell' : List α → ν) : Prop :=
  ∀ v, spell' v ≠ spell v → spell v = err ∧ v <+: w

theorem Changes.trans {w : List α} (h : Changes err w spell spell') (h' : Changes err w spell' spell'') :
    Changes err w spell spell'' := by
  intro v hv
  by_cases hsame : spell' v = spell v
  · rw [← hsame] at hv ⊢
    exact h' v hv
  · exact h v hsame

theorem changes_update [DecidableEq α] {v w : List α} (hv : v <+: w) (herr : spell v = err) (t : ν) :
    Changes err w spell (Function.update spell v t) := by
  intro u hu
  obtain rfl : u = v := by
    by_contra hne
    exact hu (Function.update_of_ne hne t spell)
  exact ⟨herr, hv⟩

/-- The words of the tree, with their ends. -/
structure Holds (err : ν) (spell : List α → ν) (ws : List (List α × ν)) : Prop where
  ends : ∀ x ∈ ws, spell x.1 = x.2 ∧ x.2 ≠ err
  only : ∀ v, spell v ≠ err → v = [] ∨ ∃ x ∈ ws, v <+: x.1

variable {ws : List (List α × ν)}

/-- **One word more.** -/
theorem Holds.insert (h : Holds err spell ws) {w : List α} (hc : Changes err w spell spell')
    {t : ν} (hend : spell' w = t) (ht : t ≠ err) : Holds err spell' (ws ++ [(w, t)]) := by
  refine ⟨fun x hx => ?_, fun v hv => ?_⟩
  · rcases List.mem_append.mp hx with hx | hx
    · obtain ⟨hold, hne⟩ := h.ends x hx
      refine ⟨?_, hne⟩
      by_contra hnew
      rw [← hold] at hnew hne
      exact hne (hc _ hnew).1
    · rw [List.mem_singleton.mp hx]
      exact ⟨hend, ht⟩
  · by_cases hsame : spell' v = spell v
    · refine (h.only v (hsame ▸ hv)).imp_right ?_
      rintro ⟨x, hx, hpre⟩
      exact ⟨x, List.mem_append_left _ hx, hpre⟩
    · exact .inr ⟨(w, t), List.mem_append_right _ (List.mem_singleton_self _), (hc v hsame).2⟩

/-- A word leads to `err` exactly if no word of the tree begins with it. -/
theorem Holds.spell_eq_err_iff (hh : Holds err spell ws) (hs : Spells Inner start err next spell)
    {w : List α} (hne : w ≠ []) : spell w = err ↔ ∀ x ∈ ws, ¬ w <+: x.1 := by
  constructor
  · intro hw x hx hpre
    obtain ⟨hend, herr⟩ := hh.ends x hx
    by_cases heq : w = x.1
    · exact herr (hend.symm.trans (heq ▸ hw))
    · have hinner := hs.inner_of_prefix (hend ▸ herr) hpre heq
      exact hs.not_inner_err (hw ▸ hinner)
  · intro hfree
    by_contra hw
    rcases hh.only w hw with hnil | ⟨x, hx, hpre⟩
    · exact hne hnil
    · exact hfree x hx hpre

/-- A beginning of a word that goes on behind no word of the tree is inner or leads to `err`. -/
theorem Holds.inner_or_err (hh : Holds err spell ws) (hs : Spells Inner start err next spell)
    {v w : List α} (hfree : ∀ x ∈ ws, ¬ x.1 <+: w) (hv : v <+: w) :
    Inner (spell v) ∨ spell v = err := by
  by_cases herr : spell v = err
  · exact .inr herr
  · left
    rcases hh.only v herr with rfl | ⟨x, hx, hpre⟩
    · rw [hs.spell_nil]
      exact hs.inner_start
    · obtain ⟨hend, hne⟩ := hh.ends x hx
      refine hs.inner_of_prefix (hend ▸ hne) hpre fun heq => ?_
      exact hfree x hx (heq ▸ hv)

/-- A word leads to an end outside exactly if it is a word of the tree with this end. -/
theorem Holds.spell_eq_iff (hh : Holds err spell ws) (hs : Spells Inner start err next spell)
    {w : List α} (hne : w ≠ []) {t : ν} (ht : ¬ Inner t) (hterr : t ≠ err) :
    spell w = t ↔ (w, t) ∈ ws := by
  constructor
  · rintro rfl
    obtain ⟨x, hx, hpre⟩ := (hh.only w hterr).resolve_left hne
    obtain ⟨hend, herr⟩ := hh.ends x hx
    by_cases heq : w = x.1
    · rwa [heq, hend]
    · exact absurd (hs.inner_of_prefix (hend ▸ herr) hpre heq) ht
  · exact fun hx => (hh.ends (w, t) hx).1

/-- **Where a word leads** that goes on behind no word of the tree. -/
theorem Holds.follow_eq (hh : Holds err spell ws) (hs : Spells Inner start err next spell)
    {w : List α} (hw : ∀ x ∈ ws, x.1 <+: w → x.1 = w) : follow next start w = spell w := by
  induction w using List.reverseRecOn with
  | nil => exact hs.spell_nil.symm
  | append_singleton w c ih =>
    -- no word of the tree is a beginning of `w`
    have hfree : ∀ x ∈ ws, ¬ x.1 <+: w := by
      intro x hx hpre
      have heq := hw x hx (hpre.trans (List.prefix_append w [c]))
      have hlen := hpre.length_le
      rw [heq, List.length_append, List.length_singleton] at hlen
      omega
    rw [follow_concat, ih fun x hx hpre => absurd hpre (hfree x hx)]
    rcases hh.inner_or_err hs hfree (List.prefix_refl w) with hinner | herr
    · exact hs.step w c hinner
    · rw [hs.outer w c (herr ▸ hs.not_inner_err), herr, hs.loop]

end Words

end Trie
