/-
The words of the parse engine (http/src/http_head.cpp).

`create_list` is called for one word after the other.  It goes on at the successor of a
character, or allocates a node if this is the error node, and asserts that the last
character still leads to the error node.

* `createLists` — the calls for a list of words;
* `createListFrom_grows` — a call grows the tree by its word;
* `createLists_reads` — where the words lead, in whatever order they were inserted.
-/
import CppFeatures.HttpEngine
import CppFeatures.Trie

namespace Http

open List Trie

/-! ### Nodes and links -/

theorem ParseEngineNode.next_cons (n : ParseEngineNode) (l : Link) (d : ℕ) :
    ParseEngineNode.next_ { n with links := l :: n.links } d = if d = l.c then l.node else n.next_ d := by
  rw [ParseEngineNode.next_, ParseEngineNode.next_, List.find?_cons]
  by_cases hd : d = l.c
  · rw [if_pos hd, decide_eq_true hd.symm]
  · rw [if_neg hd, decide_eq_false (Ne.symm hd)]

namespace Engine

/-- `p->next_[c]`. -/
def next_ (e : Engine) (p : NodePtr) (c : UInt8) : NodePtr := (e.node p).next_ c.toNat

/-- Reading by `next`, which looks up the upper case of a character. -/
def read (e : Engine) (p : NodePtr) (w : Bytes) : NodePtr :=
  w.foldl (fun p c => e.next_ p (toupper c)) p

theorem read_eq (e : Engine) (p : NodePtr) (w : Bytes) :
    e.read p w = follow e.next_ p (w.map toupper) := by
  rw [follow, foldl_map, read]

/-- After a call of `link`. -/
def linked (e : Engine) (p : NodePtr) (c : UInt8) (node : NodePtr) (save : ℕ) : Engine :=
  e.modify p fun n => { n with links := ⟨c.toNat, node, save⟩ :: n.links }

theorem length_linked (e : Engine) (p : NodePtr) (c : UInt8) (node : NodePtr) (save : ℕ) :
    (e.linked p c node save).length = e.length := length_modify ..

theorem next_linked {e : Engine} {p : NodePtr} (hp : p < e.length) (c : UInt8) (node : NodePtr) (save : ℕ) :
    (e.linked p c node save).next_ = fun q d => if q = p ∧ d = c then node else e.next_ q d := by
  funext q d
  rw [next_, next_, Engine.node, Engine.node, linked, getD_eq_getElem?_getD,
    getD_eq_getElem?_getD, List.getElem?_modify]
  by_cases hq : p = q
  · subst hq
    rw [List.getElem?_eq_getElem hp]
    simp [ParseEngineNode.next_cons, UInt8.toNat_inj]
  · have hne : ¬ (q = p ∧ d = c) := fun h => hq h.1.symm
    simp [hq, hne]

/-- A new node has the error node as every successor, and the others keep theirs. -/
theorem next_append_self (e : Engine) (err : NodePtr) (d : UInt8) :
    next_ (e ++ [⟨.indeterminate, .none, err, []⟩]) e.length d = err := by
  simp [next_, Engine.node, ParseEngineNode.next_]

theorem next_append_of_lt {e : Engine} {q : NodePtr} (hq : q < e.length) (n : ParseEngineNode) (d : UInt8) :
    next_ (e ++ [n]) q d = e.next_ q d := by
  simp [next_, Engine.node, getD_eq_getElem?_getD, List.getElem?_append_left hq]

end Engine

theorem createListFrom_last (endNode err : NodePtr) (save : ℕ) (c : UInt8) (pos : NodePtr) (e : Engine) :
    (createListFrom endNode err save [c.toNat] pos).run e
      = if e.next_ pos c = err then some ((), e.linked pos c endNode save) else none := by
  show (if (e.node pos).next_ c.toNat = err then linkChar pos c.toNat endNode save
    else failure : EngineM Unit).run e = _
  rw [Engine.next_]
  split_ifs
  · rfl
  · rfl

theorem createListFrom_cons (endNode err : NodePtr) (save : ℕ) (c : UInt8) {s : List ℕ} (hs : s ≠ [])
    (pos : NodePtr) (e : Engine) :
    (createListFrom endNode err save (c.toNat :: s) pos).run e
      = if e.next_ pos c = err then
          (createListFrom endNode err save s e.length).run
            (Engine.linked (e ++ [⟨.indeterminate, .none, err, []⟩]) pos c e.length save)
        else (createListFrom endNode err save s (e.next_ pos c)).run e := by
  obtain ⟨d, s, rfl⟩ := exists_cons_of_ne_nil hs
  show (if (e.node pos).next_ c.toNat = err then (do
      let node ← newNode (some err) .indeterminate .none
      linkChar pos c.toNat node save
      createListFrom endNode err save (d :: s) node)
    else createListFrom endNode err save (d :: s) ((e.node pos).next_ c.toNat) : EngineM Unit).run e = _
  rw [Engine.next_]
  split_ifs
  · rfl
  · rfl

/-! ### The tree grows -/

/-- The nodes of the tree: the first one, and those allocated since there were `n₀` nodes. -/
def InTree (n₀ start p : NodePtr) : Prop := p = start ∨ n₀ ≤ p

theorem not_inTree {n₀ start p : NodePtr} (hlt : p < n₀) (hne : p ≠ start) : ¬ InTree n₀ start p := by
  rintro (h | h)
  · exact hne h
  · exact Nat.not_lt.mpr h hlt

/-- The tree that `spell` describes is in the engine. -/
structure Grown (n₀ start err : NodePtr) (spell : Bytes → NodePtr) (e : Engine) : Prop where
  spells : Spells (InTree n₀ start) start err e.next_ spell
  bound : ∀ v, spell v < e.length
  err_lt : err < n₀
  le_length : n₀ ≤ e.length

section Grown

variable {n₀ start err : NodePtr} {spell : Bytes → NodePtr} {e : Engine}

theorem Grown.linked (h : Grown n₀ start err spell e) {v : Bytes} {c : UInt8} {t : NodePtr}
    (hv : InTree n₀ start (spell v)) (hc : spell (v ++ [c]) = err) (ht : t < e.length)
    (hfresh : InTree n₀ start t → (∀ u, spell u ≠ t) ∧ ∀ d, e.next_ t d = err) (save : ℕ) :
    Grown n₀ start err (Function.update spell (v ++ [c]) t) (e.linked (spell v) c t save) := by
  refine ⟨?_, fun u => ?_, h.err_lt, ?_⟩
  · rw [Engine.next_linked (h.bound v)]
    exact h.spells.link hv hc hfresh
  · rw [Engine.length_linked, Function.update_apply]
    split_ifs
    · exact ht
    · exact h.bound u
  · rw [Engine.length_linked]
    exact h.le_length

theorem Grown.append (h : Grown n₀ start err spell e) (n : ParseEngineNode) :
    Grown n₀ start err spell (e ++ [n]) := by
  have hle : e.length ≤ (e ++ [n]).length := by
    rw [length_append]
    omega
  refine ⟨h.spells.congr (fun c => ?_) (fun v c _ => ?_), fun v => ?_, h.err_lt, ?_⟩
  · exact Engine.next_append_of_lt (Nat.lt_of_lt_of_le h.err_lt h.le_length) n c
  · exact Engine.next_append_of_lt (h.bound v) n c
  · exact Nat.lt_of_lt_of_le (h.bound v) hle
  · exact Nat.le_trans h.le_length hle

/-- A new node for the beginning `v` and the character `c`. -/
theorem Grown.allocated (h : Grown n₀ start err spell e) {v : Bytes} {c : UInt8}
    (hv : InTree n₀ start (spell v)) (hc : spell (v ++ [c]) = err) (save : ℕ) :
    Grown n₀ start err (Function.update spell (v ++ [c]) e.length)
      (Engine.linked (e ++ [⟨.indeterminate, .none, err, []⟩]) (spell v) c e.length save) := by
  refine (h.append _).linked hv hc (by simp) (fun _ => ⟨fun u => ?_, fun d => ?_⟩) save
  · exact Nat.ne_of_lt (h.bound u)
  · exact Engine.next_append_self e err d

/-- **A call of `create_list`** from the node of `v` on, with the rest of the word `w`.  The
induction is on this rest. -/
theorem createListFrom_grows (h : Grown n₀ start err spell e) {t : NodePtr} (ht : t < n₀)
    (hts : t ≠ start) (save : ℕ) {v s w : Bytes} (hw : v ++ s = w) (hs : s ≠ [])
    (hv : InTree n₀ start (spell v))
    (hfree : ∀ u, u <+: w → InTree n₀ start (spell u) ∨ spell u = err) (hlast : spell w = err) :
    ∃ spell' e', (createListFrom t err save (s.map UInt8.toNat) (spell v)).run e = some ((), e') ∧
      Grown n₀ start err spell' e' ∧ Changes err w spell spell' ∧ spell' w = t := by
  induction s generalizing v spell e with
  | nil => exact absurd rfl hs
  | cons c s ih =>
    have hnext : e.next_ (spell v) c = spell (v ++ [c]) := h.spells.step v c hv
    by_cases hnil : s = []
    · -- the last character: the assertion holds
      subst hnil
      rw [hw] at hnext
      have hlt : t < e.length := Nat.lt_of_lt_of_le ht h.le_length
      have hgrown := h.linked hv (hw ▸ hlast) hlt (fun hin => absurd hin (not_inTree ht hts)) save
      rw [hw] at hgrown
      refine ⟨_, _, ?_, hgrown, changes_update (prefix_refl w) hlast t, Function.update_self ..⟩
      rw [map_singleton, createListFrom_last, hnext, if_pos hlast]
    · rw [map_cons, createListFrom_cons _ _ _ _ (by simpa using hnil), hnext]
      have hw' : v ++ [c] ++ s = w := by
        rw [append_assoc, singleton_append, hw]
      have hpre : v ++ [c] <+: w := ⟨s, hw'⟩
      by_cases herr : spell (v ++ [c]) = err
      · have hgrown := h.allocated hv herr save
        have hchange := changes_update hpre herr e.length
        generalize hspell : Function.update spell (v ++ [c]) e.length = spell₁ at hgrown hchange
        have hnode : spell₁ (v ++ [c]) = e.length := by rw [← hspell, Function.update_self]
        have hkept : ∀ u, u ≠ v ++ [c] → spell₁ u = spell u := fun u hu => by
          rw [← hspell, Function.update_of_ne hu]
        have hin : InTree n₀ start (spell₁ (v ++ [c])) := hnode ▸ .inr h.le_length
        have hlast' : spell₁ w = err := by
          rw [hkept w fun heq => hnil (append_right_eq_self.mp (hw'.trans heq)), hlast]
        have hfree' : ∀ u, u <+: w → InTree n₀ start (spell₁ u) ∨ spell₁ u = err := by
          intro u hu
          by_cases heq : u = v ++ [c]
          · exact .inl (heq ▸ hin)
          · rw [hkept u heq]
            exact hfree u hu
        obtain ⟨spell', e', hrun, hgrown', hchange', hend⟩ := ih hgrown hw' hnil hin hfree' hlast'
        refine ⟨spell', e', ?_, hgrown', hchange.trans hchange', hend⟩
        rw [if_pos herr, ← hrun, hnode]
      · rw [if_neg herr]
        exact ih h hw' hnil ((hfree _ hpre).resolve_right herr) hfree hlast

end Grown

/-! ### A list of words -/

/-- The arguments of a call of `create_list` that differ from word to word. -/
structure Word where
  s : Bytes
  endNode : NodePtr
  save : ℕ
deriving DecidableEq, Repr

/-- The calls of `create_list` for the words of a list. -/
def createLists (start errorNode : NodePtr) : List Word → EngineM Unit
  | [] => pure ()
  | x :: ws => do
    createListFrom x.endNode errorNode x.save (x.s.map UInt8.toNat) start
    createLists start errorNode ws

/-- A word with its end. -/
def Word.leaf (x : Word) : Bytes × NodePtr := (x.s, x.endNode)

/-- Neither word is a beginning of the other. -/
def Apart (x y : Bytes × NodePtr) : Prop := ¬ x.1 <+: y.1 ∧ ¬ y.1 <+: x.1

/-- **All the calls**, when the words of `done` are there already. -/
theorem createLists_grows {n₀ start err : NodePtr} {ws : List Word} {spell : Bytes → NodePtr}
    {e : Engine} (h : Grown n₀ start err spell e) {done : List (Bytes × NodePtr)}
    (hdone : Holds err spell done) (hne : ∀ x ∈ ws, x.s ≠ [])
    (hends : ∀ x ∈ ws, x.endNode < n₀ ∧ x.endNode ≠ start ∧ x.endNode ≠ err)
    (hapart : (done ++ ws.map Word.leaf).Pairwise Apart) :
    ∃ spell' e', (createLists start err ws).run e = some ((), e') ∧
      Grown n₀ start err spell' e' ∧ Holds err spell' (done ++ ws.map Word.leaf) := by
  induction ws generalizing spell e done with
  | nil => exact ⟨spell, e, rfl, h, by simpa using hdone⟩
  | cons x ws ih =>
    obtain ⟨hx, hws⟩ := forall_mem_cons.mp hne
    obtain ⟨⟨hlt, hstart, herr⟩, hends⟩ := forall_mem_cons.mp hends
    have hold : ∀ y ∈ done, Apart y x.leaf := fun y hy =>
      (pairwise_append.mp hapart).2.2 y hy x.leaf mem_cons_self
    have hlast : spell x.s = err := (hdone.spell_eq_err_iff h.spells hx).mpr fun y hy => (hold y hy).2
    obtain ⟨spell₁, e₁, hrun₁, hgrown₁, hchange, hend⟩ := createListFrom_grows h hlt hstart x.save
      (v := []) rfl hx (h.spells.spell_nil ▸ h.spells.inner_start)
      (fun u hu => hdone.inner_or_err h.spells (fun y hy => (hold y hy).1) hu) hlast
    have hsplit : done ++ (x :: ws).map Word.leaf = done ++ [(x.s, x.endNode)] ++ ws.map Word.leaf := by
      rw [map_cons, append_assoc]
      rfl
    rw [hsplit] at hapart ⊢
    obtain ⟨spell', e', hrun, hgrown, hholds⟩ := ih hgrown₁ (hdone.insert hchange hend herr) hws hends hapart
    refine ⟨spell', e', ?_, hgrown, hholds⟩
    rw [h.spells.spell_nil] at hrun₁
    rw [createLists, StateT.run_bind, hrun₁]
    exact hrun

/-- Before the first call nothing is spelled. -/
theorem grown_nil {start err : NodePtr} {e : Engine} (hstart : start < e.length) (herr : err < e.length)
    (hne : start ≠ err) (hloop : ∀ c, e.next_ err c = err) (hempty : ∀ c, e.next_ start c = err) :
    Grown e.length start err (fun v => if v = [] then start else err) e := by
  have hout : ¬ InTree e.length start err := not_inTree herr (Ne.symm hne)
  have hnil : ∀ v : Bytes, InTree e.length start (if v = [] then start else err) → v = [] := by
    intro v hv
    by_contra hcons
    rw [if_neg hcons] at hv
    exact hout hv
  refine ⟨⟨if_pos rfl, .inl rfl, hout, hloop, fun v c hv => ?_, fun v c _ => ?_, fun u v hu heq => ?_⟩,
    fun v => ?_, herr, Nat.le_refl _⟩
  · rw [hnil v hv]
    exact hempty c
  · exact if_neg (by simp)
  · have hu' := hnil u hu
    rw [heq] at hu
    rw [hu', hnil v hu]
  · split_ifs
    · exact hstart
    · exact herr

/-- `w` leads to an end exactly if it is a word with this end, and to the error node exactly if no
word begins with it. -/
def Reads (e : Engine) (start err : NodePtr) (ws : List Word) (w : Bytes) : Prop :=
  (∀ t, (∃ x ∈ ws, x.endNode = t) →
    (follow e.next_ start w = t ↔ ∃ x ∈ ws, x.s = w ∧ x.endNode = t)) ∧
  (follow e.next_ start w = err ↔ ∀ x ∈ ws, ¬ w <+: x.s)

theorem reads_of_holds {n₀ start err : NodePtr} {spell : Bytes → NodePtr} {e : Engine} {ws : List Word}
    (h : Grown n₀ start err spell e) (hh : Holds err spell (ws.map Word.leaf))
    (hends : ∀ x ∈ ws, x.endNode < n₀ ∧ x.endNode ≠ start ∧ x.endNode ≠ err) {w : Bytes} (hne : w ≠ [])
    (hw : ∀ x ∈ ws, x.s <+: w → x.s = w) : Reads e start err ws w := by
  have hfollow : follow e.next_ start w = spell w :=
    hh.follow_eq h.spells (forall_mem_map.mpr hw)
  refine ⟨fun t ht => ?_, ?_⟩
  · obtain ⟨y, hy, rfl⟩ := ht
    obtain ⟨hlt, hstart, herr⟩ := hends y hy
    rw [hfollow, hh.spell_eq_iff h.spells hne (not_inTree hlt hstart) herr, mem_map]
    simp [Word.leaf]
  · rw [hfollow, hh.spell_eq_err_iff h.spells hne]
    exact forall_mem_map

/-- **The words that the calls of `create_list` insert.**  From a node whose successors are all
the error node, which is another node and its own successor, words of which none is a beginning
of another, with ends that were there before and are neither this node nor the error node, can be
inserted in any order: no assertion fails, and every string that goes on behind none of the words
leads to an end exactly if it is a word with this end, and to the error node exactly if no word
begins with it.  So two orders lead the same strings to the same ends.  Reading by `next` leads
where the upper case of a string leads. -/
theorem createLists_reads {e : Engine} {start err : NodePtr} (hstart : start < e.length)
    (herr : err < e.length) (hne : start ≠ err) (hloop : ∀ c, e.next_ err c = err)
    (hempty : ∀ c, e.next_ start c = err) {ws : List Word} (hwords : ∀ x ∈ ws, x.s ≠ [])
    (hends : ∀ x ∈ ws, x.endNode < e.length ∧ x.endNode ≠ start ∧ x.endNode ≠ err)
    (hapart : ws.Pairwise fun x y => ¬ x.s <+: y.s ∧ ¬ y.s <+: x.s) :
    (∀ order : List Word, order.Perm ws → ∃ e', (createLists start err order).run e = some ((), e') ∧
      (∀ w : Bytes, w ≠ [] → (∀ x ∈ ws, x.s <+: w → x.s = w) → Reads e' start err ws w) ∧
      ∀ w : Bytes, e'.read start w = follow e'.next_ start (w.map toupper)) ∧
    (∀ (order order' : List Word) (e' e'' : Engine), order.Perm ws → order'.Perm ws →
      (createLists start err order).run e = some ((), e') →
      (createLists start err order').run e = some ((), e'') →
      ∀ w : Bytes, w ≠ [] → (∀ x ∈ ws, x.s <+: w → x.s = w) → ∀ t, (∃ x ∈ ws, x.endNode = t) →
        (follow e'.next_ start w = t ↔ follow e''.next_ start w = t)) := by
  have hnil : Holds err (fun v : Bytes => if v = [] then start else err) [] := by
    refine ⟨fun x hx => absurd hx not_mem_nil, fun v hv => .inl ?_⟩
    by_contra hcons
    exact hv (if_neg hcons)
  have hinsert : ∀ order : List Word, order.Perm ws →
      ∃ e', (createLists start err order).run e = some ((), e') ∧
        ∀ w : Bytes, w ≠ [] → (∀ x ∈ ws, x.s <+: w → x.s = w) → Reads e' start err ws w := by
    intro order hperm
    have hapart' : ([] ++ order.map Word.leaf).Pairwise Apart := by
      rw [nil_append, pairwise_map]
      exact (hperm.pairwise_iff fun h => ⟨h.2, h.1⟩).mpr hapart
    have hmem : ∀ {x}, x ∈ order ↔ x ∈ ws := hperm.mem_iff
    obtain ⟨spell, e', hrun, hgrown, hholds⟩ := createLists_grows
      (grown_nil hstart herr hne hloop hempty) hnil (fun x hx => hwords x (hmem.mp hx))
      (fun x hx => hends x (hmem.mp hx)) hapart'
    refine ⟨e', hrun, fun w hw hfree => ?_⟩
    have hreads := reads_of_holds hgrown hholds (fun x hx => hends x (hmem.mp hx)) hw
      fun x hx => hfree x (hmem.mp hx)
    simpa only [Reads, hmem] using hreads
  refine ⟨fun order hperm => ?_, fun order order' e' e'' hperm hperm' hrun hrun' w hw hfree t ht => ?_⟩
  · obtain ⟨e', hrun, hreads⟩ := hinsert order hperm
    exact ⟨e', hrun, hreads, e'.read_eq start⟩
  · obtain ⟨e₁, hrun₁, hreads⟩ := hinsert order hperm
    obtain ⟨e₂, hrun₂, hreads'⟩ := hinsert order' hperm'
    obtain rfl : e₁ = e' := congrArg Prod.snd (Option.some.inj (hrun₁.symm.trans hrun))
    obtain rfl : e₂ = e'' := congrArg Prod.snd (Option.some.inj (hrun₂.symm.trans hrun'))
    rw [(hreads w hw hfree).1 t ht, (hreads' w hw hfree).1 t ht]

/-- The error node, the root, and the ends of the methods and of `STATUS`. -/
def rootEngine : Engine :=
  [⟨.error, .none, 0, []⟩, ⟨.indeterminate, .none, 0, []⟩, ⟨.indeterminate, .none, 0, []⟩,
    ⟨.indeterminate, .none, 0, []⟩]

/-- The words that a first line can begin with. -/
def firstWords : List Word :=
  [⟨bytes "GET", 2, 1⟩, ⟨bytes "POST", 2, 1⟩, ⟨bytes "PUT", 2, 1⟩, ⟨bytes "DELETE", 2, 1⟩,
    ⟨bytes "TRACE", 2, 1⟩, ⟨bytes "CONNECT", 2, 1⟩, ⟨bytes "HEAD", 2, 1⟩, ⟨bytes "OPTIONS", 2, 1⟩,
    ⟨bytes "STATUS", 3, 0⟩]

/-- With these words, inserted from the last to the first, `post` is read as a method and `pu` is
the beginning of one, while `pa` is not. -/
theorem createLists_firstWords : ∃ e', (createLists 1 0 firstWords.reverse).run rootEngine = some ((), e') ∧
    e'.read 1 (bytes "post") = 2 ∧ e'.read 1 (bytes "pu") ≠ 0 ∧ e'.read 1 (bytes "pa") = 0 := by
  obtain ⟨e', hrun, hreads, hread⟩ := (@createLists_reads rootEngine 1 0 (by decide) (by decide)
    (by decide) (fun _ => rfl) (fun _ => rfl) firstWords (by decide) (by decide)
    (by decide)).1 _ firstWords.reverse_perm
  refine ⟨e', hrun, ?_, ?_, ?_⟩
  · rw [hread]
    exact ((hreads _ (by decide) (by decide)).1 2 (by decide)).mpr (by decide)
  · rw [hread]
    exact (hreads _ (by decide) (by decide)).2.not.mpr (by decide)
  · rw [hread]
    exact (hreads _ (by decide) (by decide)).2.mpr (by decide)

/-- From the error node itself, `ab` is inserted so that `xa` no longer leads to the error node; and
read by `next`, the word `GET` is found in `get`, and the word `get` is not. -/
theorem createLists_from_err :
    (∀ c, rootEngine.next_ 0 c = 0) ∧
    ((createLists 0 0 [⟨bytes "ab", 2, 1⟩]).run rootEngine).map (fun r => follow r.2.next_ 0 (bytes "xa"))
      = some 4 ∧
    ((createLists 1 0 [⟨bytes "GET", 2, 1⟩]).run rootEngine).map (fun r => r.2.read 1 (bytes "get"))
      = some 2 ∧
    ((createLists 1 0 [⟨bytes "get", 2, 1⟩]).run rootEngine).map (fun r => r.2.read 1 (bytes "get"))
      = some 0 :=
  ⟨fun _ => rfl, by decide, by decide, by decide⟩

end Http
