/-
The parse engine of `http_head` (http/src/http_head.cpp).

`__init_parse_root` allocates a graph of nodes, each with a table of 256 successors
and a table of 256 flags that say in which buffer a character is saved.  The tables
are filled by `link`, where a later call overrides an earlier one, and `create_list`
grows the tree of the words that a first line can begin with.

* `initParseRoot` — the graph, built by the same calls in the same order;
* `Place` — what each node stands for, with its successors written out;
* `engine_step` — every node of the graph moves as its place does.
-/
import Mathlib.Tactic.Common
import Mathlib.Data.Nat.Notation
import Mathlib.Data.List.Dedup
import Mathlib.Data.List.GetD

namespace Http

open List

/-! ### Nodes -/

abbrev Bytes := List UInt8

def bytes (s : String) : Bytes := s.toList.map Char.toUInt8

/-- `std::toupper`, in the C locale. -/
def toupper (c : UInt8) : UInt8 := if 97 ≤ c ∧ c ≤ 122 then c - 32 else c

/-- The indices that stand for the characters of a literal. -/
def codes (s : String) : List ℕ := s.toList.map Char.toNat

/-- `eParseState`. -/
inductive ParseState
  | indeterminate
  | error
  | done
deriving DecidableEq, Repr

/-- `eNodeResult`. -/
inductive NodeResult
  | none
  | method
  | path
  | status
  | verMajor
  | verMinor
  | kv
deriving DecidableEq, Repr

/-- The address of a node: how many were allocated before it. -/
abbrev NodePtr := ℕ

/-- A call of `link`. -/
structure Link where
  c : ℕ
  node : NodePtr
  save : ℕ
deriving DecidableEq, Repr

/-- `parse_engine_node`.  The tables are kept as the calls of `link` that filled them,
newest first. -/
structure ParseEngineNode where
  state_ : ParseState
  result_ : NodeResult
  errorNode : NodePtr
  links : List Link
deriving DecidableEq, Repr

namespace ParseEngineNode

def next_ (n : ParseEngineNode) (uc : ℕ) : NodePtr :=
  match n.links.find? fun l => decide (l.c = uc) with
  | some l => l.node
  | none => n.errorNode

def save_ (n : ParseEngineNode) (uc : ℕ) : ℕ :=
  match n.links.find? fun l => decide (l.c = uc) with
  | some l => l.save
  | none => 0

end ParseEngineNode

/-- The nodes by address. -/
abbrev Engine := List ParseEngineNode

/-- The node that a wild pointer is taken for. -/
def errNode : ParseEngineNode := ⟨.error, .none, 0, []⟩

def Engine.node (e : Engine) (p : NodePtr) : ParseEngineNode := e.getD p errNode

/-! ### Building the graph -/

/-- Building can fail in the `assert` of `create_list`. -/
abbrev EngineM := StateT Engine Option

-- `new parse_engine_node(error_node, state, result)`
def newNode (errorNode : Option NodePtr) (state : ParseState) (result : NodeResult) :
    EngineM NodePtr := fun e =>
  some (e.length, e ++ [⟨state, result, errorNode.getD e.length, []⟩])

-- `p->link(c, node, save)`
def linkChar (p : NodePtr) (c : ℕ) (node : NodePtr) (save : ℕ) : EngineM Unit :=
  modify fun e => e.modify p fun n => { n with links := ⟨c, node, save⟩ :: n.links }

-- `p->link(s, node, save)`
def link (p : NodePtr) (s : String) (node : NodePtr) (save : ℕ) : EngineM Unit := do
  for c in codes s do
    linkChar p c node save

def createListFrom (endNode errorNode : NodePtr) (save : ℕ) :
    List ℕ → NodePtr → EngineM Unit
  | [], _ => failure
  | [c], pos => do
    if ((← get).node pos).next_ c = errorNode then linkChar pos c endNode save else failure
  | c :: s, pos => do
    let next := ((← get).node pos).next_ c
    if next = errorNode then
      let node ← newNode (some errorNode) .indeterminate .none
      linkChar pos c node save
      createListFrom endNode errorNode save s node
    else createListFrom endNode errorNode save s next

def createList (s : String) (start endNode errorNode : NodePtr) (save : ℕ) : EngineM Unit :=
  createListFrom endNode errorNode save (codes s) start

-- `for (char c = lo; c < hi; ++c)`
def charRange (lo hi : ℕ) : List ℕ := List.range' lo (hi - lo)

/-- `__init_parse_root`. -/
def initParseRoot : EngineM NodePtr := do
  let err ← newNode none .error .none
  let root ← newNode (some err) .indeterminate .none

  -- line end (except first line)
  let sr ← newNode (some err) .indeterminate .kv
  let sn ← newNode (some err) .indeterminate .none
  link sr "\n" sn 0
  let endSr ← newNode (some err) .indeterminate .none
  let endSn ← newNode (some err) .done .none
  link sn "\r" endSr 0
  link endSr "\n" endSn 0

  -- method done
  let method ← newNode (some err) .indeterminate .method
  link method " \t" method 0
  let methodEnd ← newNode (some err) .indeterminate .none
  link methodEnd " \t" method 0
  createList "GET" root methodEnd err 1
  createList "POST" root methodEnd err 1
  createList "PUT" root methodEnd err 1
  createList "DELETE" root methodEnd err 1
  createList "TRACE" root methodEnd err 1
  createList "CONNECT" root methodEnd err 1
  createList "HEAD" root methodEnd err 1
  createList "OPTIONS" root methodEnd err 1

  -- path done
  let path ← newNode (some err) .indeterminate .path
  link path " \t" path 0
  let pathInfo ← newNode (some err) .indeterminate .none
  for c in charRange 33 127 do
    linkChar pathInfo c pathInfo 1
    linkChar method c pathInfo 1
  link method " \t" method 0
  link method "\r\n" err 0
  link pathInfo " \t" path 0
  link pathInfo "\r\n" err 0

  -- STATUS
  let status ← newNode (some err) .indeterminate .none
  link status " \t" status 0
  let statusEnd ← newNode (some err) .indeterminate .none
  link statusEnd " \t" status 0
  createList "STATUS" root statusEnd err 0

  -- status done
  let statusCode ← newNode (some err) .indeterminate .status
  link statusCode " \t" statusCode 0
  let statusCodeInfo ← newNode (some err) .indeterminate .none
  for c in charRange 48 58 do
    linkChar statusCodeInfo c statusCodeInfo 1
    linkChar status c statusCodeInfo 1
  link statusCodeInfo " \t" statusCode 0

  -- HTTP/1.1
  let versionMajor ← newNode (some err) .indeterminate .verMajor
  let versionMinor ← newNode (some err) .indeterminate .verMinor
  let versionMajorInfo ← newNode (some err) .indeterminate .none
  let versionMinorInfo ← newNode (some err) .indeterminate .none
  createList "HTTP/" statusCode versionMajorInfo err 0
  createList "HTTP/" path versionMajorInfo err 0
  for c in charRange 48 58 do
    linkChar versionMajorInfo c versionMajorInfo 1
  link versionMajorInfo "." versionMajor 0
  for c in charRange 48 58 do
    linkChar versionMinorInfo c versionMinorInfo 1
    linkChar versionMajor c versionMinorInfo 1
  link versionMinorInfo "\r" versionMinor 0
  link versionMinor "\n" sn 0

  -- key-value
  let keyInfo ← newNode (some err) .indeterminate .none
  let kvSpace1 ← newNode (some err) .indeterminate .none
  let kvSplit ← newNode (some err) .indeterminate .none
  let kvSpace2 ← newNode (some err) .indeterminate .none
  let valueInfo ← newNode (some err) .indeterminate .none
  for c in charRange 33 127 do
    linkChar sn c keyInfo 1
    linkChar keyInfo c keyInfo 1
  link keyInfo ":" kvSplit 0
  link keyInfo " \t" kvSpace1 0
  link kvSpace1 " \t" kvSpace1 0
  link kvSpace1 ":" kvSplit 0
  link kvSplit " \t" kvSpace2 0
  link kvSpace2 " \t" kvSpace2 0
  for c in charRange 33 127 do
    linkChar kvSpace2 c valueInfo 2
    linkChar kvSplit c valueInfo 2
    linkChar valueInfo c valueInfo 2
  link valueInfo "\r" sr 0
  return root

/-! ### What the nodes stand for -/

/-- A node of the graph.  `word w` has read the beginning `w` of a word, in upper case, and
`http w` the beginning `w` of `HTTP/`. -/
inductive Place
  | err
  | word (w : List ℕ)
  | methodEnd
  | method
  | pathInfo
  | path
  | statusEnd
  | status
  | statusCodeInfo
  | statusCode
  | http (w : List ℕ)
  | versionMajorInfo
  | versionMajor
  | versionMinorInfo
  | versionMinor
  | sn
  | keyInfo
  | kvSpace1
  | kvSplit
  | kvSpace2
  | valueInfo
  | sr
  | endSr
  | endSn
deriving DecidableEq, Repr

def methodWords : List (List ℕ) :=
  ["GET", "POST", "PUT", "DELETE", "TRACE", "CONNECT", "HEAD", "OPTIONS"].map codes

def statusWord : List ℕ := codes "STATUS"

def httpWord : List ℕ := codes "HTTP/"

def isWs (c : ℕ) : Bool := c == 32 || c == 9

def isDigit (c : ℕ) : Bool := decide (48 ≤ c) && decide (c ≤ 57)

-- the bytes of paths, keys and values
def isGraph (c : ℕ) : Bool := decide (33 ≤ c) && decide (c ≤ 126)

namespace Place

def state : Place → ParseState
  | err => .error
  | endSn => .done
  | _ => .indeterminate

def result : Place → NodeResult
  | method => .method
  | path => .path
  | statusCode => .status
  | versionMajor => .verMajor
  | versionMinor => .verMinor
  | sr => .kv
  | _ => .none

/-- Where the word `w` leads from the root, and whether its last character is saved. -/
def spell (w : List ℕ) : Place × ℕ :=
  match methodWords.find? fun x => w.isPrefixOf x with
  | some x => (if x = w then methodEnd else word w, 1)
  | none =>
    if w.isPrefixOf statusWord then (if statusWord = w then statusEnd else word w, 0) else (err, 0)

def spellHttp (w : List ℕ) : Place × ℕ :=
  if w.isPrefixOf httpWord then (if httpWord = w then versionMajorInfo else http w, 0)
  else (err, 0)

/-- The successor of a place, and the buffer in which the character is saved. -/
def step : Place → ℕ → Place × ℕ
  | err, _ => (err, 0)
  | word w, c => spell (w ++ [c])
  | methodEnd, c => if isWs c then (method, 0) else (err, 0)
  | method, c => if isWs c then (method, 0) else if isGraph c then (pathInfo, 1) else (err, 0)
  | pathInfo, c => if isWs c then (path, 0) else if isGraph c then (pathInfo, 1) else (err, 0)
  | path, c => if c = 72 then (http [72], 0) else if isWs c then (path, 0) else (err, 0)
  | statusEnd, c => if isWs c then (status, 0) else (err, 0)
  | status, c => if isDigit c then (statusCodeInfo, 1) else if isWs c then (status, 0) else (err, 0)
  | statusCodeInfo, c =>
    if isWs c then (statusCode, 0) else if isDigit c then (statusCodeInfo, 1) else (err, 0)
  | statusCode, c => if c = 72 then (http [72], 0) else if isWs c then (statusCode, 0) else (err, 0)
  | http w, c => spellHttp (w ++ [c])
  | versionMajorInfo, c =>
    if c = 46 then (versionMajor, 0) else if isDigit c then (versionMajorInfo, 1) else (err, 0)
  | versionMajor, c => if isDigit c then (versionMinorInfo, 1) else (err, 0)
  | versionMinorInfo, c =>
    if c = 13 then (versionMinor, 0) else if isDigit c then (versionMinorInfo, 1) else (err, 0)
  | versionMinor, c => if c = 10 then (sn, 0) else (err, 0)
  | sn, c => if isGraph c then (keyInfo, 1) else if c = 13 then (endSr, 0) else (err, 0)
  | keyInfo, c =>
    if isWs c then (kvSpace1, 0) else if c = 58 then (kvSplit, 0)
    else if isGraph c then (keyInfo, 1) else (err, 0)
  | kvSpace1, c => if c = 58 then (kvSplit, 0) else if isWs c then (kvSpace1, 0) else (err, 0)
  | kvSplit, c => if isGraph c then (valueInfo, 2) else if isWs c then (kvSpace2, 0) else (err, 0)
  | kvSpace2, c => if isGraph c then (valueInfo, 2) else if isWs c then (kvSpace2, 0) else (err, 0)
  | valueInfo, c => if c = 13 then (sr, 0) else if isGraph c then (valueInfo, 2) else (err, 0)
  | sr, c => if c = 10 then (sn, 0) else (err, 0)
  | endSr, c => if c = 10 then (endSn, 0) else (err, 0)
  | endSn, _ => (err, 0)

end Place

/-! ### The graph moves as the places do -/

/-- Links to `target`, newest first. -/
structure Rule where
  chars : List ℕ
  target : Place
  save : ℕ

namespace Rule

def links (r : Rule) : List (ℕ × Place × ℕ) := r.chars.map fun c => (c, r.target, r.save)

/-- The newest rule for a character. -/
def lookup : List Rule → ℕ → Place × ℕ
  | [], _ => (.err, 0)
  | r :: rules, c => if c ∈ r.chars then (r.target, r.save) else lookup rules c

def ws (p : Place) : Rule := ⟨[9, 32], p, 0⟩

def digits (p : Place) : Rule := ⟨(charRange 48 58).reverse, p, 1⟩

def graph (p : Place) (save : ℕ) : Rule := ⟨(charRange 33 127).reverse, p, save⟩

def one (c : ℕ) (p : Place) : Rule := ⟨[c], p, 0⟩

end Rule

/-- The characters after `w` in the words that begin with it, newest word first. -/
def nexts (words : List (List ℕ)) (w : List ℕ) : List ℕ :=
  (words.reverse.filterMap fun x => if w.isPrefixOf x then x[w.length]? else none).dedup

open Rule in
/-- The links of a node, newest first. -/
def Place.rules : Place → List Rule
  | err => []
  | word w => (nexts (methodWords ++ [statusWord]) w).map fun c =>
      ⟨[c], (spell (w ++ [c])).1, (spell (w ++ [c])).2⟩
  | methodEnd => [ws method]
  | method => [⟨[10, 13], err, 0⟩, ws method, graph pathInfo 1, ws method]
  | pathInfo => [⟨[10, 13], err, 0⟩, ws path, graph pathInfo 1]
  | path => [one 72 (http [72]), ws path]
  | statusEnd => [ws status]
  | status => [digits statusCodeInfo, ws status]
  | statusCodeInfo => [ws statusCode, digits statusCodeInfo]
  | statusCode => [one 72 (http [72]), ws statusCode]
  | http w => (nexts [httpWord] w).map fun c =>
      ⟨[c], (spellHttp (w ++ [c])).1, (spellHttp (w ++ [c])).2⟩
  | versionMajorInfo => [one 46 versionMajor, digits versionMajorInfo]
  | versionMajor => [digits versionMinorInfo]
  | versionMinorInfo => [one 13 versionMinor, digits versionMinorInfo]
  | versionMinor => [one 10 sn]
  | sn => [graph keyInfo 1, one 13 endSr]
  | keyInfo => [ws kvSpace1, one 58 kvSplit, graph keyInfo 1]
  | kvSpace1 => [one 58 kvSplit, ws kvSpace1]
  | kvSplit => [graph valueInfo 2, ws kvSpace2]
  | kvSpace2 => [graph valueInfo 2, ws kvSpace2]
  | valueInfo => [one 13 sr, graph valueInfo 2]
  | sr => [one 10 sn]
  | endSr => [one 10 endSn]
  | endSn => []

-- the nodes that `create_list` allocates, for the beginnings of `s` from length `lo` on
def wordPlaces (f : List ℕ → Place) (s : String) (lo : ℕ) : List Place :=
  (charRange lo (codes s).length).map fun k => f ((codes s).take k)

/-- The places of the nodes, in the order of allocation. -/
def nodePlaces : List Place := List.flatten
  [[.err, .word [], .sr, .sn, .endSr, .endSn, .method, .methodEnd],
    wordPlaces .word "GET" 1, wordPlaces .word "POST" 1, wordPlaces .word "PUT" 2,
    wordPlaces .word "DELETE" 1, wordPlaces .word "TRACE" 1, wordPlaces .word "CONNECT" 1,
    wordPlaces .word "HEAD" 1, wordPlaces .word "OPTIONS" 1,
    [.path, .pathInfo, .status, .statusEnd],
    wordPlaces .word "STATUS" 1,
    [.statusCode, .statusCodeInfo, .versionMajor, .versionMinor, .versionMajorInfo,
      .versionMinorInfo],
    wordPlaces .http "HTTP/" 1, wordPlaces .http "HTTP/" 1,
    [.keyInfo, .kvSpace1, .kvSplit, .kvSpace2, .valueInfo]]

def place (p : NodePtr) : Place := nodePlaces.getD p .err

/-- `n` was linked as `p` says. -/
def ParseEngineNode.standsFor (n : ParseEngineNode) (p : Place) : Bool :=
  decide (n.state_ = p.state ∧ n.result_ = p.result ∧ n.errorNode = 0 ∧
    n.links.map (fun l => (l.c, place l.node, l.save)) = p.rules.flatMap Rule.links)

/-- `initParseRoot` passes its asserts, and builds a graph of these places. -/
def Engine.agrees : Option (NodePtr × Engine) → Bool
  | none => false
  | some r => decide (r.1 = 1 ∧ r.2.length = nodePlaces.length) &&
      (r.2.zip nodePlaces).all fun x => x.1.standsFor x.2

theorem initParseRoot_agrees : Engine.agrees (initParseRoot.run []) = true := by decide +kernel

/-- The entry of a list of links for a character. -/
def entry (ls : List (ℕ × Place × ℕ)) (c : ℕ) : Place × ℕ :=
  match ls.find? fun x => decide (x.1 = c) with
  | some x => x.2
  | none => (.err, 0)

theorem entry_append_links (r : Rule) (ls : List (ℕ × Place × ℕ)) (c : ℕ) :
    entry (r.links ++ ls) c = if c ∈ r.chars then (r.target, r.save) else entry ls c := by
  obtain ⟨chars, target, save⟩ := r
  induction chars with
  | nil => rfl
  | cons a chars ih =>
    by_cases hac : a = c
    · subst hac
      simp [entry, Rule.links]
    · have hca : ¬ c = a := fun h => hac h.symm
      have hskip : entry (Rule.links ⟨a :: chars, target, save⟩ ++ ls) c
          = entry (Rule.links ⟨chars, target, save⟩ ++ ls) c := by
        simp [entry, Rule.links, hac]
      rw [hskip, ih]
      simp [hca]

theorem entry_flatMap_links (rules : List Rule) (c : ℕ) :
    entry (rules.flatMap Rule.links) c = Rule.lookup rules c := by
  induction rules with
  | nil => rfl
  | cons r rules ih => rw [flatMap_cons, entry_append_links, Rule.lookup, ih]

theorem ParseEngineNode.entry_links (n : ParseEngineNode) (herr : n.errorNode = 0) (c : ℕ) :
    entry (n.links.map fun l => (l.c, place l.node, l.save)) c = (place (n.next_ c), n.save_ c) := by
  rw [entry, next_, save_, List.find?_map, Function.comp_def]
  cases n.links.find? fun l => decide (l.c = c) with
  | none =>
    rw [herr]
    rfl
  | some l => rfl

theorem isPrefixOf_append_singleton {w x : List ℕ} {c : ℕ} (h : (w ++ [c]).isPrefixOf x = true) :
    w.isPrefixOf x = true ∧ x[w.length]? = some c := by
  rw [List.isPrefixOf_iff_prefix] at h ⊢
  obtain ⟨t, rfl⟩ := h
  simp

theorem mem_nexts {words : List (List ℕ)} {w x : List ℕ} {c : ℕ} (hx : x ∈ words)
    (h : (w ++ [c]).isPrefixOf x = true) : c ∈ nexts words w := by
  obtain ⟨hw, hc⟩ := isPrefixOf_append_singleton h
  rw [nexts, mem_dedup, mem_filterMap]
  exact ⟨x, mem_reverse.mpr hx, by rw [if_pos hw, hc]⟩

theorem lookup_map_one (f : ℕ → Place × ℕ) (cs : List ℕ) (c : ℕ) :
    Rule.lookup (cs.map fun c => ⟨[c], (f c).1, (f c).2⟩) c = if c ∈ cs then f c else (.err, 0) := by
  induction cs with
  | nil => rfl
  | cons a cs ih =>
    rw [map_cons, Rule.lookup, ih]
    by_cases hca : c = a
    · subst hca
      simp
    · simp [hca]

namespace Place

theorem spell_of_notMem_nexts {w : List ℕ} {c : ℕ}
    (h : c ∉ nexts (methodWords ++ [statusWord]) w) : spell (w ++ [c]) = (err, 0) := by
  have hmethod : (methodWords.find? fun x => (w ++ [c]).isPrefixOf x) = none := by
    rw [List.find?_eq_none]
    intro x hx hp
    exact h (mem_nexts (mem_append_left _ hx) hp)
  have hstatus : ¬ (w ++ [c]).isPrefixOf statusWord = true := fun hp =>
    h (mem_nexts (mem_append_right _ mem_cons_self) hp)
  rw [spell, hmethod]
  exact if_neg hstatus

theorem spellHttp_of_notMem_nexts {w : List ℕ} {c : ℕ} (h : c ∉ nexts [httpWord] w) :
    spellHttp (w ++ [c]) = (err, 0) :=
  if_neg fun hp => h (mem_nexts mem_cons_self hp)

theorem mem_ws {c : ℕ} : c ∈ [9, 32] ↔ isWs c = true := by
  simp [isWs, or_comm]

theorem mem_digits {c : ℕ} : c ∈ (charRange 48 58).reverse ↔ isDigit c = true := by
  simp [charRange, isDigit]
  omega

theorem mem_graph {c : ℕ} : c ∈ (charRange 33 127).reverse ↔ isGraph c = true := by
  simp [charRange, isGraph]
  omega

-- the links of `"\r\n"` to the error node change nothing
theorem ite_crlf {p : Place × ℕ} {c : ℕ} (hp : c = 10 ∨ c = 13 → p = (err, 0)) :
    (if c ∈ [10, 13] then (err, 0) else p) = p := by
  split_ifs with hc
  · exact (hp (by simpa using hc)).symm
  · rfl

/-- The links of a place lead where its step does. -/
theorem lookup_rules (p : Place) (c : ℕ) : Rule.lookup p.rules c = p.step c := by
  cases p with
  | word w =>
    rw [rules, lookup_map_one fun c => spell (w ++ [c])]
    split_ifs with hc
    · rfl
    · exact (spell_of_notMem_nexts hc).symm
  | http w =>
    rw [rules, lookup_map_one fun c => spellHttp (w ++ [c])]
    split_ifs with hc
    · rfl
    · exact (spellHttp_of_notMem_nexts hc).symm
  | method =>
    simp only [rules, Rule.lookup, Rule.ws, Rule.graph, mem_ws, mem_graph, step]
    rw [ite_crlf (by rintro (rfl | rfl) <;> rfl)]
    cases isWs c <;> rfl
  | pathInfo =>
    simp only [rules, Rule.lookup, Rule.ws, Rule.graph, mem_ws, mem_graph, step]
    exact ite_crlf (by rintro (rfl | rfl) <;> rfl)
  | err | endSn => rfl
  | _ =>
    simp only [rules, Rule.lookup, Rule.ws, Rule.digits, Rule.graph, Rule.one,
      mem_singleton, mem_ws, mem_digits, mem_graph, step]

end Place

theorem ParseEngineNode.standsFor_iff {n : ParseEngineNode} {p : Place} :
    n.standsFor p = true ↔ n.state_ = p.state ∧ n.result_ = p.result ∧ n.errorNode = 0 ∧
      n.links.map (fun l => (l.c, place l.node, l.save)) = p.rules.flatMap Rule.links :=
  decide_eq_true_iff

theorem ParseEngineNode.step_of_standsFor {n : ParseEngineNode} {p : Place}
    (h : n.standsFor p = true) (c : ℕ) : (place (n.next_ c), n.save_ c) = p.step c := by
  obtain ⟨-, -, herr, hlinks⟩ := standsFor_iff.mp h
  rw [← n.entry_links herr, hlinks, entry_flatMap_links, Place.lookup_rules]

theorem eq_some_of_agrees {r : Option (NodePtr × Engine)} (h : Engine.agrees r = true) :
    r = some (r.getD (0, [])) := by
  cases r with
  | none => cases h
  | some r => rfl

/-- What `parse_root` keeps: the root, and the graph. -/
@[irreducible] def parseRoot : NodePtr × Engine := (initParseRoot.run []).getD (0, [])

theorem initParseRoot_eq : initParseRoot.run [] = some parseRoot := by
  unfold parseRoot
  exact eq_some_of_agrees initParseRoot_agrees

theorem parseRoot_agrees : parseRoot.1 = 1 ∧ parseRoot.2.length = nodePlaces.length ∧
    ∀ x ∈ parseRoot.2.zip nodePlaces, x.1.standsFor x.2 = true := by
  have h := initParseRoot_agrees
  rw [initParseRoot_eq, Engine.agrees, Bool.and_eq_true, all_eq_true, decide_eq_true_eq] at h
  exact ⟨h.1.1, h.1.2, h.2⟩

theorem standsFor_getD {e : Engine} {ps : List Place} (hlen : e.length = ps.length)
    (hall : ∀ x ∈ e.zip ps, x.1.standsFor x.2 = true) (p : NodePtr) :
    (e.getD p errNode).standsFor (ps.getD p .err) = true := by
  by_cases hp : p < e.length
  · have hp' : p < ps.length := hlen ▸ hp
    rw [getD_eq_getElem _ _ hp, getD_eq_getElem _ _ hp']
    refine hall (_, _) (mem_iff_getElem.mpr ⟨p, ?_, getElem_zip⟩)
    rw [length_zip]
    exact Nat.lt_min.mpr ⟨hp, hp'⟩
  · have hle := Nat.le_of_not_lt hp
    rw [getD_eq_default _ _ hle, getD_eq_default _ _ (hlen ▸ hle)]
    rfl

/-- Every node of the graph stands for its place. -/
theorem node_standsFor (p : NodePtr) : (parseRoot.2.node p).standsFor (place p) = true :=
  standsFor_getD parseRoot_agrees.2.1 parseRoot_agrees.2.2 p

/-- **The graph moves as the places do.** -/
theorem engine_step (p : NodePtr) (c : ℕ) :
    (place ((parseRoot.2.node p).next_ c), (parseRoot.2.node p).save_ c) = (place p).step c :=
  ParseEngineNode.step_of_standsFor (node_standsFor p) c

theorem engine_state (p : NodePtr) : (parseRoot.2.node p).state_ = (place p).state :=
  (ParseEngineNode.standsFor_iff.mp (node_standsFor p)).1

theorem engine_result (p : NodePtr) : (parseRoot.2.node p).result_ = (place p).result :=
  (ParseEngineNode.standsFor_iff.mp (node_standsFor p)).2.1

theorem place_root : place parseRoot.1 = .word [] := by
  rw [parseRoot_agrees.1]
  rfl

end Http
