/-
`http_head` (http/src/http_head.h, http/src/http_head.cpp): the head of an HTTP
message, with its printer and its parser.

The parser is driven by the nodes of the parse engine.  It is written here over any
table of nodes, and used with two: the graph that `__init_parse_root` builds, and the
places that its nodes stand for.

* `ICaseMap` — the multimap of fields;
* `HttpHead.consumeChar`, `consume`, `parse`, `clear`, `toString` — the source's
  functions;
* `parse_map`, `engineTable_hom` — parsing with the graph is parsing with the places;
* `consumeFrom_cases` — what a call of `consume` ends with.
-/
import CppFeatures.HttpEngine
import Mathlib.Algebra.Group.Int.Defs
import Mathlib.Algebra.Group.Nat.Defs
import Mathlib.Data.List.Sort
import Mathlib.Data.List.TakeWhile
import Mathlib.Data.Int.Notation

namespace Http

open List

/-! ### Fields -/

/-- The loop of `is_strless`; `char` is signed. -/
def isStrlessChars : Bytes → Bytes → Bool
  | l :: left, r :: right =>
    if toupper l ≠ toupper r then decide ((toupper l).toInt8 < (toupper r).toInt8)
    else isStrlessChars left right
  | _, _ => false

/-- `is_strless`. -/
def isStrless (left right : Bytes) : Bool :=
  if left.length ≠ right.length then decide (left.length < right.length)
  else isStrlessChars left right

theorem isStrlessChars_trans {a b c : Bytes} (hab : isStrlessChars a b = true)
    (hbc : isStrlessChars b c = true) : isStrlessChars a c = true := by
  induction a generalizing b c with
  | nil => cases hab
  | cons x a ih =>
    cases b with
    | nil => cases hab
    | cons y b =>
      cases c with
      | nil => cases hbc
      | cons z c =>
        simp only [isStrlessChars, Int8.lt_iff_toInt_lt] at hab hbc ⊢
        split_ifs at hab hbc with hxy hyz hyz
        · have hlt := of_decide_eq_true hab
          have hlt' := of_decide_eq_true hbc
          have hxz : toupper x ≠ toupper z := fun h => by rw [h] at hlt; omega
          rw [if_pos hxz]
          exact decide_eq_true (by omega)
        · rw [← not_not.mp hyz, if_pos hxy]
          exact hab
        · rw [not_not.mp hxy, if_pos hyz]
          exact hbc
        · rw [not_not.mp hxy, if_neg hyz]
          exact ih hab hbc

theorem isStrless_trans {a b c : Bytes} (hab : isStrless a b = true) (hbc : isStrless b c = true) :
    isStrless a c = true := by
  simp only [isStrless] at hab hbc ⊢
  split_ifs at hab hbc with h₁ h₂ h₂
  · have := of_decide_eq_true hab
    have := of_decide_eq_true hbc
    rw [if_pos (by omega)]
    exact decide_eq_true (by omega)
  · have := of_decide_eq_true hab
    rw [if_pos (by omega)]
    exact decide_eq_true (by omega)
  · have := of_decide_eq_true hbc
    rw [if_pos (by omega)]
    exact decide_eq_true (by omega)
  · rw [if_neg (by omega)]
    exact isStrlessChars_trans hab hbc

theorem isStrlessChars_irrefl (a : Bytes) : isStrlessChars a a = false := by
  induction a with
  | nil => rfl
  | cons x a ih => simpa [isStrlessChars] using ih

theorem isStrless_irrefl (a : Bytes) : isStrless a a = false := by
  simpa [isStrless] using isStrlessChars_irrefl a

/-- `std::multimap<std::string, std::string, is_strless>`: its elements in the order of
iteration, in which no key is less than an earlier one. -/
@[ext] structure ICaseMap where
  entries : List (Bytes × Bytes)
  sorted : entries.Pairwise fun a b => isStrless b.1 a.1 = false

namespace ICaseMap

def empty : ICaseMap := ⟨[], .nil⟩

/-- Insertion behind all equivalent keys. -/
def insertEntry (kv : Bytes × Bytes) (l : List (Bytes × Bytes)) : List (Bytes × Bytes) :=
  l.orderedInsert (fun a b => isStrless a.1 b.1 = true) kv

theorem insertEntry_sorted {kv : Bytes × Bytes} {l : List (Bytes × Bytes)}
    (h : l.Pairwise fun a b => isStrless b.1 a.1 = false) :
    (insertEntry kv l).Pairwise fun a b => isStrless b.1 a.1 = false := by
  induction l with
  | nil => exact pairwise_singleton ..
  | cons x l ih =>
    obtain ⟨hx, hl⟩ := pairwise_cons.mp h
    rw [insertEntry, orderedInsert_cons]
    split_ifs with hlt
    · refine pairwise_cons.mpr ⟨fun y hy => ?_, h⟩
      by_contra hyk
      -- `y < kv < x`, but `y` does not come before `x`
      have hyx := isStrless_trans (Bool.of_not_eq_false hyk) hlt
      rcases mem_cons.mp hy with rfl | hy
      · rw [isStrless_irrefl] at hyx
        cases hyx
      · rw [hx y hy] at hyx
        cases hyx
    · refine pairwise_cons.mpr ⟨fun y hy => ?_, ih hl⟩
      rcases mem_orderedInsert _ |>.mp hy with rfl | hy
      · exact Bool.eq_false_of_not_eq_true hlt
      · exact hx y hy

def insert (m : ICaseMap) (kv : Bytes × Bytes) : ICaseMap :=
  ⟨insertEntry kv m.entries, insertEntry_sorted m.sorted⟩

/-- Inserting elements in the order of iteration builds the same map. -/
theorem foldl_insertEntry {l m : List (Bytes × Bytes)}
    (h : (l ++ m).Pairwise fun a b => isStrless b.1 a.1 = false) :
    m.foldl (fun l kv => insertEntry kv l) l = l ++ m := by
  induction m generalizing l with
  | nil => rw [foldl_nil, append_nil]
  | cons x m ih =>
    have hlast : ∀ l : List (Bytes × Bytes), (∀ y ∈ l, isStrless x.1 y.1 = false) →
        insertEntry x l = l ++ [x] := by
      intro l hl
      induction l with
      | nil => rfl
      | cons y l ihl =>
        have hy : ¬ isStrless x.1 y.1 = true := by simp [hl y mem_cons_self]
        rw [insertEntry, orderedInsert_cons, if_neg hy, cons_append]
        exact congrArg _ (ihl fun z hz => hl z (mem_cons_of_mem _ hz))
    have hx := fun y hy => (pairwise_append.mp h).2.2 y hy x mem_cons_self
    rw [foldl_cons, hlast l hx, ih (by simpa using h), append_assoc, singleton_append]

theorem entries_foldl_insert (m : ICaseMap) (kvs : List (Bytes × Bytes)) :
    (kvs.foldl insert m).entries = kvs.foldl (fun l kv => insertEntry kv l) m.entries := by
  induction kvs generalizing m with
  | nil => rfl
  | cons kv kvs ih => exact ih (m.insert kv)

theorem foldl_insert_entries (m : ICaseMap) : m.entries.foldl insert empty = m := by
  refine ICaseMap.ext ?_
  rw [entries_foldl_insert]
  exact foldl_insertEntry m.sorted

end ICaseMap

/-! ### Numbers -/

-- `isspace`
def isSpace (c : UInt8) : Bool := c == 32 || (decide (9 ≤ c) && decide (c ≤ 13))

/-- The value of a string of digits. -/
def numeral (s : Bytes) : ℕ := s.foldl (fun n c => 10 * n + (c.toNat - 48)) 0

/-- `strtol(s, NULL, 10)`: the value of the digits after white space and a sign, brought
into the range of `long`. -/
def strtol (s : Bytes) : ℤ :=
  let value (s : Bytes) : ℤ := numeral (s.takeWhile fun c => isDigit c.toNat)
  match s.dropWhile isSpace with
  | 45 :: s => max (-value s) (-2 ^ 63)
  | 43 :: s => min (value s) (2 ^ 63 - 1)
  | s => min (value s) (2 ^ 63 - 1)

/-- `atoi`: `(int)strtol(s, NULL, 10)`. -/
def atoi (s : Bytes) : Int32 := Int32.ofInt (strtol s)

theorem toNat_of_isDigit {c : UInt8} (h : isDigit c.toNat = true) :
    48 ≤ c.toNat ∧ c.toNat ≤ 57 := by
  simpa [isDigit] using h

theorem strtol_digits {s : Bytes} (hs : ∀ c ∈ s, isDigit c.toNat = true) :
    strtol s = min (numeral s : ℤ) (2 ^ 63 - 1) := by
  have htake : (s.takeWhile fun c => isDigit c.toNat) = s := takeWhile_eq_self_iff.mpr hs
  cases s with
  | nil => rfl
  | cons c s =>
    have hc := toNat_of_isDigit (hs c mem_cons_self)
    have hspace : ¬ isSpace c = true := by
      intro h
      simp only [isSpace, Bool.or_eq_true, beq_iff_eq, Bool.and_eq_true, decide_eq_true_eq,
        UInt8.le_iff_toNat_le] at h
      rcases h with rfl | h
      · exact absurd hc.1 (by decide)
      · have := h.2
        change c.toNat ≤ 13 at this
        omega
    rw [strtol, dropWhile_cons_of_neg hspace]
    split
    · next heq =>
      obtain ⟨rfl, -⟩ := List.cons.inj heq
      exact absurd hc.1 (by decide)
    · next heq =>
      obtain ⟨rfl, -⟩ := List.cons.inj heq
      exact absurd hc.1 (by decide)
    · dsimp only
      rw [htake]

theorem atoi_digits {s : Bytes} (hs : ∀ c ∈ s, isDigit c.toNat = true) (hlt : numeral s < 2 ^ 31) :
    (atoi s).toInt = numeral s := by
  have hmin : min (numeral s : ℤ) (2 ^ 63 - 1) = numeral s := by omega
  rw [atoi, strtol_digits hs, hmin]
  exact Int32.toInt_ofInt_of_le (by omega) (by omega)

/-- `std::to_string`. -/
def toStringInt (v : Int32) : Bytes :=
  (if v.toInt < 0 then bytes "-" else []) ++ (Nat.toDigits 10 v.toInt.natAbs).map Char.toUInt8

/-! ### The head -/

/-- `eHttpHeadType`. -/
inductive HttpHeadType
  | indeterminate
  | request
  | response
deriving DecidableEq, Repr

/-- `eMethod`. -/
inductive HttpMethod
  | unkown
  | get
  | post
  | put
  | delete
  | trace
  | connect
  | head
  | options
deriving DecidableEq, Repr

/-- `method_s`. -/
def HttpMethod.methodS : HttpMethod → Bytes
  | get => bytes "GET"
  | post => bytes "POST"
  | put => bytes "PUT"
  | delete => bytes "DELETE"
  | trace => bytes "TRACE"
  | connect => bytes "CONNECT"
  | head => bytes "HEAD"
  | options => bytes "OPTIONS"
  | unkown => bytes "UNKOWN"

/-- The comparisons of `set_method_s`. -/
def methodOfUpper (s : Bytes) : HttpMethod :=
  if s = bytes "GET" then .get
  else if s = bytes "POST" then .post
  else if s = bytes "PUT" then .put
  else if s = bytes "DELETE" then .delete
  else if s = bytes "TRACE" then .trace
  else if s = bytes "CONNECT" then .connect
  else if s = bytes "HEAD" then .head
  else if s = bytes "OPTIONS" then .options
  else .unkown

/-- The method that `set_method_s` sets. -/
def methodOf (s : Bytes) : HttpMethod := methodOfUpper (s.map toupper)

/-- The nodes of a parse engine.  The tables are indexed by `(unsigned char)toupper(c)`. -/
structure NodeTable (ν : Type*) where
  root : ν
  state_ : ν → ParseState
  result_ : ν → NodeResult
  next_ : ν → ℕ → ν
  save_ : ν → ℕ → ℕ

/-- `http_head`, over nodes of type `ν`. -/
structure HttpHead (ν : Type*) where
  parseNode_ : ν
  parseBuf_ : Bytes
  parseBuf2_ : Bytes
  type_ : HttpHeadType
  method_ : HttpMethod
  path_ : Bytes
  status_ : Int32
  versionMajor_ : Int32
  versionMinor_ : Int32
  fields_ : ICaseMap

def code (c : UInt8) : ℕ := (toupper c).toNat

namespace HttpHead

variable {ν : Type*}

/-- The `switch` of `consume(char)`. -/
def takeResult (h : HttpHead ν) : NodeResult → HttpHead ν
  | .none => h
  | .method => { h with method_ := methodOf h.parseBuf_, type_ := .request }
  | .path => { h with path_ := h.parseBuf_ }
  | .status => { h with status_ := atoi h.parseBuf_, type_ := .response }
  | .verMajor => { h with versionMajor_ := atoi h.parseBuf_ }
  | .verMinor => { h with versionMinor_ := atoi h.parseBuf_ }
  | .kv => { h with fields_ := h.fields_.insert (h.parseBuf_, h.parseBuf2_) }

/-- `parse_node_ = parse_node_->next(c, parse_buf_, parse_buf2_)`. -/
def next (T : NodeTable ν) (h : HttpHead ν) (c : UInt8) : HttpHead ν :=
  { h with
    parseNode_ := T.next_ h.parseNode_ (code c)
    parseBuf_ := if T.save_ h.parseNode_ (code c) = 1 then h.parseBuf_ ++ [c] else h.parseBuf_
    parseBuf2_ := if T.save_ h.parseNode_ (code c) = 2 then h.parseBuf2_ ++ [c] else h.parseBuf2_ }

/-- `consume(char)`. -/
def consumeChar (T : NodeTable ν) (h : HttpHead ν) (c : UInt8) : HttpHead ν :=
  let h := h.next T c
  if T.state_ h.parseNode_ = .indeterminate then
    if h.parseBuf_ ≠ [] ∧ T.result_ h.parseNode_ ≠ .none then
      { h.takeResult (T.result_ h.parseNode_) with parseBuf_ := [], parseBuf2_ := [] }
    else h
  else h

/-- The loop of `consume` from index `i` on; `-1` is `none`. -/
def consumeFrom (T : NodeTable ν) (h : HttpHead ν) (i : ℕ) : Bytes → HttpHead ν × Option ℕ
  | [] => (h, some i)
  | c :: data =>
    let h := h.consumeChar T c
    match T.state_ h.parseNode_ with
    | .done => (h, some (i + 1))
    | .error => (h, none)
    | .indeterminate => consumeFrom T h (i + 1) data

def consume (T : NodeTable ν) (h : HttpHead ν) (s : Bytes) : HttpHead ν × Option ℕ :=
  h.consumeFrom T 0 s

/-- `clear`.  Its second `swap` is with the string that took `parse_buf_`. -/
def clear (T : NodeTable ν) (h : HttpHead ν) : HttpHead ν where
  parseNode_ := T.root
  parseBuf_ := []
  parseBuf2_ := h.parseBuf_
  type_ := .indeterminate
  method_ := .unkown
  path_ := []
  status_ := 0
  versionMajor_ := 1
  versionMinor_ := 1
  fields_ := .empty

/-- The constructor; what it does not initialise, `clear` sets. -/
def new (T : NodeTable ν) (type : HttpHeadType) : HttpHead ν :=
  clear T ⟨T.root, [], [], type, .unkown, [], 0, 1, 1, .empty⟩

def parse (T : NodeTable ν) (h : HttpHead ν) (s : Bytes) : HttpHead ν × Option ℕ :=
  let r := (h.clear T).consume T s
  if T.state_ r.1.parseNode_ = .done then r else (r.1.clear T, none)

/-- `to_string`. -/
def toString (h : HttpHead ν) : Bytes :=
  (if h.type_ = .request then h.method_.methodS ++ bytes " " ++ h.path_ ++ bytes " "
    else bytes "STATUS " ++ toStringInt h.status_ ++ bytes " ") ++
  (bytes "HTTP/" ++ toStringInt h.versionMajor_ ++ bytes "." ++ toStringInt h.versionMinor_) ++
  bytes "\r\n" ++
  (h.fields_.entries.flatMap fun kv => kv.1 ++ bytes ": " ++ kv.2 ++ bytes "\r\n") ++
  bytes "\r\n"

/-! ### The graph and the places -/

def map {μ : Type*} (f : ν → μ) (h : HttpHead ν) : HttpHead μ :=
  ⟨f h.parseNode_, h.parseBuf_, h.parseBuf2_, h.type_, h.method_, h.path_, h.status_,
    h.versionMajor_, h.versionMinor_, h.fields_⟩

end HttpHead

/-- `f` maps the nodes of `T` to nodes of `U` that behave alike. -/
structure NodeTable.Hom {ν μ : Type*} (T : NodeTable ν) (U : NodeTable μ) (f : ν → μ) : Prop where
  root : f T.root = U.root
  state_ : ∀ p, T.state_ p = U.state_ (f p)
  result_ : ∀ p, T.result_ p = U.result_ (f p)
  next_ : ∀ p c, f (T.next_ p c) = U.next_ (f p) c
  save_ : ∀ p c, T.save_ p c = U.save_ (f p) c

/-- The graph that `__init_parse_root` builds. -/
def engineTable : NodeTable NodePtr where
  root := parseRoot.1
  state_ p := (parseRoot.2.node p).state_
  result_ p := (parseRoot.2.node p).result_
  next_ p := (parseRoot.2.node p).next_
  save_ p := (parseRoot.2.node p).save_

def placeTable : NodeTable Place where
  root := .word []
  state_ := Place.state
  result_ := Place.result
  next_ p c := (p.step c).1
  save_ p c := (p.step c).2

theorem engineTable_hom : engineTable.Hom placeTable place where
  root := place_root
  state_ := engine_state
  result_ := engine_result
  next_ p c := congrArg Prod.fst (engine_step p c)
  save_ p c := congrArg Prod.snd (engine_step p c)

namespace HttpHead

variable {ν μ : Type*} {T : NodeTable ν} {U : NodeTable μ} {f : ν → μ}

theorem takeResult_map (h : HttpHead ν) (r : NodeResult) :
    (h.takeResult r).map f = (h.map f).takeResult r := by
  cases r <;> rfl

theorem next_map (hom : T.Hom U f) (h : HttpHead ν) (c : UInt8) :
    (h.next T c).map f = (h.map f).next U c := by
  simp only [next, map, hom.next_, hom.save_]
  rfl

theorem consumeChar_map (hom : T.Hom U f) (h : HttpHead ν) (c : UInt8) :
    (h.consumeChar T c).map f = (h.map f).consumeChar U c := by
  have hnode : (h.map f |>.next U c).parseNode_ = f (h.next T c).parseNode_ :=
    congrArg parseNode_ (next_map hom h c).symm
  have hbuf : (h.map f |>.next U c).parseBuf_ = (h.next T c).parseBuf_ :=
    congrArg parseBuf_ (next_map hom h c).symm
  simp only [consumeChar]
  rw [hnode, hbuf, ← hom.state_, ← hom.result_]
  split_ifs
  · rw [← next_map hom, ← takeResult_map]
    rfl
  · exact next_map hom h c
  · exact next_map hom h c

theorem consumeFrom_map (hom : T.Hom U f) (h : HttpHead ν) (i : ℕ) (data : Bytes) :
    (h.map f).consumeFrom U i data
      = ((h.consumeFrom T i data).1.map f, (h.consumeFrom T i data).2) := by
  induction data generalizing h i with
  | nil => rfl
  | cons c data ih =>
    simp only [consumeFrom]
    rw [← consumeChar_map hom]
    have hstate : U.state_ ((h.consumeChar T c).map f).parseNode_
        = T.state_ (h.consumeChar T c).parseNode_ := (hom.state_ _).symm
    rw [hstate]
    cases T.state_ (h.consumeChar T c).parseNode_ with
    | done => rfl
    | error => rfl
    | indeterminate => exact ih _ _

theorem clear_map (hom : T.Hom U f) (h : HttpHead ν) : (h.clear T).map f = (h.map f).clear U := by
  simp only [clear, map, hom.root]

theorem parse_of_done {h : HttpHead ν} {s : Bytes}
    (hdone : T.state_ ((h.clear T).consumeFrom T 0 s).1.parseNode_ = .done) :
    h.parse T s = (h.clear T).consumeFrom T 0 s :=
  if_pos hdone

theorem parse_of_not_done {h : HttpHead ν} {s : Bytes}
    (hdone : T.state_ ((h.clear T).consumeFrom T 0 s).1.parseNode_ ≠ .done) :
    h.parse T s = (((h.clear T).consumeFrom T 0 s).1.clear T, none) :=
  if_neg hdone

/-- **Parsing with the graph is parsing with what its nodes stand for.** -/
theorem parse_map (hom : T.Hom U f) (h : HttpHead ν) (s : Bytes) :
    (h.map f).parse U s = ((h.parse T s).1.map f, (h.parse T s).2) := by
  have hc := consumeFrom_map hom (h.clear T) 0 s
  rw [clear_map hom] at hc
  have hstate : U.state_ (((h.clear T).consumeFrom T 0 s).1.map f).parseNode_
      = T.state_ ((h.clear T).consumeFrom T 0 s).1.parseNode_ := (hom.state_ _).symm
  by_cases hdone : T.state_ ((h.clear T).consumeFrom T 0 s).1.parseNode_ = .done
  · rw [parse_of_done hdone, parse_of_done (by rw [hc, hstate, hdone]), hc]
  · rw [parse_of_not_done hdone, parse_of_not_done (by rwa [hc, hstate]), hc, clear_map hom]

theorem answer_map (hom : T.Hom U f) (h : HttpHead ν) (s : Bytes) :
    ((h.map f).parse U s).2 = (h.parse T s).2 := by
  rw [parse_map hom]

theorem head_map (hom : T.Hom U f) (h : HttpHead ν) (s : Bytes) :
    ((h.map f).parse U s).1 = (h.parse T s).1.map f := by
  rw [parse_map hom]

/-! ### What a call of `consume` ends with -/

/-- Consuming all of a string, without looking at the state of the parser. -/
def feed (T : NodeTable ν) (h : HttpHead ν) (s : Bytes) : HttpHead ν := s.foldl (consumeChar T) h

theorem feed_append (h : HttpHead ν) (s t : Bytes) :
    h.feed T (s ++ t) = (h.feed T s).feed T t :=
  foldl_append

/-- Without a result, or without anything saved, there is nothing to take. -/
theorem consumeChar_eq_next {h : HttpHead ν} {c : UInt8} (hn : (h.next T c).parseBuf_ = [] ∨
    T.result_ (h.next T c).parseNode_ = .none) : h.consumeChar T c = h.next T c := by
  rw [consumeChar]
  dsimp only
  split_ifs with _ hr
  · rcases hn with hn | hn
    · exact absurd hn hr.1
    · exact absurd hn hr.2
  · rfl
  · rfl

theorem parseNode_consumeChar (h : HttpHead ν) (c : UInt8) :
    (h.consumeChar T c).parseNode_ = T.next_ h.parseNode_ (code c) := by
  rw [consumeChar]
  dsimp only
  split_ifs
  · cases T.result_ (h.next T c).parseNode_ <;> rfl
  · rfl
  · rfl

end HttpHead

/-- Where a string leads. -/
def Place.walk (p : Place) (s : Bytes) : Place := s.foldl (fun p c => (p.step (code c)).1) p

namespace Place

theorem walk_append (p : Place) (s t : Bytes) : p.walk (s ++ t) = (p.walk s).walk t :=
  foldl_append

theorem walk_cons (p : Place) (c : UInt8) (s : Bytes) :
    p.walk (c :: s) = (p.step (code c)).1.walk s := rfl

theorem walk_err (s : Bytes) : err.walk s = err := by
  induction s with
  | nil => rfl
  | cons c s ih => exact ih

/-- The parser cannot be done twice. -/
theorem eq_nil_of_walk_endSn {s : Bytes} (h : endSn.walk s = endSn) : s = [] := by
  cases s with
  | nil => rfl
  | cons c s => exact absurd ((walk_err s).symm.trans h) (by decide)

/-- At most one prefix of a string leads to the end. -/
theorem eq_of_walk_endSn {p : Place} {s u v : Bytes} (hu : u <+: s) (hv : v <+: s)
    (hpu : p.walk u = endSn) (hpv : p.walk v = endSn) : u = v := by
  rcases prefix_or_prefix_of_prefix hu hv with ⟨w, rfl⟩ | ⟨w, rfl⟩
  · rw [walk_append, hpu] at hpv
    rw [eq_nil_of_walk_endSn hpv, append_nil]
  · rw [walk_append, hpv] at hpu
    rw [eq_nil_of_walk_endSn hpu, append_nil]

theorem eq_endSn_of_done {p : Place} (h : p.state = .done) : p = endSn := by
  cases p <;> first | rfl | cases h

theorem eq_err_of_error {p : Place} (h : p.state = .error) : p = err := by
  cases p <;> first | rfl | cases h

end Place

namespace HttpHead

theorem parseNode_feed (h : HttpHead Place) (s : Bytes) :
    (h.feed placeTable s).parseNode_ = h.parseNode_.walk s := by
  induction s generalizing h with
  | nil => rfl
  | cons c s ih =>
    have hnode := parseNode_consumeChar (T := placeTable) h c
    exact (ih _).trans (congrArg (Place.walk · s) hnode)

/-- `consume` stops where a prefix of the data leads to the end, or nowhere does one. -/
theorem consumeFrom_cases {h : HttpHead Place} (hs : h.parseNode_.state = .indeterminate)
    (i : ℕ) (data : Bytes) :
    (∃ u t, data = u ++ t ∧ h.parseNode_.walk u = .endSn ∧
      h.consumeFrom placeTable i data = (h.feed placeTable u, some (i + u.length))) ∨
    ((∀ u t, data = u ++ t → h.parseNode_.walk u ≠ .endSn) ∧
      (h.consumeFrom placeTable i data).1.parseNode_.state ≠ .done) := by
  induction data generalizing h i with
  | nil =>
    refine .inr ⟨fun u t hut hu => ?_, ?_⟩
    · obtain ⟨rfl, -⟩ := append_eq_nil_iff.mp hut.symm
      rw [show h.parseNode_ = .endSn from hu] at hs
      cases hs
    · rw [consumeFrom, hs]
      nofun
  | cons c data ih =>
    have hnode : (h.consumeChar placeTable c).parseNode_ = (h.parseNode_.step (code c)).1 :=
      parseNode_consumeChar h c
    rw [consumeFrom]
    cases hst : placeTable.state_ (h.consumeChar placeTable c).parseNode_ with
    | done =>
      refine .inl ⟨[c], data, rfl, ?_, rfl⟩
      exact hnode.symm.trans (Place.eq_endSn_of_done hst)
    | error =>
      refine .inr ⟨fun u t hut hu => ?_, ?_⟩
      · cases u with
        | nil =>
          rw [show h.parseNode_ = .endSn from hu] at hs
          cases hs
        | cons c' u =>
          rw [cons_append, List.cons.injEq] at hut
          obtain ⟨rfl, -⟩ := hut
          have herr : (h.parseNode_.step (code c)).1 = .err := hnode ▸ Place.eq_err_of_error hst
          rw [Place.walk_cons, herr, Place.walk_err] at hu
          cases hu
      · exact fun h => absurd (hst.symm.trans h) (by decide)
    | indeterminate =>
      rcases ih hst (i + 1) with ⟨u, t, rfl, hu, hc⟩ | ⟨hno, hnd⟩
      · refine .inl ⟨c :: u, t, rfl, by rw [Place.walk_cons, ← hnode, hu], ?_⟩
        rw [hc, length_cons, Nat.add_assoc, Nat.add_comm 1]
        rfl
      · refine .inr ⟨fun u t hut hu => ?_, hnd⟩
        cases u with
        | nil =>
          rw [show h.parseNode_ = .endSn from hu] at hs
          cases hs
        | cons c' u =>
          rw [cons_append, List.cons.injEq] at hut
          obtain ⟨rfl, hut⟩ := hut
          rw [Place.walk_cons, ← hnode] at hu
          exact hno u t hut hu

/-- If the first `n` bytes lead to the end, `parse` consumes these and answers `n`. -/
theorem parse_of_walk (h : HttpHead Place) {s : Bytes} {n : ℕ} (hn : n ≤ s.length)
    (hw : (Place.word []).walk (s.take n) = .endSn) :
    h.parse placeTable s = ((h.clear placeTable).feed placeTable (s.take n), some n) := by
  have hstart : (h.clear placeTable).parseNode_.state = .indeterminate := rfl
  rcases consumeFrom_cases hstart 0 s with ⟨u, t, rfl, hu, hc⟩ | ⟨hno, -⟩
  · have heq := Place.eq_of_walk_endSn (prefix_append u t) (List.take_prefix n _) hu hw
    have hlen : u.length = n := by rw [heq, length_take, Nat.min_eq_left hn]
    rw [parse_of_done, hc, ← heq, hlen, Nat.zero_add]
    rw [hc]
    exact congrArg Place.state ((parseNode_feed _ u).trans hu)
  · exact absurd hw (hno (s.take n) (s.drop n) (take_append_drop n s).symm)

/-- If `parse` answers `n`, the first `n` bytes lead to the end. -/
theorem walk_of_parse {h : HttpHead Place} {s : Bytes} {n : ℕ}
    (hp : (h.parse placeTable s).2 = some n) :
    n ≤ s.length ∧ (Place.word []).walk (s.take n) = .endSn := by
  have hstart : (h.clear placeTable).parseNode_.state = .indeterminate := rfl
  rcases consumeFrom_cases hstart 0 s with ⟨u, t, rfl, hu, hc⟩ | ⟨-, hnd⟩
  · have hdone : placeTable.state_ ((h.clear placeTable).consumeFrom placeTable 0
        (u ++ t)).1.parseNode_ = .done := by
      rw [hc]
      exact congrArg Place.state ((parseNode_feed _ u).trans hu)
    rw [parse_of_done hdone, hc, Option.some_inj, Nat.zero_add] at hp
    subst hp
    rw [take_left]
    exact ⟨by simp, hu⟩
  · rw [parse_of_not_done hnd] at hp
    cases hp

end HttpHead

end Http
