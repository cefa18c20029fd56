/-
Parsing an HTTP head in chunks, with an object that has been used before
(http/src/http_head.cpp).

`clear` does not empty both buffers: what was in `parse_buf_` is in `parse_buf2_`
afterwards.  No harm comes of it, since the results that come first, the method or the
status, empty both, and before them nothing looks at `parse_buf2_`.

* `HttpHead.consumeChunks_eq` — consuming chunks is consuming what they make up;
* `HttpHead.Alike` — two objects that differ in `parse_buf2_` at most, and only as long
  as it does not matter;
* `HttpHead.chunks_and_history` — any split and any history give what one call on a new
  object gives.
-/
import CppFeatures.HttpGrammar

namespace Http

namespace HttpHead

/-! ### Chunks -/

section Chunks

variable {ν : Type*} {T : NodeTable ν}

/-- Consuming chunks until the parser is done or fails; the answer counts the bytes from
`i` on. -/
def consumeChunks (T : NodeTable ν) (h : HttpHead ν) (i : ℕ) :
    List Bytes → HttpHead ν × Option ℕ
  | [] => (h, some i)
  | chunk :: chunks =>
    let r := h.consume T chunk
    if T.state_ r.1.parseNode_ = .indeterminate then
      consumeChunks T r.1 (i + chunk.length) chunks
    else (r.1, r.2.map (i + ·))

theorem consumeFrom_eq_consume (h : HttpHead ν) (i : ℕ) (data : Bytes) :
    h.consumeFrom T i data = ((h.consume T data).1, (h.consume T data).2.map (i + ·)) := by
  have hshift : ∀ (h : HttpHead ν) (j : ℕ), h.consumeFrom T (i + j) data
      = ((h.consumeFrom T j data).1, (h.consumeFrom T j data).2.map (i + ·)) := by
    induction data with
    | nil => exact fun h j => rfl
    | cons c data ih =>
      intro h j
      simp only [consumeFrom]
      cases T.state_ (h.consumeChar T c).parseNode_ with
      | done => rfl
      | error => rfl
      | indeterminate => exact ih _ (j + 1)
  exact hshift h 0

theorem consumeFrom_cons_go {h : HttpHead ν} {c : UInt8} {i : ℕ} {data : Bytes}
    (hst : T.state_ (h.consumeChar T c).parseNode_ = .indeterminate) :
    h.consumeFrom T i (c :: data) = (h.consumeChar T c).consumeFrom T (i + 1) data := by
  rw [consumeFrom]
  simp only [hst]

theorem consumeFrom_cons_stop {h : HttpHead ν} {c : UInt8} (i : ℕ)
    (hst : T.state_ (h.consumeChar T c).parseNode_ ≠ .indeterminate) :
    ∃ r, (∀ data, h.consumeFrom T i (c :: data) = r) ∧ r.1 = h.consumeChar T c := by
  cases hcase : T.state_ (h.consumeChar T c).parseNode_ with
  | indeterminate => exact absurd hcase hst
  | done => exact ⟨(h.consumeChar T c, some (i + 1)), fun data => by simp [consumeFrom, hcase], rfl⟩
  | error => exact ⟨(h.consumeChar T c, none), fun data => by simp [consumeFrom, hcase], rfl⟩

/-- `consume` goes on where it stopped. -/
theorem consumeFrom_append {h : HttpHead ν} (hs : T.state_ h.parseNode_ = .indeterminate) (i : ℕ)
    (a b : Bytes) : h.consumeFrom T i (a ++ b) =
      if T.state_ (h.consumeFrom T i a).1.parseNode_ = .indeterminate then
        (h.consumeFrom T i a).1.consumeFrom T (i + a.length) b
      else h.consumeFrom T i a := by
  induction a generalizing h i with
  | nil => exact (if_pos hs).symm
  | cons c a ih =>
    by_cases hst : T.state_ (h.consumeChar T c).parseNode_ = .indeterminate
    · rw [List.cons_append, consumeFrom_cons_go hst, consumeFrom_cons_go hst, ih hst,
        List.length_cons, Nat.add_assoc, Nat.add_comm 1]
    · obtain ⟨r, hr, hnode⟩ := consumeFrom_cons_stop i hst
      rw [List.cons_append, hr, hr, hnode, if_neg hst]

/-- **Chunks** are consumed as what they make up. -/
theorem consumeChunks_eq {h : HttpHead ν} (hs : T.state_ h.parseNode_ = .indeterminate) (i : ℕ)
    (chunks : List Bytes) : h.consumeChunks T i chunks = h.consumeFrom T i chunks.flatten := by
  induction chunks generalizing h i with
  | nil => rfl
  | cons chunk chunks ih =>
    rw [consumeChunks, List.flatten_cons, consumeFrom_append hs, consumeFrom_eq_consume]
    dsimp only
    split_ifs with hst
    · exact ih hst (i + chunk.length)
    · rfl

end Chunks

/-! ### History -/

/-- Where the second buffer does not matter: until the method or the status is taken, which
empties it, and after an error. -/
def Early : Place → Bytes → Prop
  | .err, _ | .word _, _ | .statusEnd, _ | .status, _ => True
  | .methodEnd, buf | .statusCodeInfo, buf => buf ≠ []
  | _, _ => False

theorem spell_cases (w : List ℕ) : Place.spell w = (.methodEnd, 1) ∨
    Place.spell w = (.statusEnd, 0) ∨ (∃ k, k ≠ 2 ∧ Place.spell w = (.word w, k)) ∨
    Place.spell w = (.err, 0) := by
  rw [Place.spell]
  cases methodWords.find? fun x => w.isPrefixOf x with
  | some x =>
    dsimp only
    split_ifs
    · exact .inl rfl
    · exact .inr (.inr (.inl ⟨1, by decide, rfl⟩))
  | none =>
    dsimp only
    split_ifs
    · exact .inr (.inl rfl)
    · exact .inr (.inr (.inl ⟨0, by decide, rfl⟩))
    · exact .inr (.inr (.inr rfl))

/-- A step from such a place leads to another one, or takes a result. -/
theorem Early.step {p : Place} {b : Bytes} (hp : Early p b) (c : UInt8) :
    ∃ q k, p.step (code c) = (q, k) ∧
      (q.result = .none ∧ k ≠ 2 ∧ Early q (if k = 1 then b ++ [c] else b) ∨
        (q = .method ∨ q = .statusCode) ∧ k = 0 ∧ b ≠ []) := by
  have happ : b ++ [c] ≠ [] := by simp
  cases p with
  | err => exact ⟨.err, 0, rfl, .inl ⟨rfl, by decide, trivial⟩⟩
  | word w =>
    rw [Place.step]
    rcases spell_cases (w ++ [code c]) with h | h | ⟨k, hk, h⟩ | h
    · exact ⟨_, _, h, .inl ⟨rfl, by decide, happ⟩⟩
    · exact ⟨_, _, h, .inl ⟨rfl, by decide, trivial⟩⟩
    · exact ⟨_, _, h, .inl ⟨rfl, hk, trivial⟩⟩
    · exact ⟨_, _, h, .inl ⟨rfl, by decide, trivial⟩⟩
  | statusEnd =>
    rw [Place.step]
    split_ifs
    · exact ⟨_, _, rfl, .inl ⟨rfl, by decide, trivial⟩⟩
    · exact ⟨_, _, rfl, .inl ⟨rfl, by decide, trivial⟩⟩
  | status =>
    rw [Place.step]
    split_ifs
    · exact ⟨_, _, rfl, .inl ⟨rfl, by decide, happ⟩⟩
    · exact ⟨_, _, rfl, .inl ⟨rfl, by decide, trivial⟩⟩
    · exact ⟨_, _, rfl, .inl ⟨rfl, by decide, trivial⟩⟩
  | methodEnd =>
    rw [Place.step]
    split_ifs
    · exact ⟨_, _, rfl, .inr ⟨.inl rfl, rfl, hp⟩⟩
    · exact ⟨_, _, rfl, .inl ⟨rfl, by decide, trivial⟩⟩
  | statusCodeInfo =>
    rw [Place.step]
    split_ifs
    · exact ⟨_, _, rfl, .inr ⟨.inr rfl, rfl, hp⟩⟩
    · exact ⟨_, _, rfl, .inl ⟨rfl, by decide, happ⟩⟩
    · exact ⟨_, _, rfl, .inl ⟨rfl, by decide, trivial⟩⟩
  | _ => exact hp.elim

/-- `g` and `h` differ at most in the second buffer, and only where it does not matter. -/
def Alike (g h : HttpHead Place) : Prop :=
  ∃ (base : HttpHead Place) (p : Place) (b b2 b2' : Bytes),
    g = base.standing p b b2 ∧ h = base.standing p b b2' ∧ (b2 = b2' ∨ Early p b)

theorem Alike.refl (h : HttpHead Place) : Alike h h :=
  ⟨h, h.parseNode_, h.parseBuf_, h.parseBuf2_, h.parseBuf2_, rfl, rfl, .inl rfl⟩

theorem Alike.consumeChar {g h : HttpHead Place} (ha : Alike g h) (c : UInt8) :
    Alike (g.consumeChar placeTable c) (h.consumeChar placeTable c) := by
  obtain ⟨base, p, b, b2, b2', rfl, rfl, hb⟩ := ha
  rcases hb with rfl | hp
  · exact Alike.refl _
  · obtain ⟨q, k, hstep, ⟨hres, hk, hq⟩ | ⟨hq, rfl, hb⟩⟩ := hp.step c
    · rw [consumeChar_quiet hstep hres, consumeChar_quiet hstep hres, if_neg hk, if_neg hk]
      exact ⟨base, q, _, b2, b2', rfl, rfl, .inr hq⟩
    · -- the result does not use the second buffer, and both are emptied
      have hres : q.result ≠ .none := by rcases hq with rfl | rfl <;> decide
      rw [consumeChar_result hstep hb hres, consumeChar_result hstep hb hres]
      rcases hq with rfl | rfl
      · exact Alike.refl _
      · exact Alike.refl _

theorem Alike.consumeFrom {g h : HttpHead Place} (ha : Alike g h) (i : ℕ) (data : Bytes) :
    (g.consumeFrom placeTable i data).2 = (h.consumeFrom placeTable i data).2 ∧
    Alike (g.consumeFrom placeTable i data).1 (h.consumeFrom placeTable i data).1 := by
  induction data generalizing g h i with
  | nil => exact ⟨rfl, ha⟩
  | cons c data ih =>
    have hc := ha.consumeChar c
    have hnode : (g.consumeChar placeTable c).parseNode_ = (h.consumeChar placeTable c).parseNode_ := by
      obtain ⟨base, p, b, b2, b2', hg, hh, -⟩ := hc
      rw [hg, hh]
      rfl
    simp only [HttpHead.consumeFrom, hnode]
    cases placeTable.state_ (h.consumeChar placeTable c).parseNode_ with
    | done => exact ⟨rfl, hc⟩
    | error => exact ⟨rfl, hc⟩
    | indeterminate => exact ih hc (i + 1)

/-- Everything but the buffers is the same. -/
theorem Alike.eq {g h : HttpHead Place} (ha : Alike g h) :
    g.parseNode_ = h.parseNode_ ∧ g.type_ = h.type_ ∧ g.method_ = h.method_ ∧ g.path_ = h.path_ ∧
      g.status_ = h.status_ ∧ g.versionMajor_ = h.versionMajor_ ∧
      g.versionMinor_ = h.versionMinor_ ∧ g.fields_ = h.fields_ := by
  obtain ⟨base, p, b, b2, b2', rfl, rfl, -⟩ := ha
  exact ⟨rfl, rfl, rfl, rfl, rfl, rfl, rfl, rfl⟩

theorem clear_alike (g h : HttpHead Place) : Alike (g.clear placeTable) (h.clear placeTable) :=
  ⟨g.clear placeTable, .word [], [], g.parseBuf_, h.parseBuf_, rfl, rfl, .inr trivial⟩

/-- **Neither history nor chunks matter.**  For every object and every split of a string
into chunks, `clear` and consuming the chunks until the parser is done or fails ends in
the same state of the parser, with the same answer and the same type, method, path,
status, versions and fields as consuming the string with a new object. -/
theorem chunks_and_history (h : HttpHead NodePtr) (type : HttpHeadType) (chunks : List Bytes) :
    let r := (h.clear engineTable).consumeChunks engineTable 0 chunks
    let r' := (new engineTable type).consume engineTable chunks.flatten
    engineTable.state_ r.1.parseNode_ = engineTable.state_ r'.1.parseNode_ ∧ r.2 = r'.2 ∧
      r.1.type_ = r'.1.type_ ∧ r.1.method_ = r'.1.method_ ∧ r.1.path_ = r'.1.path_ ∧
      r.1.status_ = r'.1.status_ ∧ r.1.versionMajor_ = r'.1.versionMajor_ ∧
      r.1.versionMinor_ = r'.1.versionMinor_ ∧ r.1.fields_ = r'.1.fields_ := by
  intro r r'
  have hstart : engineTable.state_ (h.clear engineTable).parseNode_ = .indeterminate :=
    engineTable_hom.state_ _ |>.trans (congrArg Place.state place_root)
  have hr : r = (h.clear engineTable).consumeFrom engineTable 0 chunks.flatten :=
    consumeChunks_eq hstart 0 chunks
  have hmap := consumeFrom_map engineTable_hom (h.clear engineTable) 0 chunks.flatten
  have hmap' := consumeFrom_map engineTable_hom (new engineTable type) 0 chunks.flatten
  rw [clear_map engineTable_hom, ← hr] at hmap
  obtain ⟨hanswer, halike⟩ := (clear_alike (h.map place)
    (map place ⟨engineTable.root, [], [], type, .unkown, [], 0, 1, 1, .empty⟩)).consumeFrom 0
      chunks.flatten
  rw [new, clear_map engineTable_hom] at hmap'
  rw [hmap, hmap'] at hanswer halike
  obtain ⟨hnode, hrest⟩ := halike.eq
  refine ⟨?_, hanswer, hrest⟩
  rw [engineTable_hom.state_, engineTable_hom.state_]
  exact congrArg placeTable.state_ hnode

end HttpHead

end Http
