/-
Field values with inner blanks (http/src/http_head.cpp).

The node `value_info` of the parse engine has no link for a blank: a value ends at the
first one, and the head is refused.  A value without one is taken as it stands, and `get`
returns it if no earlier field has the same key.

* `isStrless_weak_order` — the order of the keys;
* `ICaseMap.find`, `HttpHead.get` — the source's functions;
* `ICaseMap.find_foldl_insert` — `find` returns the field that was inserted first;
* `HttpHead.parse_blank` — a head with a blank in a value is refused;
* `HttpHead.replaced_value_iff` — which values can stand in a head.
-/
import CppFeatures.HttpGrammar

namespace Http

open List

/-! ### `get` -/

/-- Neither key is less. -/
def isEquiv (a b : Bytes) : Bool := !isStrless a b && !isStrless b a

theorem isStrlessChars_congr {a b c : Bytes} (h : a.map toupper = b.map toupper) :
    isStrlessChars a c = isStrlessChars b c := by
  induction a generalizing b c with
  | nil => rw [map_eq_nil_iff.mp h.symm]
  | cons x a ih =>
    cases b with
    | nil => cases h
    | cons y b =>
      obtain ⟨hxy, hab⟩ := List.cons.inj h
      cases c with
      | nil => rfl
      | cons z c => rw [isStrlessChars, isStrlessChars, hxy, ih hab]

theorem length_eq_of_map_toupper {a b : Bytes} (h : a.map toupper = b.map toupper) :
    a.length = b.length := by
  have := congrArg List.length h
  rwa [length_map, length_map] at this

theorem isStrless_congr {a b c : Bytes} (h : a.map toupper = b.map toupper) :
    isStrless a c = isStrless b c := by
  have hlen := length_eq_of_map_toupper h
  rw [isStrless, isStrless, hlen, isStrlessChars_congr h]

theorem map_toupper_of_isStrlessChars {a b : Bytes} (hlen : a.length = b.length)
    (hab : isStrlessChars a b = false) (hba : isStrlessChars b a = false) :
    a.map toupper = b.map toupper := by
  induction a generalizing b with
  | nil => rw [eq_nil_of_length_eq_zero hlen.symm]
  | cons x a ih =>
    cases b with
    | nil => cases hlen
    | cons y b =>
      rw [isStrlessChars] at hab hba
      by_cases hxy : toupper x = toupper y
      · rw [if_neg (not_not.mpr hxy)] at hab
        rw [if_neg (not_not.mpr hxy.symm)] at hba
        rw [map_cons, map_cons, hxy, ih (Nat.succ.inj hlen) hab hba]
      · rw [if_pos hxy, decide_eq_false_iff_not, Int8.lt_iff_toInt_lt] at hab
        rw [if_pos (Ne.symm hxy), decide_eq_false_iff_not, Int8.lt_iff_toInt_lt] at hba
        have heq : (toupper x).toInt8 = (toupper y).toInt8 := Int8.toInt_inj.mp (by omega)
        exact absurd (congrArg Int8.toUInt8 heq) hxy

/-- Equivalent keys differ in the case of letters only. -/
theorem isEquiv_iff {a b : Bytes} : isEquiv a b = true ↔ a.map toupper = b.map toupper := by
  constructor
  · intro h
    obtain ⟨hab, hba⟩ := Bool.and_eq_true_iff.mp h
    rw [Bool.not_eq_true', isStrless] at hab hba
    by_cases hlen : a.length = b.length
    · rw [if_neg (not_not.mpr hlen)] at hab
      rw [if_neg (not_not.mpr hlen.symm)] at hba
      exact map_toupper_of_isStrlessChars hlen hab hba
    · rw [if_pos hlen, decide_eq_false_iff_not] at hab
      rw [if_pos (Ne.symm hlen), decide_eq_false_iff_not] at hba
      omega
  · intro h
    rw [isEquiv, isStrless_congr h, isStrless_irrefl, ← isStrless_congr h, isStrless_irrefl]
    rfl

theorem isEquiv_congr {a b c : Bytes} (h : isEquiv a b = true) : isEquiv a c = isEquiv b c := by
  rw [Bool.eq_iff_iff, isEquiv_iff, isEquiv_iff, isEquiv_iff.mp h]

theorem isEquiv_comm {a b : Bytes} : isEquiv a b = isEquiv b a := Bool.and_comm ..

theorem map_toupper_eq_iff {a b : Bytes} : a.map toupper = b.map toupper ↔
    a.length = b.length ∧ ∀ i (ha : i < a.length) (hb : i < b.length), toupper a[i] = toupper b[i] := by
  constructor
  · intro h
    refine ⟨length_eq_of_map_toupper h, fun i ha hb => ?_⟩
    have hi : (a.map toupper)[i]? = (b.map toupper)[i]? := by rw [h]
    simpa [List.getElem?_map, ha, hb] using hi
  · rintro ⟨hlen, hchars⟩
    refine ext_getElem (by simpa using hlen) fun i ha hb => ?_
    rw [length_map] at ha hb
    rw [getElem_map, getElem_map, hchars i ha hb]

/-- **`is_strless` is a strict weak order**, and the keys that it does not tell apart are those
that are equal ignoring case. -/
theorem isStrless_weak_order (a b c : Bytes) :
    ¬ isStrless a a = true ∧
    (isStrless a b = true → isStrless b c = true → isStrless a c = true) ∧
    ((¬ isStrless a b = true ∧ ¬ isStrless b a = true) ↔
      a.length = b.length ∧
        ∀ i (ha : i < a.length) (hb : i < b.length), toupper a[i] = toupper b[i]) := by
  refine ⟨?_, fun hab hbc => isStrless_trans hab hbc, ?_⟩
  · rw [isStrless_irrefl]
    decide
  · rw [← map_toupper_eq_iff, ← isEquiv_iff, isEquiv, Bool.and_eq_true, Bool.not_eq_true',
      Bool.not_eq_true', Bool.not_eq_true, Bool.not_eq_true]

/-- `Age` is less than `Date`, and `Date` less than `host`; `Host` and `hOST` are not told apart,
and a byte above 127 is less than a letter. -/
theorem isStrless_sample :
    isStrless (bytes "Age") (bytes "host") = true ∧
    (¬ isStrless (bytes "Host") (bytes "hOST") = true ∧
      ¬ isStrless (bytes "hOST") (bytes "Host") = true) ∧
    isStrless [200] (bytes "a") = true := by
  refine ⟨?_, ?_, by decide⟩
  · exact (isStrless_weak_order _ (bytes "Date") _).2.1 (by decide) (by decide)
  · refine (isStrless_weak_order _ _ []).2.2.mpr ⟨by decide, ?_⟩
    exact (map_toupper_eq_iff.mp (by decide)).2

namespace ICaseMap

/-- `find`: the first element with an equivalent key. -/
def find (m : ICaseMap) (key : Bytes) : Option (Bytes × Bytes) :=
  m.entries.find? fun kv => isEquiv key kv.1

/-- An element comes behind those with equivalent keys. -/
theorem find?_insertEntry (key : Bytes) {kv : Bytes × Bytes} {l : List (Bytes × Bytes)}
    (h : l.Pairwise fun a b => isStrless b.1 a.1 = false) :
    (insertEntry kv l).find? (fun e => isEquiv key e.1)
      = (l.find? fun e => isEquiv key e.1).or ([kv].find? fun e => isEquiv key e.1) := by
  induction l with
  | nil => rfl
  | cons x l ih =>
    obtain ⟨hx, hl⟩ := pairwise_cons.mp h
    rw [insertEntry, orderedInsert_cons]
    split_ifs with hlt
    · cases hkv : isEquiv key kv.1 with
      | false => simp [List.find?_cons, hkv]
      | true =>
        -- an equivalent element from `x` on would be less than `x`
        have hnone : (x :: l).find? (fun e => isEquiv key e.1) = none := by
          refine List.find?_eq_none.mpr fun y hy hkey => ?_
          have hyx : isStrless y.1 x.1 = true := by
            rw [isStrless_congr ((isEquiv_iff.mp hkey).symm.trans (isEquiv_iff.mp hkv))]
            exact hlt
          rcases mem_cons.mp hy with rfl | hy
          · rw [isStrless_irrefl] at hyx
            cases hyx
          · rw [hx y hy] at hyx
            cases hyx
        have hself : ∀ l, (kv :: l).find? (fun e => isEquiv key e.1) = some kv := fun l =>
          List.find?_cons_of_pos (p := fun e : Bytes × Bytes => isEquiv key e.1) hkv
        rw [hnone, Option.none_or, hself, hself]
    · have ih := ih hl
      rw [insertEntry] at ih
      rw [List.find?_cons, List.find?_cons, ih]
      cases isEquiv key x.1 <;> rfl

theorem find_insert (m : ICaseMap) (kv : Bytes × Bytes) (key : Bytes) :
    (m.insert kv).find key = (m.find key).or ([kv].find? fun e => isEquiv key e.1) :=
  find?_insertEntry key m.sorted

/-- **`find` returns what was inserted first.** -/
theorem find_foldl_insert (m : ICaseMap) (kvs : List (Bytes × Bytes)) (key : Bytes) :
    (kvs.foldl insert m).find key = (m.find key).or (kvs.find? fun e => isEquiv key e.1) := by
  induction kvs generalizing m with
  | nil => rw [foldl_nil, List.find?_nil, Option.or_none]
  | cons kv kvs ih =>
    rw [foldl_cons, ih, find_insert, Option.or_assoc, ← List.find?_append, singleton_append]

end ICaseMap

/-- `get`. -/
def HttpHead.get {ν : Type*} (h : HttpHead ν) (key : Bytes) : Bytes :=
  match h.fields_.find key with
  | none => []
  | some kv => kv.2

/-! ### Replacing a value -/

/-- Bytes 33..126, with blanks strictly between them. -/
structure InnerBlanks (v : Bytes) : Prop where
  chars : ∀ c ∈ v, isGraph c.toNat = true ∨ isWs c.toNat = true
  first : ∃ c ∈ v.head?, isGraph c.toNat = true
  last : ∃ c ∈ v.getLast?, isGraph c.toNat = true

theorem InnerBlanks.mem_plusOf {v : Bytes} (h : InnerBlanks v) (hws : ∀ c ∈ v, isWs c.toNat = false) :
    v ∈ plusOf isGraph := by
  refine ⟨?_, fun c hc => (h.chars c hc).resolve_right (by rw [hws c hc]; decide)⟩
  rintro rfl
  obtain ⟨c, hc, -⟩ := h.first
  cases hc

/-- The part before the first blank. -/
theorem exists_first_blank {v : Bytes}
    (hchars : ∀ c ∈ v, isGraph c.toNat = true ∨ isWs c.toNat = true)
    (hws : ¬ ∀ c ∈ v, isWs c.toNat = false) :
    ∃ u b w, v = u ++ b :: w ∧ u ∈ starOf isGraph ∧ isWs b.toNat = true := by
  induction v with
  | nil => exact absurd nofun hws
  | cons c v ih =>
    rw [forall_mem_cons] at hchars
    cases hc : isWs c.toNat with
    | true => exact ⟨[], c, v, rfl, nil_mem_starOf, hc⟩
    | false =>
      have hgraph := hchars.1.resolve_right (by rw [hc]; decide)
      obtain ⟨u, b, w, rfl, hu, hb⟩ := ih hchars.2 fun hall =>
        hws (forall_mem_cons.mpr ⟨hc, hall⟩)
      exact ⟨c :: u, b, w, rfl, forall_mem_cons.mpr ⟨hgraph, hu⟩, hb⟩

theorem InnerBlanks.exists_blank {v : Bytes} (h : InnerBlanks v)
    (hws : ¬ ∀ c ∈ v, isWs c.toNat = false) :
    ∃ u b w, v = u ++ b :: w ∧ u ∈ plusOf isGraph ∧ isWs b.toNat = true := by
  obtain ⟨u, b, w, rfl, hu, hb⟩ := exists_first_blank h.chars hws
  refine ⟨u, b, w, rfl, ⟨?_, hu⟩, hb⟩
  rintro rfl
  obtain ⟨c, hc, hgraph⟩ := h.first
  cases hc
  rw [not_isGraph_of_isWs hb] at hgraph
  cases hgraph

/-- A field with another text in the place of its value. -/
def FieldText.textWith (f : FieldText) (v : Bytes) : Bytes :=
  f.key ++ f.ws ++ bytes ":" ++ f.ws' ++ v ++ bytes "\r\n"

/-- A head with another text in the place of the value of `f`, which stands between the other
fields. -/
def HeadText.textWith (d : HeadText) (before : List FieldText) (f : FieldText)
    (behind : List FieldText) (v : Bytes) : Bytes :=
  d.line ++ (before.flatMap FieldText.text ++ (f.textWith v ++ behind.flatMap FieldText.text)) ++
    bytes "\r\n"

/-- A value without blanks makes a head. -/
def HeadText.withValue (d : HeadText) (before : List FieldText) (f : FieldText)
    (behind : List FieldText) {v : Bytes} (hv : v ∈ plusOf isGraph) : HeadText :=
  { d with fields := before ++ { f with value := v, value_mem := hv } :: behind }

theorem HeadText.text_withValue (d : HeadText) (before : List FieldText) (f : FieldText)
    (behind : List FieldText) {v : Bytes} (hv : v ∈ plusOf isGraph) :
    (d.withValue before f behind hv).text = d.textWith before f behind v := by
  rw [text_eq, textWith]
  show d.line ++ List.flatMap FieldText.text (before ++ _ :: behind) ++ _ = _
  rw [flatMap_append, flatMap_cons]
  rfl

namespace HttpHead

/-- The parser stands inside the value. -/
theorem walk_value (d : HeadText) (before : List FieldText) (f : FieldText) {v : Bytes}
    (hv : v ∈ plusOf isGraph) :
    (Place.word []).walk (d.line ++ before.flatMap FieldText.text ++
      (f.key ++ f.ws ++ bytes ":" ++ f.ws' ++ v)) = .valueInfo := by
  have hfeed := feed_append (T := placeTable)
    ((new placeTable .request).standing (.word []) [] []) d.line (before.flatMap FieldText.text)
  rw [feed_line, feed_fields] at hfeed
  have hvalue := feed_append (T := placeTable)
    ((new placeTable .request).standing (.word []) [] []) (d.line ++ before.flatMap FieldText.text)
    (f.key ++ f.ws ++ bytes ":" ++ f.ws' ++ v)
  rw [hfeed, feed_keyValue f.key_mem f.ws_mem f.ws'_mem hv] at hvalue
  exact (parseNode_feed _ _).symm.trans (congrArg parseNode_ hvalue)

end HttpHead

/-- Once inside a value, a string with a blank next has no prefix that leads to the end. -/
theorem Place.walk_ne_endSn {p : Place} {w u x : Bytes} {b : UInt8} (hw : p.walk w = valueInfo)
    (hb : isWs b.toNat = true) (hu : u <+: w ++ b :: x) : p.walk u ≠ endSn := by
  intro hend
  rcases prefix_or_prefix_of_prefix hu (prefix_append w (b :: x)) with
    ⟨y, rfl⟩ | ⟨y, rfl⟩
  · rw [walk_append, hend] at hw
    cases y with
    | nil => cases hw
    | cons c y =>
      have herr := (walk_err y).symm.trans hw
      cases herr
  · rw [walk_append, hw] at hend
    cases y with
    | nil => cases hend
    | cons c y =>
      obtain ⟨rfl, -⟩ := cons_prefix_cons.mp ((prefix_append_right_inj w).mp hu)
      have hstep : (valueInfo.step (code c)).1 = err := by
        rw [← isWs_code] at hb
        have hne : code c ≠ 13 := by
          intro h
          rw [h] at hb
          cases hb
        simp [step, hne, not_isGraph_of_isWs (isWs_code c ▸ hb)]
      rw [walk_cons, hstep, walk_err] at hend
      cases hend

namespace HttpHead

variable (d : HeadText) (before : List FieldText) (f : FieldText) (behind : List FieldText)
  {v : Bytes} (t : Bytes)

/-- **A head with a blank in a value** is refused, whatever follows. -/
theorem parse_blank (g : HttpHead NodePtr) (hv : InnerBlanks v)
    (hws : ¬ ∀ c ∈ v, isWs c.toNat = false) :
    (g.parse engineTable (d.textWith before f behind v ++ t)).2 = none := by
  obtain ⟨u, b, w, rfl, hu, hb⟩ := hv.exists_blank hws
  have hvalue := walk_value d before f hu
  have htext : d.textWith before f behind (u ++ b :: w) ++ t
      = d.line ++ before.flatMap FieldText.text ++ (f.key ++ f.ws ++ bytes ":" ++ f.ws' ++ u) ++
        b :: (w ++ bytes "\r\n" ++ behind.flatMap FieldText.text ++ bytes "\r\n" ++ t) := by
    simp [HeadText.textWith, FieldText.textWith]
  rw [← answer_map engineTable_hom, Option.eq_none_iff_forall_not_mem]
  intro n hn
  obtain ⟨-, hend⟩ := walk_of_parse hn
  have hprefix := take_prefix n (d.textWith before f behind (u ++ b :: w) ++ t)
  rw [htext] at hprefix hend
  exact Place.walk_ne_endSn hvalue hb hprefix hend

/-- **A value without blanks** is accepted, and `get` returns the first value with its key. -/
theorem parse_withValue (g : HttpHead NodePtr) (hv : v ∈ plusOf isGraph) :
    (g.parse engineTable (d.textWith before f behind v ++ t)).2
        = some (d.textWith before f behind v).length ∧
      (g.parse engineTable (d.textWith before f behind v ++ t)).1.get f.key
        = ((before.find? fun e => isEquiv f.key e.key).map FieldText.value).getD v := by
  obtain ⟨hanswer, hhead⟩ := parse_text g (d.withValue before f behind hv) t
  rw [d.text_withValue] at hanswer hhead
  refine ⟨hanswer, ?_⟩
  have hspells := spells_takeHead (g.map place) (d.withValue before f behind hv)
  rw [← hhead] at hspells
  have hfields : (g.parse engineTable (d.textWith before f behind v ++ t)).1.fields_
      = ((before ++ { f with value := v, value_mem := hv } :: behind).map
          fun e => (e.key, e.value)).foldl ICaseMap.insert .empty := hspells.of_map.fields
  have hself : isEquiv f.key f.key = true := isEquiv_iff.mpr rfl
  have hempty : ICaseMap.empty.find f.key = none := rfl
  have hfind : (g.parse engineTable (d.textWith before f behind v ++ t)).1.fields_.find f.key
      = ((before.find? fun e => isEquiv f.key e.key).or
          (some { f with value := v, value_mem := hv })).map fun e => (e.key, e.value) := by
    rw [hfields, ICaseMap.find_foldl_insert, hempty, Option.none_or, List.find?_map,
      List.find?_append]
    refine congrArg (fun x => Option.map _ (Option.or _ x)) ?_
    exact List.find?_cons_of_pos hself
  rw [get, hfind]
  cases before.find? fun e => isEquiv f.key e.key with
  | none => rfl
  | some e => rfl

/-- **Which values can stand in a head.**  For every accepted head, every field of it and every
value of bytes 33..126 with blanks strictly between them: the head with this value is accepted,
with all of its bytes, and `get` returns the value, **iff** it has no blank and the first of the
fields before, if any, that has an equivalent key has this value too. -/
theorem replaced_value_iff (h g : HttpHead NodePtr) {s : Bytes} {n : ℕ}
    (hs : (h.parse engineTable s).2 = some n) :
    (∃ d : HeadText, d.text = s.take n) ∧
    ∀ d : HeadText, d.text = s.take n → ∀ before f behind, d.fields = before ++ f :: behind →
      d.textWith before f behind f.value = s.take n ∧
      ∀ v, InnerBlanks v →
        (((g.parse engineTable (d.textWith before f behind v ++ s.drop n)).2
              = some (d.textWith before f behind v).length ∧
            (g.parse engineTable (d.textWith before f behind v ++ s.drop n)).1.get f.key = v) ↔
          (∀ c ∈ v, isWs c.toNat = false) ∧
            ∀ e ∈ before.find? fun e => isEquiv f.key e.key, e.value = v) := by
  constructor
  · rw [← answer_map engineTable_hom] at hs
    exact HeadText.exists_of_mem_grammar (mem_grammar_iff.mpr (walk_of_parse hs).2)
  intro d hd before f behind hfields
  refine ⟨?_, fun v hv => ?_⟩
  · rw [← hd, d.text_eq, hfields, flatMap_append, flatMap_cons]
    rfl
  by_cases hws : ∀ c ∈ v, isWs c.toNat = false
  · obtain ⟨hanswer, hget⟩ := parse_withValue d before f behind (s.drop n) g (hv.mem_plusOf hws)
    rw [hget, and_iff_right hanswer, and_iff_right hws]
    cases before.find? fun e => isEquiv f.key e.key with
    | none => exact iff_of_true rfl nofun
    | some e =>
      constructor
      · intro hvalue e' he'
        cases he'
        exact hvalue
      · intro hvalue
        exact hvalue e rfl
  · refine iff_of_false ?_ fun hright => hws hright.1
    rintro ⟨hanswer, -⟩
    rw [parse_blank d before f behind (s.drop n) g hv hws] at hanswer
    cases hanswer

/-- `GET / HTTP/1.1` with the one field `Date: now`. -/
def dateHead : HeadText where
  start := .request (bytes "GET") (bytes " ") (bytes "/") (bytes " ")
    (by decide : (bytes "GET").map code ∈ methodWords)
    (singleton_mem_plusOf (c := 32) rfl) (singleton_mem_plusOf (c := 47) rfl)
    (singleton_mem_plusOf (c := 32) rfl)
  http := bytes "HTTP/"
  major := bytes "1"
  minor := bytes "1"
  fields := [⟨bytes "Date", [], bytes " ", bytes "now",
    ⟨68, bytes "ate", rfl, rfl, all_eq_true.mp rfl⟩, nil_mem_starOf,
    (singleton_mem_plusOf (c := 32) rfl).2, ⟨cons_ne_nil _ _, all_eq_true.mp rfl⟩⟩]
  http_mem := (by decide : (bytes "HTTP/").map code = httpWord)
  major_mem := (singleton_mem_plusOf (c := 49) rfl).2
  minor_mem := singleton_mem_plusOf (c := 49) rfl

theorem parse_dateHead : ((new engineTable .request).parse engineTable dateHead.text).2
    = some dateHead.text.length := by
  have := (parse_text (new engineTable .request) dateHead []).1
  rwa [append_nil] at this

/-- The value `noon` can stand in it. -/
theorem replaced_value_noon :
    ((new engineTable .request).parse engineTable dateHead.text).2 = some dateHead.text.length ∧
    InnerBlanks (bytes "noon") ∧
    ∀ f ∈ dateHead.fields,
      ((new engineTable .request).parse engineTable
        (dateHead.textWith [] f [] (bytes "noon"))).1.get f.key = bytes "noon" := by
  have hgraph : ∀ c ∈ bytes "noon", isGraph c.toNat = true := all_eq_true.mp rfl
  have hv : InnerBlanks (bytes "noon") :=
    ⟨fun c hc => .inl (hgraph c hc), ⟨110, rfl, rfl⟩, ⟨110, rfl, rfl⟩⟩
  refine ⟨parse_dateHead, hv, fun f hf => ?_⟩
  rw [mem_singleton.mp hf]
  have hiff := ((replaced_value_iff _ (new engineTable .request) parse_dateHead).2 dateHead
    take_length.symm [] _ [] rfl).2 _ hv
  have hget := (hiff.mpr ⟨fun c hc => not_isWs_of_isGraph (hgraph c hc), nofun⟩).2
  rwa [drop_length, append_nil] at hget

/-- The value `12 Nov` cannot. -/
theorem parse_refuses_blank :
    ((new engineTable .request).parse engineTable dateHead.text).2 = some dateHead.text.length ∧
    InnerBlanks (bytes "12 Nov") ∧
    ∀ f ∈ dateHead.fields, ((new engineTable .request).parse engineTable
      (dateHead.textWith [] f [] (bytes "12 Nov"))).2 = none := by
  have hchars : ∀ c ∈ bytes "12 Nov", (isGraph c.toNat || isWs c.toNat) = true :=
    all_eq_true.mp rfl
  have hv : InnerBlanks (bytes "12 Nov") :=
    ⟨fun c hc => Bool.or_eq_true_iff.mp (hchars c hc), ⟨49, rfl, rfl⟩, ⟨118, rfl, rfl⟩⟩
  have hblank : ¬ ∀ c ∈ bytes "12 Nov", isWs c.toNat = false := fun h =>
    Bool.false_ne_true (h 32 (.tail _ (.tail _ (.head _)))).symm
  refine ⟨parse_dateHead, hv, fun f _ => ?_⟩
  have hnone := parse_blank dateHead [] f [] [] (new engineTable .request) hv hblank
  rwa [append_nil] at hnone

end HttpHead

end Http
