/-
Setting single fields (http/src/http_head.cpp).

`set_content_length` and `set_host` look a key up in the multimap and then either assign
to the element that was found or insert a new one.  Both look up `Content-Length`.

* `ICaseMap.set`, `HttpHead.setContentLength`, `setHost`, `host`, `contentLength` — the
  source's functions;
* `ICaseMap.value_set` — what a key is looked up to afterwards;
* `HttpHead.setters_iff` — when the setters do what they are named for;
* `HttpHead.contentLength_iff` — which lengths are read back.
-/
import CppFeatures.HttpRoundTrip
import CppFeatures.HttpValues
import Mathlib.Data.List.Lookmap

namespace Http

/-! ### Assigning to an element -/

namespace ICaseMap

/-- `it->second = v`, where `it` is what `find(key)` returned. -/
def assignEntry (key v : Bytes) (l : List (Bytes × Bytes)) : List (Bytes × Bytes) :=
  l.lookmap fun kv => if isEquiv key kv.1 then some (kv.1, v) else none

theorem assignEntry_sorted (key v : Bytes) {l : List (Bytes × Bytes)}
    (h : l.Pairwise fun a b => isStrless b.1 a.1 = false) :
    (assignEntry key v l).Pairwise fun a b => isStrless b.1 a.1 = false := by
  have hkeys : (assignEntry key v l).map Prod.fst = l.map Prod.fst := by
    refine List.lookmap_map_eq _ _ (fun kv kv' hkv => ?_) l
    split_ifs at hkv
    · cases hkv
      rfl
    · cases hkv
  have hsorted : (l.map Prod.fst).Pairwise fun a b => isStrless b a = false := List.pairwise_map.mpr h
  rw [← hkeys] at hsorted
  exact List.pairwise_map.mp hsorted

def assign (m : ICaseMap) (key v : Bytes) : ICaseMap :=
  ⟨assignEntry key v m.entries, assignEntry_sorted key v m.sorted⟩

/-- The common body of the setters. -/
def set (m : ICaseMap) (key v : Bytes) : ICaseMap :=
  match m.find key with
  | none => m.insert (key, v)
  | some _ => m.assign key v

/-- The value that a key is looked up to. -/
def value (m : ICaseMap) (key : Bytes) : Option Bytes := (m.find key).map Prod.snd

theorem find_congr (m : ICaseMap) {k key : Bytes} (h : isEquiv k key = true) :
    m.find k = m.find key := by
  rw [find, find]
  simp only [isEquiv_congr h]

/-- The first element with an equivalent key is the one that was assigned to. -/
theorem find?_assignEntry {key k : Bytes} (v : Bytes) (l : List (Bytes × Bytes)) :
    ((assignEntry key v l).find? fun kv => isEquiv k kv.1)
      = (l.find? fun kv => isEquiv k kv.1).map
          fun kv => if isEquiv k key then (kv.1, v) else kv := by
  induction l with
  | nil => rfl
  | cons x l ih =>
    rw [assignEntry] at ih ⊢
    by_cases hx : isEquiv key x.1 = true
    · -- `k` finds `x` exactly if it is equivalent to `key`
      have hk : isEquiv k x.1 = isEquiv k key := by
        rw [isEquiv_comm, ← isEquiv_congr hx, isEquiv_comm]
      rw [List.lookmap_cons_some _ l (if_pos hx), List.find?_cons, List.find?_cons, hk]
      cases isEquiv k key <;> simp
    · rw [List.lookmap_cons_none _ l (if_neg hx), List.find?_cons, List.find?_cons, ih]
      cases hk : isEquiv k x.1 with
      | false => rfl
      | true =>
        have hkey : ¬ isEquiv k key = true := fun h => hx (isEquiv_congr h ▸ hk)
        simp [hkey]

/-- **Setting a key** changes what the equivalent keys are looked up to, and nothing else. -/
theorem value_set (m : ICaseMap) (key v k : Bytes) :
    (m.set key v).value k = if isEquiv k key then some v else m.value k := by
  rw [set]
  cases hfind : m.find key with
  | none =>
    dsimp only
    rw [value, value, find_insert]
    split_ifs with hk
    · simp [m.find_congr hk, hfind, hk]
    · simp [hk]
  | some kv =>
    dsimp only
    have hassign : (m.assign key v).find k
        = (m.find k).map fun kv => if isEquiv k key then (kv.1, v) else kv := find?_assignEntry v m.entries
    rw [value, value, hassign]
    split_ifs with hk
    · simp [m.find_congr hk, hfind]
    · simp

end ICaseMap

/-! ### The setters -/

/-- `std::to_string`, of a `std::size_t`. -/
def toStringSize (n : UInt64) : Bytes := (Nat.toDigits 10 n.toNat).map Char.toUInt8

namespace HttpHead

variable {ν : Type*}

def contentLength (h : HttpHead ν) : UInt64 :=
  (atoi (h.get (bytes "Content-Length"))).toInt64.toUInt64

def setContentLength (h : HttpHead ν) (len : UInt64) : HttpHead ν :=
  { h with fields_ := h.fields_.set (bytes "Content-Length") (toStringSize len) }

def host (h : HttpHead ν) : Bytes :=
  match h.fields_.find (bytes "Host") with
  | none => []
  | some kv => kv.2

/-- `set_host`: it is `Content-Length` that is looked up and inserted here too. -/
def setHost (h : HttpHead ν) (s : Bytes) : HttpHead ν :=
  { h with fields_ := h.fields_.set (bytes "Content-Length") s }

theorem get_eq_value (h : HttpHead ν) (k : Bytes) : h.get k = (h.fields_.value k).getD [] := by
  rw [get, ICaseMap.value]
  cases h.fields_.find k with
  | none => rfl
  | some kv => rfl

theorem host_eq_get (h : HttpHead ν) : h.host = h.get (bytes "Host") := rfl

/-- What `get` returns after a setter. -/
theorem get_set (h : HttpHead ν) (key v k : Bytes) :
    HttpHead.get { h with fields_ := h.fields_.set key v } k
      = if k.map toupper = key.map toupper then v else h.get k := by
  rw [get_eq_value, get_eq_value]
  dsimp only
  rw [ICaseMap.value_set]
  by_cases hk : k.map toupper = key.map toupper
  · rw [if_pos hk, if_pos (isEquiv_iff.mpr hk)]
    rfl
  · rw [if_neg hk, if_neg (fun h => hk (isEquiv_iff.mp h))]

theorem get_setContentLength (h : HttpHead ν) (n : UInt64) :
    (h.setContentLength n).get (bytes "Content-Length") = toStringSize n :=
  (get_set h _ _ _).trans (if_pos rfl)

/-- **When the setters do what they are named for.**  For every head, with any fields:
`set_host` makes `host` return its argument, and leaves what `get` returns for the keys
other than `Host`, **iff** both `Host` and `Content-Length` had this value already;
`set_content_length` always sets the decimal form of its argument and changes nothing for
the other keys. -/
theorem setters_iff (h : HttpHead ν) :
    (∀ s, ((h.setHost s).host = s ∧
        ∀ k : Bytes, k.map toupper ≠ (bytes "Host").map toupper → (h.setHost s).get k = h.get k) ↔
      h.host = s ∧ h.get (bytes "Content-Length") = s) ∧
    ∀ n, (h.setContentLength n).get (bytes "Content-Length")
        = (Nat.toDigits 10 n.toNat).map Char.toUInt8 ∧
      ∀ k : Bytes, k.map toupper ≠ (bytes "Content-Length").map toupper →
        (h.setContentLength n).get k = h.get k := by
  refine ⟨fun s => ?_, fun n => ⟨get_setContentLength h n, fun k hk => ?_⟩⟩
  · have hhost : (h.setHost s).host = h.host := by
      rw [host_eq_get, host_eq_get]
      exact (get_set h _ _ _).trans (if_neg (by decide))
    have hlength : (h.setHost s).get (bytes "Content-Length") = s :=
      (get_set h _ _ _).trans (if_pos rfl)
    rw [hhost]
    constructor
    · rintro ⟨hs, hframe⟩
      refine ⟨hs, ?_⟩
      rw [← hframe _ (by decide), hlength]
    · rintro ⟨hs, hvalue⟩
      refine ⟨hs, fun k _ => (get_set h _ _ _).trans ?_⟩
      by_cases hk : k.map toupper = (bytes "Content-Length").map toupper
      · -- a spelling of `Content-Length` is looked up to the same value
        rw [if_pos hk, get, h.fields_.find_congr (isEquiv_iff.mpr hk), ← hvalue, get]
      · rw [if_neg hk]
  · exact (get_set h _ _ _).trans (if_neg hk)

/-- A head with `Host` and two spellings of `Content-Length`, the first with the same value. -/
def hostedHead : HttpHead NodePtr :=
  { new engineTable .request with
    fields_ := ((ICaseMap.empty.insert (bytes "Host", bytes "7")).insert
      (bytes "content-length", bytes "7")).insert (bytes "Content-Length", bytes "8") }

/-- Setting the host to `7` there changes nothing, setting the length to 12 only the length. -/
theorem setters_hostedHead : (hostedHead.setHost (bytes "7")).host = bytes "7" ∧
    (hostedHead.setContentLength 12).get (bytes "Content-Length") = bytes "12" ∧
    (hostedHead.setContentLength 12).get (bytes "HOST") = bytes "7" := by
  have hsetters := setters_iff hostedHead
  refine ⟨((hsetters.1 (bytes "7")).mpr ⟨by decide, by decide⟩).1, ?_, ?_⟩
  · exact (hsetters.2 12).1.trans (by decide)
  · exact ((hsetters.2 12).2 _ (by decide)).trans (by decide)

/-- `set_host("x")` on a new head leaves it without a host and with the length `x`. -/
theorem setHost_sets_contentLength :
    ((new engineTable .request).setHost (bytes "x")).host = [] ∧
    ((new engineTable .request).setHost (bytes "x")).get (bytes "Content-Length") = bytes "x" ∧
    (new engineTable .request).get (bytes "Content-Length") = [] := by
  decide

/-! ### Reading a length back -/

/-- The conversion of an `int` to `std::size_t`. -/
theorem toNat_sizeOfInt (v : Int32) : (v.toInt64.toUInt64.toNat : ℤ) = v.toInt % 2 ^ 64 := by
  have hint := BitVec.toInt_eq_toNat_bmod v.toInt64.toUInt64.toBitVec
  rw [Int64.toBitVec_toUInt64, Int64.toInt_toBitVec, Int32.toInt_toInt64] at hint
  have hmod : v.toInt % ((2 ^ 64 : ℕ) : ℤ) = (v.toInt64.toBitVec.toNat : ℤ) % ((2 ^ 64 : ℕ) : ℤ) := by
    rw [hint, Int.bmod_emod]
  have hlt := v.toInt64.toBitVec.isLt
  rw [← UInt64.toNat_toBitVec, Int64.toBitVec_toUInt64]
  omega

/-- The value of a numeral as an `int`: saturated as a `long`, and then cut to 32 bits. -/
theorem toInt_atoi_digits {s : Bytes} (hs : ∀ c ∈ s, isDigit c.toNat = true) :
    (atoi s).toInt = (min (numeral s : ℤ) (2 ^ 63 - 1)).bmod (2 ^ 32) := by
  have hsize : Int32.size = 2 ^ 32 := rfl
  rw [atoi, strtol_digits hs, Int32.toInt_ofInt, hsize]

/-- A numeral is read back as a length below `2 ^ 31`, and by chance `2 ^ 64 - 1`. -/
theorem toNat_contentLength_iff {h : HttpHead ν}
    (hs : ∀ c ∈ h.get (bytes "Content-Length"), isDigit c.toNat = true)
    (hlt : numeral (h.get (bytes "Content-Length")) < 2 ^ 64) :
    h.contentLength.toNat = numeral (h.get (bytes "Content-Length")) ↔
      numeral (h.get (bytes "Content-Length")) < 2 ^ 31 ∨
        numeral (h.get (bytes "Content-Length")) = 2 ^ 64 - 1 := by
  have hsize := toNat_sizeOfInt (atoi (h.get (bytes "Content-Length")))
  rw [toInt_atoi_digits hs, Int.bmod_def] at hsize
  rw [contentLength]
  generalize numeral (h.get (bytes "Content-Length")) = n at *
  generalize UInt64.toNat _ = v at *
  obtain hsmall | hmid | hbig : n < 2 ^ 31 ∨ 2 ^ 31 ≤ n ∧ n < 2 ^ 63 ∨ 2 ^ 63 ≤ n := by omega
  · omega
  · omega
  · omega

theorem toStringSize_digits (n : UInt64) : ∀ c ∈ toStringSize n, isDigit c.toNat = true := by
  intro c hc
  obtain ⟨d, hd, rfl⟩ := List.mem_map.mp hc
  exact (toNat_of_charIsDigit (Nat.isDigit_of_mem_toDigits (by decide) (by decide) hd)).2

theorem numeral_toStringSize (n : UInt64) : numeral (toStringSize n) = n.toNat := numeral_toDigits _

/-- **Which lengths are read back.**  After `set_content_length(n)`, `content_length` returns
`n` **iff** `n` is below `2 ^ 31` or is `2 ^ 64 - 1`; and in every head, parsed or not, whose
`Content-Length` is a numeral of a value below `2 ^ 64`, `content_length` returns this value
under the same condition. -/
theorem contentLength_iff :
    (∀ (h : HttpHead ν) (n : UInt64), (h.setContentLength n).contentLength = n ↔
      n.toNat < 2 ^ 31 ∨ n.toNat = 2 ^ 64 - 1) ∧
    (∀ h : HttpHead ν, h.get (bytes "Content-Length") ∈ plusOf isDigit →
      numeral (h.get (bytes "Content-Length")) < 2 ^ 64 →
      (h.contentLength.toNat = numeral (h.get (bytes "Content-Length")) ↔
        numeral (h.get (bytes "Content-Length")) < 2 ^ 31 ∨
          numeral (h.get (bytes "Content-Length")) = 2 ^ 64 - 1)) := by
  refine ⟨fun h n => ?_, fun h hdigits hlt => toNat_contentLength_iff hdigits.2 hlt⟩
  have hget := get_setContentLength h n
  have hiff := toNat_contentLength_iff (h := h.setContentLength n)
  rw [hget, numeral_toStringSize] at hiff
  rw [← UInt64.toNat_inj]
  exact hiff (toStringSize_digits n) n.toNat_lt

/-- `Content-Length:42` -/
def lengthField : FieldText :=
  ⟨bytes "Content-Length", [], [], bytes "42",
    ⟨67, bytes "ontent-Length", rfl, rfl, List.all_eq_true.mp rfl⟩, nil_mem_starOf, nil_mem_starOf,
    ⟨List.cons_ne_nil _ _, List.all_eq_true.mp rfl⟩⟩

/-- `GET / HTTP/1.1` with this one field. -/
def lengthText : Bytes := dateHead.textWith [] lengthField [] (bytes "42")

theorem get_lengthText : ((new engineTable .request).parse engineTable lengthText).1.get
    (bytes "Content-Length") = bytes "42" := by
  have hparse := parse_withValue dateHead [] lengthField [] [] (new engineTable .request)
    lengthField.value_mem
  rw [List.append_nil] at hparse
  exact hparse.2

/-- The length 12 is read back, and so is the one of a parsed head. -/
theorem contentLength_lengthText :
    ((new engineTable .request).setContentLength 12).contentLength = 12 ∧
    ((new engineTable .request).parse engineTable lengthText).1.contentLength.toNat = 42 := by
  refine ⟨(contentLength_iff.1 _ 12).mpr (.inl (by decide)), ?_⟩
  have hget := get_lengthText
  generalize ((new engineTable .request).parse engineTable lengthText).1 = h at hget ⊢
  have hdigits : h.get (bytes "Content-Length") ∈ plusOf isDigit := by
    rw [hget]
    exact ⟨List.cons_ne_nil _ _, List.all_eq_true.mp rfl⟩
  have hvalue : numeral (h.get (bytes "Content-Length")) = 42 := by
    rw [hget]
    rfl
  have hread := (contentLength_iff.2 h hdigits (by rw [hvalue]; decide)).mpr (.inl (by rw [hvalue]; decide))
  rw [hread, hvalue]

/-- The length `2 ^ 31` is read back as `2 ^ 64 - 2 ^ 31`, and `2 ^ 32` as 0. -/
theorem contentLength_wraps :
    ((new engineTable .request).setContentLength 2147483648).contentLength.toNat = 2 ^ 64 - 2 ^ 31 ∧
    ((new engineTable .request).setContentLength 4294967296).contentLength = 0 := by
  decide

end HttpHead

end Http
