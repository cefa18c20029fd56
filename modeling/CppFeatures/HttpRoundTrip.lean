/-
Printing and parsing an HTTP head (http/src/http_head.cpp).

`to_string` and the parse engine were written apart.  What `to_string` prints of a head
that can be spelled is in the grammar of the parser, with parts that are read off the
head (`HttpHead.exists_startText`, `HttpHead.exists_fieldTexts`), so that `parse` gives
back the type, method and path or status, versions and fields.

* `toStringInt_digits`, `atoi_toStringInt` — numbers in decimal;
* `HttpHead.Printable` — the heads that can be spelled;
* `HttpHead.parse_toString` — the round trip, with anything behind it.
-/
import CppFeatures.HttpGrammar

namespace Http

/-! ### Numbers -/

theorem toNat_of_charIsDigit {c : Char} (h : c.isDigit = true) :
    c.toUInt8.toNat = c.toNat ∧ isDigit c.toUInt8.toNat = true := by
  rw [Char.isDigit, Bool.and_eq_true, decide_eq_true_eq, decide_eq_true_eq] at h
  have hlo : 48 ≤ c.toNat := UInt32.le_iff_toNat_le.mp h.1
  have hhi : c.toNat ≤ 57 := UInt32.le_iff_toNat_le.mp h.2
  have hnat : c.toUInt8.toNat = c.toNat := by
    rw [Char.toUInt8, UInt32.toNat_toUInt8]
    exact Nat.mod_eq_of_lt (Nat.lt_of_le_of_lt hhi (by decide))
  refine ⟨hnat, ?_⟩
  rw [hnat]
  simp [isDigit, hlo, hhi]

/-- The digits of a number are read as that number. -/
theorem numeral_toDigits (n : ℕ) : numeral ((Nat.toDigits 10 n).map Char.toUInt8) = n := by
  have hdigit : ∀ c ∈ Nat.toDigits 10 n, c.isDigit = true := fun c hc =>
    Nat.isDigit_of_mem_toDigits (by decide) (by decide) hc
  rw [numeral, List.foldl_map]
  refine Eq.trans ?_ (Nat.ofDigitChars_toDigits (b := 10) (n := n) (by decide) (by decide))
  refine List.foldl_ext _ _ _ fun k c hc => ?_
  rw [(toNat_of_charIsDigit (hdigit c hc)).1]
  rfl

theorem toStringInt_of_nonneg {v : Int32} (hv : 0 ≤ v.toInt) :
    toStringInt v = (Nat.toDigits 10 v.toInt.natAbs).map Char.toUInt8 := by
  rw [toStringInt, if_neg (by omega), List.nil_append]

theorem toStringInt_digits {v : Int32} (hv : 0 ≤ v.toInt) : toStringInt v ∈ plusOf isDigit := by
  rw [toStringInt_of_nonneg hv]
  refine ⟨by simp [Nat.toDigits_ne_nil], fun c hc => ?_⟩
  obtain ⟨d, hd, rfl⟩ := List.mem_map.mp hc
  exact (toNat_of_charIsDigit (Nat.isDigit_of_mem_toDigits (by decide) (by decide) hd)).2

/-- `atoi` reads what `std::to_string` prints. -/
theorem atoi_toStringInt {v : Int32} (hv : 0 ≤ v.toInt) : atoi (toStringInt v) = v := by
  have hnum : numeral (toStringInt v) = v.toInt.natAbs := by
    rw [toStringInt_of_nonneg hv, numeral_toDigits]
  have hlt := v.toInt_lt
  have hatoi := atoi_digits (toStringInt_digits hv).2 (by rw [hnum]; omega)
  refine Int32.toInt_inj.mp ?_
  rw [hatoi, hnum]
  omega

/-! ### The printed head -/

namespace HttpHead

variable {ν : Type*}

/-- The heads that can be spelled. -/
structure Printable (h : HttpHead ν) : Prop where
  start : h.type_ = .request ∧ h.method_ ≠ .unkown ∧ h.path_ ∈ plusOf isGraph ∨
    h.type_ = .response ∧ 0 ≤ h.status_.toInt
  major : 0 ≤ h.versionMajor_.toInt
  minor : 0 ≤ h.versionMinor_.toInt
  fields : ∀ kv ∈ h.fields_.entries, kv.1 ∈ keyText ∧ kv.2 ∈ plusOf isGraph

/-- The parts of the start that `to_string` prints, and what the parser takes from it. -/
theorem exists_startText {h : HttpHead ν} (hp : h.Printable) : ∃ d : StartText,
    d.text = (if h.type_ = .request then h.method_.methodS ++ bytes " " ++ h.path_ ++ bytes " "
      else bytes "STATUS " ++ toStringInt h.status_ ++ bytes " ") ∧
    ∀ g : HttpHead Place, (g.takeStart d).type_ = h.type_ ∧
      (h.type_ = .request → (g.takeStart d).method_ = h.method_ ∧ (g.takeStart d).path_ = h.path_) ∧
      (h.type_ = .response → (g.takeStart d).status_ = h.status_) ∧
      (g.takeStart d).fields_ = g.fields_ := by
  have hws : bytes " " ∈ plusOf isWs := singleton_mem_plusOf (c := 32) rfl
  rcases hp.start with ⟨htype, hmethod, hpath⟩ | ⟨htype, hstatus⟩
  · have hname : h.method_.methodS ∈ methodName := by
      revert hmethod
      cases h.method_ with
      | unkown => exact fun hne => absurd rfl hne
      | _ => exact fun _ => (by decide : List.map code _ ∈ methodWords)
    have hmethodOf : methodOf h.method_.methodS = h.method_ := by
      revert hmethod
      cases h.method_ with
      | unkown => exact fun hne => absurd rfl hne
      | _ => exact fun _ => by decide
    refine ⟨.request _ _ _ _ hname hws hpath hws, (if_pos htype).symm, fun g => ?_⟩
    exact ⟨htype.symm, fun _ => ⟨hmethodOf, rfl⟩, fun hr => by simp [htype] at hr, rfl⟩
  · have hname : bytes "STATUS" ∈ spelling statusWord := by
      show (bytes "STATUS").map code = statusWord
      decide
    have hne : h.type_ ≠ .request := by simp [htype]
    refine ⟨.response _ _ _ _ hname hws (toStringInt_digits hstatus) hws, ?_, fun g => ?_⟩
    · rw [if_neg hne]
      rfl
    · exact ⟨htype.symm, fun hr => absurd hr hne, fun _ => atoi_toStringInt hstatus, rfl⟩

theorem exists_fieldTexts {kvs : List (Bytes × Bytes)}
    (h : ∀ kv ∈ kvs, kv.1 ∈ keyText ∧ kv.2 ∈ plusOf isGraph) : ∃ fs : List FieldText,
    fs.flatMap FieldText.text
      = kvs.flatMap (fun kv => kv.1 ++ bytes ": " ++ kv.2 ++ bytes "\r\n") ∧
    (fs.map fun f => (f.key, f.value)) = kvs := by
  induction kvs with
  | nil => exact ⟨[], rfl, rfl⟩
  | cons kv kvs ih =>
    obtain ⟨fs, htext, hmap⟩ := ih fun x hx => h x (List.mem_cons_of_mem _ hx)
    obtain ⟨hkey, hvalue⟩ := h kv List.mem_cons_self
    have hws : bytes " " ∈ starOf isWs := (singleton_mem_plusOf (c := 32) rfl).2
    refine ⟨⟨kv.1, [], bytes " ", kv.2, hkey, nil_mem_starOf, hws, hvalue⟩ :: fs, ?_, ?_⟩
    · rw [List.flatMap_cons, List.flatMap_cons, htext]
      have hcolon : bytes ": " = bytes ":" ++ bytes " " := by decide
      simp [FieldText.text, hcolon]
    · rw [List.map_cons, hmap]

/-- **Printing and parsing.**  For every head that can be spelled, every object and every
string `t`, parsing what `to_string` prints, followed by `t`, consumes what was printed
and gives a head with the same type, method and path or status, versions, and fields in
the same order. -/
theorem parse_toString (g : HttpHead NodePtr) {h : HttpHead ν} (hp : h.Printable) (t : Bytes) :
    (g.parse engineTable (h.toString ++ t)).2 = some h.toString.length ∧
    (g.parse engineTable (h.toString ++ t)).1.type_ = h.type_ ∧
    (h.type_ = .request → (g.parse engineTable (h.toString ++ t)).1.method_ = h.method_ ∧
      (g.parse engineTable (h.toString ++ t)).1.path_ = h.path_) ∧
    (h.type_ = .response → (g.parse engineTable (h.toString ++ t)).1.status_ = h.status_) ∧
    (g.parse engineTable (h.toString ++ t)).1.versionMajor_ = h.versionMajor_ ∧
    (g.parse engineTable (h.toString ++ t)).1.versionMinor_ = h.versionMinor_ ∧
    (g.parse engineTable (h.toString ++ t)).1.fields_ = h.fields_ := by
  obtain ⟨start, hstart, htaken⟩ := exists_startText hp
  obtain ⟨fs, hfs, hentries⟩ := exists_fieldTexts hp.fields
  have hmajor := toStringInt_digits hp.major
  have hhttp : bytes "HTTP/" ∈ spelling httpWord := by
    show (bytes "HTTP/").map code = httpWord
    decide
  let d : HeadText := ⟨start, bytes "HTTP/", toStringInt h.versionMajor_,
    toStringInt h.versionMinor_, fs, hhttp, hmajor.2, toStringInt_digits hp.minor⟩
  have htext : d.text = h.toString := by
    simp only [HeadText.text, toString, d, hstart, hfs, List.append_assoc]
  obtain ⟨hanswer, hhead⟩ := parse_text g d t
  rw [htext] at hanswer hhead
  obtain ⟨htype, hrequest, hresponse, hfields⟩ := htaken ((g.map place).clear placeTable)
  refine ⟨hanswer, (congrArg type_ hhead).trans htype, fun hr => ?_, fun hr => ?_, ?_, ?_, ?_⟩
  · exact ⟨(congrArg method_ hhead).trans (hrequest hr).1,
      (congrArg path_ hhead).trans (hrequest hr).2⟩
  · exact (congrArg status_ hhead).trans (hresponse hr)
  · refine (congrArg versionMajor_ hhead).trans ?_
    show (if toStringInt h.versionMajor_ = [] then _ else atoi (toStringInt h.versionMajor_)) = _
    rw [if_neg hmajor.1, atoi_toStringInt hp.major]
  · exact (congrArg versionMinor_ hhead).trans (atoi_toStringInt hp.minor)
  · refine (congrArg fields_ hhead).trans ?_
    show (fs.map fun f => (f.key, f.value)).foldl ICaseMap.insert _ = _
    rw [hfields, hentries]
    exact h.fields_.foldl_insert_entries

/-- A request with two fields, the second of which was inserted first. -/
def getRequest : HttpHead Place :=
  { new placeTable .request with
    type_ := .request
    method_ := .get
    path_ := bytes "/"
    fields_ := (ICaseMap.empty.insert (bytes "User", bytes "u")).insert (bytes "Host", bytes "h") }

theorem parse_toString_getRequest : getRequest.Printable ∧
    ((new engineTable .request).parse engineTable (getRequest.toString ++ bytes "body")).1.fields_
      = getRequest.fields_ := by
  have hp : getRequest.Printable := by
    have hpath : bytes "/" ∈ plusOf isGraph := singleton_mem_plusOf (c := 47) rfl
    refine ⟨.inl ⟨rfl, by decide, hpath⟩, by decide, by decide, fun kv hkv => ?_⟩
    have hentries : getRequest.fields_.entries
        = [(bytes "Host", bytes "h"), (bytes "User", bytes "u")] := by decide
    rw [hentries] at hkv
    rcases List.mem_cons.mp hkv with rfl | hkv
    · exact ⟨⟨72, bytes "ost", rfl, rfl, List.all_eq_true.mp rfl⟩, singleton_mem_plusOf rfl⟩
    · rw [List.mem_singleton.mp hkv]
      exact ⟨⟨85, bytes "ser", rfl, rfl, List.all_eq_true.mp rfl⟩, singleton_mem_plusOf rfl⟩
  exact ⟨hp, (parse_toString _ hp (bytes "body")).2.2.2.2.2.2⟩

end HttpHead

end Http
