/-
The grammar of the HTTP head parser (http/src/http_head.cpp).

The parse engine is a table; the language that it accepts is written down nowhere in
the source.  This module states it as a regular expression and proves that the parser
accepts exactly that, and takes from it what it spells.

* `grammar` — the language of heads;
* `reads`, `mem_reads_walk` — for each place, what has been read on the way to it;
* `HeadText` — a head with its parts, and `HeadText.exists_of_mem_grammar`;
* `feed_text` — what the parser makes of a head, part by part;
* `HttpHead.parse_exactly_grammar` — the two together.
-/
import CppFeatures.HttpHead
import Mathlib.Computability.Language

open scoped Computability

namespace Http

open List

/-! ### Characters and their indices -/

theorem code_cases (c : UInt8) : code c = c.toNat ∨
    97 ≤ c.toNat ∧ c.toNat ≤ 122 ∧ code c = c.toNat - 32 := by
  rw [code, toupper]
  split_ifs with h
  · rw [UInt8.le_iff_toNat_le, UInt8.le_iff_toNat_le] at h
    have hle : (32 : UInt8) ≤ c := UInt8.le_iff_toNat_le.mpr (Nat.le_trans (by decide) h.1)
    exact .inr ⟨h.1, h.2, UInt8.toNat_sub_of_le _ _ hle⟩
  · exact .inl rfl

/-- The index of a character is another one only for letters. -/
theorem code_eq_iff {c : UInt8} {k : ℕ} (hk : k < 65) : code c = k ↔ c.toNat = k := by
  have := code_cases c
  omega

@[simp] theorem isWs_code (c : UInt8) : isWs (code c) = isWs c.toNat := by
  have := code_cases c
  rw [Bool.eq_iff_iff]
  simp only [isWs, Bool.or_eq_true, beq_iff_eq]
  omega

@[simp] theorem isDigit_code (c : UInt8) : isDigit (code c) = isDigit c.toNat := by
  have := code_cases c
  rw [Bool.eq_iff_iff]
  simp only [isDigit, Bool.and_eq_true, decide_eq_true_eq]
  omega

@[simp] theorem isGraph_code (c : UInt8) : isGraph (code c) = isGraph c.toNat := by
  have := code_cases c
  rw [Bool.eq_iff_iff]
  simp only [isGraph, Bool.and_eq_true, decide_eq_true_eq]
  omega

/-! ### The language -/

/-- Any number of characters of a class. -/
def starOf (p : ℕ → Bool) : Language UInt8 := {u | ∀ c ∈ u, p c.toNat = true}

/-- At least one character of a class. -/
def plusOf (p : ℕ → Bool) : Language UInt8 := {u | u ≠ [] ∧ ∀ c ∈ u, p c.toNat = true}

/-- A word, in letters of either case. -/
def spelling (w : List ℕ) : Language UInt8 := {u | u.map code = w}

/-- Exactly these bytes. -/
def exactly (u : Bytes) : Language UInt8 := {u}

def methodName : Language UInt8 := {u | u.map code ∈ methodWords}

/-- `METHOD ws+ PATH ws+`. -/
def requestStart : Language UInt8 := methodName * plusOf isWs * plusOf isGraph * plusOf isWs

/-- `STATUS ws+ digit+ ws+`. -/
def responseStart : Language UInt8 := spelling statusWord * plusOf isWs * plusOf isDigit * plusOf isWs

/-- The first line: a start, and `HTTP/ digit* . digit+ CRLF`. -/
def firstLine : Language UInt8 :=
  (requestStart + responseStart) * spelling httpWord * starOf isDigit * exactly (bytes ".") *
    plusOf isDigit * exactly (bytes "\r\n")

-- all but `:`, which ends a key
def isKeyChar (c : ℕ) : Bool := isGraph c && c != 58

/-- A byte in 33..126, and such bytes other than `:`. -/
def keyText : Language UInt8 :=
  {u | ∃ a v, u = a :: v ∧ isGraph a.toNat = true ∧ ∀ c ∈ v, isKeyChar c.toNat = true}

/-- `KEY ws* : ws* VALUE`. -/
def keyValue : Language UInt8 :=
  keyText * starOf isWs * exactly (bytes ":") * starOf isWs * plusOf isGraph

def fieldLine : Language UInt8 := keyValue * exactly (bytes "\r\n")

/-- The language of heads. -/
def grammar : Language UInt8 := firstLine * fieldLine∗ * exactly (bytes "\r\n")

/-! ### What has been read at a place -/

section Snoc

variable {A B C : Language UInt8} {p : ℕ → Bool} {u : Bytes} {c : UInt8}

theorem snoc_mem_mul (h : u ∈ A * B) (hc : ∀ v ∈ B, v ++ [c] ∈ C) : u ++ [c] ∈ A * C := by
  obtain ⟨a, ha, b, hb, rfl⟩ := Language.mem_mul.mp h
  rw [append_assoc]
  exact Language.append_mem_mul ha (hc b hb)

theorem nil_mem_starOf : [] ∈ starOf p := forall_mem_nil _

theorem mem_mul_starOf (h : u ∈ A) : u ∈ A * starOf p := by
  have := Language.append_mem_mul h (nil_mem_starOf (p := p))
  rwa [append_nil] at this

theorem snoc_mem_starOf (h : u ∈ starOf p) (hc : p c.toNat = true) : u ++ [c] ∈ starOf p := by
  intro x hx
  rcases mem_append.mp hx with hx | hx
  · exact h x hx
  · rw [mem_singleton.mp hx]
    exact hc

theorem snoc_mem_plusOf (h : u ∈ starOf p) (hc : p c.toNat = true) : u ++ [c] ∈ plusOf p :=
  ⟨by simp, snoc_mem_starOf h hc⟩

theorem singleton_mem_plusOf (hc : p c.toNat = true) : [c] ∈ plusOf p :=
  snoc_mem_plusOf nil_mem_starOf hc

end Snoc

/-- What has been read on the way to a place. -/
def reads : Place → Language UInt8
  | .err => Set.univ
  | .word w => spelling w
  | .methodEnd => methodName
  | .method => methodName * plusOf isWs
  | .pathInfo => methodName * plusOf isWs * plusOf isGraph
  | .path => requestStart
  | .statusEnd => spelling statusWord
  | .status => spelling statusWord * plusOf isWs
  | .statusCodeInfo => spelling statusWord * plusOf isWs * plusOf isDigit
  | .statusCode => responseStart
  | .http w => (requestStart + responseStart) * spelling w
  | .versionMajorInfo => (requestStart + responseStart) * spelling httpWord * starOf isDigit
  | .versionMajor =>
    (requestStart + responseStart) * spelling httpWord * starOf isDigit * exactly (bytes ".")
  | .versionMinorInfo =>
    (requestStart + responseStart) * spelling httpWord * starOf isDigit * exactly (bytes ".") *
      plusOf isDigit
  | .versionMinor =>
    (requestStart + responseStart) * spelling httpWord * starOf isDigit * exactly (bytes ".") *
      plusOf isDigit * exactly (bytes "\r")
  | .sn => firstLine * fieldLine∗
  | .keyInfo => firstLine * fieldLine∗ * keyText
  | .kvSpace1 => firstLine * fieldLine∗ * (keyText * starOf isWs)
  | .kvSplit => firstLine * fieldLine∗ * (keyText * starOf isWs * exactly (bytes ":"))
  | .kvSpace2 => firstLine * fieldLine∗ * (keyText * starOf isWs * exactly (bytes ":") * starOf isWs)
  | .valueInfo => firstLine * fieldLine∗ * keyValue
  | .sr => firstLine * fieldLine∗ * (keyValue * exactly (bytes "\r"))
  | .endSr => firstLine * fieldLine∗ * exactly (bytes "\r")
  | .endSn => grammar

theorem mem_reads_spell {u : Bytes} {w : List ℕ} (h : u.map code = w) :
    u ∈ reads (Place.spell w).1 := by
  rw [Place.spell]
  cases hf : methodWords.find? fun x => w.isPrefixOf x with
  | some x =>
    dsimp only
    split_ifs with hx
    · have hmem := mem_of_find?_eq_some hf
      rw [hx, ← h] at hmem
      exact hmem
    · exact h
  | none =>
    dsimp only
    split_ifs with _ hx
    · exact h.trans hx.symm
    · exact h
    · trivial

theorem mem_reads_spellHttp {a u : Bytes} {w : List ℕ} (ha : a ∈ requestStart + responseStart)
    (h : u.map code = w) : a ++ u ∈ reads (Place.spellHttp w).1 := by
  rw [Place.spellHttp]
  split_ifs with _ hx
  · exact mem_mul_starOf (Language.append_mem_mul ha (h.trans hx.symm))
  · exact Language.append_mem_mul ha h
  · trivial

theorem eq_of_code {c : UInt8} {k : ℕ} (h : code c = k) (hk : k < 65) : c = UInt8.ofNat k := by
  rw [code_eq_iff hk] at h
  rw [← h, UInt8.ofNat_toNat]

/-- A start is followed by white space, or by `H`. -/
theorem snoc_mem_start {A : Language UInt8} {p : Place} {u : Bytes} {c : UInt8}
    (hA : ∀ v ∈ A * plusOf isWs, v ∈ requestStart + responseStart)
    (hp : reads p = A * plusOf isWs) (h : u ∈ A * plusOf isWs) :
    u ++ [c] ∈ reads (if code c = 72 then (Place.http [72], 0)
      else if isWs c.toNat then (p, 0) else (Place.err, 0)).1 := by
  split_ifs with hH hws
  · exact Language.append_mem_mul (hA u h) (congrArg (fun k => [k]) hH)
  · rw [hp]
    exact snoc_mem_mul h fun v hv => snoc_mem_plusOf hv.2 hws
  · trivial

/-- **One character** takes what has been read at a place to what has been read at the
next. -/
theorem snoc_mem_reads {p : Place} {u : Bytes} (h : u ∈ reads p) (c : UInt8) :
    u ++ [c] ∈ reads (p.step (code c)).1 := by
  cases p with
  | err => trivial
  | endSn => trivial
  | word w =>
    refine mem_reads_spell ?_
    rw [map_append, show u.map code = w from h]
    rfl
  | http w =>
    obtain ⟨a, ha, v, hv, rfl⟩ := Language.mem_mul.mp h
    rw [append_assoc]
    refine mem_reads_spellHttp ha ?_
    rw [map_append, show v.map code = w from hv]
    rfl
  | path =>
    simp only [Place.step, isWs_code]
    exact snoc_mem_start (fun _ => .inl) rfl h
  | statusCode =>
    simp only [Place.step, isWs_code]
    exact snoc_mem_start (fun _ => .inr) rfl h
  | methodEnd | statusEnd =>
    simp only [Place.step, isWs_code]
    split_ifs with hws
    · exact Language.append_mem_mul h (singleton_mem_plusOf hws)
    · trivial
  | method =>
    simp only [Place.step, isWs_code, isGraph_code]
    split_ifs with hws hg
    · exact snoc_mem_mul h fun v hv => snoc_mem_plusOf hv.2 hws
    · exact Language.append_mem_mul h (singleton_mem_plusOf hg)
    · trivial
  | status =>
    simp only [Place.step, isWs_code, isDigit_code]
    split_ifs with hd hws
    · exact Language.append_mem_mul h (singleton_mem_plusOf hd)
    · exact snoc_mem_mul h fun v hv => snoc_mem_plusOf hv.2 hws
    · trivial
  | pathInfo =>
    simp only [Place.step, isWs_code, isGraph_code]
    split_ifs with hws hg
    · exact Language.append_mem_mul h (singleton_mem_plusOf hws)
    · exact snoc_mem_mul h fun v hv => snoc_mem_plusOf hv.2 hg
    · trivial
  | statusCodeInfo =>
    simp only [Place.step, isWs_code, isDigit_code]
    split_ifs with hws hd
    · exact Language.append_mem_mul h (singleton_mem_plusOf hws)
    · exact snoc_mem_mul h fun v hv => snoc_mem_plusOf hv.2 hd
    · trivial
  | versionMajorInfo =>
    simp only [Place.step, isDigit_code]
    split_ifs with hdot hd
    · rw [eq_of_code hdot (by decide)]
      exact Language.append_mem_mul h rfl
    · exact snoc_mem_mul h fun v hv => snoc_mem_starOf hv hd
    · trivial
  | versionMajor =>
    simp only [Place.step, isDigit_code]
    split_ifs with hd
    · exact Language.append_mem_mul h (singleton_mem_plusOf hd)
    · trivial
  | versionMinorInfo =>
    simp only [Place.step, isDigit_code]
    split_ifs with hr hd
    · rw [eq_of_code hr (by decide)]
      exact Language.append_mem_mul h rfl
    · exact snoc_mem_mul h fun v hv => snoc_mem_plusOf hv.2 hd
    · trivial
  | versionMinor =>
    simp only [Place.step]
    split_ifs with hn
    · have hline : u ++ [c] ∈ firstLine := by
        rw [eq_of_code hn (by decide)]
        exact snoc_mem_mul h fun v hv => congrArg (· ++ [10]) hv
      have := Language.append_mem_mul hline (Language.nil_mem_kstar fieldLine)
      rwa [append_nil] at this
    · trivial
  | sn =>
    simp only [Place.step, isGraph_code]
    split_ifs with hg hr
    · exact Language.append_mem_mul h ⟨c, [], rfl, hg, forall_mem_nil _⟩
    · rw [eq_of_code hr (by decide)]
      exact Language.append_mem_mul h rfl
    · trivial
  | endSr =>
    simp only [Place.step]
    split_ifs with hn
    · rw [eq_of_code hn (by decide)]
      exact snoc_mem_mul h fun v hv => congrArg (· ++ [10]) hv
    · trivial
  | keyInfo =>
    simp only [Place.step, isWs_code, isGraph_code]
    split_ifs with hws hcolon hg
    · exact snoc_mem_mul h fun v hv =>
        Language.append_mem_mul hv (singleton_mem_plusOf hws).2
    · rw [eq_of_code hcolon (by decide)]
      exact snoc_mem_mul h fun v hv => Language.append_mem_mul (mem_mul_starOf hv) rfl
    · refine snoc_mem_mul h fun v hv => ?_
      obtain ⟨a, v, rfl, ha, hv⟩ := hv
      have hc : isKeyChar c.toNat = true := by
        rw [code_eq_iff (by decide)] at hcolon
        simp [isKeyChar, hg, hcolon]
      exact ⟨a, v ++ [c], rfl, ha, snoc_mem_starOf (p := isKeyChar) hv hc⟩
    · trivial
  | kvSpace1 =>
    simp only [Place.step, isWs_code]
    split_ifs with hcolon hws
    · rw [eq_of_code hcolon (by decide)]
      exact snoc_mem_mul h fun v hv => Language.append_mem_mul hv rfl
    · exact snoc_mem_mul h fun v hv => snoc_mem_mul hv fun w hw => snoc_mem_starOf hw hws
    · trivial
  | kvSplit =>
    simp only [Place.step, isWs_code, isGraph_code]
    split_ifs with hg hws
    · exact snoc_mem_mul h fun v hv =>
        Language.append_mem_mul (mem_mul_starOf hv) (singleton_mem_plusOf hg)
    · exact snoc_mem_mul h fun v hv =>
        Language.append_mem_mul hv (singleton_mem_plusOf hws).2
    · trivial
  | kvSpace2 =>
    simp only [Place.step, isWs_code, isGraph_code]
    split_ifs with hg hws
    · exact snoc_mem_mul h fun v hv => Language.append_mem_mul hv (singleton_mem_plusOf hg)
    · exact snoc_mem_mul h fun v hv => snoc_mem_mul hv fun w hw => snoc_mem_starOf hw hws
    · trivial
  | valueInfo =>
    simp only [Place.step, isGraph_code]
    split_ifs with hr hg
    · rw [eq_of_code hr (by decide)]
      exact snoc_mem_mul h fun v hv => Language.append_mem_mul hv rfl
    · exact snoc_mem_mul h fun v hv =>
        snoc_mem_mul hv fun w hw => snoc_mem_plusOf hw.2 hg
    · trivial
  | sr =>
    simp only [Place.step]
    split_ifs with hn
    · rw [eq_of_code hn (by decide)]
      have hline : u ++ [UInt8.ofNat 10] ∈ firstLine * fieldLine∗ * fieldLine :=
        snoc_mem_mul h fun v hv => snoc_mem_mul hv fun w hw => congrArg (· ++ [10]) hw
      rw [mul_assoc] at hline
      exact mul_le_mul_right kstar_mul_le_kstar firstLine hline
    · trivial

/-- **What leads to a place** is in the language of that place. -/
theorem mem_reads_walk (u : Bytes) : u ∈ reads ((Place.word []).walk u) := by
  induction u using List.reverseRecOn with
  | nil => rfl
  | append_singleton u c ih =>
    rw [Place.walk_append]
    exact snoc_mem_reads ih c

/-! ### Heads in parts -/

structure FieldText where
  key : Bytes
  ws : Bytes
  ws' : Bytes
  value : Bytes
  key_mem : key ∈ keyText
  ws_mem : ws ∈ starOf isWs
  ws'_mem : ws' ∈ starOf isWs
  value_mem : value ∈ plusOf isGraph

def FieldText.text (f : FieldText) : Bytes :=
  f.key ++ f.ws ++ bytes ":" ++ f.ws' ++ f.value ++ bytes "\r\n"

inductive StartText
  | request (name ws path ws' : Bytes) (name_mem : name ∈ methodName) (ws_mem : ws ∈ plusOf isWs)
      (path_mem : path ∈ plusOf isGraph) (ws'_mem : ws' ∈ plusOf isWs)
  | response (name ws status ws' : Bytes) (name_mem : name ∈ spelling statusWord)
      (ws_mem : ws ∈ plusOf isWs) (status_mem : status ∈ plusOf isDigit)
      (ws'_mem : ws' ∈ plusOf isWs)

def StartText.text : StartText → Bytes
  | request name ws path ws' .. => name ++ ws ++ path ++ ws'
  | response name ws status ws' .. => name ++ ws ++ status ++ ws'

/-- A head, with its parts. -/
structure HeadText where
  start : StartText
  http : Bytes
  major : Bytes
  minor : Bytes
  fields : List FieldText
  http_mem : http ∈ spelling httpWord
  major_mem : major ∈ starOf isDigit
  minor_mem : minor ∈ plusOf isDigit

def HeadText.text (d : HeadText) : Bytes :=
  d.start.text ++ d.http ++ d.major ++ bytes "." ++ d.minor ++ bytes "\r\n" ++
    d.fields.flatMap FieldText.text ++ bytes "\r\n"

/-- The first line. -/
def HeadText.line (d : HeadText) : Bytes :=
  d.start.text ++ d.http ++ d.major ++ bytes "." ++ d.minor ++ bytes "\r\n"

theorem HeadText.text_eq (d : HeadText) :
    d.text = d.line ++ d.fields.flatMap FieldText.text ++ bytes "\r\n" := rfl

theorem StartText.exists_of_mem {u : Bytes} (h : u ∈ requestStart + responseStart) :
    ∃ d : StartText, d.text = u := by
  rcases h with h | h
  · obtain ⟨_, ⟨_, ⟨name, hname, ws, hws, rfl⟩, path, hpath, rfl⟩, ws', hws', rfl⟩ := h
    exact ⟨.request name ws path ws' hname hws hpath hws', rfl⟩
  · obtain ⟨_, ⟨_, ⟨name, hname, ws, hws, rfl⟩, status, hstatus, rfl⟩, ws', hws', rfl⟩ := h
    exact ⟨.response name ws status ws' hname hws hstatus hws', rfl⟩

theorem FieldText.exists_of_mem {u : Bytes} (h : u ∈ fieldLine) : ∃ f : FieldText, f.text = u := by
  obtain ⟨_, ⟨_, ⟨_, ⟨_, ⟨key, hkey, ws, hws, rfl⟩, _, rfl, rfl⟩, ws', hws', rfl⟩, value, hvalue, rfl⟩,
    _, rfl, rfl⟩ := h
  exact ⟨⟨key, ws, ws', value, hkey, hws, hws', hvalue⟩, rfl⟩

theorem FieldText.exists_of_mem_kstar {u : Bytes} (h : u ∈ fieldLine∗) :
    ∃ fs : List FieldText, fs.flatMap FieldText.text = u := by
  obtain ⟨lines, rfl, hlines⟩ := Language.mem_kstar.mp h
  clear h
  induction lines with
  | nil => exact ⟨[], rfl⟩
  | cons line lines ih =>
    obtain ⟨f, hf⟩ := exists_of_mem (hlines line mem_cons_self)
    obtain ⟨fs, hfs⟩ := ih fun y hy => hlines y (mem_cons_of_mem _ hy)
    exact ⟨f :: fs, by rw [flatMap_cons, hf, hfs, flatten_cons]⟩

/-- Every head has parts. -/
theorem HeadText.exists_of_mem_grammar {u : Bytes} (h : u ∈ grammar) : ∃ d : HeadText, d.text = u := by
  obtain ⟨_, ⟨line, hline, fields, hfields, rfl⟩, _, rfl, rfl⟩ := h
  obtain ⟨_, ⟨_, ⟨_, ⟨_, ⟨start, hstart, http, hhttp, rfl⟩, major, hmajor, rfl⟩, _, rfl, rfl⟩,
    minor, hminor, rfl⟩, _, rfl, rfl⟩ := hline
  obtain ⟨d, rfl⟩ := StartText.exists_of_mem hstart
  obtain ⟨fs, rfl⟩ := FieldText.exists_of_mem_kstar hfields
  exact ⟨⟨d, http, major, minor, fs, hhttp, hmajor, hminor⟩, rfl⟩

/-! ### What the parser makes of a head -/

namespace HttpHead

/-- `h` with the parser at `p`, with these buffers. -/
def standing (h : HttpHead Place) (p : Place) (buf buf2 : Bytes) : HttpHead Place :=
  { h with parseNode_ := p, parseBuf_ := buf, parseBuf2_ := buf2 }

variable {h : HttpHead Place} {p q : Place} {b b2 u : Bytes} {c : UInt8} {k : ℕ}

theorem next_standing (hstep : p.step (code c) = (q, k)) :
    (h.standing p b b2).next placeTable c
      = h.standing q (if k = 1 then b ++ [c] else b) (if k = 2 then b2 ++ [c] else b2) := by
  have hnext : placeTable.next_ p (code c) = q := congrArg Prod.fst hstep
  have hsave : placeTable.save_ p (code c) = k := congrArg Prod.snd hstep
  simp only [next, standing, hnext, hsave]

/-- A step to a place without a result. -/
theorem consumeChar_quiet (hstep : p.step (code c) = (q, k)) (hres : q.result = .none) :
    (h.standing p b b2).consumeChar placeTable c
      = h.standing q (if k = 1 then b ++ [c] else b) (if k = 2 then b2 ++ [c] else b2) := by
  rw [consumeChar_eq_next, next_standing hstep]
  rw [next_standing hstep]
  exact .inr hres

/-- A step with an empty buffer. -/
theorem consumeChar_skip (hstep : p.step (code c) = (q, 0)) :
    (h.standing p [] b2).consumeChar placeTable c = h.standing q [] b2 := by
  have hnext : (h.standing p [] b2).next placeTable c = h.standing q [] b2 := next_standing hstep
  rw [consumeChar_eq_next, hnext]
  rw [hnext]
  exact .inl rfl

theorem state_of_result (hres : q.result ≠ .none) : q.state = .indeterminate := by
  cases q <;> first | rfl | exact absurd rfl hres

/-- A step to a place with a result. -/
theorem consumeChar_result (hstep : p.step (code c) = (q, 0)) (hb : b ≠ []) (hres : q.result ≠ .none) :
    (h.standing p b b2).consumeChar placeTable c
      = ((h.standing q b b2).takeResult q.result).standing q [] [] := by
  have hnext : (h.standing p b b2).next placeTable c = h.standing q b b2 := next_standing hstep
  rw [consumeChar, hnext]
  refine (if_pos (state_of_result hres)).trans ((if_pos ⟨hb, hres⟩).trans ?_)
  cases hq : q.result <;> simp only [placeTable, standing, hq] <;> rfl

theorem feed_cons (u : Bytes) : h.feed placeTable (c :: u)
    = (h.consumeChar placeTable c).feed placeTable u := rfl

/-- A way on which every character is saved in the same buffer and there is no result. -/
def quietTo (k : ℕ) : Place → List ℕ → Option Place
  | p, [] => some p
  | p, c :: cs =>
    if (p.step c).2 = k ∧ (p.step c).1.result = .none then quietTo k (p.step c).1 cs else none

theorem feed_quiet (hq : quietTo k p (u.map code) = some q) :
    (h.standing p b b2).feed placeTable u
      = h.standing q (if k = 1 then b ++ u else b) (if k = 2 then b2 ++ u else b2) := by
  induction u generalizing p b b2 with
  | nil =>
    cases hq
    simp [feed]
  | cons c u ih =>
    rw [map_cons, quietTo] at hq
    split_ifs at hq with hstep
    have hsave : p.step (code c) = ((p.step (code c)).1, k) := by rw [← hstep.1]
    rw [feed_cons, consumeChar_quiet hsave hstep.2, ih hq]
    split_ifs <;> simp

section Classes

variable {P : ℕ → Bool}

theorem quietTo_starOf (hloop : ∀ c : UInt8, P c.toNat = true → p.step (code c) = (p, k))
    (hres : p.result = .none) (hu : u ∈ starOf P) : quietTo k p (u.map code) = some p := by
  induction u with
  | nil => rfl
  | cons c u ih =>
    have hc := hloop c (hu c mem_cons_self)
    rw [map_cons, quietTo, hc, if_pos ⟨rfl, hres⟩]
    exact ih fun x hx => hu x (mem_cons_of_mem _ hx)

theorem quietTo_plusOf (hin : ∀ c : UInt8, P c.toNat = true → p.step (code c) = (q, k))
    (hloop : ∀ c : UInt8, P c.toNat = true → q.step (code c) = (q, k)) (hres : q.result = .none)
    (hu : u ∈ plusOf P) : quietTo k p (u.map code) = some q := by
  obtain ⟨c, u, rfl⟩ := exists_cons_of_ne_nil hu.1
  rw [map_cons, quietTo, hin c (hu.2 c mem_cons_self), if_pos ⟨rfl, hres⟩]
  exact quietTo_starOf hloop hres fun x hx => hu.2 x (mem_cons_of_mem _ hx)

theorem feed_skip (hloop : ∀ c : UInt8, P c.toNat = true → p.step (code c) = (p, 0))
    (hu : u ∈ starOf P) : (h.standing p [] b2).feed placeTable u = h.standing p [] b2 := by
  induction u with
  | nil => rfl
  | cons c u ih =>
    rw [feed_cons, consumeChar_skip (hloop c (hu c mem_cons_self))]
    exact ih fun x hx => hu x (mem_cons_of_mem _ hx)

/-- The first character brings the result, the others nothing. -/
theorem feed_result (hin : ∀ c : UInt8, P c.toNat = true → p.step (code c) = (q, 0))
    (hloop : ∀ c : UInt8, P c.toNat = true → q.step (code c) = (q, 0)) (hres : q.result ≠ .none)
    (hb : b ≠ []) (hu : u ∈ plusOf P) : (h.standing p b b2).feed placeTable u
      = ((h.standing q b b2).takeResult q.result).standing q [] [] := by
  obtain ⟨c, u, rfl⟩ := exists_cons_of_ne_nil hu.1
  rw [feed_cons, consumeChar_result (hin c (hu.2 c mem_cons_self)) hb hres]
  exact feed_skip hloop fun x hx => hu.2 x (mem_cons_of_mem _ hx)

end Classes

end HttpHead

section Disjoint

variable {k : ℕ}

theorem not_isWs_of_isGraph (h : isGraph k = true) : isWs k = false := by
  simp [isGraph, isWs] at *
  omega

theorem not_isWs_of_isDigit (h : isDigit k = true) : isWs k = false := by
  simp [isDigit, isWs] at *
  omega

theorem not_isGraph_of_isWs (h : isWs k = true) : isGraph k = false := by
  simp [isGraph, isWs] at *
  omega

theorem not_isDigit_of_isWs (h : isWs k = true) : isDigit k = false := by
  simp [isDigit, isWs] at *
  omega

theorem ne_of_isWs (h : isWs k = true) : k ≠ 58 ∧ k ≠ 72 := by
  simp [isWs] at *
  omega

theorem ne_of_isDigit (h : isDigit k = true) : k ≠ 46 ∧ k ≠ 13 := by
  simp [isDigit] at *
  omega

theorem ne_of_isGraph (h : isGraph k = true) : k ≠ 13 := by
  simp [isGraph] at *
  omega

end Disjoint

namespace HttpHead

variable {h : HttpHead Place} {b2 : Bytes}

/-- What the parser takes from the start of a head. -/
def takeStart (h : HttpHead Place) : StartText → HttpHead Place
  | .request name _ path .. =>
    { h with type_ := .request, method_ := methodOf name, path_ := path }
  | .response _ _ status .. => { h with type_ := .response, status_ := atoi status }

def startPlace : StartText → Place
  | .request .. => .path
  | .response .. => .statusCode

theorem feed_start (d : StartText) : (h.standing (.word []) [] b2).feed placeTable d.text
    = (h.takeStart d).standing (startPlace d) [] [] := by
  cases d with
  | request name ws path ws' hname hws hpath hws' =>
    have hword : ∀ w ∈ methodWords, quietTo 1 (.word []) w = some .methodEnd := by decide
    have hne : name ≠ [] := by
      rintro rfl
      exact absurd hname (show ([] : List ℕ) ∉ methodWords by decide)
    have hn : (h.standing (.word []) [] b2).feed placeTable name = h.standing .methodEnd name b2 :=
      feed_quiet (hword _ hname)
    have hw : ∀ h : HttpHead Place, (h.standing .methodEnd name b2).feed placeTable ws
        = standing { h with type_ := .request, method_ := methodOf name } .method [] [] := fun h =>
      feed_result (fun c hc => by simp [Place.step, hc]) (fun c hc => by simp [Place.step, hc])
        (by decide) hne hws
    have hp : ∀ h : HttpHead Place, (h.standing .method [] []).feed placeTable path
        = h.standing .pathInfo path [] := fun h =>
      feed_quiet (k := 1) (quietTo_plusOf
        (fun c hc => by simp [Place.step, hc, not_isWs_of_isGraph hc])
        (fun c hc => by simp [Place.step, hc, not_isWs_of_isGraph hc]) rfl hpath)
    have hw' : ∀ h : HttpHead Place, (h.standing .pathInfo path []).feed placeTable ws'
        = standing { h with path_ := path } .path [] [] := fun h =>
      feed_result (fun c hc => by simp [Place.step, hc])
        (fun c hc => by
          rw [← isWs_code] at hc
          simp [Place.step, hc, (ne_of_isWs hc).2])
        (by decide) hpath.1 hws'
    rw [StartText.text, feed_append, feed_append, feed_append, hn, hw, hp, hw']
    rfl
  | response name ws status ws' hname hws hstatus hws' =>
    have hword : quietTo 0 (.word []) statusWord = some .statusEnd := by decide
    have hn : (h.standing (.word []) [] b2).feed placeTable name = h.standing .statusEnd [] b2 :=
      feed_quiet (k := 0) (hname ▸ hword)
    have hw : (h.standing .statusEnd [] b2).feed placeTable ws = h.standing .status [] b2 :=
      feed_quiet (k := 0) (quietTo_plusOf (fun c hc => by simp [Place.step, hc])
        (fun c hc => by simp [Place.step, hc, not_isDigit_of_isWs hc]) rfl hws)
    have hc : (h.standing .status [] b2).feed placeTable status
        = h.standing .statusCodeInfo status b2 :=
      feed_quiet (k := 1) (quietTo_plusOf (fun c hc => by simp [Place.step, hc])
        (fun c hc => by simp [Place.step, hc, not_isWs_of_isDigit hc]) rfl hstatus)
    have hw' : (h.standing .statusCodeInfo status b2).feed placeTable ws'
        = standing { h with type_ := .response, status_ := atoi status } .statusCode [] [] :=
      feed_result (fun c hc => by simp [Place.step, hc])
        (fun c hc => by
          rw [← isWs_code] at hc
          simp [Place.step, hc, (ne_of_isWs hc).2])
        (by decide) hstatus.1 hws'
    rw [StartText.text, feed_append, feed_append, feed_append, hn, hw, hc, hw']
    rfl

/-- `HTTP/`, the versions, and the end of the first line. -/
theorem feed_version {p : Place} (hp : quietTo 0 p httpWord = some .versionMajorInfo)
    {http major minor : Bytes} (hhttp : http ∈ spelling httpWord) (hmajor : major ∈ starOf isDigit)
    (hminor : minor ∈ plusOf isDigit) :
    (h.standing p [] []).feed placeTable
        (http ++ major ++ bytes "." ++ minor ++ bytes "\r\n")
      = standing { h with
          versionMajor_ := if major = [] then h.versionMajor_ else atoi major
          versionMinor_ := atoi minor } .sn [] [] := by
  have hh : (h.standing p [] []).feed placeTable http = h.standing .versionMajorInfo [] [] :=
    feed_quiet (k := 0) (hhttp ▸ hp)
  have hma : (h.standing .versionMajorInfo [] []).feed placeTable major
      = h.standing .versionMajorInfo major [] :=
    feed_quiet (k := 1) (quietTo_starOf (fun c hc => by
      rw [← isDigit_code] at hc
      simp [Place.step, hc, (ne_of_isDigit hc).1]) rfl hmajor)
  have hdot : (h.standing .versionMajorInfo major []).feed placeTable (bytes ".")
      = standing { h with versionMajor_ := if major = [] then h.versionMajor_ else atoi major }
        .versionMajor [] [] := by
    have hstep : Place.versionMajorInfo.step (code 46) = (.versionMajor, 0) := by decide
    by_cases hm : major = []
    · subst hm
      exact consumeChar_skip hstep
    · rw [if_neg hm]
      exact consumeChar_result hstep hm (by decide)
  have hmi : ∀ h : HttpHead Place, (h.standing .versionMajor [] []).feed placeTable minor
      = h.standing .versionMinorInfo minor [] := fun h =>
    feed_quiet (k := 1) (quietTo_plusOf (fun c hc => by simp [Place.step, hc]) (fun c hc => by
      rw [← isDigit_code] at hc
      simp [Place.step, hc, (ne_of_isDigit hc).2]) rfl hminor)
  have hend : ∀ h : HttpHead Place, (h.standing .versionMinorInfo minor []).feed placeTable
      (bytes "\r\n") = standing { h with versionMinor_ := atoi minor } .sn [] [] := by
    intro h
    have hr : (h.standing .versionMinorInfo minor []).consumeChar placeTable 13
        = standing { h with versionMinor_ := atoi minor } .versionMinor [] [] :=
      consumeChar_result (by decide) hminor.1 (by decide)
    exact (congrArg (consumeChar placeTable · 10) hr).trans (consumeChar_skip (by decide))
  rw [feed_append, feed_append, feed_append, feed_append, hh, hma, hdot, hmi, hend]

/-- White space that may be missing. -/
theorem feed_optional {p q : Place} {b b2 u : Bytes}
    (hin : ∀ c : UInt8, isWs c.toNat = true → p.step (code c) = (q, 0))
    (hloop : ∀ c : UInt8, isWs c.toNat = true → q.step (code c) = (q, 0)) (hres : q.result = .none)
    (hu : u ∈ starOf isWs) : ∃ p', (p' = p ∨ p' = q) ∧
      (h.standing p b b2).feed placeTable u = h.standing p' b b2 := by
  by_cases hne : u = []
  · subst hne
    exact ⟨p, .inl rfl, rfl⟩
  · exact ⟨q, .inr rfl, feed_quiet (k := 0) (quietTo_plusOf hin hloop hres ⟨hne, hu⟩)⟩

theorem feed_key {key : Bytes} (hkey : key ∈ keyText) :
    (h.standing .sn [] []).feed placeTable key = h.standing .keyInfo key [] := by
  obtain ⟨a, v, rfl, ha, hv⟩ := hkey
  have hloop : ∀ c : UInt8, isKeyChar c.toNat = true →
      Place.keyInfo.step (code c) = (.keyInfo, 1) := by
    intro c hc
    obtain ⟨hg, hne⟩ := Bool.and_eq_true_iff.mp hc
    have hcolon : code c ≠ 58 := by
      rw [Ne, code_eq_iff (by decide)]
      simpa using hne
    simp [Place.step, hg, not_isWs_of_isGraph hg, hcolon]
  refine feed_quiet (k := 1) ?_
  have hfirst : Place.sn.step (code a) = (.keyInfo, 1) := by simp [Place.step, ha]
  rw [map_cons, quietTo, hfirst, if_pos ⟨rfl, rfl⟩]
  exact quietTo_starOf (P := isKeyChar) hloop rfl hv

/-- A field up to the end of its value. -/
theorem feed_keyValue {key ws ws' value : Bytes} (hkey : key ∈ keyText) (hws : ws ∈ starOf isWs)
    (hws' : ws' ∈ starOf isWs) (hvalue : value ∈ plusOf isGraph) :
    (h.standing .sn [] []).feed placeTable (key ++ ws ++ bytes ":" ++ ws' ++ value)
      = h.standing .valueInfo key value := by
  obtain ⟨p, hp, hfp⟩ := feed_optional (h := h) (p := .keyInfo) (q := .kvSpace1) (b := key)
    (fun c hc => by simp [Place.step, hc])
    (fun c hc => by
      rw [← isWs_code] at hc
      simp [Place.step, hc, (ne_of_isWs hc).1]) rfl hws
  have hcolon : (h.standing p key []).feed placeTable (bytes ":") = h.standing .kvSplit key [] := by
    have hstep : p.step (code 58) = (.kvSplit, 0) := by
      rcases hp with rfl | rfl <;> decide
    exact consumeChar_quiet hstep rfl
  obtain ⟨q, hq, hfq⟩ := feed_optional (h := h) (p := .kvSplit) (q := .kvSpace2) (b := key)
    (fun c hc => by simp [Place.step, hc, not_isGraph_of_isWs hc])
    (fun c hc => by simp [Place.step, hc, not_isGraph_of_isWs hc]) rfl hws'
  have hv : (h.standing q key []).feed placeTable value = h.standing .valueInfo key value := by
    refine feed_quiet (k := 2) (quietTo_plusOf (fun c hc => ?_) (fun c hc => ?_) rfl hvalue)
    · rcases hq with rfl | rfl <;> simp [Place.step, hc]
    · rw [← isGraph_code] at hc
      simp [Place.step, hc, ne_of_isGraph hc]
  rw [feed_append, feed_append, feed_append, feed_append, feed_key hkey, hfp, hcolon, hfq, hv]

theorem feed_field (f : FieldText) : (h.standing .sn [] []).feed placeTable f.text
    = standing { h with fields_ := h.fields_.insert (f.key, f.value) } .sn [] [] := by
  obtain ⟨key, ws, ws', value, hkey, hws, hws', hvalue⟩ := f
  have hne : key ≠ [] := by
    obtain ⟨a, v, rfl, -⟩ := hkey
    exact cons_ne_nil a v
  have hend : (h.standing .valueInfo key value).feed placeTable (bytes "\r\n")
      = standing { h with fields_ := h.fields_.insert (key, value) } .sn [] [] := by
    have hr : (h.standing .valueInfo key value).consumeChar placeTable 13
        = standing { h with fields_ := h.fields_.insert (key, value) } .sr [] [] :=
      consumeChar_result (by decide) hne (by decide)
    exact (congrArg (consumeChar placeTable · 10) hr).trans (consumeChar_skip (by decide))
  rw [FieldText.text, feed_append, feed_keyValue hkey hws hws' hvalue, hend]

theorem feed_fields (fs : List FieldText) :
    (h.standing .sn [] []).feed placeTable (fs.flatMap FieldText.text)
      = standing { h with
          fields_ := (fs.map fun f => (f.key, f.value)).foldl ICaseMap.insert h.fields_ }
        .sn [] [] := by
  induction fs generalizing h with
  | nil => rfl
  | cons f fs ih => rw [flatMap_cons, feed_append, feed_field, ih, map_cons, foldl_cons]

/-- What the parser takes from a head. -/
def takeHead (h : HttpHead Place) (d : HeadText) : HttpHead Place :=
  let h := h.takeStart d.start
  { h with
    versionMajor_ := if d.major = [] then h.versionMajor_ else atoi d.major
    versionMinor_ := atoi d.minor
    fields_ := (d.fields.map fun f => (f.key, f.value)).foldl ICaseMap.insert h.fields_ }

theorem feed_line (d : HeadText) : (h.standing (.word []) [] b2).feed placeTable d.line
    = standing { h.takeStart d.start with
        versionMajor_ :=
          if d.major = [] then (h.takeStart d.start).versionMajor_ else atoi d.major
        versionMinor_ := atoi d.minor } .sn [] [] := by
  have hhttp : quietTo 0 (startPlace d.start) httpWord = some .versionMajorInfo := by
    cases d.start with
    | request => exact (show quietTo 0 .path httpWord = some .versionMajorInfo by decide)
    | response => exact (show quietTo 0 .statusCode httpWord = some .versionMajorInfo by decide)
  have hline : d.line = d.start.text ++ (d.http ++ d.major ++ bytes "." ++ d.minor ++
      bytes "\r\n") := by
    simp [HeadText.line]
  rw [hline, feed_append, feed_start, feed_version hhttp d.http_mem d.major_mem d.minor_mem]

/-- **What the parser makes of a head**, whatever the second buffer holds. -/
theorem feed_text (d : HeadText) : (h.standing (.word []) [] b2).feed placeTable d.text
    = (h.takeHead d).standing .endSn [] [] := by
  have hend : ∀ h : HttpHead Place, (h.standing .sn [] []).feed placeTable (bytes "\r\n")
      = h.standing .endSn [] [] := fun h =>
    feed_quiet (k := 0) (show quietTo 0 .sn ((bytes "\r\n").map code) = some .endSn by decide)
  rw [d.text_eq, feed_append, feed_append, feed_line, feed_fields, hend]
  rfl

theorem feed_clear_text (h : HttpHead Place) (d : HeadText) :
    (h.clear placeTable).feed placeTable d.text
      = ((h.clear placeTable).takeHead d).standing .endSn [] [] := by
  have hstart : h.clear placeTable = (h.clear placeTable).standing (.word []) [] h.parseBuf_ := rfl
  rw [hstart, feed_text]
  rfl

theorem walk_text (d : HeadText) : (Place.word []).walk d.text = .endSn := by
  have hfeed := feed_clear_text (.new placeTable .request) d
  exact (parseNode_feed _ d.text).symm.trans (congrArg parseNode_ hfeed)

end HttpHead

/-! ### The parser and the grammar -/

/-- The parser accepts nothing but heads, and every head. -/
theorem mem_grammar_iff {u : Bytes} : u ∈ grammar ↔ (Place.word []).walk u = .endSn := by
  constructor
  · intro h
    obtain ⟨d, rfl⟩ := HeadText.exists_of_mem_grammar h
    exact HttpHead.walk_text d
  · intro h
    have hread := mem_reads_walk u
    rw [h] at hread
    exact hread

variable {ν : Type*}

def StartText.Spells : StartText → HttpHead ν → Prop
  | request name _ path .., h =>
    h.type_ = .request ∧ h.method_.methodS = name.map toupper ∧ h.path_ = path
  | response _ _ status .., h =>
    h.type_ = .response ∧ (numeral status < 2 ^ 31 → h.status_.toInt = numeral status)

/-- `h` has what is spelled in `d`.  The fields are those of `d`, inserted in their order. -/
structure HeadText.Spells (d : HeadText) (h : HttpHead ν) : Prop where
  start : d.start.Spells h
  major : d.major ≠ [] → numeral d.major < 2 ^ 31 → h.versionMajor_.toInt = numeral d.major
  minor : numeral d.minor < 2 ^ 31 → h.versionMinor_.toInt = numeral d.minor
  fields : h.fields_ = (d.fields.map fun f => (f.key, f.value)).foldl ICaseMap.insert .empty

theorem map_toupper_of_code {u : Bytes} {w : List ℕ} (h : u.map code = w) :
    u.map toupper = w.map UInt8.ofNat := by
  rw [← h, map_map]
  refine map_congr_left fun c _ => ?_
  exact UInt8.ofNat_toNat.symm

theorem methodS_methodOf {name : Bytes} (h : name ∈ methodName) :
    (methodOf name).methodS = name.map toupper := by
  have hwords : ∀ w ∈ methodWords,
      (methodOfUpper (w.map UInt8.ofNat)).methodS = w.map UInt8.ofNat := by decide
  rw [methodOf, map_toupper_of_code rfl]
  exact hwords _ h

theorem HttpHead.spells_takeHead (h : HttpHead Place) (d : HeadText) :
    d.Spells (((h.clear placeTable).takeHead d).standing .endSn [] []) := by
  obtain ⟨start, http, major, minor, fields, hhttp, hmajor, hminor⟩ := d
  refine ⟨?_, fun hne hlt => ?_, fun hlt => atoi_digits hminor.2 hlt, ?_⟩
  · cases start with
    | request name ws path ws' hname hws hpath hws' => exact ⟨rfl, methodS_methodOf hname, rfl⟩
    | response name ws status ws' hname hws hstatus hws' =>
      exact ⟨rfl, fun hlt => atoi_digits hstatus.2 hlt⟩
  · show (if major = [] then _ else atoi major).toInt = _
    rw [if_neg hne]
    exact atoi_digits hmajor hlt
  · cases start <;> rfl

/-- The nodes spell nothing. -/
theorem HeadText.Spells.of_map {μ : Type*} {f : ν → μ} {h : HttpHead ν} {d : HeadText}
    (hs : d.Spells (h.map f)) : d.Spells h := by
  obtain ⟨start, major, minor, fields⟩ := hs
  refine ⟨?_, major, minor, fields⟩
  cases hd : d.start with
  | request => rwa [hd] at start
  | response => rwa [hd] at start

/-- A head, followed by anything. -/
theorem HttpHead.parse_text (h : HttpHead NodePtr) (d : HeadText) (t : Bytes) :
    (h.parse engineTable (d.text ++ t)).2 = some d.text.length ∧
    (h.parse engineTable (d.text ++ t)).1.map place
      = (((h.map place).clear placeTable).takeHead d).standing .endSn [] [] := by
  have hparse : (h.map place).parse placeTable (d.text ++ t)
      = ((((h.map place).clear placeTable).takeHead d).standing .endSn [] [],
        some d.text.length) := by
    rw [parse_of_walk (n := d.text.length) _ (by simp) (by rw [take_left, walk_text]),
      take_left, feed_clear_text]
  rw [← answer_map engineTable_hom, ← head_map engineTable_hom, hparse]
  exact ⟨rfl, rfl⟩

/-- **The parser accepts exactly its grammar.**  For every object and every string, `parse`
answers `n` iff the first `n` bytes are in the language of heads, which at most one `n`
satisfies; and then the object has what is spelled in them. -/
theorem HttpHead.parse_exactly_grammar (h : HttpHead NodePtr) (s : Bytes) :
    (∀ n, (h.parse engineTable s).2 = some n ↔ n ≤ s.length ∧ s.take n ∈ grammar) ∧
    (∀ n m, n ≤ s.length → m ≤ s.length → s.take n ∈ grammar → s.take m ∈ grammar → n = m) ∧
    ∀ n, (h.parse engineTable s).2 = some n → (∃ d : HeadText, d.text = s.take n) ∧
      ∀ d : HeadText, d.text = s.take n → d.Spells (h.parse engineTable s).1 := by
  have hiff : ∀ n, (h.parse engineTable s).2 = some n ↔ n ≤ s.length ∧ s.take n ∈ grammar := by
    intro n
    rw [← answer_map engineTable_hom, mem_grammar_iff]
    exact ⟨walk_of_parse, fun hn => by rw [parse_of_walk _ hn.1 hn.2]⟩
  refine ⟨hiff, fun n m hn hm hgn hgm => ?_, fun n hn => ?_⟩
  · have := ((hiff n).mpr ⟨hn, hgn⟩).symm.trans ((hiff m).mpr ⟨hm, hgm⟩)
    exact Option.some_inj.mp this
  · obtain ⟨hle, hg⟩ := (hiff n).mp hn
    refine ⟨HeadText.exists_of_mem_grammar hg, fun d hd => ?_⟩
    obtain ⟨-, hfinal⟩ := parse_text h d (s.drop n)
    rw [hd, take_append_drop] at hfinal
    have hspells := spells_takeHead (h.map place) d
    rw [← hfinal] at hspells
    exact hspells.of_map

end Http
