/-
The parts of a parsed URL (http/src/url.cpp).

The port is read by `atoi` and kept in 16 bits, where 0 stands for no port, so that `port`
then answers with the default of the protocol.  The class of the domain admits `?`: without
a port and a path, the query is found only if the domain cannot be continued through it.

* `Url.port` — the source's function;
* `Url.port_iff` — which explicit ports are honoured;
* `Url.parse_query_parts` — which queries are found after the domain.
-/
import CppFeatures.Url

namespace Http

open Regex

/-! ### The port -/

/-- The `switch` of `port`. -/
def Protocol.defaultPort : Protocol → UInt16
  | http => 80
  | https => 443
  | ftp => 21
  | mailto => 25
  | ldap => 389
  | file => 0
  | news => 0
  | gopher => 70
  | telnet => 23
  | tcp => 0
  | udp => 0
  | zk => 2181
  | unkown => 0

namespace Url

def port (u : Url) : UInt16 := if u.port_ ≠ 0 then u.port_ else u.protocol_.defaultPort

/-- What `set_port(atoi(…))` keeps of a numeral. -/
theorem toNat_portOf {s : Bytes} (hs : ∀ c ∈ s, isDigit c.toNat = true) :
    (atoi s).toUInt32.toUInt16.toNat = min (numeral s) (2 ^ 63 - 1) % 2 ^ 16 := by
  have hword : (atoi s).toUInt32.toNat = (min (numeral s : ℤ) (2 ^ 63 - 1) % ((2 ^ 32 : ℕ) : ℤ)).toNat := by
    rw [← UInt32.toNat_toBitVec, Int32.toBitVec_toUInt32, atoi, strtol_digits hs,
      Int32.toBitVec_ofInt, BitVec.toNat_ofInt]
  rw [UInt32.toNat_toUInt16, hword]
  omega

/-- The fields that are set for every known protocol. -/
theorem ofResults_known {scheme : Bytes} (domain port path query : Bytes)
    (hne : Protocol.ofText scheme ≠ .unkown) :
    (ofResults scheme domain port path query).ok = true ∧
    (ofResults scheme domain port path query).protocol_ = .ofText scheme ∧
    (ofResults scheme domain port path query).port_
      = if port ≠ [] then (atoi port.tail).toUInt32.toUInt16 else 0 := by
  by_cases hp : Protocol.ofText scheme = .http ∨ Protocol.ofText scheme = .https
  · rw [ofResults_http _ _ _ _ rfl hp]
    exact ⟨by simpa [ok] using hne, rfl, rfl⟩
  · rw [ofResults_other _ _ _ _ rfl hne hp]
    exact ⟨by simpa [ok] using hne, rfl, rfl⟩

/-- A port is returned as it was written if it fits into 16 bits, and 0 if there is no
default. -/
theorem toNat_port_iff {u : Url} {s : Bytes} (hs : ∀ c ∈ s, isDigit c.toNat = true)
    (hport : u.port_ = (atoi s).toUInt32.toUInt16) :
    u.port.toNat = numeral s ↔
      numeral s < 2 ^ 16 ∧ (numeral s = 0 → u.protocol_.defaultPort = 0) := by
  have hkept := toNat_portOf hs
  rw [← hport] at hkept
  have hlt := u.protocol_.defaultPort.toNat_lt
  rw [port]
  by_cases hzero : u.port_ = 0
  · rw [if_neg (not_not.mpr hzero)]
    rw [hzero, UInt16.toNat_zero] at hkept
    rw [← UInt16.toNat_inj, UInt16.toNat_zero]
    omega
  · rw [if_pos hzero, hkept]
    have hpos : u.port_.toNat ≠ 0 := fun h => hzero (UInt16.toNat_inj.mp h)
    rw [hkept] at hpos
    omega

/-- **Which explicit ports are honoured.**  For every text that is matched with a group
`:digits`: `port` returns the value of the numeral, or the URL is not ok, **iff** the protocol
is unknown, or the value is below `2 ^ 16` and is not 0 where the protocol has a default. -/
theorem port_iff {s : Bytes} {results : Captures UInt8} (hmatch : fullMatch re s = some results)
    (hport : results 3 ≠ []) :
    ∃ digits ∈ plusOf isDigit, results 3 = 58 :: digits ∧
      ((parse s).port.toNat = numeral digits ∨ (parse s).ok = false ↔
        Protocol.ofText (results 1) = .unkown ∨
          numeral digits < 2 ^ 16 ∧
            (numeral digits = 0 → (Protocol.ofText (results 1)).defaultPort = 0)) := by
  obtain ⟨d, rfl, rfl⟩ := UrlText.exists_of_fullMatch hmatch
  have hscheme : d.toTailText.captures (UrlText.firstCaptures d.scheme d.domain) 1 = d.scheme :=
    d.toTailText.captures_of_lt _ (by decide)
  obtain ⟨hgroup, -, -⟩ :=
    d.toTailText.captures_self (g := UrlText.firstCaptures d.scheme d.domain) rfl rfl rfl
  rw [hgroup] at hport ⊢
  rw [hscheme, UrlText.parse_of_fullMatch hmatch, UrlText.url]
  obtain ⟨digits, hdigits, hcolon⟩ := d.port_eq.resolve_left hport
  refine ⟨digits, hdigits, hcolon, ?_⟩
  by_cases hknown : Protocol.ofText d.scheme = .unkown
  · rw [ofResults_unkown _ _ _ _ hknown]
    exact iff_of_true (.inr rfl) (.inl hknown)
  · obtain ⟨hok, hproto, hkept⟩ := ofResults_known d.domain d.port d.path d.query hknown
    rw [if_pos hport, hcolon, List.tail_cons] at hkept
    rw [hcolon] at hok hproto ⊢
    generalize ofResults d.scheme d.domain (58 :: digits) d.path d.query = u at hok hproto hkept ⊢
    rw [hok, or_iff_left Bool.false_ne_true.symm, or_iff_right hknown, ← hproto]
    exact toNat_port_iff hdigits.2 hkept

/-- `http://h:8080` -/
theorem port_iff_sample : (parse (bytes "http://h:8080")).port = 8080 := by
  have hgroups : (fullMatch re (bytes "http://h:8080")).map (fun results => (results 1, results 3))
      = some (bytes "http", bytes ":8080") := by decide
  obtain ⟨results, hmatch, hpair⟩ := Option.map_eq_some_iff.mp hgroups
  obtain ⟨hscheme, hgroup⟩ := Prod.mk.inj hpair
  obtain ⟨digits, -, hdigits, hiff⟩ := port_iff hmatch (by rw [hgroup]; decide)
  obtain rfl : bytes "8080" = digits := (List.cons.inj (hgroup.symm.trans hdigits)).2
  rw [hscheme] at hiff
  have hport := (hiff.mpr (.inr ⟨by decide, fun h => absurd h (by decide)⟩)).resolve_right (by decide)
  exact UInt16.toNat_inj.mp hport

/-- The ports 65536 and 0 are replaced by the default, and 70000 is cut to 4464. -/
theorem port_not_honoured :
    (parse (bytes "http://h:65536")).ok = true ∧ (parse (bytes "http://h:65536")).port = 80 ∧
    (parse (bytes "http://h:0")).ok = true ∧ (parse (bytes "http://h:0")).port = 80 ∧
    (parse (bytes "http://h:70000")).ok = true ∧ (parse (bytes "http://h:70000")).port = 4464 := by
  decide

/-! ### A query without a path -/

section QueryText

variable {domain port : Bytes} (hne : domain ≠ []) (hhost : ∀ c ∈ domain, c ≠ 58 ∧ c ≠ 47 ∧ c ≠ 63)
  (hport : port = [] ∨ ∃ n ∈ plusOf isDigit, port = 58 :: n) (q : Bytes)

/-- `http://`, a domain, and a query behind an optional port. -/
def queryText : UrlText where
  port := port
  path := []
  query := 63 :: q
  port_eq := hport
  path_eq := .inl rfl
  query_eq := .inr ⟨q, rfl⟩
  scheme := bytes "http"
  domain := domain
  scheme_ne := by decide
  scheme_word := Protocol.protocolS_word .http
  domain_ne := hne
  domain_host := fun c hc => by simp [isHost, hhost c hc]

theorem queryText_text : (queryText hne hhost hport q).text
    = bytes "http://" ++ (domain ++ (port ++ (bytes "?" ++ q))) := rfl

theorem queryText_url :
    (queryText hne hhost hport q).url.ok = true ∧ (queryText hne hhost hport q).url.domain_ = domain ∧
      (queryText hne hhost hport q).url.data_ = q := by
  have hurl : (queryText hne hhost hport q).url = _ :=
    ofResults_http domain port [] (63 :: q) (Protocol.ofText_protocolS .http) (.inl rfl)
  rw [hurl]
  exact ⟨rfl, rfl, rfl⟩

end QueryText

/-- **A query without a path.**  For every domain of characters other than `:`, `/` and `?` and
every query: with a port behind the domain, the URL is ok, with this domain and the query as
data; without a port, it is so **iff** the first of `:`, `/` and `?` in the query is a `:` behind
which no port can be read. -/
theorem parse_query_parts {domain : Bytes} (hne : domain ≠ [])
    (hhost : ∀ c ∈ domain, c ≠ 58 ∧ c ≠ 47 ∧ c ≠ 63) (q : Bytes) :
    (∀ digits ∈ plusOf isDigit,
      (parse (bytes "http://" ++ domain ++ bytes ":" ++ digits ++ bytes "?" ++ q)).ok = true ∧
      (parse (bytes "http://" ++ domain ++ bytes ":" ++ digits ++ bytes "?" ++ q)).domain_ = domain ∧
      (parse (bytes "http://" ++ domain ++ bytes ":" ++ digits ++ bytes "?" ++ q)).data_ = q) ∧
    ((parse (bytes "http://" ++ domain ++ bytes "?" ++ q)).ok = true ∧
      (parse (bytes "http://" ++ domain ++ bytes "?" ++ q)).domain_ = domain ∧
      (parse (bytes "http://" ++ domain ++ bytes "?" ++ q)).data_ = q ↔ Guarded q) := by
  constructor
  · intro digits hdigits
    let d := queryText hne hhost (.inr ⟨digits, hdigits, rfl⟩) q
    have htext : bytes "http://" ++ domain ++ bytes ":" ++ digits ++ bytes "?" ++ q = d.text := by
      rw [queryText_text]
      simp only [List.append_assoc]
      rfl
    have hhead : ∀ c ∈ d.toTailText.text.head?, isHost c = false :=
      d.toTailText.head_not_host fun h => absurd h (List.cons_ne_nil _ _)
    rw [htext, d.parse_text hhead]
    exact queryText_url hne hhost _ q
  · let d := queryText hne hhost (.inl rfl) q
    have htext : bytes "http://" ++ domain ++ bytes "?" ++ q = d.text := by
      rw [queryText_text]
      simp only [List.append_assoc, List.nil_append]
    rw [htext]
    constructor
    · rintro ⟨-, hdomain, -⟩
      by_contra hg
      exact domain_ne_of_not_guarded d rfl rfl rfl hg hdomain
    · intro hg
      rw [parse_of_guarded d rfl rfl rfl hg]
      exact queryText_url hne hhost _ q

/-- `http://d:1?q`, and `http://d?a:b`, where `b` is no port. -/
theorem parse_query_sample :
    (parse (bytes "http://d:1?q")).data_ = bytes "q" ∧ (parse (bytes "http://d?a:b")).data_ = bytes "a:b" := by
  have hhost : ∀ c ∈ bytes "d", c ≠ 58 ∧ c ≠ 47 ∧ c ≠ 63 := by
    intro c hc
    rw [List.mem_singleton.mp hc]
    decide
  have hdigit : bytes "1" ∈ plusOf isDigit := singleton_mem_plusOf rfl
  have hport : ¬ StartsPort (bytes "b") := by
    rintro ⟨n, ⟨hne, hdigits⟩, t, ht, -⟩
    obtain ⟨c, n, rfl⟩ := List.exists_cons_of_ne_nil hne
    obtain rfl : 98 = c := (List.cons.inj ht).1
    exact absurd (hdigits 98 List.mem_cons_self) (by decide)
  have hguarded : Guarded (bytes "a:b") := by
    refine ⟨bytes "a", bytes "b", rfl, fun c hc => ?_, hport⟩
    rw [List.mem_singleton.mp hc]
    decide
  have hne : bytes "d" ≠ [] := List.cons_ne_nil _ _
  exact ⟨((parse_query_parts hne hhost (bytes "q")).1 _ hdigit).2.2,
    ((parse_query_parts hne hhost (bytes "a:b")).2.mpr hguarded).2.2⟩

/-- The domain of `http://d?q` is `d?q`, and there is no data. -/
theorem parse_query_lost : (parse (bytes "http://d?q")).ok = true ∧
    (parse (bytes "http://d?q")).domain_ = bytes "d?q" ∧ (parse (bytes "http://d?q")).data_ = [] := by
  decide

end Url

end Http
