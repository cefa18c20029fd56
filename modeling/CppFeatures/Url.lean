/-
`url` (http/src/url.h, http/src/url.cpp): printing and parsing of URLs.

`parse` splits a text by one regular expression.  The class of the domain admits `?`,
so that how a text is split can depend on what is tried first; `to_string` leaves out a
port 0 and a path `/`.

* `Url.parse`, `Url.toString` — the source's functions;
* `UrlText` — a text with its five parts, and `UrlText.parse_text`: what is parsed when
  the domain ends at a `:`, a `/` or the end;
* `UrlText.hostSearch_query` — what is matched when a query follows the domain;
* `Url.reparse_http` — the round trip for `http` and `https`;
* `Url.reparse_other_iff` — when there is one for the other protocols.
-/
import CppFeatures.HttpRoundTrip
import CppFeatures.Regex

namespace Http

open List Regex

/-! ### The class -/

/-- `url::eProtocol`. -/
inductive Protocol
  | unkown
  | http
  | https
  | ftp
  | mailto
  | ldap
  | file
  | news
  | gopher
  | telnet
  | tcp
  | udp
  | zk
deriving DecidableEq, Repr

namespace Protocol

/-- `protocol_s`. -/
def protocolS : Protocol → Bytes
  | http => bytes "http"
  | https => bytes "https"
  | ftp => bytes "ftp"
  | mailto => bytes "mailto"
  | ldap => bytes "ldap"
  | file => bytes "file"
  | news => bytes "news"
  | gopher => bytes "gopher"
  | telnet => bytes "telnet"
  | tcp => bytes "tcp"
  | udp => bytes "udp"
  | zk => bytes "zk"
  | unkown => bytes "unkown"

/-- `std::tolower`, in the C locale. -/
def tolower (c : UInt8) : UInt8 := if 65 ≤ c ∧ c ≤ 90 then c + 32 else c

/-- `set_protocol_s`. -/
def ofText (s : Bytes) : Protocol :=
  let s := s.map tolower
  if s = bytes "http" then http
  else if s = bytes "https" then https
  else if s = bytes "ftp" then ftp
  else if s = bytes "mailto" then mailto
  else if s = bytes "ldap" then ldap
  else if s = bytes "file" then file
  else if s = bytes "news" then news
  else if s = bytes "gopher" then gopher
  else if s = bytes "telnet" then telnet
  else if s = bytes "tcp" then tcp
  else if s = bytes "udp" then udp
  else if s = bytes "zk" then zk
  else unkown

theorem ofText_protocolS (p : Protocol) : ofText p.protocolS = p := by
  cases p <;> decide

end Protocol

structure Url where
  protocol_ : Protocol := .unkown
  domain_ : Bytes := []
  port_ : UInt16 := 0
  path_ : Bytes := []
  data_ : Bytes := []
  error_ : Bytes := []
deriving DecidableEq, Repr

namespace Url

def ok (u : Url) : Bool := u.error_ = [] ∧ u.protocol_ ≠ .unkown

def toString (u : Url) : Bytes :=
  if !u.ok then []
  else
    let str := u.protocol_.protocolS ++ bytes "://" ++ u.domain_
    let str := if u.port_ ≠ 0 then str ++ bytes ":" ++ toStringInt u.port_.toUInt32.toInt32 else str
    if u.path_ = bytes "/" ∧ u.data_ = [] then str
    else
      let str := str ++ u.path_
      if u.data_ = [] then str else str ++ bytes "?" ++ u.data_

-- `\w`
def isWord (c : UInt8) : Bool :=
  isDigit c.toNat || (decide (65 ≤ c) && decide (c ≤ 90)) || (decide (97 ≤ c) && decide (c ≤ 122)) ||
    c == 95

-- `[^:/]`
def isHost (c : UInt8) : Bool := c != 58 && c != 47

-- `[^\?]`
def isPath (c : UInt8) : Bool := c != 63

/-- `(:\d+)?` -/
def portRegex : Regex UInt8 :=
  .opt (.group 3 (.seq (.chars (bytes ":")) (.plus fun c => isDigit c.toNat)))

/-- `(/[^\?]*)?` -/
def pathRegex : Regex UInt8 := .opt (.group 4 (.seq (.chars (bytes "/")) (.star isPath)))

/-- `(\?.*)?` -/
def queryRegex : Regex UInt8 := .opt (.group 5 (.seq (.chars (bytes "?")) (.star fun _ => true)))

def tailRegex : Regex UInt8 := .seq portRegex (.seq pathRegex queryRegex)

/-- `^(\w+)://([^:/]+)(:\d+)?(/[^\?]*)?(\?.*)?$` -/
def re : Regex UInt8 :=
  .seq (.group 1 (.plus isWord)) (.seq (.chars (bytes "://")) (.seq (.group 2 (.plus isHost)) tailRegex))

/-- What `parse` does with the results of the match. -/
def ofResults (scheme domain port path query : Bytes) : Url :=
  let u : Url := { protocol_ := .ofText scheme }
  if u.protocol_ = .unkown then { u with error_ := bytes "unkown protocol" }
  else
    let u := { u with
      domain_ := domain
      port_ := if port ≠ [] then (atoi port.tail).toUInt32.toUInt16 else 0
      path_ := path }
    if u.protocol_ = .http ∨ u.protocol_ = .https then
      let u := if u.path_ = [] then { u with path_ := bytes "/" } else u
      if query ≠ [] then { u with data_ := query.tail } else u
    else { u with path_ := u.path_ ++ query }

def parse (s : Bytes) : Url :=
  match fullMatch re s with
  | none => { error_ := bytes "regex match error." }
  | some results => ofResults (results 1) (results 2) (results 3) (results 4) (results 5)

end Url

open Url

/-! ### Texts with their parts -/

/-- What can follow the domain. -/
structure TailText where
  port : Bytes
  path : Bytes
  query : Bytes
  port_eq : port = [] ∨ ∃ n ∈ plusOf isDigit, port = 58 :: n
  path_eq : path = [] ∨ ∃ x : Bytes, path = 47 :: x ∧ ∀ c ∈ x, isPath c = true
  query_eq : query = [] ∨ ∃ x : Bytes, query = 63 :: x

namespace TailText

def text (d : TailText) : Bytes := d.port ++ (d.path ++ d.query)

theorem head_query (d : TailText) : ∀ c ∈ d.query.head?, c = 63 := by
  intro c hc
  rcases d.query_eq with h | ⟨x, h⟩
  · simp [h] at hc
  · simpa [h, eq_comm] using hc

theorem head_pathQuery (d : TailText) : ∀ c ∈ (d.path ++ d.query).head?, c = 47 ∨ c = 63 := by
  intro c hc
  rcases d.path_eq with h | ⟨x, h, -⟩
  · rw [h, nil_append] at hc
    exact .inr (d.head_query c hc)
  · left
    simpa [h, eq_comm] using hc

theorem head_text (d : TailText) : ∀ c ∈ d.text.head?, c = 58 ∨ c = 47 ∨ c = 63 := by
  intro c hc
  rcases d.port_eq with h | ⟨n, -, h⟩
  · rw [text, h, nil_append] at hc
    exact .inr (d.head_pathQuery c hc)
  · left
    simpa [text, h, eq_comm] using hc

/-- The domain ends in front of these parts, unless they begin with the query. -/
theorem head_not_host (d : TailText) (h : d.port = [] → d.path = [] → d.query = []) :
    ∀ c ∈ d.text.head?, isHost c = false := by
  intro c hc
  rcases d.port_eq with hport | ⟨n, -, hport⟩
  · rw [text, hport, nil_append] at hc
    rcases d.path_eq with hpath | ⟨x, hpath, -⟩
    · rw [hpath, h hport hpath] at hc
      cases hc
    · rw [hpath] at hc
      cases hc
      rfl
  · rw [text, hport] at hc
    cases hc
    rfl

/-- The groups of the last three parts. -/
def captures (d : TailText) (g : Captures UInt8) : Captures UInt8 :=
  put (put (put g 3 d.port) 4 d.path) 5 d.query

theorem captures_of_lt (d : TailText) (g : Captures UInt8) {n : ℕ} (h : n < 3) :
    d.captures g n = g n := by
  rw [captures, put_of_ne (by omega), put_of_ne (by omega), put_of_ne (by omega)]

theorem captures_self (d : TailText) {g : Captures UInt8} (h3 : g 3 = []) (h4 : g 4 = [])
    (h5 : g 5 = []) : d.captures g 3 = d.port ∧ d.captures g 4 = d.path ∧ d.captures g 5 = d.query := by
  refine ⟨?_, ?_, ?_⟩
  · rw [captures, put_of_ne (by decide), put_of_ne (by decide), put_self 3 h3]
  · rw [captures, put_of_ne (by decide), put_self 4]
    rw [put_of_ne (by decide), h4]
  · rw [captures, put_self 5]
    rw [put_of_ne (by decide), put_of_ne (by decide), h5]

/-- **The last three parts** are as long as they can be. -/
theorem takes (d : TailText) (g : Captures UInt8) : Takes tailRegex g d.text [] (d.captures g) := by
  have hnil : ∀ p : UInt8 → Bool, ∀ c ∈ ([] : Bytes).head?, p c = false := by simp
  have hquery : ∀ g, Takes queryRegex g d.query [] (put g 5 d.query) := by
    intro g
    refine takes_optGroup 5 (fun _ => by decide) fun hne => ?_
    obtain ⟨x, hx⟩ := d.query_eq.resolve_left hne
    rw [hx]
    exact takes_chars.seq (takes_star (fun _ _ => rfl) (hnil _))
  have hpath : ∀ g, Takes pathRegex g d.path d.query (put g 4 d.path) := by
    intro g
    refine takes_optGroup 4 (fun _ hpre => ?_) fun hne => ?_
    · obtain ⟨t, ht⟩ := hpre
      have := d.head_query 47 (by rw [← ht]; rfl)
      exact absurd this (by decide)
    · obtain ⟨x, hx, hclass⟩ := d.path_eq.resolve_left hne
      rw [hx]
      refine takes_chars.seq (takes_star hclass fun c hc => ?_)
      rw [d.head_query c hc]
      rfl
  have hport : Takes portRegex g d.port (d.path ++ d.query) (put g 3 d.port) := by
    refine takes_optGroup 3 (fun _ hpre => ?_) fun hne => ?_
    · obtain ⟨t, ht⟩ := hpre
      have := d.head_pathQuery 58 (by rw [← ht]; rfl)
      exact absurd this (by decide)
    · obtain ⟨n, hn, hx⟩ := d.port_eq.resolve_left hne
      rw [hx]
      refine takes_chars.seq (takes_plus hn.1 hn.2 fun c hc => ?_)
      rcases d.head_pathQuery c hc with rfl | rfl <;> rfl
  have hpath' : Takes pathRegex (put g 3 d.port) d.path (d.query ++ []) (put (put g 3 d.port) 4 d.path) := by
    rw [append_nil]
    exact hpath _
  have hport' : Takes portRegex g d.port ((d.path ++ d.query) ++ []) (put g 3 d.port) := by
    rw [append_nil]
    exact hport
  exact hport'.seq (hpath'.seq (hquery _))

/-- What the expression of the last three parts matches. -/
theorem exists_of_matches {g g' : Captures UInt8} {t : Bytes} (h : Matches tailRegex g t g') :
    ∃ d : TailText, t = d.text ∧ g' = d.captures g := by
  cases h with
  | seq hport h =>
    cases h with
    | seq hpath hquery =>
      obtain ⟨hport', rfl⟩ := hport.optGroup_put rfl (by decide)
      obtain ⟨hpath', rfl⟩ := hpath.optGroup_put rfl (by decide)
      obtain ⟨hquery', rfl⟩ := hquery.optGroup_put rfl (by decide)
      refine ⟨⟨_, _, _, hport'.imp_right ?_, hpath'.imp_right ?_, hquery'.imp_right ?_⟩, rfl, rfl⟩
      · rintro ⟨n, hn, hm⟩
        cases hm with
        | plus _ hne hdigits => exact ⟨n, ⟨hne, hdigits⟩, hn⟩
      · rintro ⟨x, hx, hm⟩
        cases hm with
        | star _ hclass => exact ⟨x, hx, hclass⟩
      · rintro ⟨x, hx, -⟩
        exact ⟨x, hx⟩

end TailText

/-- A text that the expression matches, with its parts. -/
structure UrlText extends TailText where
  scheme : Bytes
  domain : Bytes
  scheme_ne : scheme ≠ []
  scheme_word : ∀ c ∈ scheme, isWord c = true
  domain_ne : domain ≠ []
  domain_host : ∀ c ∈ domain, isHost c = true

namespace UrlText

def text (d : UrlText) : Bytes := d.scheme ++ (bytes "://" ++ (d.domain ++ d.toTailText.text))

def url (d : UrlText) : Url := ofResults d.scheme d.domain d.port d.path d.query

/-- The groups of the scheme and the domain. -/
def firstCaptures (scheme domain : Bytes) : Captures UInt8 :=
  Function.update (Function.update (fun _ => []) 1 scheme) 2 domain

theorem parse_of_fullMatch {s : Bytes} {d : UrlText}
    (h : fullMatch re s = some (d.toTailText.captures (firstCaptures d.scheme d.domain))) :
    parse s = d.url := by
  have h1 := d.toTailText.captures_of_lt (firstCaptures d.scheme d.domain) (n := 1) (by decide)
  have h2 := d.toTailText.captures_of_lt (firstCaptures d.scheme d.domain) (n := 2) (by decide)
  obtain ⟨h3, h4, h5⟩ := d.toTailText.captures_self (g := firstCaptures d.scheme d.domain) rfl rfl rfl
  rw [parse, h, url]
  dsimp only
  rw [h1, h2, h3, h4, h5]
  rfl

/-- **The domain is as long as it can be**: if it ends in front of a `:`, a `/` or the
end, the parts are what is matched. -/
theorem parse_text (d : UrlText) (h : ∀ c ∈ d.toTailText.text.head?, isHost c = false) :
    parse d.text = d.url := by
  refine parse_of_fullMatch (Takes.atEnd ?_)
  have hscheme : Takes (.group 1 (.plus isWord)) (fun _ => []) d.scheme
      ((bytes "://" ++ (d.domain ++ d.toTailText.text)) ++ []) _ :=
    (takes_plus d.scheme_ne d.scheme_word fun c hc => by
      cases hc
      decide).group 1
  have hdomain : Takes (.group 2 (.plus isHost)) (Function.update (fun _ => []) 1 d.scheme) d.domain
      (d.toTailText.text ++ []) _ :=
    (takes_plus d.domain_ne d.domain_host (by rwa [append_nil])).group 2
  exact hscheme.seq (takes_chars.seq (hdomain.seq (d.toTailText.takes _)))

/-- What is matched is such a text. -/
theorem exists_of_fullMatch {s : Bytes} {g : Captures UInt8} (h : fullMatch re s = some g) :
    ∃ d : UrlText, s = d.text ∧ g = d.toTailText.captures (firstCaptures d.scheme d.domain) := by
  have hm := matches_of_atEnd h
  cases hm with
  | seq hscheme hm =>
    cases hm with
    | seq hcolon hm =>
      cases hcolon
      cases hm with
      | seq hdomain htail =>
        cases hscheme with
        | group _ hscheme =>
          cases hdomain with
          | group _ hdomain =>
            cases hscheme with
            | plus _ hne hword =>
              cases hdomain with
              | plus _ hne' hhost =>
                obtain ⟨d, rfl, rfl⟩ := TailText.exists_of_matches htail
                exact ⟨⟨d, _, _, hne, hword, hne', hhost⟩, rfl, rfl⟩

end UrlText

/-! ### A query after the domain -/

/-- What follows a `:` is taken as a port. -/
def StartsPort (y : Bytes) : Prop :=
  ∃ n ∈ plusOf isDigit, ∃ t, y = n ++ t ∧ ∀ c ∈ t.head?, c = 47 ∨ c = 63

/-- The first of `:`, `/` and `?` is a `:` that no port follows.  After a `?`, this
keeps the domain from being continued. -/
def Guarded (x : Bytes) : Prop :=
  ∃ y z, x = y ++ 58 :: z ∧ (∀ c ∈ y, c ≠ 58 ∧ c ≠ 47 ∧ c ≠ 63) ∧ ¬ StartsPort z

theorem TailText.startsPort (d : TailText) {z : Bytes} (h : d.text = 58 :: z) : StartsPort z := by
  rcases d.port_eq with hp | ⟨n, hn, hp⟩
  · rw [TailText.text, hp, nil_append] at h
    have := d.head_pathQuery 58 (by rw [h]; rfl)
    exact absurd this (by decide)
  · rw [TailText.text, hp, cons_append, List.cons.injEq] at h
    exact ⟨n, hn, _, h.2.symm, d.head_pathQuery⟩

/-- After a longer domain nothing can be matched. -/
theorem Guarded.ne_text {x : Bytes} (h : Guarded x) {u t : Bytes} (hx : x = u ++ t)
    (hu : ∀ c ∈ u, isHost c = true) (d : TailText) : t ≠ d.text := by
  rintro rfl
  obtain ⟨y, z, rfl, hy, hport⟩ := h
  rcases append_eq_append_iff.mp hx with ⟨v, rfl, hv⟩ | ⟨v, rfl, hv⟩
  · cases v with
    | nil => exact hport (d.startsPort hv.symm)
    | cons c v =>
      -- the domain would have to contain the `:`
      obtain rfl : 58 = c := (List.cons.inj hv).1
      exact absurd (hu 58 (by simp)) (by decide)
  · cases v with
    | nil => exact hport (d.startsPort hv)
    | cons c v =>
      have hc := hy c (by simp)
      rcases d.head_text c (by rw [hv]; rfl) with h | h | h
      · exact hc.1 h
      · exact hc.2.1 h
      · exact hc.2.2 h

/-- A path and a query can be cut from any text that begins like one. -/
theorem exists_pathQuery {t : Bytes} (ht : ∀ c ∈ t.head?, c = 47 ∨ c = 63) :
    ∃ path query : Bytes, t = path ++ query ∧
      (path = [] ∨ ∃ x : Bytes, path = 47 :: x ∧ ∀ c ∈ x, isPath c = true) ∧
      (query = [] ∨ ∃ x : Bytes, query = 63 :: x) := by
  cases t with
  | nil => exact ⟨[], [], rfl, .inl rfl, .inl rfl⟩
  | cons c t =>
    rcases ht c rfl with rfl | rfl
    · refine ⟨47 :: t.takeWhile isPath, t.dropWhile isPath, ?_, .inr ⟨_, rfl, ?_⟩, ?_⟩
      · rw [cons_append, takeWhile_append_dropWhile]
      · exact fun c hc => mem_takeWhile_imp hc
      · cases hq : t.dropWhile isPath with
        | nil => exact .inl rfl
        | cons c q =>
          have hc := List.head?_dropWhile_not isPath t
          rw [hq] at hc
          have hc : c = 63 := by simpa [isPath] using hc
          exact .inr ⟨q, by rw [hc]⟩
    · exact ⟨[], 63 :: t, rfl, .inl rfl, .inr ⟨t, rfl⟩⟩

/-- Otherwise there is a longer domain. -/
theorem exists_text_of_not_guarded {x : Bytes} (h : ¬ Guarded x) :
    ∃ (u : Bytes) (d : TailText), x = u ++ d.text ∧ ∀ c ∈ u, isHost c = true := by
  let stops : UInt8 → Bool := fun c => c != 58 && c != 47 && c != 63
  have hsplit : x = x.takeWhile stops ++ x.dropWhile stops := takeWhile_append_dropWhile.symm
  have hclass : ∀ c ∈ x.takeWhile stops, c ≠ 58 ∧ c ≠ 47 ∧ c ≠ 63 := by
    intro c hc
    simpa [stops, and_assoc] using mem_takeWhile_imp hc
  have hhost : ∀ c ∈ x.takeWhile stops, isHost c = true := by
    intro c hc
    obtain ⟨h58, h47, -⟩ := hclass c hc
    simp [isHost, h58, h47]
  cases hrest : x.dropWhile stops with
  | nil =>
    rw [hrest] at hsplit
    exact ⟨_, ⟨[], [], [], .inl rfl, .inl rfl, .inl rfl⟩, hsplit, hhost⟩
  | cons c z =>
    rw [hrest] at hsplit
    have hc : c = 58 ∨ c = 47 ∨ c = 63 := by
      have := List.head?_dropWhile_not stops x
      rw [hrest] at this
      simp only [List.head?_cons, stops] at this
      by_contra hne
      simp only [not_or] at hne
      simp [hne] at this
    rcases hc with rfl | hc
    · obtain ⟨n, hn, t, rfl, ht⟩ : StartsPort z := by
        by_contra hport
        exact h ⟨_, z, hsplit, hclass, hport⟩
      obtain ⟨path, query, rfl, hpath, hquery⟩ := exists_pathQuery ht
      exact ⟨_, ⟨58 :: n, path, query, .inr ⟨n, hn, rfl⟩, hpath, hquery⟩, hsplit, hhost⟩
    · obtain ⟨path, query, hpq, hpath, hquery⟩ := exists_pathQuery (t := c :: z) (by simpa using hc)
      rw [hpq] at hsplit
      exact ⟨_, ⟨[], path, query, .inl rfl, hpath, hquery⟩, hsplit, hhost⟩

/-- `[^:/]+` and the rest of the expression, in front of which `g` has been matched. -/
def hostSearch (g : Captures UInt8) (s : Bytes) : Option (Captures UInt8) :=
  search (.seq (.group 2 (.plus isHost)) tailRegex) g s atEnd

theorem UrlText.fullMatch_of_hostSearch {scheme s : Bytes} {b : Captures UInt8} (hne : scheme ≠ [])
    (hword : ∀ c ∈ scheme, isWord c = true)
    (h : hostSearch (Function.update (fun _ => []) 1 scheme) s = some b) :
    fullMatch re (scheme ++ (bytes "://" ++ s)) = some b := by
  have hscheme : Takes (.group 1 (.plus isWord)) (fun _ => []) scheme (bytes "://" ++ s) _ :=
    (takes_plus hne hword fun c hc => by
      cases hc
      decide).group 1
  rw [fullMatch, re, search]
  refine hscheme _ b ?_
  rw [search]
  exact takes_chars _ b h

/-- **A query right after the domain**: the domain is continued unless what follows
prevents it. -/
theorem UrlText.hostSearch_query (d : UrlText) {x : Bytes} (hport : d.port = []) (hpath : d.path = [])
    (hquery : d.query = 63 :: x) (g : Captures UInt8) :
    (Guarded x → hostSearch g (d.domain ++ d.toTailText.text)
      = some (d.toTailText.captures (Function.update g 2 d.domain))) ∧
    (¬ Guarded x → ∃ b, hostSearch g (d.domain ++ d.toTailText.text) = some b ∧ b 2 ≠ d.domain) := by
  have htext : d.toTailText.text = 63 :: x := by rw [TailText.text, hport, hpath, hquery]; rfl
  obtain ⟨c, dom, hdom⟩ := exists_cons_of_ne_nil d.domain_ne
  obtain ⟨hc, hhost⟩ := forall_mem_cons.mp (hdom ▸ d.domain_host)
  -- the rest of the expression, after a domain in front of `s`
  let rest : Bytes → Option (Captures UInt8) := fun s =>
    search tailRegex (Function.update g 2
      ((d.domain ++ 63 :: x).take ((d.domain ++ 63 :: x).length - s.length))) s atEnd
  have hsearch : hostSearch g (d.domain ++ d.toTailText.text)
      = (splits isHost (dom ++ 63 :: x)).findSome? rest := by
    simp only [hostSearch, htext, rest, hdom, cons_append, search, if_pos hc]
  constructor
  · intro hg
    rw [hsearch]
    refine findSome?_splits_last hhost ?_ fun v t hv hx hhost' => ?_
    · simp only [rest]
      rw [take_append_length_sub, ← htext]
      exact (d.toTailText.takes _).atEnd
    · by_contra hne
      obtain ⟨b, hb⟩ := Option.ne_none_iff_exists'.mp hne
      obtain ⟨d', rfl, -⟩ := TailText.exists_of_matches (matches_of_atEnd hb)
      obtain ⟨c', u, rfl⟩ := exists_cons_of_ne_nil hv
      exact hg.ne_text (List.cons.inj hx).2 (forall_mem_cons.mp hhost').2 d' rfl
  · intro hg
    obtain ⟨u, d', hx, hu⟩ := exists_text_of_not_guarded hg
    have hsome : (splits isHost x).findSome? rest ≠ none := by
      rw [Ne, List.findSome?_eq_none_iff]
      intro hall
      have hd' := hall d'.text (hx ▸ mem_splits_append hu d'.text)
      rw [show rest d'.text = some _ from (d'.takes _).atEnd] at hd'
      cases hd'
    obtain ⟨b, hb⟩ := Option.ne_none_iff_exists'.mp hsome
    have hfirst : hostSearch g (d.domain ++ d.toTailText.text) = some b := by
      rw [hsearch]
      refine findSome?_splits_append hhost ?_
      rw [findSome?_splits_cons (by decide), hb]
      rfl
    refine ⟨b, hfirst, ?_⟩
    obtain ⟨u', t, hx', -, hrest⟩ := exists_of_findSome?_splits hb
    have hgroup := (matches_of_atEnd hrest).apply_of_notMem (n := 2) (by decide)
    have happ : d.domain ++ 63 :: x = (d.domain ++ 63 :: u') ++ t := by simp [hx']
    rw [hgroup, Function.update_self, happ, take_append_length_sub]
    simp

/-! ### What is printed -/

theorem Protocol.protocolS_ne (p : Protocol) : p.protocolS ≠ [] := by
  cases p <;> decide

theorem Protocol.protocolS_word (p : Protocol) : ∀ c ∈ p.protocolS, isWord c = true := by
  cases p <;> exact all_eq_true.mp (by decide)

namespace Url

def portText (port : UInt16) : Bytes :=
  if port ≠ 0 then bytes ":" ++ toStringInt port.toUInt32.toInt32 else []

theorem toInt_port (port : UInt16) : port.toUInt32.toInt32.toInt = port.toNat := by
  have hlt := port.toNat_lt
  have hnat : port.toUInt32.toNat = port.toNat := UInt16.toNat_toUInt32 port
  rw [← Int32.toInt_toBitVec, UInt32.toBitVec_toInt32, BitVec.toInt_eq_toNat_of_lt]
  · rw [UInt32.toNat_toBitVec, hnat]
  · rw [UInt32.toNat_toBitVec, hnat]
    omega

theorem port_digits (port : UInt16) : toStringInt port.toUInt32.toInt32 ∈ plusOf isDigit :=
  toStringInt_digits (by rw [toInt_port]; omega)

theorem atoi_port (port : UInt16) :
    (atoi (toStringInt port.toUInt32.toInt32)).toUInt32.toUInt16 = port := by
  rw [atoi_toStringInt (by rw [toInt_port]; omega)]
  simp

theorem portText_eq (port : UInt16) :
    portText port = [] ∨ ∃ n ∈ plusOf isDigit, portText port = 58 :: n := by
  rw [portText]
  split_ifs
  · exact .inr ⟨_, port_digits port, rfl⟩
  · exact .inl rfl

/-- The port is read back, and 0 from nothing. -/
theorem port_portText (port : UInt16) : (if portText port ≠ [] then
    (atoi (portText port).tail).toUInt32.toUInt16 else 0) = port := by
  by_cases hp : port = 0
  · simp [portText, hp]
  · have htext : portText port = 58 :: toStringInt port.toUInt32.toInt32 := if_pos hp
    rw [htext, if_pos (cons_ne_nil _ _), tail_cons, atoi_port]

theorem toString_eq {u : Url} (hok : u.ok = true) : u.toString = u.protocol_.protocolS ++ (bytes "://" ++
    (u.domain_ ++ (portText u.port_ ++
      ((if u.path_ = bytes "/" ∧ u.data_ = [] then [] else u.path_) ++
        (if u.data_ = [] then [] else 63 :: u.data_))))) := by
  have hquery : bytes "?" = [63] := by decide
  rw [toString, hok, portText]
  by_cases hdata : u.data_ = []
  · simp only [hdata]
    split_ifs <;> simp_all
  · simp only [hdata]
    split_ifs <;> simp_all

theorem ofResults_unkown {scheme : Bytes} (domain port path query : Bytes)
    (hp : Protocol.ofText scheme = .unkown) :
    ofResults scheme domain port path query =
      { protocol_ := .unkown, error_ := bytes "unkown protocol" } := by
  rw [ofResults]
  dsimp only
  rw [hp, if_pos rfl]

theorem ofResults_http {scheme : Bytes} {p : Protocol} (domain port path query : Bytes)
    (hs : Protocol.ofText scheme = p) (hp : p = .http ∨ p = .https) :
    ofResults scheme domain port path query =
      { protocol_ := p
        domain_ := domain
        port_ := if port ≠ [] then (atoi port.tail).toUInt32.toUInt16 else 0
        path_ := if path = [] then bytes "/" else path
        data_ := query.tail } := by
  have hne : p ≠ .unkown := by rcases hp with rfl | rfl <;> decide
  rw [ofResults]
  dsimp only
  rw [hs, if_neg hne, if_pos hp]
  cases query <;> cases path <;> rfl

theorem ofResults_other {scheme : Bytes} {p : Protocol} (domain port path query : Bytes)
    (hs : Protocol.ofText scheme = p) (hne : p ≠ .unkown) (hp : ¬ (p = .http ∨ p = .https)) :
    ofResults scheme domain port path query =
      { protocol_ := p
        domain_ := domain
        port_ := if port ≠ [] then (atoi port.tail).toUInt32.toUInt16 else 0
        path_ := path ++ query } := by
  rw [ofResults]
  dsimp only
  rw [hs, if_neg hne, if_neg hp]

theorem ofResults_protocol (scheme domain port path query : Bytes) :
    (ofResults scheme domain port path query).protocol_ = .ofText scheme ∧
      ((ofResults scheme domain port path query).domain_ = [] ∨
        (ofResults scheme domain port path query).domain_ = domain) := by
  by_cases hnone : Protocol.ofText scheme = .unkown
  · rw [ofResults_unkown _ _ _ _ hnone]
    exact ⟨hnone.symm, .inl rfl⟩
  · by_cases hp : Protocol.ofText scheme = .http ∨ Protocol.ofText scheme = .https
    · rw [ofResults_http _ _ _ _ rfl hp]
      exact ⟨rfl, .inr rfl⟩
    · rw [ofResults_other _ _ _ _ rfl hnone hp]
      exact ⟨rfl, .inr rfl⟩

/-- What is parsed has the parts of a text that is matched. -/
theorem exists_of_ok {s : Bytes} (h : (parse s).ok = true) :
    ∃ d : UrlText, Protocol.ofText d.scheme ≠ .unkown ∧ parse s = d.url := by
  cases hm : fullMatch re s with
  | none => simp [parse, hm, ok] at h
  | some g =>
    obtain ⟨d, rfl, rfl⟩ := UrlText.exists_of_fullMatch hm
    have hurl := UrlText.parse_of_fullMatch hm
    refine ⟨d, fun hp => ?_, hurl⟩
    rw [hurl, UrlText.url, ofResults_unkown _ _ _ _ hp] at h
    cases h

/-- The printed form of an `http` or `https` URL is parsed to that URL. -/
theorem parse_toString_http {u : Url} (hp : u.protocol_ = .http ∨ u.protocol_ = .https)
    (herr : u.error_ = []) (hne : u.domain_ ≠ []) (hhost : ∀ c ∈ u.domain_, c ≠ 58 ∧ c ≠ 47)
    {x : Bytes} (hpath : u.path_ = 47 :: x) (hx : 63 ∉ x) : parse u.toString = u := by
  have hok : u.ok = true := by
    rcases hp with hp | hp <;> simp [ok, herr, hp]
  have hclass : ∀ c ∈ x, isPath c = true := by
    intro c hc
    have hc63 : c ≠ 63 := fun h => hx (h ▸ hc)
    simpa [isPath] using hc63
  let d : UrlText :=
    { port := portText u.port_
      path := if u.path_ = bytes "/" ∧ u.data_ = [] then [] else u.path_
      query := if u.data_ = [] then [] else 63 :: u.data_
      port_eq := portText_eq u.port_
      path_eq := by
        split_ifs
        · exact .inl rfl
        · exact .inr ⟨x, hpath, hclass⟩
      query_eq := by
        split_ifs
        · exact .inl rfl
        · exact .inr ⟨_, rfl⟩
      scheme := u.protocol_.protocolS
      domain := u.domain_
      scheme_ne := u.protocol_.protocolS_ne
      scheme_word := u.protocol_.protocolS_word
      domain_ne := hne
      domain_host := fun c hc => by simp [isHost, hhost c hc] }
  have hhead : ∀ c ∈ d.toTailText.text.head?, isHost c = false := by
    refine d.toTailText.head_not_host fun _ hnil => ?_
    -- the path is left out only together with the data
    have hshort : u.path_ = bytes "/" ∧ u.data_ = [] := by
      by_contra hlong
      rw [show d.path = u.path_ from if_neg hlong, hpath] at hnil
      cases hnil
    exact if_pos hshort.2
  have hshown : (if d.path = [] then bytes "/" else d.path) = u.path_ := by
    have hlong : u.path_ ≠ [] := by
      rw [hpath]
      exact cons_ne_nil _ _
    by_cases hshort : u.path_ = bytes "/" ∧ u.data_ = []
    · rw [show d.path = [] from if_pos hshort, if_pos rfl, hshort.1]
    · rw [show d.path = u.path_ from if_neg hshort, if_neg hlong]
  have hdata : d.query.tail = u.data_ := by
    simp only [d]
    split_ifs with hnil
    · exact hnil.symm
    · rfl
  rw [toString_eq hok]
  refine (d.parse_text hhead).trans ?_
  rw [UrlText.url, ofResults_http _ _ _ _ (Protocol.ofText_protocolS _) hp, port_portText, hshown,
    hdata]
  show Url.mk _ _ _ _ _ [] = u
  rw [← herr]

/-- **Printing and parsing `http` and `https` URLs.**  A URL object with one of these
protocols, no error, a non-empty domain without `:` and `/`, any port, a path that begins
with `/` and has no `?`, and any data is printed to a text that is parsed to the same URL;
so is every such URL that was parsed itself. -/
theorem reparse_http :
    (∀ u : Url, u.protocol_ = .http ∨ u.protocol_ = .https → u.error_ = [] → u.domain_ ≠ [] →
      (∀ c ∈ u.domain_, c ≠ 58 ∧ c ≠ 47) → (∃ x : Bytes, u.path_ = 47 :: x ∧ 63 ∉ x) →
      (parse u.toString).ok = true ∧ parse u.toString = u) ∧
    (∀ s : Bytes, (parse s).ok = true → (parse s).protocol_ = .http ∨ (parse s).protocol_ = .https →
      parse (parse s).toString = parse s) := by
  refine ⟨fun u hp herr hne hhost hpath => ?_, fun s hok hp => ?_⟩
  · obtain ⟨x, hpath, hx⟩ := hpath
    have hround := parse_toString_http hp herr hne hhost hpath hx
    refine ⟨?_, hround⟩
    rw [hround]
    rcases hp with hp | hp <;> simp [ok, herr, hp]
  · obtain ⟨d, -, hurl⟩ := exists_of_ok hok
    have hp' : Protocol.ofText d.scheme = .http ∨ Protocol.ofText d.scheme = .https := by
      rwa [hurl, UrlText.url, (ofResults_protocol _ _ _ _ _).1] at hp
    rw [UrlText.url, ofResults_http _ _ _ _ rfl hp'] at hurl
    -- an absent path has become `/`
    have hpath : ∃ x : Bytes, (parse s).path_ = 47 :: x ∧ 63 ∉ x := by
      rw [hurl]
      rcases d.path_eq with hnil | ⟨x, hx, hclass⟩
      · exact ⟨[], if_pos hnil, not_mem_nil⟩
      · refine ⟨x, ?_, fun h63 => absurd (hclass 63 h63) (by decide)⟩
        simp [hx]
    obtain ⟨x, hpath, hx⟩ := hpath
    refine parse_toString_http hp ?_ ?_ (fun c hc => ?_) hpath hx
    · rw [hurl]
    · rw [hurl]
      exact d.domain_ne
    · rw [hurl] at hc
      simpa [isHost] using d.domain_host c hc

/-- `https://a:8080/x?y` -/
theorem reparse_http_sample :
    parse (parse (bytes "https://a:8080/x?y")).toString = parse (bytes "https://a:8080/x?y") ∧
      (parse (bytes "https://a:8080/x?y")).data_ = bytes "y" := by
  have hparse : (parse (bytes "https://a:8080/x?y")).protocol_ = .https := by decide
  exact ⟨reparse_http.2 _ (by decide) (.inr hparse), by decide⟩

/-! ### The other protocols -/

/-- Only `/` itself is left out with the path. -/
theorem query_of_slash (d : TailText) (h : d.path ++ d.query = bytes "/") : d.query = [] := by
  rcases d.path_eq with hpath | ⟨x, hpath, -⟩
  · rcases d.query_eq with hquery | ⟨y, hquery⟩
    · exact hquery
    · rw [hpath, hquery] at h
      cases h
  · rw [hpath, cons_append] at h
    exact (append_eq_nil_iff.mp (List.cons.inj h).2).2

/-- A `?` at the beginning is the query's. -/
theorem path_of_question (d : TailText) {x : Bytes} (h : d.path ++ d.query = 63 :: x) : d.path = [] := by
  rcases d.path_eq with hpath | ⟨y, hpath, -⟩
  · exact hpath
  · rw [hpath] at h
    cases h

theorem portText_eq_nil {port : UInt16} (h : portText port = []) : port = 0 := by
  by_contra hne
  rw [portText, if_pos hne] at h
  cases h

/-- A query right after the domain is taken as a part of it if it is not guarded. -/
theorem domain_ne_of_not_guarded (d : UrlText) {x : Bytes} (hport : d.port = []) (hpath : d.path = [])
    (hquery : d.query = 63 :: x) (hg : ¬ Guarded x) : (parse d.text).domain_ ≠ d.domain := by
  obtain ⟨-, hfree⟩ := d.hostSearch_query hport hpath hquery (Function.update (fun _ => []) 1 d.scheme)
  obtain ⟨b, hb, hne⟩ := hfree hg
  have hmatch : fullMatch re d.text = some b := UrlText.fullMatch_of_hostSearch d.scheme_ne d.scheme_word hb
  intro hdomain
  rw [parse, hmatch] at hdomain
  rcases (ofResults_protocol (b 1) (b 2) (b 3) (b 4) (b 5)).2 with hnil | hsame
  · exact d.domain_ne (hdomain.symm.trans hnil)
  · exact hne (hsame.symm.trans hdomain)

theorem parse_of_guarded (d : UrlText) {x : Bytes} (hport : d.port = []) (hpath : d.path = [])
    (hquery : d.query = 63 :: x) (hg : Guarded x) : parse d.text = d.url := by
  obtain ⟨hguarded, -⟩ := d.hostSearch_query hport hpath hquery (Function.update (fun _ => []) 1 d.scheme)
  exact UrlText.parse_of_fullMatch
    (UrlText.fullMatch_of_hostSearch d.scheme_ne d.scheme_word (hguarded hg))

/-- A query right after the domain is found again exactly if it is guarded. -/
theorem parse_query_iff (d : UrlText) {x : Bytes} (hport : d.port = []) (hpath : d.path = [])
    (hquery : d.query = 63 :: x) (hdomain : d.url.domain_ = d.domain) :
    parse d.text = d.url ↔ Guarded x := by
  constructor
  · intro h
    by_contra hg
    exact domain_ne_of_not_guarded d hport hpath hquery hg (h ▸ hdomain)
  · intro hg
    exact parse_of_guarded d hport hpath hquery hg

/-- What is printed for a parsed URL of another protocol: a path `/` is left out, the rest
is as it was, with the query in the path. -/
theorem exists_printed {s : Bytes} (hok : (parse s).ok = true)
    (hp : ¬ ((parse s).protocol_ = .http ∨ (parse s).protocol_ = .https)) :
    ∃ d : UrlText, (parse s).toString = d.text ∧
      d.url = { parse s with path_ := d.path ++ d.query } ∧ d.domain = (parse s).domain_ ∧
      d.port = portText (parse s).port_ ∧
      (if (parse s).path_ = bytes "/" then [] else (parse s).path_) = d.path ++ d.query := by
  obtain ⟨d, hknown, hurl⟩ := exists_of_ok hok
  have hp' : ¬ (Protocol.ofText d.scheme = .http ∨ Protocol.ofText d.scheme = .https) := by
    rwa [hurl, UrlText.url, (ofResults_protocol _ _ _ _ _).1] at hp
  rw [UrlText.url, ofResults_other _ _ _ _ rfl hknown hp'] at hurl
  generalize parse s = u at hok hurl
  have hpath : u.path_ = d.path ++ d.query := by rw [hurl]
  have hdata : u.data_ = [] := by rw [hurl]
  have hproto : u.protocol_ = .ofText d.scheme := by rw [hurl]
  have hdomain : u.domain_ = d.domain := by rw [hurl]
  let d' : UrlText :=
    { d with
      port := portText u.port_
      path := if u.path_ = bytes "/" then [] else d.path
      port_eq := portText_eq u.port_
      path_eq := by
        split_ifs
        · exact .inl rfl
        · exact d.path_eq
      scheme := u.protocol_.protocolS
      scheme_ne := u.protocol_.protocolS_ne
      scheme_word := u.protocol_.protocolS_word }
  have hshown : (if u.path_ = bytes "/" then [] else u.path_) = d'.path ++ d.query := by
    simp only [d']
    split_ifs with hslash
    · rw [query_of_slash d.toTailText (hpath ▸ hslash)]
      rfl
    · exact hpath
  refine ⟨d', ?_, ?_, hdomain.symm, rfl, hshown⟩
  · rw [toString_eq hok, hdata]
    simp only [and_true, if_true, append_nil]
    rw [hshown, hdomain]
    rfl
  · rw [UrlText.url, ofResults_other _ _ _ _ (Protocol.ofText_protocolS _) (hproto ▸ hknown)
      (hproto ▸ hp'), port_portText, hurl]

/-- **Printing and parsing URLs of the other protocols.**  A parsed URL is read back
unless its path is `/`, which is not printed, or it has the port 0, which is not printed
either, and the query that then follows the domain is taken as a part of it. -/
theorem reparse_other_iff {s : Bytes} (hok : (parse s).ok = true)
    (hp : ¬ ((parse s).protocol_ = .http ∨ (parse s).protocol_ = .https)) :
    parse (parse s).toString = parse s ↔
      (parse s).path_ ≠ bytes "/" ∧
        ((parse s).port_ = 0 → ∀ x, (parse s).path_ = 63 :: x → Guarded x) := by
  obtain ⟨d, htext, hurl, hdomain, hport, hshown⟩ := exists_printed hok hp
  rw [htext]
  generalize parse s = u at hurl hdomain hport hshown
  by_cases hhead : d.port = [] → d.path = [] → d.query = []
  · -- no query follows the domain: only a path `/` is lost
    rw [d.parse_text (d.toTailText.head_not_host hhead), hurl, ← hshown]
    constructor
    · intro h
      have hkept : (if u.path_ = bytes "/" then [] else u.path_) = u.path_ := congrArg Url.path_ h
      refine ⟨fun hslash => ?_, fun hzero x hx => ?_⟩
      · rw [if_pos hslash, hslash] at hkept
        cases hkept
      · have hquestion : d.path ++ d.query = 63 :: x := hshown.symm.trans (hkept.trans hx)
        have hnil : d.path = [] := path_of_question d.toTailText hquestion
        have hquery : d.query = [] := hhead (by rw [hport, hzero]; rfl) hnil
        rw [hnil, hquery] at hquestion
        cases hquestion
    · intro h
      rw [if_neg h.1]
  · -- a query follows the domain
    push Not at hhead
    obtain ⟨hnone, hnil, hquery⟩ := hhead
    obtain ⟨x, hx⟩ := d.query_eq.resolve_left hquery
    have hlong : u.path_ ≠ bytes "/" := by
      intro hslash
      rw [if_pos hslash] at hshown
      exact hquery (append_eq_nil_iff.mp hshown.symm).2
    rw [if_neg hlong] at hshown
    have hsame : d.url = u := by rw [hurl, ← hshown]
    have hq : u.path_ = 63 :: x := by rw [hshown, hnil, hx, nil_append]
    have hiff := parse_query_iff d hnone hnil hx (by rw [hsame, hdomain])
    rw [hsame] at hiff
    rw [hiff]
    constructor
    · intro hg
      refine ⟨hlong, fun _ y hy => ?_⟩
      obtain rfl := (List.cons.inj (hq.symm.trans hy)).2
      exact hg
    · exact fun h => h.2 (portText_eq_nil (hport.symm.trans hnone)) x hq

/-- `tcp://a:1?x` -/
theorem reparse_other_iff_sample : parse (parse (bytes "tcp://a:1?x")).toString = parse (bytes "tcp://a:1?x") := by
  refine (reparse_other_iff (by decide) (by decide)).mpr ⟨by decide, fun h => ?_⟩
  exact absurd h (by decide)

/-- The path of `tcp://a/` is lost, and `tcp://a:0?x` is read back as a domain. -/
theorem reparse_other_lost :
    (parse (bytes "tcp://a/")).ok = true ∧ (parse (bytes "tcp://a/")).protocol_ = .tcp ∧
    (parse (bytes "tcp://a/")).path_ = bytes "/" ∧ (parse (parse (bytes "tcp://a/")).toString).path_ = [] ∧
    (parse (bytes "tcp://a:0?x")).ok = true ∧ (parse (bytes "tcp://a:0?x")).domain_ = bytes "a" ∧
    (parse (parse (bytes "tcp://a:0?x")).toString).domain_ = bytes "a?x" := by
  decide

end Url

end Http
