/-
`endpoint` (network/abstract.h, network/abstract.cpp): printing and parsing of network
addresses.

`from_string` splits a text by one regular expression whose first part, the scheme, is
an unbounded repetition: of all the `://` of the text it ends at the last one that is
followed by something that could be an address.

* `Endpoint.toString`, `Endpoint.fromString` — the source's functions, for IPv4;
* `HostText` — what can follow a scheme, with its parts;
* `Resplits` — a text in which the scheme can end;
* `Endpoint.fromString_toString_iff` — when the printed text is read back.
-/
import CppFeatures.NetworkError
import CppFeatures.Url

namespace Network

open Function List Http Regex

/-! ### The class -/

-- `c_str()`, as C functions read it
def cStr (s : Bytes) : Bytes := s.takeWhile (· != 0)

/-- `proto_type`. -/
inductive ProtoType
  | unkown
  | tcp
  | udp
  | tls
  | http
  | https
  | zk
deriving DecidableEq, Repr

namespace ProtoType

def protoTypeS : List Bytes :=
  [bytes "unkown", bytes "tcp", bytes "udp", bytes "tls", bytes "http", bytes "https", bytes "zk"]

/-- `proto_type(i)`. -/
def ofInt : ℕ → ProtoType
  | 1 => tcp
  | 2 => udp
  | 3 => tls
  | 4 => http
  | 5 => https
  | 6 => zk
  | _ => unkown

/-- `(int)proto`. -/
def toInt : ProtoType → ℕ
  | unkown => 0
  | tcp => 1
  | udp => 2
  | tls => 3
  | http => 4
  | https => 5
  | zk => 6

def str2proto (s : Bytes) : ProtoType :=
  match protoTypeS.findIdx? (· == cStr s) with
  | some i => ofInt i
  | none => unkown

def proto2str (proto : ProtoType) : Bytes := protoTypeS.getD proto.toInt (bytes "unkown")

theorem str2proto_proto2str (p : ProtoType) : str2proto (proto2str p) = p := by
  cases p <;> decide

end ProtoType

/-- `boost::asio::ip::address_v4`. -/
structure AddressV4 where
  a : UInt8 := 0
  b : UInt8 := 0
  c : UInt8 := 0
  d : UInt8 := 0
deriving DecidableEq, Repr

namespace AddressV4

def octetText (n : UInt8) : Bytes := (Nat.toDigits 10 n.toNat).map Char.toUInt8

/-- One number of a dotted address: at most 255 and without leading zeros. -/
def octetOf (s : Bytes) : Option UInt8 :=
  if s ≠ [] ∧ s.all (fun c => isDigit c.toNat) ∧ (s.head? = some 48 → s = [48]) ∧ numeral s ≤ 255 then
    some (UInt8.ofNat (numeral s))
  else none

/-- `inet_ntop`. -/
def toString (addr : AddressV4) : Bytes :=
  [46].intercalate [octetText addr.a, octetText addr.b, octetText addr.c, octetText addr.d]

/-- `inet_pton` of `c_str()`. -/
def fromString (s : Bytes) : Option AddressV4 :=
  match ((cStr s).splitOn 46).map octetOf with
  | [some a, some b, some c, some d] => some ⟨a, b, c, d⟩
  | _ => none

theorem octetText_all (n : UInt8) : octetOf (octetText n) = some n ∧
    (octetText n).all (fun c => c != 46 && c != 0 && Url.isHost c) = true ∧ octetText n ≠ [] := by
  have hall : ∀ m ∈ List.range 256, (decide (octetOf (octetText (UInt8.ofNat m)) = some (UInt8.ofNat m) ∧
      (octetText (UInt8.ofNat m)).all (fun c => c != 46 && c != 0 && Url.isHost c) = true ∧
      octetText (UInt8.ofNat m) ≠ [])) = true := all_eq_true.mp (by decide +kernel)
  have hn := of_decide_eq_true (hall n.toNat (mem_range.mpr n.toNat_lt))
  rwa [UInt8.ofNat_toNat] at hn

theorem octetText_class {n c : UInt8} (hc : c ∈ octetText n) :
    (c ≠ 46 ∧ c ≠ 0) ∧ Url.isHost c = true := by
  simpa using all_eq_true.mp (octetText_all n).2.1 c hc

theorem toString_class {addr : AddressV4} {c : UInt8} (hc : c ∈ addr.toString) :
    c ≠ 0 ∧ Url.isHost c = true := by
  simp only [toString, List.intercalate, List.intersperse, flatten_cons, flatten_nil,
    mem_append, mem_singleton, not_mem_nil, or_false] at hc
  rcases hc with h | rfl | h | rfl | h | rfl | h
  all_goals first
    | exact ⟨(octetText_class h).1.2, (octetText_class h).2⟩
    | decide

/-- `inet_pton` reads what `inet_ntop` prints. -/
theorem fromString_toString (addr : AddressV4) : fromString addr.toString = some addr := by
  have hcStr : cStr addr.toString = addr.toString :=
    takeWhile_eq_self_iff.mpr fun c hc => bne_iff_ne.mpr (toString_class hc).1
  have hsplit : addr.toString.splitOn 46 =
      [octetText addr.a, octetText addr.b, octetText addr.c, octetText addr.d] := by
    refine splitOn_intercalate 46 (fun l hl => ?_) (cons_ne_nil _ _)
    have hoctet : ∃ n, l = octetText n := by
      simp only [mem_cons, not_mem_nil, or_false] at hl
      rcases hl with h | h | h | h <;> exact ⟨_, h⟩
    obtain ⟨n, rfl⟩ := hoctet
    exact fun h46 => (octetText_class h46).1.1 rfl
  rw [fromString, hcStr, hsplit]
  simp only [map_cons, map_nil, (octetText_all _).1]

theorem toString_host (addr : AddressV4) :
    addr.toString ≠ [] ∧ ∀ c ∈ addr.toString, Url.isHost c = true := by
  constructor
  · intro hnil
    have := (octetText_all addr.a).2.2
    simp [toString, List.intercalate, List.intersperse, this] at hnil
  · exact fun c hc => (toString_class hc).2

end AddressV4

structure Endpoint where
  address : AddressV4 := {}
  port : UInt16 := 0
  proto_ : ProtoType := .unkown
  path_ : Bytes := []
deriving DecidableEq, Repr

namespace Endpoint

/-- `to_string`; an IPv4 address is printed without an error. -/
def toString (ep : Endpoint) : Bytes :=
  let url := if ep.proto_ ≠ .unkown then ep.proto_.proto2str ++ bytes "://" else []
  let url := url ++ ep.address.toString
  url ++ bytes ":" ++ toStringInt ep.port.toUInt32.toInt32 ++ ep.path_

/-- `((.*)://)?` -/
def schemeRegex : Regex UInt8 :=
  .opt (.group 1 (.seq (.group 2 (.star fun _ => true)) (.chars (bytes "://"))))

/-- `(:(\d+))?` -/
def portRegex : Regex UInt8 :=
  .opt (.group 4 (.seq (.chars (bytes ":")) (.group 5 (.plus fun c => isDigit c.toNat))))

/-- `(/.*)?` -/
def pathRegex : Regex UInt8 := .opt (.group 6 (.seq (.chars (bytes "/")) (.star fun _ => true)))

/-- `([^:/]+)(:(\d+))?(/.*)?` -/
def hostRegex : Regex UInt8 := .seq (.group 3 (.plus Url.isHost)) (.seq portRegex pathRegex)

def re : Regex UInt8 := .seq schemeRegex hostRegex

/-- `from_string`; the endpoint returned with an error is the default one. -/
def fromString (url : Bytes) : Except BoostEc Endpoint :=
  if url = [] then .error (makeNetworkErrorCode .ecUrlParseError)
  else
    match fullMatch re url with
    | none => .error (makeNetworkErrorCode .ecUrlParseError)
    | some result =>
      match AddressV4.fromString (result 3) with
      | none => .error .invalidArgument
      | some address => .ok
        { address
          port := (atoi (result 5)).toUInt32.toUInt16
          proto_ := .str2proto (result 2)
          path_ := result 6 }

end Endpoint

open Endpoint

/-! ### What can follow a scheme -/

/-- A text that is matched after the scheme, with its parts. -/
structure HostText where
  host : Bytes
  port : Bytes
  path : Bytes
  host_ne : host ≠ []
  host_class : ∀ c ∈ host, Url.isHost c = true
  port_eq : port = [] ∨ port ∈ plusOf isDigit
  path_eq : path = [] ∨ ∃ x, path = 47 :: x

namespace HostText

def portPart (d : HostText) : Bytes := if d.port = [] then [] else 58 :: d.port

def text (d : HostText) : Bytes := d.host ++ (d.portPart ++ d.path)

theorem head_path (d : HostText) : ∀ c ∈ d.path.head?, c = 47 := by
  intro c hc
  rcases d.path_eq with h | ⟨x, h⟩
  · simp [h] at hc
  · simpa [h, eq_comm] using hc

theorem head_portPath (d : HostText) : ∀ c ∈ (d.portPart ++ d.path).head?, Url.isHost c = false := by
  intro c hc
  rw [portPart] at hc
  split_ifs at hc with hport
  · rw [d.head_path c hc]
    rfl
  · cases hc
    rfl

/-- The groups of the parts. -/
def captures (d : HostText) (g : Captures UInt8) : Captures UInt8 :=
  let g := update g 3 d.host
  let g := if d.portPart = [] then g else update (update g 5 d.port) 4 d.portPart
  if d.path = [] then g else update g 6 d.path

theorem captures_apply (d : HostText) {g : Captures UInt8} (h5 : g 5 = []) (h6 : g 6 = []) :
    d.captures g 2 = g 2 ∧ d.captures g 3 = d.host ∧ d.captures g 5 = d.port ∧
      d.captures g 6 = d.path := by
  by_cases hport : d.port = [] <;> by_cases hpath : d.path = [] <;>
    simp [captures, portPart, hport, hpath, h5, h6, update]

/-- **The parts** are as long as they can be. -/
theorem takes (d : HostText) (g : Captures UInt8) : Takes hostRegex g d.text [] (d.captures g) := by
  have hhost : Takes (.group 3 (.plus Url.isHost)) g d.host ((d.portPart ++ d.path) ++ [])
      (update g 3 d.host) :=
    (takes_plus d.host_ne d.host_class (by rw [append_nil]; exact d.head_portPath)).group 3
  have hport : ∀ g, Takes Endpoint.portRegex g d.portPart (d.path ++ []) (if d.portPart = [] then g
      else update (update g 5 d.port) 4 d.portPart) := by
    intro g
    refine takes_optGroup 4 (fun _ hpre => ?_) fun hne => ?_
    · obtain ⟨t, ht⟩ := hpre
      have := d.head_path 58 (by rw [← append_nil d.path, ← ht]; rfl)
      exact absurd this (by decide)
    · have hsome : d.port ≠ [] := fun h => hne (if_pos h)
      obtain ⟨-, hdigits⟩ := d.port_eq.resolve_left hsome
      rw [show d.portPart = bytes ":" ++ d.port from if_neg hsome]
      refine takes_chars.seq ((takes_plus hsome hdigits fun c hc => ?_).group 5)
      rw [append_nil] at hc
      rw [d.head_path c hc]
      rfl
  have hpath : ∀ g, Takes Endpoint.pathRegex g d.path []
      (if d.path = [] then g else update g 6 d.path) := by
    intro g
    refine takes_optGroup 6 (fun _ => by decide) fun hne => ?_
    obtain ⟨x, hx⟩ := d.path_eq.resolve_left hne
    rw [hx]
    exact takes_chars.seq (takes_star (fun _ _ => rfl) (by simp))
  exact hhost.seq ((hport _).seq (hpath _))

/-- What is matched after the scheme is such a text. -/
theorem exists_of_matches {g g' : Captures UInt8} {t : Bytes} (h : Matches hostRegex g t g') :
    ∃ d : HostText, t = d.text ∧ g' = d.captures g := by
  cases h with
  | seq hhost h =>
    cases h with
    | seq hport hpath =>
      cases hhost with
      | group _ hhost =>
        cases hhost with
        | plus _ hne hclass =>
          obtain ⟨hpath', rfl⟩ := hpath.optGroup_put rfl (by decide)
          have hslash := hpath'.imp_right (Exists.imp fun _ hx => hx.1)
          rcases hport.optGroup with ⟨rfl, rfl⟩ | ⟨v, g'', rfl, hv, rfl⟩
          · exact ⟨⟨_, [], _, hne, hclass, .inl rfl, hslash⟩, rfl, rfl⟩
          · cases hv with
            | group _ hv =>
              cases hv with
              | plus _ hne' hdigits =>
                refine ⟨⟨_, v, _, hne, hclass, .inr ⟨hne', hdigits⟩, hslash⟩, ?_, ?_⟩
                · rw [text, portPart, if_neg hne']
                  rfl
                · rw [captures, portPart, if_neg hne']
                  rfl

end HostText

/-- The scheme can end in this text: a `://` is followed by what is matched after it. -/
def Resplits (s : Bytes) : Prop := ∃ (x : Bytes) (d : HostText), s = x ++ (bytes "://" ++ d.text)

namespace Resplits

theorem append {s : Bytes} (h : Resplits s) (u : Bytes) : Resplits (u ++ s) := by
  obtain ⟨x, d, rfl⟩ := h
  exact ⟨u ++ x, d, by rw [append_assoc]⟩

theorem of_cons {c : UInt8} {s : Bytes} (h : Resplits (c :: s)) (hc : ¬ bytes "://" <+: c :: s) :
    Resplits s := by
  obtain ⟨x, d, hx⟩ := h
  cases x with
  | nil => exact absurd ⟨d.text, hx.symm⟩ hc
  | cons e x => exact ⟨x, d, (List.cons.inj hx).2⟩

/-- A scheme does not end in front of something else than a `:`. -/
theorem of_append {u s : Bytes} (h : Resplits (u ++ s)) (hu : ∀ c ∈ u, c ≠ 58) : Resplits s := by
  induction u with
  | nil => exact h
  | cons c u ih =>
    obtain ⟨hc, hu⟩ := forall_mem_cons.mp hu
    refine ih (of_cons h ?_) hu
    rintro ⟨t, ht⟩
    exact hc (List.cons.inj ht).1.symm

end Resplits

/-! ### Printing and parsing -/

namespace Endpoint

/-- The address, the port and the path of an endpoint, as they are printed. -/
def hostText (ep : Endpoint) (h : ep.path_ = [] ∨ ∃ x, ep.path_ = 47 :: x) : HostText where
  host := ep.address.toString
  port := toStringInt ep.port.toUInt32.toInt32
  path := ep.path_
  host_ne := ep.address.toString_host.1
  host_class := ep.address.toString_host.2
  port_eq := .inr (Url.port_digits ep.port)
  path_eq := h

/-- Only in the path of a printed endpoint can the scheme end too late. -/
theorem resplits_hostText_iff (ep : Endpoint) (h : ep.path_ = [] ∨ ∃ x, ep.path_ = 47 :: x) :
    Resplits (ep.hostText h).text ↔ Resplits ep.path_ := by
  obtain ⟨hne, hdigits⟩ := Url.port_digits ep.port
  have htext : (ep.hostText h).text = ep.address.toString ++
      (58 :: (toStringInt ep.port.toUInt32.toInt32 ++ ep.path_)) := by
    rw [HostText.text, HostText.portPart, if_neg (by exact hne)]
    rfl
  rw [htext]
  constructor
  · intro hr
    have hr := hr.of_append fun c hc => by
      have := ep.address.toString_host.2 c hc
      rintro rfl
      cases this
    obtain ⟨c, n, hn⟩ := exists_cons_of_ne_nil hne
    have hr := hr.of_cons (by
      -- the `:` of the port is followed by a digit
      rintro ⟨t, ht⟩
      rw [hn] at ht hdigits
      obtain rfl := (List.cons.inj (List.cons.inj ht).2).1
      exact absurd (hdigits 47 mem_cons_self) (by decide))
    refine hr.of_append fun c hc => ?_
    rintro rfl
    exact absurd (hdigits 58 hc) (by decide)
  · intro hr
    exact (hr.append (58 :: toStringInt ep.port.toUInt32.toInt32)).append _

/-- The rest of the match of `t`, after a scheme in front of `s`. -/
def afterScheme (t s : Bytes) : Option (Captures UInt8) :=
  search (.chars (bytes "://")) (update (fun _ => []) 2 (t.take (t.length - s.length))) s
    fun g s => search hostRegex (update g 1 (t.take (t.length - s.length))) s atEnd

theorem fullMatch_eq (t : Bytes) : fullMatch re t =
    ((splits (fun _ => true) t).findSome? (afterScheme t)).or (search hostRegex (fun _ => []) t atEnd) := rfl

theorem afterScheme_text (u : Bytes) (d : HostText) :
    afterScheme (u ++ (bytes "://" ++ d.text)) (bytes "://" ++ d.text) =
      some (d.captures (update (update (fun _ => []) 2 u) 1 (u ++ bytes "://"))) := by
  refine takes_chars _ _ ?_
  rw [take_append_length_sub, ← append_assoc, take_append_length_sub]
  exact (d.takes _).atEnd

theorem exists_of_afterScheme {t s : Bytes} {b : Captures UInt8} (h : afterScheme t s = some b) :
    ∃ d : HostText, s = bytes "://" ++ d.text ∧ b 6 = d.path := by
  obtain ⟨g, u, s', rfl, hchars, hhost⟩ := search_sound h
  cases hchars
  obtain ⟨d, rfl, rfl⟩ := HostText.exists_of_matches (matches_of_atEnd hhost)
  exact ⟨d, rfl, (d.captures_apply rfl rfl).2.2.2⟩

/-- **No scheme is found** where none can end. -/
theorem fullMatch_text (d : HostText) (h : ¬ Resplits d.text) :
    fullMatch re d.text = some (d.captures fun _ => []) := by
  have hnone : (splits (fun _ => true) d.text).findSome? (afterScheme d.text) = none := by
    by_contra hne
    obtain ⟨b, hb⟩ := Option.ne_none_iff_exists'.mp hne
    obtain ⟨u, t, ht, -, hafter⟩ := exists_of_findSome?_splits hb
    obtain ⟨d', rfl, -⟩ := exists_of_afterScheme hafter
    exact h ⟨u, d', ht⟩
  rw [fullMatch_eq, hnone, Option.none_or]
  exact (d.takes _).atEnd

/-- **The scheme that was printed is found** if no other can end after it. -/
theorem fullMatch_scheme (scheme : Bytes) (d : HostText) (h : ¬ Resplits d.text) :
    fullMatch re (scheme ++ (bytes "://" ++ d.text)) = some (d.captures
      (update (update (fun _ => []) 2 scheme) 1 (scheme ++ bytes "://"))) := by
  have hfirst := findSome?_splits_last (p := fun _ => true) (u := scheme) (fun _ _ => rfl)
    (afterScheme_text scheme d) fun v t hv ht _ => by
      by_contra hne
      obtain ⟨b, hb⟩ := Option.ne_none_iff_exists'.mp hne
      obtain ⟨d', rfl, -⟩ := exists_of_afterScheme hb
      obtain ⟨c, v, rfl⟩ := exists_cons_of_ne_nil hv
      -- past its first character, `://` has no `:`
      have hrest : Resplits (bytes "//" ++ d.text) := ⟨v, d', (List.cons.inj ht).2⟩
      have hall : (bytes "//").all (· != 58) = true := by decide
      exact h (hrest.of_append fun c hc => by simpa using all_eq_true.mp hall c hc)
  rw [fullMatch_eq, hfirst]
  rfl

/-- **A later scheme is preferred**, and what is then taken as the path is shorter. -/
theorem fullMatch_resplits {path : Bytes} (h : Resplits path) (u : Bytes) :
    ∃ b, fullMatch re (u ++ path) = some b ∧ (b 6).length < path.length := by
  have hsome : (splits (fun _ => true) path).findSome? (afterScheme (u ++ path)) ≠ none := by
    obtain ⟨x, d, rfl⟩ := h
    rw [Ne, List.findSome?_eq_none_iff]
    intro hall
    have hd := hall _ (mem_splits_append (fun _ _ => rfl) (bytes "://" ++ d.text))
    rw [← append_assoc, afterScheme_text] at hd
    cases hd
  obtain ⟨b, hb⟩ := Option.ne_none_iff_exists'.mp hsome
  refine ⟨b, ?_, ?_⟩
  · rw [fullMatch_eq, findSome?_splits_append (fun _ _ => rfl) hb]
    rfl
  · obtain ⟨x, t, rfl, -, hafter⟩ := exists_of_findSome?_splits hb
    obtain ⟨d, rfl, hpath⟩ := exists_of_afterScheme hafter
    rw [hpath]
    simp only [length_append, HostText.text]
    have : (bytes "://").length = 3 := rfl
    omega

theorem fromString_of_fullMatch {ep : Endpoint} (hpath : ep.path_ = [] ∨ ∃ x, ep.path_ = 47 :: x)
    {url : Bytes} {g : Captures UInt8} (hne : url ≠ []) (h5 : g 5 = []) (h6 : g 6 = [])
    (h : fullMatch re url = some ((ep.hostText hpath).captures g))
    (hproto : ProtoType.str2proto (g 2) = ep.proto_) : fromString url = .ok ep := by
  obtain ⟨h2, h3, h5, h6⟩ := (ep.hostText hpath).captures_apply h5 h6
  rw [fromString, if_neg hne, h]
  dsimp only
  rw [h2, h3, h5, h6, hproto, hostText]
  dsimp only
  rw [AddressV4.fromString_toString, Url.atoi_port]

theorem toString_eq (ep : Endpoint) (hpath : ep.path_ = [] ∨ ∃ x, ep.path_ = 47 :: x) :
    ep.toString = if ep.proto_ ≠ .unkown then
        ep.proto_.proto2str ++ (bytes "://" ++ (ep.hostText hpath).text)
      else (ep.hostText hpath).text := by
  have htext : (ep.hostText hpath).text = ep.address.toString ++
      (bytes ":" ++ (toStringInt ep.port.toUInt32.toInt32 ++ ep.path_)) := by
    rw [HostText.text, HostText.portPart, if_neg (by exact (Url.port_digits ep.port).1)]
    rfl
  rw [htext, toString]
  split_ifs <;> simp

/-- **Printing and parsing endpoints.**  An endpoint with an IPv4 address, any port, any
protocol and a path that is empty or begins with `/` is read back without an error unless
its path has a `://` that is followed by a host, optionally `:` and a number, and then the
end or a `/`: the scheme is then taken to end there. -/
theorem fromString_toString_iff {ep : Endpoint} (hpath : ep.path_ = [] ∨ ∃ x, ep.path_ = 47 :: x) :
    fromString ep.toString = .ok ep ↔ ¬ Resplits ep.path_ := by
  constructor
  · intro h hr
    obtain ⟨u, hu⟩ : ∃ u, ep.toString = u ++ ep.path_ := ⟨_, rfl⟩
    obtain ⟨b, hb, hlt⟩ := fullMatch_resplits hr u
    rw [hu, fromString] at h
    split_ifs at h
    rw [hb] at h
    dsimp only at h
    split at h
    · cases h
    · cases h
      exact lt_irrefl _ hlt
  · intro hr
    have hr : ¬ Resplits (ep.hostText hpath).text := by rwa [resplits_hostText_iff]
    have hne : (ep.hostText hpath).text ≠ [] := by
      simp [HostText.text, (ep.hostText hpath).host_ne]
    rw [toString_eq ep hpath]
    split_ifs with hproto
    · exact fromString_of_fullMatch hpath (by simp [hne]) rfl rfl (fullMatch_scheme _ _ hr)
        ep.proto_.str2proto_proto2str
    · refine fromString_of_fullMatch hpath hne rfl rfl (fullMatch_text _ hr) ?_
      rw [not_not.mp hproto]
      decide

/-- `http://127.0.0.1:3030/route/index.html` -/
def sample : Endpoint :=
  { address := ⟨127, 0, 0, 1⟩, port := 3030, proto_ := .http, path_ := bytes "/route/index.html" }

theorem fromString_toString_iff_sample : fromString sample.toString = .ok sample := by
  refine (fromString_toString_iff (.inr ⟨_, rfl⟩)).mpr ?_
  rintro ⟨x, d, h⟩
  have hcolon : 58 ∈ sample.path_ := by
    rw [h]
    exact mem_append_right x (mem_append_left d.text (by decide))
  exact absurd hcolon (by decide)

/-- With the path `/x://y` the host is `y`, and with `/x://1.2.3.4` another endpoint is
returned. -/
theorem fromString_toString_resplit :
    fromString (toString { sample with path_ := bytes "/x://y" }) = .error .invalidArgument ∧
    fromString (toString { sample with path_ := bytes "/x://1.2.3.4" }) =
      .ok { address := ⟨1, 2, 3, 4⟩, port := 0, proto_ := .unkown, path_ := [] } := by
  decide +kernel

end Endpoint

end Network
