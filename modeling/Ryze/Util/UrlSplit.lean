import Ryze.Util.UrlParse

set_option autoImplicit false

/-! # The parts of a URL

A `Url` carries the proofs that its parts have the shape of a URL. `url_parse` cuts its text back into
these parts exactly when no earlier separator gets in the way and the positions fit `int`
(`Url.parse_iff`): one step for each search of the function, from the parts to the positions and
back. -/

namespace Ryze

open CLib

/-- `proto//host[:port]path[?query][#hash]`. -/
structure Url where
  proto : List UInt8
  host : List UInt8
  port : Option (List UInt8)
  path : List UInt8
  query : Option (List UInt8)
  hash : Option (List UInt8)
  proto_slash : slash ∉ proto
  host_ne : host ≠ []
  host_text : ∀ c ∈ host, c ≠ slash ∧ c ≠ question ∧ c ≠ hashSign ∧ c ≠ colon
  port_ne : port ≠ some []
  port_digit : ∀ ds ∈ port, ∀ c ∈ ds, isDigit c = true
  path_slash : ∀ c ∈ path.head?, c = slash
  path_text : ∀ c ∈ path, c ≠ question ∧ c ≠ hashSign
  query_text : ∀ q ∈ query, hashSign ∉ q
  nul : 0 ∉ proto ++ host ++ path ++ query.getD [] ++ hash.getD []

namespace Url

variable {u : Url}

/-- `host[:port]`. -/
def authority (u : Url) : List UInt8 := u.host ++ (u.port.map (colon :: ·)).getD []

/-- `?query`, if there is one. -/
def search (u : Url) : List UInt8 := (u.query.map (question :: ·)).getD []

/-- `#hash`, if there is one. -/
def hashText (u : Url) : List UInt8 := (u.hash.map (hashSign :: ·)).getD []

/-- What comes behind `host[:port]`. -/
def tail (u : Url) : List UInt8 := u.path ++ u.search ++ u.hashText

/-- The URL up to the end of `host[:port]`. -/
def front (u : Url) : List UInt8 := u.proto ++ (bytes "//" ++ u.authority)

def text (u : Url) : List UInt8 := u.front ++ u.tail

def pathname (u : Url) : List UInt8 := if u.path = [] then [slash] else u.path

/-- What `url_parse` is expected to return. -/
def parts (u : Url) : UrlStruct where
  protocol := u.proto
  host := u.authority
  hostname := u.host
  port := match u.port with
    | some ds => decimal ds
    | none => if u.proto = bytes "http:" then 80 else 443
  path := u.pathname ++ u.search
  pathname := u.pathname
  search := u.query.map (question :: ·)
  hash := u.hash.map (hashSign :: ·)

/-- No search of `url_parse` meets a separator in front of the one it is after, and the port and the
    positions fit `int`. The last case is a length that wraps to `INT_MIN`, which counts as "nothing
    behind the host" and so gives the path `/`. -/
structure Splits (u : Url) : Prop where
  proto_question : question ∉ u.proto
  proto_hash : hashSign ∉ u.proto
  hash_question : u.query = none → question ∉ u.hashText
  tail_slash : u.path = [] → slash ∉ u.search ++ u.hashText
  port_lt : ∀ ds ∈ u.port, decimal ds < 2 ^ 31
  length_lt : u.text.length < 2 ^ 31 ∨
    u.text.length = 2 ^ 31 ∧ u.path = [slash] ∧ u.query = none ∧ u.hash = none

/-! ## Optional parts -/

section Part

variable {c d : UInt8} {x : Option (List UInt8)} {a rest : List UInt8}

theorem mem_part : d ∈ (x.map (c :: ·)).getD [] ↔ ∃ l ∈ x, d = c ∨ d ∈ l := by
  cases x with
  | none => simp
  | some l => simp

theorem part_eq_nil : (x.map (c :: ·)).getD [] = [] ↔ x = none := by
  cases x with
  | none => simp
  | some l => simp

theorem part_head (h : (x.map (c :: ·)).getD [] = d :: rest) : d = c := by
  cases x with
  | none => cases h
  | some l => exact (List.cons.inj h).1.symm

/-- The separator is found where the part starts, if nothing in front of it or, without the part,
    behind it is one. -/
theorem strstr_part (ha : c ∉ a) (hrest : x = none → c ∉ rest) :
    strstr [c] (a ++ ((x.map (c :: ·)).getD [] ++ rest)) 0 = x.map fun _ => a.length := by
  cases x with
  | none =>
      refine strstr_byte_none ?_ 0
      rw [Option.map_none, Option.getD_none, List.nil_append, List.mem_append]
      exact not_or.2 ⟨ha, hrest rfl⟩
  | some l =>
      have hfound := strstr_byte_found ha (l ++ rest) 0
      rw [Nat.zero_add] at hfound
      exact hfound

/-- What is in front of the part is cut off by its position. -/
theorem take_part : (a ++ (x.map (c :: ·)).getD []).take
    ((x.map fun _ => a.length).getD (a ++ (x.map (c :: ·)).getD []).length) = a := by
  cases x with
  | none => simp
  | some l => exact List.take_left

theorem part_position_le : (x.map fun _ => a.length).getD (a ++ (x.map (c :: ·)).getD []).length
    ≤ (a ++ (x.map (c :: ·)).getD []).length := by
  rw [List.length_append]
  cases x with
  | none => exact Nat.le_refl _
  | some l => exact Nat.le_add_right ..

end Part

/-! ## The parts -/

theorem authority_ne (u : Url) : u.authority ≠ [] := fun h => u.host_ne (List.append_eq_nil_iff.1 h).1

theorem digit_text {c : UInt8} (hc : isDigit c = true) :
    c ≠ slash ∧ c ≠ question ∧ c ≠ hashSign ∧ c ≠ 0 := by
  refine ⟨?_, ?_, ?_, ?_⟩
  all_goals
    rintro rfl
    exact absurd hc (by decide)

theorem authority_text (u : Url) {c : UInt8} (hc : c ∈ u.authority) :
    c ≠ slash ∧ c ≠ question ∧ c ≠ hashSign := by
  rcases List.mem_append.1 hc with hhost | hport
  · obtain ⟨hslash, hquestion, hhash, -⟩ := u.host_text c hhost
    exact ⟨hslash, hquestion, hhash⟩
  · obtain ⟨ds, hp, rfl | hds⟩ := mem_part.1 hport
    · decide
    · obtain ⟨hslash, hquestion, hhash, -⟩ := digit_text (u.port_digit ds hp c hds)
      exact ⟨hslash, hquestion, hhash⟩

theorem hash_notMem_middle (u : Url) : hashSign ∉ bytes "//" ++ u.authority ++ u.path ++ u.search := by
  intro h
  rcases List.mem_append.1 h with h | hsearch
  · rcases List.mem_append.1 h with h | hpath
    · rcases List.mem_append.1 h with hslashes | hauth
      · exact absurd hslashes (by decide)
      · exact (u.authority_text hauth).2.2 rfl
    · exact (u.path_text _ hpath).2 rfl
  · obtain ⟨q, hq, heq | hmem⟩ := mem_part.1 hsearch
    · exact absurd heq (by decide)
    · exact u.query_text q hq hmem

theorem question_notMem_middle (u : Url) : question ∉ bytes "//" ++ u.authority ++ u.path := by
  intro h
  rcases List.mem_append.1 h with h | hpath
  · rcases List.mem_append.1 h with hslashes | hauth
    · exact absurd hslashes (by decide)
    · exact (u.authority_text hauth).2.1 rfl
  · exact (u.path_text _ hpath).1 rfl

theorem nul_notMem_text (u : Url) : 0 ∉ u.text := by
  have h := u.nul
  simp only [List.mem_append, not_or] at h
  obtain ⟨⟨⟨⟨hproto, hhost⟩, hpath⟩, hquery⟩, hhash⟩ := h
  have hport : 0 ∉ (u.port.map (colon :: ·)).getD [] := by
    intro hmem
    obtain ⟨ds, hp, heq | hds⟩ := mem_part.1 hmem
    · exact absurd heq (by decide)
    · exact (digit_text (u.port_digit ds hp 0 hds)).2.2.2 rfl
  have hpart : ∀ (c : UInt8) (x : Option (List UInt8)), c ≠ 0 → 0 ∉ x.getD [] →
      0 ∉ (x.map (c :: ·)).getD [] := by
    intro c x hc hx hmem
    obtain ⟨l, rfl, heq | hl⟩ := mem_part.1 hmem
    · exact hc heq.symm
    · exact hx hl
  have hslashes : (0 : UInt8) ∉ bytes "//" := by decide
  simp only [text, front, authority, tail, search, hashText, List.mem_append, not_or]
  exact ⟨⟨hproto, hslashes, hhost, hport⟩, ⟨hpath, hpart question u.query (by decide) hquery⟩,
    hpart hashSign u.hash (by decide) hhash⟩

theorem text_length (u : Url) : u.text.length = u.front.length + u.tail.length :=
  List.length_append

theorem tail_length (u : Url) : u.tail.length = (u.path ++ u.search).length + u.hashText.length :=
  List.length_append

theorem front_length (u : Url) :
    u.front.length = u.proto.length + 2 + u.authority.length := by
  have hslashes : (bytes "//").length = 2 := by rfl
  rw [front, List.length_append, List.length_append]
  omega

theorem text_drop_authority (u : Url) :
    u.text.drop (u.proto.length + 2) = u.authority ++ u.tail := by
  have hlen : u.proto.length + 2 = (u.proto ++ bytes "//").length := by
    rw [List.length_append]
    rfl
  rw [hlen, text, front, show u.proto ++ (bytes "//" ++ u.authority) ++ u.tail
    = (u.proto ++ bytes "//") ++ (u.authority ++ u.tail) by simp, List.drop_left]

theorem text_drop_tail (u : Url) : u.text.drop u.front.length = u.tail := List.drop_left

theorem text_drop_search (u : Url) :
    u.text.drop (u.front.length + u.path.length) = u.search ++ u.hashText := by
  refine drop_add_of_drop ?_
  rw [u.text_drop_tail, tail, List.append_assoc]

theorem text_drop_hash (u : Url) :
    u.text.drop (u.front.length + (u.path ++ u.search).length) = u.hashText :=
  drop_add_of_drop u.text_drop_tail

/-- Where a URL continues behind its host, it does so with a separator. -/
theorem tail_head (u : Url) {c : UInt8} {rest : List UInt8} (h : u.tail = c :: rest) :
    c = slash ↔ u.path ≠ [] := by
  cases hpath : u.path with
  | cons d path =>
      have hd : d = slash := u.path_slash d (by rw [hpath]; rfl)
      rw [tail, hpath] at h
      have hc : d = c := (List.cons.inj h).1
      simp [← hc, hd]
  | nil =>
      have hne : c ≠ slash := by
        rw [tail, hpath, List.nil_append, List.append_eq_cons_iff] at h
        rcases h with ⟨-, hhash⟩ | ⟨q, hsearch, -⟩
        · rw [part_head hhash]
          decide
        · rw [part_head hsearch]
          decide
      simp [hne]

/-! ## Where the searches end -/

theorem strstr_slashes (u : Url) : strstr (bytes "//") u.text 0 = some u.proto.length := by
  have h := @strstr_found slash [slash] _ u.proto_slash (u.authority ++ u.tail) 0
  rw [Nat.zero_add] at h
  rw [text, front, List.append_assoc, List.append_assoc]
  exact h

/-- The first `#` is in the protocol, or it starts the hash. -/
theorem strstr_hash (h : hashSign ∉ u.proto) : strstr [hashSign] u.text 0
    = u.hash.map fun _ => u.front.length + (u.path ++ u.search).length := by
  have hfront : hashSign ∉ u.front ++ (u.path ++ u.search) := by
    have hmiddle := u.hash_notMem_middle
    simp only [front, List.mem_append, not_or] at hmiddle ⊢
    exact ⟨⟨h, hmiddle.1.1⟩, hmiddle.1.2, hmiddle.2⟩
  have hfound := @strstr_part _ u.hash _ [] hfront fun _ => List.not_mem_nil
  rw [List.append_nil, List.length_append] at hfound
  rw [text, tail, ← List.append_assoc]
  exact hfound

/-- The first `?` is in the protocol, or it starts the query, or is in the hash of a URL without
    one. -/
theorem strstr_question (h : question ∉ u.proto) (hhash : u.query = none → question ∉ u.hashText) :
    strstr [question] u.text 0 = u.query.map fun _ => u.front.length + u.path.length := by
  have hfront : question ∉ u.front ++ u.path := by
    have hmiddle := u.question_notMem_middle
    simp only [front, List.mem_append, not_or] at hmiddle ⊢
    exact ⟨⟨h, hmiddle.1⟩, hmiddle.2⟩
  have htext : u.text = (u.front ++ u.path) ++ (u.search ++ u.hashText) := by
    simp [text, tail]
  rw [htext, ← List.length_append]
  exact strstr_part hfront hhash

/-- A separator in the protocol comes before all others. -/
theorem strstr_proto {c : UInt8} (h : c ∈ u.proto) :
    ∃ x, x < u.proto.length ∧ strstr [c] u.text 0 = some x := by
  obtain ⟨a, b, hab, ha⟩ := List.eq_append_cons_of_mem h
  refine ⟨a.length, by rw [hab, List.length_append, List.length_cons]; omega, ?_⟩
  have hfound := strstr_byte_found ha (b ++ (bytes "//" ++ u.authority) ++ u.tail) 0
  rw [Nat.zero_add] at hfound
  rw [text, front, hab, ← hfound]
  simp

/-- The search for the end of the host passes over the host. -/
theorem strstr_slash (u : Url) :
    strstr [slash] (u.text.drop (u.proto.length + 2)) (u.proto.length + 2)
      = strstr [slash] u.tail u.front.length := by
  have hauth : slash ∉ u.authority := fun hmem => (u.authority_text hmem).1 rfl
  rw [u.text_drop_authority, strstr_skip hauth, u.front_length]

theorem strstr_colon (u : Url) :
    strstr [colon] u.authority 0 = u.port.map fun _ => u.host.length := by
  have hhost : colon ∉ u.host := fun hmem => (u.host_text colon hmem).2.2.2 rfl
  have hfound := @strstr_part _ u.port _ [] hhost fun _ => List.not_mem_nil
  rw [List.append_nil] at hfound
  exact hfound

theorem question_notMem_pathname (u : Url) : question ∉ u.pathname := by
  rw [pathname]
  split
  · decide
  · exact fun hmem => (u.path_text _ hmem).1 rfl

theorem strstr_pathname (u : Url) :
    strstr [question] (u.pathname ++ u.search) 0 = u.query.map fun _ => u.pathname.length := by
  have hfound := @strstr_part _ u.query _ [] u.question_notMem_pathname fun _ => List.not_mem_nil
  rw [List.append_nil] at hfound
  exact hfound

/-- The port is read by `atoi`, which gives the number the digits stand for as far as it fits. -/
theorem urlPort_eq (u : Url) : urlPort u.proto u.authority = match u.port with
    | some ds => toInt32 (min longMax (decimal ds))
    | none => if u.proto = bytes "http:" then 80 else 443 := by
  rw [urlPort, u.strstr_colon]
  cases hp : u.port with
  | none => rfl
  | some ds =>
      have hne : ds ≠ [] := fun h => u.port_ne (by rw [hp, h])
      have hdrop : u.authority.drop (u.host.length + 1) = ds := by
        rw [← List.drop_drop, authority, hp, List.drop_left]
        rfl
      have hnum := strtol_decimal hne (u.port_digit ds hp)
      simp only [Option.map_some, hdrop, atoi, hnum]

/-- The length of what `#` ends, as long as `len` is the length of the URL. -/
theorem hashDistance_eq (h : hashSign ∉ u.proto) (base : Int) :
    hashDistance u.text base u.text.length
      = (u.front.length + (u.path ++ u.search).length : Nat) - base := by
  rw [hashDistance, strstr_hash h]
  cases hh : u.hash with
  | some x => rfl
  | none =>
      have hlen : u.text.length = u.front.length + (u.path ++ u.search).length := by
        rw [u.text_length, u.tail_length, hashText, hh]
        rfl
      simp only [Option.map_none, hlen]

/-! ## From the parts to the copies -/

namespace Splits

theorem front_lt (hs : u.Splits) : u.front.length < 2 ^ 31 := by
  have hlen := u.text_length
  rcases hs.length_lt with hlt | ⟨heq, hpath, -, -⟩
  · omega
  · have : 1 ≤ u.tail.length := by
      rw [tail_length, List.length_append, hpath, List.length_singleton]
      omega
    omega

/-- `end` is the end of `host[:port]`. -/
theorem urlEnd_eq (hs : u.Splits) :
    urlEnd u.text (u.proto.length + 2 : Nat) (toInt32 u.text.length) = .ok u.front.length := by
  have hlen := u.text_length
  have hfront := u.front_length
  have hlt := hs.front_lt
  rw [urlEnd, if_pos ⟨by omega, by omega⟩, Int.toNat_natCast, u.strstr_slash]
  cases htail : u.tail with
  | nil =>
      -- nothing is behind the host, so no search finds anything
      have hparts : u.path = [] ∧ u.query = none ∧ u.hash = none := by
        rw [tail, List.append_eq_nil_iff, List.append_eq_nil_iff] at htail
        obtain ⟨⟨hpath, hsearch⟩, hhash⟩ := htail
        exact ⟨hpath, part_eq_nil.1 hsearch, part_eq_nil.1 hhash⟩
      rw [strstr_question hs.proto_question hs.hash_question, strstr_hash hs.proto_hash, hparts.2.1,
        hparts.2.2]
      rw [htail, List.length_nil] at hlen
      simp only [strstr, Option.map_none, Option.none_or, if_neg (List.cons_ne_nil _ _), pure_eq_ok]
      rw [hlen, Nat.add_zero, toInt32_of_lt hlt]
  | cons c rest =>
      by_cases hpath : u.path = []
      · have hnone : strstr [slash] (c :: rest) u.front.length = none := by
          rw [← htail, tail, hpath]
          exact strstr_byte_none (hs.tail_slash hpath) _
        rw [hnone, strstr_question hs.proto_question hs.hash_question, strstr_hash hs.proto_hash]
        cases hq : u.query with
        | some q =>
            simp only [Option.map_some, Option.none_or, Option.some_or, hpath, List.length_nil,
              Nat.add_zero, toInt32_of_lt hlt, pure_eq_ok]
        | none =>
            cases hh : u.hash with
            | some x =>
                simp only [Option.map_some, Option.map_none, Option.none_or, hpath, search, hq,
                  Option.getD_none, List.append_nil, List.length_nil, Nat.add_zero,
                  toInt32_of_lt hlt, pure_eq_ok]
            | none =>
                rw [tail, hpath, search, hashText, hq, hh] at htail
                cases htail
      · obtain rfl : c = slash := (u.tail_head htail).2 hpath
        rw [strstr_here (by simp), Option.some_or]
        simp only [toInt32_of_lt hlt, pure_eq_ok]

theorem size_le (hs : u.Splits) {n : Nat} (hn : n ≤ u.text.length) : n + 2 ≤ ptrdiffMax := by
  have hmax : 2 ^ 31 + 2 ≤ ptrdiffMax := by decide
  rcases hs.length_lt with hlt | ⟨heq, -⟩
  · omega
  · omega

/-- `len` is the length, unless that wraps and there is nothing behind the path `/`. -/
theorem len_cases (hs : u.Splits) : (toInt32 u.text.length = u.text.length) ∨
    (toInt32 u.text.length ≤ u.front.length ∧ u.path = [slash] ∧ u.query = none ∧
      u.hash = none) := by
  rcases hs.length_lt with hlt | ⟨heq, hpath, hquery, hhash⟩
  · exact Or.inl (toInt32_of_lt hlt)
  · refine Or.inr ⟨?_, hpath, hquery, hhash⟩
    have hwrap : toInt32 ((2147483648 : Nat) : Int) = -2147483648 := by decide
    rw [heq, show 2 ^ 31 = 2147483648 by rfl, hwrap]
    omega

theorem urlPath_text (hs : u.Splits) :
    urlPath u.text u.front.length (toInt32 u.text.length) = .ok (u.pathname ++ u.search) := by
  rcases hs.len_cases with hlen | ⟨hle, hpath, hquery, -⟩
  · cases htail : u.tail with
    | nil =>
        have hnil := htail
        rw [tail, List.append_eq_nil_iff, List.append_eq_nil_iff] at hnil
        have htext := u.text_length
        rw [htail, List.length_nil] at htext
        rw [urlPath, if_neg (by omega), urlCopy_slash, pathname, if_pos hnil.1.1, hnil.1.2]
        rfl
    | cons c rest =>
        have htext := u.text_length
        have htaillen := u.tail_length
        rw [htail, List.length_cons] at htext htaillen
        have htake : (c :: rest).take (u.path ++ u.search).length = u.path ++ u.search := by
          rw [← htail, tail, List.take_left]
        have hdistance : hashDistance u.text u.front.length u.text.length
            = ((u.path ++ u.search).length : Nat) := by
          rw [hashDistance_eq hs.proto_hash]
          omega
        rw [hlen, urlPath_of_le u.nul_notMem_text (by omega) (u.text_drop_tail.trans htail) hdistance
          (by rw [List.length_cons]; omega) (hs.size_le (by omega)), htake, pathname]
        by_cases hpath : u.path = []
        · have hc : c ≠ slash := fun hc => (u.tail_head htail).1 hc hpath
          rw [if_neg hc, if_pos hpath, hpath, List.nil_append]
        · rw [if_pos ((u.tail_head htail).2 hpath), if_neg hpath, List.nil_append]
  · rw [urlPath, if_neg (by omega), urlCopy_slash, pathname, hpath, search, hquery]
    rfl

theorem urlSearch_text (hs : u.Splits) :
    urlSearch u.text (toInt32 u.text.length) = .ok (u.query.map (question :: ·)) := by
  rw [urlSearch, strstr_question hs.proto_question hs.hash_question]
  cases hq : u.query with
  | none => rfl
  | some q =>
      have hlt : u.text.length < 2 ^ 31 := by
        rcases hs.length_lt with hlt | ⟨-, -, hquery, -⟩
        · exact hlt
        · rw [hq] at hquery
          cases hquery
      have hlen : toInt32 u.text.length = u.text.length := toInt32_of_lt hlt
      have htext := u.text_length
      have htail := u.tail_length
      rw [List.length_append] at htail
      have hfits : toInt32 (u.front.length + u.path.length : Nat)
          = (u.front.length + u.path.length : Nat) := toInt32_of_lt (by omega)
      have hdistance : hashDistance u.text (u.front.length + u.path.length : Nat) u.text.length
          = (u.search.length : Nat) := by
        rw [hashDistance_eq hs.proto_hash, List.length_append]
        omega
      have hnul : 0 ∉ u.search ++ u.hashText := fun hmem =>
        u.nul_notMem_text (List.mem_of_mem_drop (u.text_drop_search ▸ hmem))
      simp only [Option.map_some, hfits, hlen, hdistance, urlAt_of_le (show u.front.length
        + u.path.length ≤ u.text.length by omega), u.text_drop_search, ok_bind]
      rw [urlCopy_of_le hnul (by rw [List.length_append]; omega)
        (Nat.le_of_succ_le (hs.size_le (by omega))), List.take_left, ok_bind, search, hq]
      rfl

theorem urlHash_text (hs : u.Splits) :
    urlHash u.text (toInt32 u.text.length) = .ok (u.hash.map (hashSign :: ·)) := by
  rw [urlHash, strstr_hash hs.proto_hash]
  cases hh : u.hash with
  | none => rfl
  | some x =>
      have hlen : toInt32 u.text.length = u.text.length := by
        rcases hs.len_cases with hlen | ⟨-, -, -, hhash⟩
        · exact hlen
        · rw [hh] at hhash
          cases hhash
      have htext := u.text_length
      have htail := u.tail_length
      have hnul : 0 ∉ u.hashText := fun hmem =>
        u.nul_notMem_text (List.mem_of_mem_drop (u.text_drop_hash ▸ hmem))
      have hdistance : (u.text.length : Int)
          - (u.front.length + (u.path ++ u.search).length : Nat) = (u.hashText.length : Nat) := by
        omega
      simp only [Option.map_some, hlen, hdistance, urlAt_of_le (show u.front.length
        + (u.path ++ u.search).length ≤ u.text.length by omega), u.text_drop_hash, ok_bind]
      rw [urlCopy_of_le hnul (Nat.le_refl _) (Nat.le_of_succ_le (hs.size_le (by omega))),
        List.take_length, ok_bind, hashText, hh]
      rfl

/-- Where nothing is in the way, `url_parse` returns the parts. -/
theorem urlParse_text (hs : u.Splits) : urlParse u.text = .ok u.parts := by
  have htext := u.text_length
  have hfront := u.front_length
  have hlt := hs.front_lt
  have hstart : toInt32 ((u.proto.length : Int) + 2) = (u.proto.length + 2 : Nat) :=
    toInt32_of_lt (n := u.proto.length + 2) (by omega)
  have hproto : u.text.take u.proto.length = u.proto := by
    rw [text, front, List.append_assoc, List.take_left]
  have hauthnul : 0 ∉ u.authority ++ u.tail := fun hmem =>
    u.nul_notMem_text (List.mem_of_mem_drop (u.text_drop_authority ▸ hmem))
  have hpathnul : 0 ∉ u.pathname ++ u.search := by
    have hnul := u.nul_notMem_text
    simp only [text, tail, List.mem_append, not_or] at hnul ⊢
    refine ⟨?_, hnul.2.1.2⟩
    rw [pathname]
    split
    · decide
    · exact hnul.2.1.1
  have hpathlen : (u.pathname ++ u.search).length ≤ u.text.length := by
    rw [List.length_append, pathname]
    have htail := u.tail_length
    rw [List.length_append] at htail
    split
    · rw [List.length_singleton]
      omega
    · omega
  refine (urlParse_eq_ok u.strstr_slashes).2 ⟨u.front.length, cstrMem (u.authority ++ u.tail), ?_, ?_,
    ?_, ?_, ?_, ?_, hs.urlPath_text, ?_, hs.urlSearch_text, hs.urlHash_text⟩
  · rw [urlCopy_of_le u.nul_notMem_text (by omega) (Nat.le_of_succ_le (hs.size_le (by omega))), hproto]
    rfl
  · rw [hstart]
    exact hs.urlEnd_eq
  · rw [hstart, urlAt_of_le (by omega), u.text_drop_authority]
  · rw [hstart, show (u.front.length : Int) - (u.proto.length + 2 : Nat) = (u.authority.length : Nat)
      by omega, urlCopy_of_le hauthnul (by rw [List.length_append]; omega)
      (Nat.le_of_succ_le (hs.size_le (by omega))), List.take_left]
    rfl
  · have hle : (u.port.map fun _ => u.host.length).getD u.authority.length ≤ u.authority.length :=
      part_position_le
    simp only [parts]
    rw [u.strstr_colon, urlCopy_of_le (fun hmem => hauthnul (List.mem_append_left _ hmem)) hle
      (Nat.le_of_succ_le (hs.size_le (by omega)))]
    exact congrArg _ take_part
  · simp only [parts]
    rw [u.urlPort_eq]
    cases hp : u.port with
    | none => rfl
    | some ds =>
        have hport := hs.port_lt ds hp
        simp only
        rw [Int.min_eq_right (by unfold longMax; omega)]
        exact (toInt32_of_lt hport).symm
  · have hle : (u.query.map fun _ => u.pathname.length).getD (u.pathname ++ u.search).length
        ≤ (u.pathname ++ u.search).length := part_position_le
    simp only [parts]
    rw [u.strstr_pathname, urlCopy_of_le hpathnul hle
      (Nat.le_of_succ_le (hs.size_le (Nat.le_trans hle hpathlen)))]
    exact congrArg _ take_part

end Splits

/-! ## From the copies to the parts -/

/-- A host that was copied right starts and ends where it should, and both positions fit `int`. -/
theorem start_eq_of_ok {e : Int} {src : List (Option UInt8)}
    (hend : urlEnd u.text (toInt32 (u.proto.length + 2)) (toInt32 u.text.length) = .ok e)
    (hsrc : urlAt u.text (toInt32 (u.proto.length + 2)) = .ok src)
    (hhost : urlCopy src (e - toInt32 (u.proto.length + 2)) = .ok u.authority) :
    toInt32 (u.proto.length + 2) = (u.proto.length + 2 : Nat) ∧ e = u.front.length ∧
      u.front.length < 2 ^ 31 := by
  obtain ⟨k, hk, hkle, rfl⟩ := urlAt_eq_ok hsrc
  have hnul : 0 ∉ u.text.drop k := fun hmem => u.nul_notMem_text (List.mem_of_mem_drop hmem)
  rw [hk] at hend hhost ⊢
  obtain ⟨hnonneg, -, -, htake⟩ := (urlCopy_eq_ok hnul).1 hhost
  have hlen := congrArg List.length htake
  rw [List.length_take, List.length_drop] at hlen
  have hpos : 0 < u.authority.length := List.length_pos_of_ne_nil u.authority_ne
  have hfront := u.front_length
  obtain ⟨hle, hint⟩ : e ≤ u.text.length ∧ e < 2147483648 := by
    rcases urlEnd_cases hend with he | ⟨x, hx, he⟩
    · obtain ⟨-, -, -, hmax⟩ := toInt32_spec u.text.length
      have hxle := toInt32_le u.text.length
      omega
    · obtain ⟨-, -, -, hmax⟩ := toInt32_spec x
      have hxle := toInt32_le x
      omega
  obtain ⟨m, hm, -, -⟩ := toInt32_spec (u.proto.length + 2)
  have hstart : toInt32 ((u.proto.length : Int) + 2) ≤ (u.proto.length + 2 : Nat) :=
    toInt32_le (u.proto.length + 2)
  have hkeq : k = u.proto.length + 2 := by
    by_contra hne
    -- a start that wrapped is inside the protocol, and the first `/` behind it ends the protocol
    have hklt : k ≤ u.proto.length := by omega
    have hslash : strstr [slash] (u.text.drop k) k = some u.proto.length := by
      have hdrop : u.text.drop k
          = u.proto.drop k ++ (slash :: ([slash] ++ u.authority ++ u.tail)) := by
        have hslashes : bytes "//" = [slash, slash] := by decide
        rw [text, front, List.append_assoc, List.drop_append_of_le_length hklt, hslashes]
        simp
      have hnot : slash ∉ u.proto.drop k := fun hmem => u.proto_slash (List.mem_of_mem_drop hmem)
      rw [hdrop]
      have hfound := strstr_byte_found hnot ([slash] ++ u.authority ++ u.tail) k
      rw [List.length_drop, Nat.add_sub_cancel' hklt] at hfound
      exact hfound
    rw [urlEnd, if_pos ⟨by omega, by omega⟩, Int.toNat_natCast, hslash, Option.some_or] at hend
    have he : toInt32 u.proto.length = e := Except.ok.inj hend
    obtain ⟨m', hm', -, hlt⟩ := toInt32_spec u.proto.length
    omega
  exact ⟨by omega, by omega, by omega⟩

/-- A hash that was copied is at most as long as the rest of the URL by `len`. -/
theorem hash_copied (hh : u.hash ≠ none)
    (hhash : urlHash u.text (toInt32 u.text.length) = .ok (u.hash.map (hashSign :: ·))) :
    ∃ y, strstr [hashSign] u.text 0 = some y ∧
      (y : Int) + u.hashText.length ≤ toInt32 u.text.length := by
  obtain ⟨x, hx⟩ := Option.ne_none_iff_exists'.1 hh
  rcases strstr_byte_cases hashSign u.text 0 with ⟨hnot, -⟩ | ⟨a, b, hab, -, hsome⟩
  · refine absurd ?_ hnot
    rw [text, tail, hashText, hx]
    simp
  · rw [Nat.zero_add] at hsome
    refine ⟨a.length, hsome, ?_⟩
    have hle : a.length ≤ u.text.length := by
      rw [hab, List.length_append]
      omega
    have hnul : 0 ∉ u.text.drop a.length := fun hmem =>
      u.nul_notMem_text (List.mem_of_mem_drop hmem)
    rw [urlHash, hsome, hx] at hhash
    simp only at hhash
    rw [urlAt_of_le hle, ok_bind] at hhash
    obtain ⟨t, ht, heq⟩ := bind_eq_ok.1 hhash
    obtain ⟨hnonneg, -, -, hcopy⟩ := (urlCopy_eq_ok hnul).1 ht
    have ht' : t = u.hashText := by
      rw [hashText, hx]
      exact Option.some.inj (Except.ok.inj heq)
    have hlen := congrArg List.length (ht' ▸ hcopy)
    rw [List.length_take] at hlen
    omega

/-- A path behind the host and a hash that were copied right: no `#` is in the way, and the length
    fits. -/
theorem hash_of_ok_tail (hend : (u.front.length : Int) < toInt32 u.text.length)
    (hpath : urlPath u.text u.front.length (toInt32 u.text.length) = .ok (u.pathname ++ u.search))
    (hhash : urlHash u.text (toInt32 u.text.length) = .ok (u.hash.map (hashSign :: ·))) :
    hashSign ∉ u.proto ∧ u.text.length < 2 ^ 31 := by
  have hlen := toInt32_le u.text.length
  have htext := u.text_length
  have htail := u.tail_length
  obtain ⟨m, hm, -, hmax⟩ := toInt32_spec u.text.length
  cases hrest : u.tail with
  | nil =>
      rw [hrest, List.length_nil] at htext
      omega
  | cons c rest =>
      obtain ⟨hnonneg, htake⟩ := urlPath_eq_ok u.nul_notMem_text hend
        (u.text_drop_tail.trans hrest) hpath
      have hproto : hashSign ∉ u.proto := by
        intro hmem
        obtain ⟨x, hx, hstr⟩ := strstr_proto hmem
        have hfront := u.front_length
        simp only [hashDistance, hstr] at hnonneg
        omega
      have hsplit : u.path ++ u.search
          = u.tail.take (hashDistance u.text u.front.length (toInt32 u.text.length)).toNat := by
        rw [hrest]
        by_cases hempty : u.path = []
        · rw [if_neg fun hc => (u.tail_head hrest).1 hc hempty, pathname, if_pos hempty] at htake
          rw [hempty, List.nil_append]
          exact List.append_cancel_left htake
        · rwa [if_pos ((u.tail_head hrest).2 hempty), pathname, if_neg hempty,
            List.nil_append] at htake
      have hsplitlen := congrArg List.length hsplit
      rw [List.length_take] at hsplitlen
      refine ⟨hproto, ?_⟩
      cases hh : u.hash with
      | some x =>
          obtain ⟨y, hy, hyle⟩ := hash_copied (by rw [hh]; exact Option.some_ne_none x) hhash
          rw [strstr_hash hproto, hh] at hy
          have hyeq : u.front.length + (u.path ++ u.search).length = y := Option.some.inj hy
          omega
      | none =>
          rw [hashDistance, strstr_hash hproto, hh] at hsplitlen
          simp only [Option.map_none] at hsplitlen
          have hhashText : u.hashText = [] := part_eq_nil.2 hh
          rw [hhashText, List.length_nil] at htail
          omega

theorem path_of_slash (h : u.pathname ++ u.search = [slash]) :
    u.query = none ∧ (u.path = [] ∨ u.path = [slash]) := by
  rw [pathname] at h
  by_cases hnil : u.path = []
  · rw [if_pos hnil] at h
    exact ⟨part_eq_nil.1 (List.cons.inj h).2, Or.inl hnil⟩
  · rw [if_neg hnil] at h
    obtain ⟨c, rest, hc⟩ := List.exists_cons_of_ne_nil hnil
    rw [hc, List.cons_append] at h
    obtain ⟨hslash, hrest⟩ := List.cons.inj h
    obtain ⟨hrest, hsearch⟩ := List.append_eq_nil_iff.1 hrest
    exact ⟨part_eq_nil.1 hsearch, Or.inr (by rw [hc, hslash, hrest])⟩

/-- The path `/` for "nothing behind the host" and a hash that was copied right: there is no hash,
    no `#` is in the way, and there is at most the path `/` behind the host. -/
theorem hash_of_ok_slash (hlt : u.front.length < 2 ^ 31)
    (hend : ¬ (u.front.length : Int) < toInt32 u.text.length)
    (hpath : urlPath u.text u.front.length (toInt32 u.text.length) = .ok (u.pathname ++ u.search))
    (hhash : urlHash u.text (toInt32 u.text.length) = .ok (u.hash.map (hashSign :: ·))) :
    hashSign ∉ u.proto ∧ u.query = none ∧ u.hash = none ∧ (u.path = [] ∨ u.path = [slash]) := by
  rw [urlPath, if_neg hend, urlCopy_slash] at hpath
  obtain ⟨hquery, hslash⟩ := path_of_slash (Except.ok.inj hpath).symm
  by_cases hh : u.hash = none
  · refine ⟨?_, hquery, hh, hslash⟩
    intro hmem
    obtain ⟨x, -, hstr⟩ := strstr_proto hmem
    rw [urlHash, hstr, hh] at hhash
    obtain ⟨src, -, hhash⟩ := bind_eq_ok.1 hhash
    obtain ⟨t, -, hhash⟩ := bind_eq_ok.1 hhash
    cases hhash
  · -- `len` would have to be both behind the hash and not behind the host
    obtain ⟨y, hy, hle⟩ := hash_copied hh hhash
    have hpos : 0 < u.hashText.length := List.length_pos_of_ne_nil fun h => hh (part_eq_nil.1 h)
    have hpathlen : (u.path ++ u.search).length ≤ 1 := by
      rw [show u.search = [] from part_eq_nil.2 hquery, List.append_nil]
      rcases hslash with hslash | hslash
      · rw [hslash]
        exact Nat.zero_le 1
      · rw [hslash]
        exact Nat.le_refl 1
    obtain ⟨m, hm, -, hmax⟩ := toInt32_spec u.text.length
    have htext := u.text_length
    have htail := u.tail_length
    omega

/-- A path and a hash that were copied right: no `#` is in the way, and the length fits. -/
theorem hash_of_ok (hlt : u.front.length < 2 ^ 31)
    (hpath : urlPath u.text u.front.length (toInt32 u.text.length) = .ok (u.pathname ++ u.search))
    (hhash : urlHash u.text (toInt32 u.text.length) = .ok (u.hash.map (hashSign :: ·))) :
    hashSign ∉ u.proto ∧ (u.text.length < 2 ^ 31 ∨
      u.text.length = 2 ^ 31 ∧ u.path = [slash] ∧ u.query = none ∧ u.hash = none) := by
  by_cases hend : (u.front.length : Int) < toInt32 u.text.length
  · obtain ⟨hproto, hfits⟩ := hash_of_ok_tail hend hpath hhash
    exact ⟨hproto, Or.inl hfits⟩
  · obtain ⟨hproto, hquery, hh, hslash⟩ := hash_of_ok_slash hlt hend hpath hhash
    have hsearch : u.search = [] := part_eq_nil.2 hquery
    have hhashText : u.hashText = [] := part_eq_nil.2 hh
    have htext := u.text_length
    have htail := u.tail_length
    rw [hsearch, hhashText, List.append_nil, List.length_nil] at htail
    refine ⟨hproto, ?_⟩
    rcases hslash with hempty | hslash
    · rw [hempty, List.length_nil] at htail
      exact Or.inl (by omega)
    · rw [hslash, List.length_singleton] at htail
      by_cases hfits : u.text.length < 2 ^ 31
      · exact Or.inl hfits
      · exact Or.inr ⟨by omega, hslash, hquery, hh⟩

/-- A search part that was copied right: no `?` is in the way. -/
theorem question_of_ok (hproto : hashSign ∉ u.proto) (hlt : u.query ≠ none → u.text.length < 2 ^ 31)
    (hsearch : urlSearch u.text (toInt32 u.text.length) = .ok (u.query.map (question :: ·))) :
    question ∉ u.proto ∧ (u.query = none → question ∉ u.hashText) := by
  by_cases hq : u.query = none
  · have hnot : question ∉ u.text := by
      rcases strstr_byte_cases question u.text 0 with ⟨hnot, -⟩ | ⟨a, b, -, -, hsome⟩
      · exact hnot
      · rw [urlSearch, hsome, hq] at hsearch
        obtain ⟨src, -, hsearch⟩ := bind_eq_ok.1 hsearch
        obtain ⟨t, -, hsearch⟩ := bind_eq_ok.1 hsearch
        cases hsearch
    simp only [text, front, tail, List.mem_append, not_or] at hnot
    exact ⟨hnot.1.1, fun _ => hnot.2.2⟩
  · refine ⟨?_, fun hnone => absurd hnone hq⟩
    intro hmem
    obtain ⟨q, hquery⟩ := Option.ne_none_iff_exists'.1 hq
    obtain ⟨x, hx, hstr⟩ := strstr_proto hmem
    have hlen := hlt hq
    have hfront := u.front_length
    have htext := u.text_length
    have htail := u.tail_length
    have hnul : 0 ∉ u.text.drop x := fun hmem => u.nul_notMem_text (List.mem_of_mem_drop hmem)
    have hxint : toInt32 x = x := toInt32_of_lt (by omega)
    rw [urlSearch, hstr, hquery] at hsearch
    simp only at hsearch
    rw [hxint, toInt32_of_lt hlen, urlAt_of_le (by omega), ok_bind, hashDistance_eq hproto] at hsearch
    obtain ⟨t, ht, heq⟩ := bind_eq_ok.1 hsearch
    obtain ⟨-, -, -, hcopy⟩ := (urlCopy_eq_ok hnul).1 ht
    have ht' : t = u.search := by
      rw [search, hquery]
      exact Option.some.inj (Except.ok.inj heq)
    have hcopylen := congrArg List.length (ht' ▸ hcopy)
    rw [List.length_take, List.length_drop] at hcopylen
    rw [List.length_append] at htail hcopylen
    omega

/-- An end of the host that was found right, for a URL without a path: no `/` is behind it. -/
theorem slash_of_ok (hlt : u.text.length < 2 ^ 31) (hpath : u.path = [])
    (hend : urlEnd u.text (u.proto.length + 2 : Nat) (toInt32 u.text.length) = .ok u.front.length) :
    slash ∉ u.search ++ u.hashText := by
  have htail : u.tail = u.search ++ u.hashText := by
    rw [tail, hpath, List.nil_append]
  have hfront := u.front_length
  have htext := u.text_length
  rw [← htail]
  rcases strstr_byte_cases slash u.tail u.front.length with ⟨hnot, -⟩ | ⟨a, b, hab, -, hsome⟩
  · exact hnot
  · rw [urlEnd, if_pos ⟨by omega, by omega⟩, Int.toNat_natCast, u.strstr_slash, hsome,
      Option.some_or] at hend
    have he : toInt32 (u.front.length + a.length : Nat) = (u.front.length : Nat) :=
      Except.ok.inj hend
    rw [hab, List.length_append, List.length_cons] at htext
    rw [toInt32_of_lt (by omega)] at he
    have hnil : a = [] := List.eq_nil_of_length_eq_zero (by omega)
    rw [hnil, List.nil_append] at hab
    exact absurd hpath ((u.tail_head hab).1 rfl)

/-- `url_parse` returns the parts of exactly the URLs that split. -/
theorem parse_iff (u : Url) : urlParse u.text = .ok u.parts ↔ u.Splits := by
  refine ⟨?_, Splits.urlParse_text⟩
  intro hok
  obtain ⟨e, src, -, hend, hsrc, hhost, -, hport, hpath, -, hsearch, hhash⟩ :=
    (urlParse_eq_ok u.strstr_slashes).1 hok
  obtain ⟨hstart, rfl, hlt⟩ := start_eq_of_ok hend hsrc hhost
  obtain ⟨hproto, hlength⟩ := hash_of_ok hlt hpath hhash
  have hquery : u.query ≠ none → u.text.length < 2 ^ 31 := fun hne =>
    hlength.resolve_right fun h => hne h.2.2.1
  obtain ⟨hquestion, hhashQuestion⟩ := question_of_ok hproto hquery hsearch
  refine ⟨hquestion, hproto, hhashQuestion, ?_, ?_, hlength⟩
  · intro hnil
    have hfits : u.text.length < 2 ^ 31 := hlength.resolve_right fun h => by
      rw [hnil] at h
      cases h.2.1
    rw [hstart] at hend
    exact slash_of_ok hfits hnil hend
  · intro ds hds
    have hds : u.port = some ds := hds
    simp only [parts, u.urlPort_eq, hds] at hport
    obtain ⟨-, -, -, hmax⟩ := toInt32_spec (min longMax (decimal ds))
    omega

/-- `http://h?/`: the `/` of the query ends the host. -/
def slashInQuery : Url where
  proto := bytes "http:"
  host := [104]
  port := none
  path := []
  query := some [47]
  hash := none
  proto_slash := by decide
  host_ne := by decide
  host_text := by
    simp only [List.forall_mem_cons, List.not_mem_nil, false_implies, implies_true]
    decide
  port_ne := by decide
  port_digit := nofun
  path_slash := nofun
  path_text := nofun
  query_text := by decide
  nul := by decide

theorem parse_slashInQuery : urlParse slashInQuery.text ≠ .ok slashInQuery.parts := by
  decide +kernel

end Url

end Ryze
