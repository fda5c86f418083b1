import Ryze.HttpParser.Basic
import Ryze.Lib.CText
import Ryze.Util.Path

set_option autoImplicit false

/-! # `url_parse`

`url_parse` (`util/test.c`) copies the parts of a URL out of it. Each part is cut at the first `/`,
`?` or `#` of some range, most of them of the whole URL. Positions and lengths go through `int`; a
difference of two of them is only used as the length of a copy, so one that leaves `int` is negative
and no copy. -/

namespace Ryze

open CLib

abbrev question : UInt8 := 63

abbrev hashSign : UInt8 := 35

/-- `struct url_struct`, its strings as their bytes in front of the NUL. -/
structure UrlStruct where
  protocol : List UInt8
  host : List UInt8
  hostname : List UInt8
  port : Int
  path : List UInt8
  pathname : List UInt8
  search : Option (List UInt8)
  hash : Option (List UInt8)
deriving DecidableEq, Repr

/-- `RYZE_URL_COPY_STR(dst, index, src, len)`: the new `dst`. -/
def urlCopyStr (index : Nat) (src : List (Option UInt8)) (len : Int) :
    CRun (List (Option UInt8)) :=
  -- `memcpy` takes a negative `len` for a huge one
  if len < 0 then throw .write
  else do
    let dst ← malloc (len.toNat + 1)
    let dst ← memcpy dst index src len.toNat
    store dst len 0

/-- The memory at `url + i`. -/
def urlAt (url : List UInt8) (i : Int) : CRun (List (Option UInt8)) :=
  if 0 ≤ i ∧ i ≤ url.length then .ok ((cstrMem url).drop i.toNat) else throw .read

/-- A part that was copied to the start of its block, read as a string. -/
def urlCopy (src : List (Option UInt8)) (len : Int) : CRun (List UInt8) := do
  let dst ← urlCopyStr 0 src len
  cstr dst

/-- `end`. -/
def urlEnd (url : List UInt8) (start len : Int) : CRun Int :=
  if 0 ≤ start ∧ start ≤ url.length then
    let p := (strstr [slash] (url.drop start.toNat) start.toNat).or
      ((strstr [question] url 0).or (strstr [hashSign] url 0))
    return match p with
    | some p => toInt32 p
    | none => len
  else throw .read

/-- The port behind the first `:` of the host, or the one of the protocol. -/
def urlPort (protocol host : List UInt8) : Int :=
  match strstr [colon] host 0 with
  | some p => atoi (host.drop (p + 1))
  | none => if protocol = bytes "http:" then 80 else 443

/-- `p ? p - url - from : len - from` for the first `#` of the URL. -/
def hashDistance (url : List UInt8) (base len : Int) : Int :=
  match strstr [hashSign] url 0 with
  | some p => p - base
  | none => len - base

/-- `url_s->path`. -/
def urlPath (url : List UInt8) («end» len : Int) : CRun (List UInt8) :=
  if «end» < len then do
    let src ← urlAt url «end»
    let c ← loadCell src 0
    if c = slash then urlCopy src (hashDistance url «end» len)
    else do
      let path ← urlCopyStr 1 src (1 + hashDistance url «end» len)
      let path ← store path 0 slash
      cstr path
  else urlCopy (cstrMem [slash]) 1

/-- `url_s->search`. -/
def urlSearch (url : List UInt8) (len : Int) : CRun (Option (List UInt8)) :=
  match strstr [question] url 0 with
  | none => return none
  | some p => do
    let start := toInt32 p
    let src ← urlAt url start
    let search ← urlCopy src (hashDistance url start len)
    return some search

/-- `url_s->hash`. -/
def urlHash (url : List UInt8) (len : Int) : CRun (Option (List UInt8)) :=
  match strstr [hashSign] url 0 with
  | none => return none
  | some p => do
    let src ← urlAt url p
    let hash ← urlCopy src (len - p)
    return some hash

/-- `url_parse(url)`. -/
def urlParse (url : List UInt8) : CRun UrlStruct :=
  match strstr (bytes "//") url 0 with
  | none => throw .read
  | some p => do
    let protocol ← urlCopy (cstrMem url) p
    let len := toInt32 url.length
    let start := toInt32 (p + 2)
    let «end» ← urlEnd url start len
    let src ← urlAt url start
    let host ← urlCopy src («end» - start)
    let hostname ← urlCopy (cstrMem host) ((strstr [colon] host 0).getD host.length)
    let path ← urlPath url «end» len
    let pathname ← urlCopy (cstrMem path) ((strstr [question] path 0).getD path.length)
    let search ← urlSearch url len
    let hash ← urlHash url len
    return {
      protocol := protocol
      host := host
      hostname := hostname
      port := urlPort protocol host
      path := path
      pathname := pathname
      search := search
      hash := hash }

/-! ## Copies -/

/-- The block a copy of `n` bytes of a string is in. -/
theorem urlCopyStr_zero {s : List UInt8} {n : Nat} (hn : n ≤ s.length + 1)
    (hmax : n + 1 ≤ ptrdiffMax) :
    urlCopyStr 0 (cstrMem s) n = .ok (cells ((s ++ [0]).take n ++ [0])) := by
  have hlen : ((s ++ [0]).take n).length = n := by
    rw [List.length_take, List.length_append, List.length_singleton]
    omega
  have hsrc : (cstrMem s).take n = cells ((s ++ [0]).take n) := List.map_take.symm
  rw [urlCopyStr, if_neg (by omega), Int.toNat_natCast, malloc_eq_filled hmax, ok_bind,
    memcpy_filled (rfl : 0 = ([] : List UInt8).length) (cstrMem s) _ hsrc hlen.symm (by rw [List.length_nil]; omega), ok_bind,
    List.nil_append, store_filled (by rw [hlen]) 0 (by omega)]
  have hfull : ((s ++ [0]).take n ++ [0]).length = n + 1 := by
    rw [List.length_append, hlen, List.length_singleton]
  rw [← hfull, filled_full]

/-- What a copy of bytes of a string reads as: the bytes, or the rest of the string if there are
    fewer. -/
theorem urlCopy_eq_ok {s t : List UInt8} (hs : 0 ∉ s) {len : Int} :
    urlCopy (cstrMem s) len = .ok t ↔
      0 ≤ len ∧ len.toNat ≤ s.length + 1 ∧ len.toNat + 1 ≤ ptrdiffMax ∧ t = s.take len.toNat := by
  by_cases hneg : len < 0
  · simp only [urlCopy, urlCopyStr, if_pos hneg, throw_eq_error, error_bind]
    constructor
    · intro h
      cases h
    · intro h
      exact absurd h.1 (by omega)
  obtain ⟨n, rfl⟩ : ∃ n : Nat, len = n := ⟨len.toNat, by omega⟩
  rw [Int.toNat_natCast]
  by_cases hmax : n + 1 ≤ ptrdiffMax
  · by_cases hn : n ≤ s.length + 1
    · have hread : cstr (cells ((s ++ [0]).take n ++ [0])) = .ok (s.take n) := by
        rcases Nat.le_or_eq_of_le_succ hn with hle | rfl
        · rw [List.take_append_of_le_length hle, cells_append]
          exact cstr_cells _ (fun h => hs (List.mem_of_mem_take h)) []
        · rw [List.take_of_length_le (by simp), List.take_of_length_le (by simp), List.append_assoc,
            cells_append]
          exact cstr_cells s hs _
      rw [urlCopy, urlCopyStr_zero hn hmax, ok_bind, hread, Except.ok.injEq]
      constructor
      · intro h
        exact ⟨by omega, hn, hmax, h.symm⟩
      · intro h
        exact h.2.2.2.symm
    · have hsrc : ¬ n ≤ (cstrMem s).length := by
        rw [cstrMem, cells_length, List.length_append, List.length_singleton]
        exact hn
      simp only [urlCopy, urlCopyStr, if_neg hneg, Int.toNat_natCast, malloc_eq_filled hmax, ok_bind, memcpy,
        if_neg hsrc, error_bind]
      constructor
      · intro h
        cases h
      · intro h
        exact absurd h.2.1 hn
  · simp only [urlCopy, urlCopyStr, if_neg hneg, Int.toNat_natCast, malloc, if_neg hmax, error_bind]
    constructor
    · intro h
      cases h
    · intro h
      exact absurd h.2.2.1 hmax

theorem urlCopy_of_le {s : List UInt8} (hs : 0 ∉ s) {n : Nat} (hn : n ≤ s.length)
    (hmax : n + 1 ≤ ptrdiffMax) : urlCopy (cstrMem s) n = .ok (s.take n) :=
  (urlCopy_eq_ok hs).2 ⟨by omega, by rw [Int.toNat_natCast]; omega,
    by rw [Int.toNat_natCast]; exact hmax, by rw [Int.toNat_natCast]⟩

/-- The path of a URL with nothing behind its host. -/
theorem urlCopy_slash : urlCopy (cstrMem [slash]) 1 = .ok [slash] :=
  urlCopy_of_le (n := 1) (by decide) (Nat.le_refl 1) (by decide)

/-- The copy behind a slash: it is one byte longer than the bytes it is for, and the NUL takes the
    place of the last one. -/
theorem urlCopyStr_one {s : List UInt8} (hs : 0 ∉ s) {k : Nat} (hk : k ≤ s.length)
    (hmax : k + 2 ≤ ptrdiffMax) : (do
      let path ← urlCopyStr 1 (cstrMem s) (1 + (k : Int))
      let path ← store path 0 slash
      cstr path) = .ok (slash :: s.take k) := by
  obtain ⟨x, hx⟩ : ∃ x, (s ++ [0])[k]? = some x :=
    ⟨_, List.getElem?_eq_getElem (by rw [List.length_append, List.length_singleton]; omega)⟩
  have hsrc : (cstrMem s).take (k + 1) = cells (s.take k) ++ [some x] := by
    rw [cstrMem, cells, ← List.map_take, List.take_add_one, hx, List.take_append_of_le_length hk,
      List.map_append]
    rfl
  have hsrclen : k + 1 ≤ (cstrMem s).length := by
    rw [cstrMem, cells_length, List.length_append, List.length_singleton]
    omega
  have htake : (s.take k).length = k := by
    rw [List.length_take]
    omega
  have hmemcpy : memcpy (List.replicate (k + 1 + 1) none) 1 (cstrMem s) (k + 1)
      = .ok (none :: (cells (s.take k) ++ [some x])) := by
    rw [memcpy, if_pos hsrclen, if_pos (by rw [List.length_replicate]; omega), hsrc,
      List.drop_eq_nil_of_le (by rw [List.length_replicate]; omega), List.append_nil]
    rfl
  have hnul : store (none :: (cells (s.take k) ++ [some x])) (1 + (k : Int)) 0
      = .ok (none :: (cells (s.take k) ++ [some 0])) := by
    rw [store, if_pos ⟨by omega, by simp [htake]; omega⟩, show (1 + (k : Int)).toNat = k + 1 by omega,
      List.set_cons_succ, List.set_append_right _ _ (by rw [cells_length]; omega), cells_length, htake,
      Nat.sub_self]
    rfl
  rw [urlCopyStr, if_neg (by omega), show (1 + (k : Int)).toNat = k + 1 by omega, malloc,
    if_pos (by omega), ok_bind, hmemcpy, ok_bind, hnul, ok_bind, store, if_pos (by simp), ok_bind]
  exact cstr_cells (slash :: s.take k) (by
    rw [List.mem_cons, not_or]
    exact ⟨by decide, fun h => hs (List.mem_of_mem_take h)⟩) []

/-- No copy behind a slash when there is nothing to copy it from. -/
theorem urlCopyStr_one_ok {s t : List UInt8} {n : Int} (h : (do
      let path ← urlCopyStr 1 (cstrMem s) (1 + n)
      let path ← store path 0 slash
      cstr path) = .ok t) :
    0 ≤ n ∧ n.toNat ≤ s.length ∧ n.toNat + 2 ≤ ptrdiffMax := by
  by_cases hneg : 1 + n < 0
  · rw [urlCopyStr, if_pos hneg] at h
    cases h
  by_cases hmax : (1 + n).toNat + 1 ≤ ptrdiffMax
  · by_cases hlen : (1 + n).toNat ≤ (cstrMem s).length
    · by_cases hzero : n = -1
      · -- the block is one byte, which the slash takes
        rw [hzero, urlCopyStr, if_neg (by omega), malloc, if_pos (by decide), ok_bind, memcpy,
          if_pos (by omega)] at h
        cases h
      · rw [cstrMem, cells_length, List.length_append, List.length_singleton] at hlen
        omega
    · rw [urlCopyStr, if_neg hneg, malloc, if_pos hmax, ok_bind, memcpy, if_neg hlen] at h
      cases h
  · rw [urlCopyStr, if_neg hneg, malloc, if_neg hmax] at h
    cases h

/-! ## Positions -/

theorem urlAt_of_le {url : List UInt8} {i : Nat} (hi : i ≤ url.length) :
    urlAt url i = .ok (cstrMem (url.drop i)) := by
  rw [urlAt, if_pos ⟨by omega, by omega⟩, Int.toNat_natCast, cstrMem, cells, ← List.map_drop,
    List.drop_append_of_le_length hi]
  rfl

theorem urlAt_eq_ok {url : List UInt8} {i : Int} {src : List (Option UInt8)}
    (h : urlAt url i = .ok src) :
    ∃ k : Nat, i = k ∧ k ≤ url.length ∧ src = cstrMem (url.drop k) := by
  by_cases hi : 0 ≤ i ∧ i ≤ url.length
  · obtain ⟨k, rfl⟩ : ∃ k : Nat, i = k := ⟨i.toNat, by omega⟩
    rw [urlAt_of_le (by omega)] at h
    exact ⟨k, rfl, by omega, (Except.ok.inj h).symm⟩
  · rw [urlAt, if_neg hi] at h
    cases h

/-- `end` is `len`, or a position in the URL as far as it fits. -/
theorem urlEnd_cases {url : List UInt8} {start len e : Int} (h : urlEnd url start len = .ok e) :
    e = len ∨ ∃ p, p ≤ url.length ∧ e = toInt32 p := by
  by_cases hstart : 0 ≤ start ∧ start ≤ url.length
  · rw [urlEnd, if_pos hstart] at h
    cases hp : (strstr [slash] (url.drop start.toNat) start.toNat).or
        ((strstr [question] url 0).or (strstr [hashSign] url 0)) with
    | none =>
        rw [hp] at h
        exact Or.inl (Except.ok.inj h).symm
    | some p =>
        rw [hp] at h
        refine Or.inr ⟨p, ?_, (Except.ok.inj h).symm⟩
        rcases Option.or_eq_some_iff.1 hp with hx | ⟨-, hp⟩
        · have hlt := strstr_byte_lt hx
          rw [List.length_drop] at hlt
          omega
        · rcases Option.or_eq_some_iff.1 hp with hx | ⟨-, hx⟩
          · have hlt := strstr_byte_lt hx
            omega
          · have hlt := strstr_byte_lt hx
            omega
  · rw [urlEnd, if_neg hstart] at h
    cases h

/-- The path, when the bytes behind the host end in front of `len`. -/
theorem urlPath_eq_ok {url rest t : List UInt8} {c : UInt8} (hnul : 0 ∉ url) {e : Nat} {len : Int}
    (hlt : (e : Int) < len) (hdrop : url.drop e = c :: rest) (h : urlPath url e len = .ok t) :
    0 ≤ hashDistance url e len ∧
      t = (if c = slash then [] else [slash]) ++ (c :: rest).take (hashDistance url e len).toNat := by
  have hle : e ≤ url.length := Nat.le_of_lt (lt_length_of_drop hdrop)
  have hnulrest : 0 ∉ c :: rest := fun hmem => hnul (List.mem_of_mem_drop (hdrop ▸ hmem))
  have hload : loadCell (cstrMem (c :: rest)) 0 = .ok c := rfl
  rw [urlPath, if_pos hlt, urlAt_of_le hle, ok_bind, hdrop, hload, ok_bind] at h
  by_cases hc : c = slash
  · rw [if_pos hc] at h
    obtain ⟨hnonneg, -, -, ht⟩ := (urlCopy_eq_ok hnulrest).1 h
    exact ⟨hnonneg, by rw [if_pos hc, ht, List.nil_append]⟩
  · rw [if_neg hc] at h
    obtain ⟨hnonneg, hlen, hmax⟩ := urlCopyStr_one_ok h
    obtain ⟨k, hk⟩ : ∃ k : Nat, hashDistance url e len = k := ⟨_, (Int.toNat_of_nonneg hnonneg).symm⟩
    rw [hk, Int.toNat_natCast] at hlen hmax
    rw [hk, urlCopyStr_one hnulrest hlen hmax] at h
    rw [if_neg hc, hk, Int.toNat_natCast]
    exact ⟨by omega, (Except.ok.inj h).symm⟩

theorem urlPath_of_le {url rest : List UInt8} {c : UInt8} (hnul : 0 ∉ url) {e k : Nat} {len : Int}
    (hlt : (e : Int) < len) (hdrop : url.drop e = c :: rest) (hk : hashDistance url e len = k)
    (hle : k ≤ (c :: rest).length) (hmax : k + 2 ≤ ptrdiffMax) :
    urlPath url e len = .ok ((if c = slash then [] else [slash]) ++ (c :: rest).take k) := by
  have hnulrest : 0 ∉ c :: rest := fun hmem => hnul (List.mem_of_mem_drop (hdrop ▸ hmem))
  have hload : loadCell (cstrMem (c :: rest)) 0 = .ok c := rfl
  rw [urlPath, if_pos hlt, urlAt_of_le (Nat.le_of_lt (lt_length_of_drop hdrop)), ok_bind, hdrop,
    hload, ok_bind, hk]
  by_cases hc : c = slash
  · rw [if_pos hc, if_pos hc, List.nil_append]
    exact urlCopy_of_le hnulrest hle (by omega)
  · rw [if_neg hc, if_neg hc, urlCopyStr_one hnulrest hle hmax]
    rfl

/-- `url_parse` returns when each of its parts does. -/
theorem urlParse_eq_ok {url : List UInt8} {r : UrlStruct} {p : Nat}
    (hp : strstr (bytes "//") url 0 = some p) :
    urlParse url = .ok r ↔ ∃ e src,
      urlCopy (cstrMem url) p = .ok r.protocol ∧
      urlEnd url (toInt32 (p + 2)) (toInt32 url.length) = .ok e ∧
      urlAt url (toInt32 (p + 2)) = .ok src ∧
      urlCopy src (e - toInt32 (p + 2)) = .ok r.host ∧
      urlCopy (cstrMem r.host) ((strstr [colon] r.host 0).getD r.host.length) = .ok r.hostname ∧
      r.port = urlPort r.protocol r.host ∧
      urlPath url e (toInt32 url.length) = .ok r.path ∧
      urlCopy (cstrMem r.path) ((strstr [question] r.path 0).getD r.path.length) = .ok r.pathname ∧
      urlSearch url (toInt32 url.length) = .ok r.search ∧
      urlHash url (toInt32 url.length) = .ok r.hash := by
  simp only [urlParse, hp, bind_eq_ok, pure_eq_ok]
  constructor
  · rintro ⟨protocol, hprotocol, e, he, src, hsrc, host, hhost, hostname, hhostname, path, hpath,
      pathname, hpathname, search, hsearch, hash, hhash, hr⟩
    cases hr
    exact ⟨e, src, hprotocol, he, hsrc, hhost, hhostname, rfl, hpath, hpathname, hsearch, hhash⟩
  · rintro ⟨e, src, hprotocol, he, hsrc, hhost, hhostname, hport, hpath, hpathname, hsearch, hhash⟩
    refine ⟨_, hprotocol, e, he, src, hsrc, _, hhost, _, hhostname, _, hpath, _, hpathname, _,
      hsearch, _, hhash, ?_⟩
    rw [← hport]

end Ryze
