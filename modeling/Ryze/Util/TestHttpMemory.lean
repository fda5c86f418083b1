import Ryze.Lib.Leaks
import Ryze.Util.TestHttpGet
import Ryze.Util.TestHttpRequest
import Mathlib.Tactic.Abel

set_option autoImplicit false

/-! # The blocks of `url_parse` and `http_get` in `test.c`

`url_parse` returns a block that points to up to seven others, and `url_free` gives them all back.
`http_get` does not call it: it frees the `struct url_struct` alone. -/

namespace Ryze

open CLib Ownership

/-- `struct url_struct` with its pointers. -/
structure UrlPointers where
  protocol : Option Nat
  host : Option Nat
  hostname : Option Nat
  port : Int
  path : Option Nat
  pathname : Option Nat
  search : Option Nat
  hash : Option Nat

/-- What is in a block. -/
inductive UrlBlock
  | url (fields : UrlPointers)
  | text (s : List UInt8)
  | memory (cells : List (Option UInt8))

abbrev UrlHeap := Heap UrlBlock

/-- What the calls outside come to: one of the `break`s of `http_get`, or a server that sends
    `stream`. -/
inductive Exchange
  | broken
  | answered (d : Delivery) (stream : List UInt8)

namespace UrlHeap

/-! ## The functions -/

/-- A part in a block of its own; one that the URL does not have leaves the null pointer. -/
def newText (part : Option (List UInt8)) (h : UrlHeap) : Option Nat × UrlHeap :=
  match part with
  | none => (none, h)
  | some s => (some h.next, h.alloc (.text s))

/-- The blocks of `url_parse`, in the order in which it allocates them. -/
def newUrl (parts : UrlStruct) (h : UrlHeap) : Nat × UrlHeap :=
  let urlS := h.next
  -- no field is read before it is set
  let h := h.alloc (.url ⟨none, none, none, 0, none, none, none, none⟩)
  let (protocol, h) := newText (some parts.protocol) h
  let (host, h) := newText (some parts.host) h
  let (hostname, h) := newText (some parts.hostname) h
  let (path, h) := newText (some parts.path) h
  let (pathname, h) := newText (some parts.pathname) h
  let (search, h) := newText parts.search h
  let (hash, h) := newText parts.hash h
  (urlS, h.modify urlS fun _ => .url {
    protocol := protocol
    host := host
    hostname := hostname
    port := parts.port
    path := path
    pathname := pathname
    search := search
    hash := hash })

/-- `url_parse(url)`. -/
def urlParse (url : List UInt8) (h : UrlHeap) : CRun (Nat × UrlHeap) := do
  let parts ← Ryze.urlParse url
  return newUrl parts h

/-- `url_free(ptr)`. -/
def urlFree (ptr : Nat) (h : UrlHeap) : CRun UrlHeap :=
  match h.objs ptr with
  | some (.url fields) =>
    let h := h.free fields.protocol
    let h := h.free fields.host
    let h := h.free fields.hostname
    let h := h.free fields.path
    let h := h.free fields.pathname
    let h := h.free fields.search
    let h := h.free fields.hash
    return h.free (some ptr)
  | _ => throw .read

/-- `http_get` from `len = 1024` on; `body` is under the address of its last `realloc`. -/
def answer (d : Delivery) (stream : List UInt8) (h : UrlHeap) : CRun (Option Nat × UrlHeap) := do
  let (received, _) ← Test.receive d stream
  let body := h.next
  let h := h.alloc (.memory received)
  let cells ← Test.httpGetBody d stream
  let buf := h.next
  let h := h.alloc (.memory cells)
  return (some buf, h.free (some body))

/-- `do { … } while(0)`: the new `buf`. -/
def exchange (x : Exchange) (h : UrlHeap) : CRun (Option Nat × UrlHeap) :=
  match x with
  | .broken => return (none, h)
  | .answered d stream => answer d stream h

/-- `http_get(url, header)`. -/
def httpGet (url : List UInt8) (header : Option (List UInt8)) (x : Exchange) (h : UrlHeap) :
    CRun (Option Nat × UrlHeap) := do
  let (urlS, h) ← urlParse url h
  let request ← Test.httpGetRequest url header
  let headers := h.next
  let h := h.alloc (.text request.headers)
  let (buf, h) ← exchange x h
  let h := h.free (some headers)
  return (buf, h.free (some urlS))

end UrlHeap

/-- The blocks that the fields point to. -/
def UrlPointers.blocks (p : UrlPointers) : Multiset Nat :=
  own p.protocol + own p.host + own p.hostname + own p.path + own p.pathname + own p.search +
    own p.hash

namespace UrlHeap

/-! ## `url_parse` -/

theorem newText_moves {part : Option (List UInt8)} {h h' : UrlHeap} {a : Option Nat}
    (hnew : newText part h = (a, h')) :
    Moves h 0 h' (own a) ∧ (own a).card = if part.isSome then 1 else 0 := by
  cases part with
  | none =>
      cases hnew
      exact ⟨⟨Transfer.refl h 0, Accounts.refl h 0⟩, rfl⟩
  | some s =>
      cases hnew
      exact ⟨Moves.alloc h _, rfl⟩

theorem modify_moves (h : UrlHeap) (a : Nat) (f : UrlBlock → UrlBlock) :
    Moves h {a} (h.modify a f) {a} := ⟨Transfer.modify h a f, Accounts.modify h a f {a}⟩

/-- `url_parse` leaves its struct, the blocks of the fields, and nothing else. -/
theorem newUrl_moves {parts : UrlStruct} {h h' : UrlHeap} {urlS : Nat} (hs : h.Sound)
    (hrun : newUrl parts h = (urlS, h')) :
    ∃ p, h'.objs urlS = some (.url p) ∧ Moves h 0 h' ({urlS} + p.blocks) ∧
      p.blocks.card = 5 + (if parts.search.isSome then 1 else 0)
        + (if parts.hash.isSome then 1 else 0) := by
  have h0 := Moves.alloc h (.url ⟨none, none, none, 0, none, none, none, none⟩)
  rcases e1 : newText (some parts.protocol)
    (h.alloc (.url ⟨none, none, none, 0, none, none, none, none⟩)) with ⟨protocol, s1⟩
  rcases e2 : newText (some parts.host) s1 with ⟨host, s2⟩
  rcases e3 : newText (some parts.hostname) s2 with ⟨hostname, s3⟩
  rcases e4 : newText (some parts.path) s3 with ⟨path, s4⟩
  rcases e5 : newText (some parts.pathname) s4 with ⟨pathname, s5⟩
  rcases e6 : newText parts.search s5 with ⟨search, s6⟩
  rcases e7 : newText parts.hash s6 with ⟨hash, s7⟩
  obtain ⟨m1, c1⟩ := newText_moves e1
  obtain ⟨m2, c2⟩ := newText_moves e2
  obtain ⟨m3, c3⟩ := newText_moves e3
  obtain ⟨m4, c4⟩ := newText_moves e4
  obtain ⟨m5, c5⟩ := newText_moves e5
  obtain ⟨m6, c6⟩ := newText_moves e6
  obtain ⟨m7, c7⟩ := newText_moves e7
  have hall := ((((((h0.more m1).more m2).more m3).more m4).more m5).more m6).more m7
  obtain ⟨o, ho⟩ := Option.isSome_iff_exists.1 ((hall.sound hs).2.live h.next (by simp))
  let p : UrlPointers := ⟨protocol, host, hostname, parts.port, path, pathname, search, hash⟩
  have hblocks : {h.next} + own protocol + own host + own hostname + own path + own pathname +
      own search + own hash = {h.next} + p.blocks := by
    simp only [p, UrlPointers.blocks]
    abel
  have hnew : newUrl parts h = (h.next, s7.modify h.next fun _ => .url p) := by
    simp only [newUrl, e1, e2, e3, e4, e5, e6, e7, p]
  rw [hnew] at hrun
  cases hrun
  refine ⟨p, ?_, ?_, ?_⟩
  · rw [Heap.modify_self, ho]
    rfl
  · exact (hall.congr hblocks).trans ((modify_moves s7 h.next _).frame p.blocks)
  · simp only [p, UrlPointers.blocks, Multiset.card_add, c1, c2, c3, c4, c5, c6, c7]
    rfl

theorem urlFree_moves {url : List UInt8} {h h' : UrlHeap} {urlS : Nat} (hs : h.Sound)
    (hparse : urlParse url h = .ok (urlS, h')) :
    ∃ h'', urlFree urlS h' = .ok h'' ∧ Moves h 0 h'' 0 := by
  obtain ⟨parts, -, hnew⟩ := bind_eq_ok.1 hparse
  obtain ⟨p, hp, hmoves, -⟩ := newUrl_moves hs (Except.ok.inj hnew)
  refine ⟨_, by rw [urlFree, hp]; rfl, ?_⟩
  have hall : Moves h 0 h' (own (some urlS) + own p.hash + own p.search + own p.pathname +
      own p.path + own p.hostname + own p.host + own p.protocol) := by
    refine hmoves.congr ?_
    simp only [UrlPointers.blocks, own_some]
    abel
  have hlast := ((((((hall.less (Moves.free _ _)).less (Moves.free _ _)).less
    (Moves.free _ _)).less (Moves.free _ _)).less (Moves.free _ _)).less (Moves.free _ _)).less
    (Moves.free _ _)
  rw [← zero_add (own (some urlS))] at hlast
  exact hlast.less (Moves.free _ _)

/-- **`url_free` gives back what `url_parse` allocated.** -/
theorem urlFree_urlParse (url : List UInt8) (parts : UrlStruct)
    (hparse : Ryze.urlParse url = .ok parts) (h : UrlHeap) (hs : h.Sound) :
    ∃ urlS h' h'', urlParse url h = .ok (urlS, h') ∧ urlFree urlS h' = .ok h'' ∧ h''.Sound ∧
      ∀ a, (h''.objs a).isSome ↔ (h.objs a).isSome := by
  have hrun : urlParse url h = .ok (newUrl parts h) := by
    rw [urlParse, hparse]
    rfl
  rcases hnew : newUrl parts h with ⟨urlS, h'⟩
  rw [hnew] at hrun
  obtain ⟨h'', hfree, hmoves⟩ := urlFree_moves hs hrun
  refine ⟨urlS, h', h'', hrun, hfree, (hmoves.sound hs).1, fun a => ?_⟩
  rw [hmoves.live_iff hs a, or_iff_right (Multiset.notMem_zero a)]

theorem urlFree_urlParse_hash :
    ∃ urlS h' h'', urlParse (bytes "http://a/b#c") Heap.empty = .ok (urlS, h') ∧
      urlFree urlS h' = .ok h'' ∧ h''.Sound ∧ ∀ a, (h''.objs a).isSome ↔ False := by
  obtain ⟨urlS, h', h'', hparse, hfree, hs, hlive⟩ := urlFree_urlParse (bytes "http://a/b#c")
    ⟨bytes "http:", bytes "a", bytes "a", 80, bytes "/b", bytes "/b", none, some (bytes "#c")⟩
    (by decide +kernel) Heap.empty Heap.Sound.empty
  exact ⟨urlS, h', h'', hparse, hfree, hs, fun a => (hlive a).trans (by simp [Heap.empty])⟩

/-! ## `http_get` -/

theorem exchange_moves {x : Exchange} {h h' : UrlHeap} {buf : Option Nat}
    (hrun : exchange x h = .ok (buf, h')) : Moves h 0 h' (own buf) := by
  cases x with
  | broken =>
      cases hrun
      exact ⟨Transfer.refl h 0, Accounts.refl h 0⟩
  | answered d stream =>
      obtain ⟨⟨received, nread⟩, -, hrun⟩ := bind_eq_ok.1 hrun
      obtain ⟨cells, -, hrun⟩ := bind_eq_ok.1 hrun
      cases hrun
      have hboth := (Moves.alloc h (.memory received)).more (Moves.alloc _ (.memory cells))
      rw [add_comm] at hboth
      exact hboth.less (Moves.free _ (some h.next))

/-- A part that begins with `c` is there where the URL has one. -/
theorem isSome_part {c : UInt8} {url : List UInt8} {part : Option (List UInt8)}
    {copy : Nat → CRun (Option (List UInt8))} (hcopy : ∀ p, copy p = .ok part → part.isSome)
    (hrun : (match strstr [c] url 0 with
      | none => return none
      | some p => copy p) = .ok part) : part.isSome ↔ c ∈ url := by
  rcases strstr_byte_cases c url 0 with ⟨hc, hnone⟩ | ⟨a, b, rfl, -, hsome⟩
  · rw [hnone] at hrun
    cases hrun
    simpa using hc
  · rw [hsome] at hrun
    exact iff_of_true (hcopy _ hrun) (by simp)

theorem urlSearch_isSome {url : List UInt8} {len : Int} {search : Option (List UInt8)}
    (hrun : urlSearch url len = .ok search) : search.isSome ↔ question ∈ url := by
  refine isSome_part (fun p hcopy => ?_) hrun
  obtain ⟨src, -, hcopy⟩ := bind_eq_ok.1 hcopy
  obtain ⟨s, -, hcopy⟩ := bind_eq_ok.1 hcopy
  cases hcopy
  rfl

theorem urlHash_isSome {url : List UInt8} {len : Int} {hash : Option (List UInt8)}
    (hrun : urlHash url len = .ok hash) : hash.isSome ↔ hashSign ∈ url := by
  refine isSome_part (fun p hcopy => ?_) hrun
  obtain ⟨src, -, hcopy⟩ := bind_eq_ok.1 hcopy
  obtain ⟨s, -, hcopy⟩ := bind_eq_ok.1 hcopy
  cases hcopy
  rfl

theorem urlParse_isSome {url : List UInt8} {parts : UrlStruct}
    (hparse : Ryze.urlParse url = .ok parts) :
    (parts.search.isSome ↔ question ∈ url) ∧ (parts.hash.isSome ↔ hashSign ∈ url) := by
  cases hp : strstr (bytes "//") url 0 with
  | none =>
      rw [Ryze.urlParse, hp] at hparse
      cases hparse
  | some p =>
      obtain ⟨_, _, _, _, _, _, _, _, _, _, hsearch, hhash⟩ := (urlParse_eq_ok hp).1 hparse
      exact ⟨urlSearch_isSome hsearch, urlHash_isSome hhash⟩

theorem httpGet_moves {url : List UInt8} {header : Option (List UInt8)} {x : Exchange}
    {h h' : UrlHeap} (hs : h.Sound) {buf : Option Nat}
    (hrun : httpGet url header x h = .ok (buf, h')) :
    ∃ leaked : Multiset Nat, Moves h 0 h' (own buf + leaked) ∧
      leaked.card = 5 + (if question ∈ url then 1 else 0) +
        (if hashSign ∈ url then 1 else 0) := by
  obtain ⟨⟨urlS, s1⟩, hparse, hrun⟩ := bind_eq_ok.1 hrun
  obtain ⟨request, -, hrun⟩ := bind_eq_ok.1 hrun
  obtain ⟨⟨got, s2⟩, hexchange, hrun⟩ := bind_eq_ok.1 hrun
  cases hrun
  obtain ⟨parts, hparts, hnew⟩ := bind_eq_ok.1 hparse
  obtain ⟨p, -, hmoves, hcard⟩ := newUrl_moves hs (Except.ok.inj hnew)
  obtain ⟨hsearch, hhash⟩ := urlParse_isSome hparts
  simp only [hsearch, hhash] at hcard
  -- the struct, its strings, the request and the answer; then the request and the struct go
  have hall := (hmoves.more (Moves.alloc _ (.text request.headers))).more
    (exchange_moves hexchange)
  have hblocks : {urlS} + p.blocks + {s1.next} + own buf =
      own buf + p.blocks + own (some urlS) + own (some s1.next) := by
    simp only [own_some]
    abel
  exact ⟨p.blocks, ((hall.congr hblocks).less (Moves.free _ _)).less (Moves.free _ _), hcard⟩

/-- `http_get` returns where its halves do. -/
theorem httpGet_returns {url : List UInt8} {header : Option (List UInt8)} {x : Exchange}
    (hrequest : ∃ request, Test.httpGetRequest url header = .ok request)
    (hx : ∀ d stream, x = .answered d stream →
      ∃ cells, Test.httpGetBody d stream = .ok cells) (h : UrlHeap) :
    ∃ buf h', httpGet url header x h = .ok (buf, h') := by
  obtain ⟨request, hrequest⟩ := hrequest
  obtain ⟨parts, hparts, -⟩ := bind_eq_ok.1 hrequest
  have hexchange : ∀ s : UrlHeap, ∃ r, exchange x s = .ok r := by
    intro s
    cases x with
    | broken => exact ⟨_, rfl⟩
    | answered d stream =>
        obtain ⟨cells, hcells⟩ := hx d stream rfl
        obtain ⟨received, hreceived, -⟩ := bind_eq_ok.1 hcells
        exact ⟨_, by rw [exchange, answer, hreceived, ok_bind, hcells]; rfl⟩
  rcases hnew : newUrl parts h with ⟨urlS, s1⟩
  have hparse : urlParse url h = .ok (urlS, s1) := by
    rw [urlParse, hparts, ← hnew]
    rfl
  obtain ⟨⟨buf, s2⟩, hs2⟩ := hexchange (s1.alloc (.text request.headers))
  exact ⟨buf, (s2.free (some s1.next)).free (some urlS), bind_eq_ok.2 ⟨(urlS, s1), hparse,
    bind_eq_ok.2 ⟨request, hrequest, bind_eq_ok.2 ⟨(buf, s2), hs2, rfl⟩⟩⟩⟩

/-- **What `http_get` leaks.** However the exchange ends, the strings of the `struct url_struct`
    stay behind: five, and one more for each of `search` and `hash` that the URL has. -/
theorem httpGet_leaks (url : List UInt8) (header : Option (List UInt8)) (x : Exchange)
    (hrequest : ∃ request, Test.httpGetRequest url header = .ok request)
    (hx : ∀ d stream, x = .answered d stream →
      ∃ cells, Test.httpGetBody d stream = .ok cells) (h : UrlHeap) (hs : h.Sound) :
    ∃ buf h', httpGet url header x h = .ok (buf, h') ∧ h'.Sound ∧
      ∃ leaked : Multiset Nat, h'.Owns (own buf + leaked) ∧
        leaked.card = 5 + (if question ∈ url then 1 else 0) +
          (if hashSign ∈ url then 1 else 0) ∧
        (∀ a ∈ leaked, h.objs a = none) ∧
        ∀ a, (h'.objs a).isSome ↔ a ∈ own buf ∨ a ∈ leaked ∨ (h.objs a).isSome := by
  obtain ⟨buf, h', hrun⟩ := httpGet_returns hrequest hx h
  obtain ⟨leaked, hmoves, hcard⟩ := httpGet_moves hs hrun
  obtain ⟨hs', ho'⟩ := hmoves.sound hs
  refine ⟨buf, h', hrun, hs', leaked, ho', hcard, fun a ha => ?_, fun a => ?_⟩
  · by_contra hlive
    have hold := hmoves.old hs (Option.isSome_iff_ne_none.2 hlive)
    exact hold.2 (Multiset.mem_add.2 (Or.inr ha))
  · rw [hmoves.live_iff hs a, Multiset.mem_add, or_assoc]

theorem httpGet_leaks_query :
    ∃ buf h', httpGet (bytes "http://a/b?c") none .broken Heap.empty = .ok (buf, h') ∧
      ∃ leaked : Multiset Nat, leaked.card = 6 ∧
        ∀ a, (h'.objs a).isSome ↔ a ∈ own buf ∨ a ∈ leaked := by
  have hrequest : Test.httpGetRequest (bytes "http://a/b?c") none = .ok ⟨bytes "a", 80,
      bytes "GET /b?c HTTP/1.1\r\nHost: a\r\nConnection: close\r\n\r\n"⟩ := by
    decide +kernel
  obtain ⟨buf, h', hrun, -, leaked, -, hcard, -, hlive⟩ := httpGet_leaks (bytes "http://a/b?c")
    none .broken ⟨_, hrequest⟩ (fun _ _ hx => by cases hx) Heap.empty Heap.Sound.empty
  refine ⟨buf, h', hrun, leaked, hcard.trans (by decide), fun a => (hlive a).trans ?_⟩
  simp [Heap.empty]

end UrlHeap

end Ryze
