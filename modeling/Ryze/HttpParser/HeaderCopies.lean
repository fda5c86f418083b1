import Ryze.HttpParser.HeaderLanguage

set_option autoImplicit false

/-! # The two copies of `http_parse_header`

The older parser takes the lines of the newer one and stores the same headers, but its values are
longer by one byte for every folded line, and its one return code leaves out whether the empty line
was there (`httpParseHeader_agrees`). -/

namespace Ryze

open CLib

/-- An entry's header, longer by as many bytes as lines are folded into it. -/
def Entry.longerHeader (e : Entry) : HttpHeader :=
  { e.header RawLine.foldedLen with
    valueLen := sizeAdd (e.header RawLine.foldedLen).valueLen e.folds.length }

namespace Http

/-- The copy counts the line end for the blank. -/
theorem foldedLen_succ {l : RawLine} (h : l.wire.length < 2147483648) :
    foldedLen l = l.foldedLen + 1 := by
  have hlen := l.wire_length
  rw [foldedLen, RawLine.foldedLen, toInt32_of_lt (by omega), toInt32_of_lt (by omega)]
  rfl

theorem sum_foldedLen {ls : List RawLine} (h : ∀ l ∈ ls, l.wire.length < 2147483648) :
    (ls.map foldedLen).sum = (ls.map RawLine.foldedLen).sum + ls.length := by
  induction ls with
  | nil => rfl
  | cons l ls ih =>
      have hl := foldedLen_succ (h l List.mem_cons_self)
      have hls := ih fun k hk => h k (List.mem_cons_of_mem _ hk)
      simp only [List.map_cons, List.sum_cons, List.length_cons]
      omega

end Http

/-! ## Folded lines -/

/-- What is folded into an entry is one of the lines. -/
theorem mem_of_mem_folds {maxHeader : Int} {ls : List RawLine} {e : Entry}
    (he : e ∈ entriesOf maxHeader ls) {l : RawLine} (hl : l ∈ e.folds) : l ∈ ls := by
  induction ls using List.reverseRecOn generalizing e l with
  | nil => cases he
  | append_singleton ls k ih =>
      rw [entriesOf_snoc, takeEntry] at he
      split at he
      · rcases List.eq_nil_or_concat' (entriesOf maxHeader ls) with hnil | ⟨es, last, hes⟩
        · rw [hnil] at he
          cases he
        · rw [hes, List.modifyLast_concat, List.mem_append, List.mem_singleton] at he
          rcases he with he | rfl
          · exact List.mem_append_left _ (ih (by rw [hes]; exact List.mem_append_left _ he) hl)
          · simp only [Entry.fold, List.mem_append, List.mem_singleton] at hl
            rcases hl with hl | rfl
            · exact List.mem_append_left _ (ih (e := last) (by rw [hes]; simp) hl)
            · simp
      · split at he
        · rcases List.mem_append.1 he with he | he
          · exact List.mem_append_left _ (ih he hl)
          · rw [List.mem_singleton.1 he] at hl
            cases hl
        · exact List.mem_append_left _ (ih he hl)

theorem wire_length_le {ls : List RawLine} {l : RawLine} (hl : l ∈ ls) :
    l.wire.length ≤ (linesWire ls).length := by
  induction ls with
  | nil => cases hl
  | cons k ls ih =>
      rw [linesWire_cons, List.length_append]
      rcases List.mem_cons.1 hl with rfl | hl
      · omega
      · have hle := ih hl
        omega

/-- What the copy stores for the lines. -/
theorem Http.headersOf_eq {ls : List RawLine} (hlen : (linesWire ls).length < 2147483648)
    (maxHeader : Int) :
    headersOf Http.foldedLen maxHeader ls = (entriesOf maxHeader ls).map Entry.longerHeader := by
  have hmod : 2147483648 < sizeMod := by decide
  refine List.map_congr_left fun e he => ?_
  have hstop := (entriesOf_layout Http.foldedLen_lt maxHeader ls).stop_le e he
  have hvalue := (entriesOf_layout Http.foldedLen_lt maxHeader ls).value_le he
  have hextra : e.stop Http.foldedLen = e.stop RawLine.foldedLen + e.folds.length := by
    have hsum : (e.folds.map Http.foldedLen).sum = _ := Http.sum_foldedLen fun l hl =>
      Nat.lt_of_le_of_lt (wire_length_le (mem_of_mem_folds he hl)) hlen
    simp only [Entry.stop, Entry.extra, hsum]
    omega
  have hgrow := ptrDiff_grow (a := e.stop RawLine.foldedLen) (b := e.value) (n := e.folds.length)
    (by omega) (by omega)
  simp only [Entry.longerHeader, Entry.header, hgrow, hextra]

/-! ## Both parsers -/

/-- What the copy returns where the parser returns `r`. -/
structure HeaderResult.Copied (maxHeader : Int) (ls : List RawLine) (r : HeaderResult)
    (c : Http.HeaderResult) : Prop where
  ret : c.ret = if r.ret = 0 then (r.readLen : Int) - 2 else r.readLen
  headers : r.headers = (entriesOf maxHeader ls).map (Entry.header RawLine.foldedLen)
  copied : c.headers = (entriesOf maxHeader ls).map Entry.longerHeader

section Agree

variable {data : List UInt8} {maxHeader : Int}

/-- On a block that is complete. -/
theorem Closed.copied (hlen : data.length < 2147483648) {ls : List RawLine} {l : RawLine}
    {body : List UInt8} {r : HeaderResult} (h : Closed data maxHeader ls l body r) :
    ∃ c, Http.httpParseHeader data maxHeader = .ok c ∧ r.Copied maxHeader (ls ++ [l]) c := by
  have hmax : data.length ≤ ptrdiffMax := Nat.le_of_lt (hlen.trans (by decide))
  obtain ⟨c, hc, hclosed⟩ := (Http.headerLines maxHeader h.lines.data_ne hmax).closed h.lines
    (Nat.le_refl (data.length + 2))
  have hlines : (linesWire (ls ++ [l])).length < 2147483648 := by
    rw [linesWire_snoc, List.length_append]
    rw [h.lines.data_eq, List.length_append, List.length_append] at hlen
    omega
  refine ⟨c, hc, ?_, h.taken.headers_eq, ?_⟩
  · rw [hclosed.ret, if_pos h.ret, h.readLen_eq, toInt32_of_lt hlines]
    omega
  · rw [hclosed.headers_eq, Http.headersOf_eq hlines]

/-- At the end of the lines. -/
theorem Drained.copied (hlen : data.length < 2147483648) {ls : List RawLine} {l : RawLine}
    {rest : List UInt8} {s : HeaderState} (h : Drained data maxHeader ls l rest s) :
    ∃ c, Http.httpParseHeader data maxHeader = .ok c ∧
      (HeaderResult.Copied maxHeader (ls ++ [l]) ⟨1, s.data, s.headers, s.readLen⟩ c) := by
  have hmax : data.length ≤ ptrdiffMax := Nat.le_of_lt (hlen.trans (by decide))
  obtain ⟨c, hc, t, hdrained, rfl⟩ := (Http.headerLines maxHeader h.lines.data_ne hmax).ended
    h.lines h.rest_eq (Nat.le_refl (data.length + 2))
  have hlines : (linesWire (ls ++ [l])).length < 2147483648 := by
    rw [linesWire_snoc, List.length_append]
    rw [h.lines.data_eq, List.length_append, List.length_append] at hlen
    omega
  refine ⟨_, hc, ?_, h.taken.headers_eq, ?_⟩
  · rw [if_neg (show (1 : Int) ≠ 0 by decide)]
    show t.readLen = s.readLen
    rw [hdrained.readLen_eq, h.readLen_eq, toInt32_of_lt hlines]
  · rw [hdrained.headers_eq, Http.headersOf_eq hlines]

/-- The copy does not see the empty line. -/
theorem httpParseHeader_cutBlock (hlen : data.length < 2147483648) {b : RawBlock}
    {body : List UInt8} (hdata : data = b.wire ++ body) :
    Http.httpParseHeader data maxHeader = Http.httpParseHeader (linesWire b.lines) maxHeader := by
  have hmax : data.length ≤ ptrdiffMax := Nat.le_of_lt (hlen.trans (by decide))
  have hle : (linesWire b.lines).length ≤ data.length := by
    rw [hdata, RawBlock.wire, List.length_append, List.length_append]
    omega
  rw [RawBlock.wire_append] at hdata
  obtain ⟨before, last, hlines, htaken⟩ := b.lines_of_wire (CR :: LF :: body)
  rw [← hdata] at htaken
  obtain ⟨before', last', hlines', htaken'⟩ := b.lines_of_wire []
  rw [List.append_nil] at htaken'
  obtain ⟨c, hc, hclosed⟩ := (Http.headerLines maxHeader htaken.data_ne hmax).closed htaken
    (Nat.le_refl (data.length + 2))
  obtain ⟨c', hc', t, hdrained, rfl⟩ := (Http.headerLines maxHeader htaken'.data_ne
    (hle.trans hmax)).ended htaken' (Or.inl rfl) (Nat.le_refl ((linesWire b.lines).length + 2))
  have hheaders := hclosed.headers_eq
  have hret := hclosed.ret
  rw [← hlines, hlines', ← hdrained.headers_eq] at hheaders
  rw [← hlines, hlines', ← hdrained.readLen_eq] at hret
  obtain ⟨ret, headers⟩ := c
  simp only at hheaders hret
  rw [Http.httpParseHeader, hc, Http.httpParseHeader, hc', hheaders, hret]

/-- **Agreement of the copies.** On a buffer whose length fits an `int` the copy stays inside
    exactly where the parser does; it stores the same headers, with values longer by a byte for
    every folded line, and returns the length of the lines. So it returns the same for a block and
    for its lines without the empty one. -/
theorem httpParseHeader_agrees (data : List UInt8) (maxHeader : Int)
    (hlen : data.length < 2147483648) :
    ((∃ r, httpParseHeader data maxHeader = .ok r) ↔
      ∃ c, Http.httpParseHeader data maxHeader = .ok c) ∧
    (∀ r c, data ≠ [] → httpParseHeader data maxHeader = .ok r →
      Http.httpParseHeader data maxHeader = .ok c →
      ∃ ls, AllLines data ls ∧ r.Copied maxHeader ls c) ∧
    ∀ (b : RawBlock) (body : List UInt8), data = b.wire ++ body →
      Http.httpParseHeader data maxHeader = Http.httpParseHeader (linesWire b.lines) maxHeader := by
  have hmax : data.length ≤ ptrdiffMax := Nat.le_of_lt (hlen.trans (by decide))
  refine ⟨?_, fun r c hdata hr hc => ?_, fun b body hdata => httpParseHeader_cutBlock hlen hdata⟩
  · rw [httpParseHeader_inBounds maxHeader hmax, Http.httpParseHeader_inBounds maxHeader hmax]
  · rcases httpParseHeader_result hdata hmax hr with ⟨ls, l, body, h⟩ | ⟨ls, l, rest, s, h, rfl⟩
    · obtain ⟨c', hc', hcopied⟩ := h.copied hlen
      cases hc.symm.trans hc'
      exact ⟨ls ++ [l], ⟨ls, l, _, rfl, h.lines, not_continues_empty body⟩, hcopied⟩
    · obtain ⟨c', hc', hcopied⟩ := h.copied hlen
      cases hc.symm.trans hc'
      exact ⟨ls ++ [l], ⟨ls, l, _, rfl, h.lines, not_continues h.rest_eq⟩, hcopied⟩

end Agree

/-- A header with a folded line: the copy's value is one byte longer. -/
theorem httpParseHeader_agrees_folded :
    ∃ ls, AllLines (bytes "A: b\r\n c:d\r\n\r\n") ls ∧
      HeaderResult.Copied 4 ls ⟨0, bytes "A: bc:dc:d\r\n\r\n", [⟨0, 1, 3, 4⟩], 14⟩
        ⟨12, [⟨0, 1, 3, 5⟩]⟩ := by
  have hr : httpParseHeader (bytes "A: b\r\n c:d\r\n\r\n") 4
      = .ok ⟨0, bytes "A: bc:dc:d\r\n\r\n", [⟨0, 1, 3, 4⟩], 14⟩ := by decide +kernel
  have hc : Http.httpParseHeader (bytes "A: b\r\n c:d\r\n\r\n") 4
      = .ok ⟨12, [⟨0, 1, 3, 5⟩]⟩ := by decide +kernel
  exact (httpParseHeader_agrees (bytes "A: b\r\n c:d\r\n\r\n") 4 (by decide)).2.1 _ _ (by decide)
    hr hc

end Ryze
