import Ryze.HttpParser.HeaderBlock

set_option autoImplicit false

/-! # Where `http_parse_header` leaves its buffer

The scans of a line have no end test: the function stays in its buffer exactly if it finds a colon,
and a line end behind it, wherever it begins a line (`LineLoop.ok_iff`). The empty line is only
looked for behind a line, so a block without headers is such a place already. On all other buffers a
block that was cut is reported as incomplete, since the function stops early only at two CR LFs side
by side. The copy tells the length of the lines it took instead, cut or not. -/

namespace Ryze

open CLib

/-! ## Cut blocks -/

/-- The bytes in front of a CR at the end of the buffer. -/
def takenLen (data : List UInt8) : Nat :=
  if data.getLast? = some CR then data.length - 1 else data.length

/-- A buffer in which the function found the empty line is no part of a longer block. -/
theorem IsCutBlock.not_closed {data body : List UInt8} {ls : List RawLine} {l : RawLine}
    (hcut : IsCutBlock data) (h : Lines data ls (l.wire ++ CR :: LF :: body)) : False := by
  obtain ⟨fs, t, ht, hblock⟩ := hcut
  rw [h.data_eq, RawLine.wire_append, headerBlock] at hblock
  have hend := closeLines_end (blockLines_text fs)
    (u := linesWire ls ++ (l.name ++ colon :: l.tail)) (v := body ++ t) (by rw [← hblock]; simp)
  exact ht (List.append_eq_nil_iff.1 hend).2

theorem linesWire_last (ls : List RawLine) (l : RawLine) :
    (linesWire (ls ++ [l])).getLast? = some LF := by
  have hwire : linesWire (ls ++ [l])
      = (linesWire ls ++ (l.name ++ colon :: (l.tail ++ [CR]))) ++ [LF] := by
    simp [linesWire_snoc, RawLine.wire]
  rw [hwire, List.getLast?_concat]

/-- The lines of a buffer that ends behind one of them. -/
theorem takenLen_lines {data rest : List UInt8} {ls : List RawLine} {l : RawLine}
    (h : Lines data ls (l.wire ++ rest)) (hrest : rest = [] ∨ rest = [CR]) :
    (linesWire (ls ++ [l])).length = takenLen data := by
  have hdata : data = linesWire (ls ++ [l]) ++ rest := by
    rw [linesWire_snoc, List.append_assoc, ← h.data_eq]
  rw [hdata, takenLen]
  rcases hrest with rfl | rfl
  · rw [List.append_nil, linesWire_last, if_neg (by decide)]
  · rw [List.getLast?_concat, if_pos rfl, List.length_append, List.length_singleton,
      Nat.add_sub_cancel]

theorem stuck_ne_nil {data : List UInt8} (h : Stuck data) : data ≠ [] := by
  obtain ⟨ls, b, hlines, -⟩ := h
  exact hlines.data_ne

/-- In front of a buffer without a colon the function is stuck. -/
theorem stuck_empty : Stuck [CR, LF] := by
  refine ⟨[], [CR, LF], Lines.start (by decide), fun w t heq _ => ?_⟩
  have hcolon : colon ∈ [CR, LF] := by
    rw [heq]
    simp
  exact absurd hcolon (by decide)

/-! ## The parser of the server -/

/-- `http_parse_header` returns without having left its buffer; it accepts a block without headers
    and asks for more of a block that was cut. -/
structure HeaderSafe (data : List UInt8) (maxHeader : Int) : Prop where
  returns : ∃ r, httpParseHeader data maxHeader = .ok r
  empty : data = [CR, LF] → ∃ r, httpParseHeader data maxHeader = .ok r ∧ r.ret = 0 ∧ r.headers = []
  cut : IsCutBlock data → ∃ r, httpParseHeader data maxHeader = .ok r ∧ r.ret = 1

theorem httpParseHeader_inBounds {data : List UInt8} (maxHeader : Int)
    (hmax : data.length ≤ ptrdiffMax) :
    (∃ r, httpParseHeader data maxHeader = .ok r) ↔ ¬ Stuck data := by
  by_cases hdata : data = []
  · subst hdata
    exact iff_of_true ⟨_, httpParseHeader_nil⟩ fun h => stuck_ne_nil h rfl
  · exact (headerLines maxHeader hdata hmax).ok_iff (Nat.le_refl _)

theorem headerSafe_iff {data : List UInt8} (maxHeader : Int) (hmax : data.length ≤ ptrdiffMax) :
    HeaderSafe data maxHeader ↔ ¬ Stuck data := by
  constructor
  · intro h
    exact (httpParseHeader_inBounds maxHeader hmax).1 h.returns
  · intro hstuck
    obtain ⟨r, hr⟩ := (httpParseHeader_inBounds maxHeader hmax).2 hstuck
    refine ⟨⟨r, hr⟩, ?_, ?_⟩
    · rintro rfl
      exact absurd stuck_empty hstuck
    · intro hcut
      refine ⟨r, hr, ?_⟩
      by_cases hdata : data = []
      · subst hdata
        rw [httpParseHeader_nil] at hr
        cases hr
        rfl
      · rcases httpParseHeader_result hdata hmax hr with ⟨ls, l, body, h⟩ | ⟨ls, l, rest, s, h, rfl⟩
        · exact (hcut.not_closed h.lines).elim
        · rfl

/-! ## The copy -/

namespace Http

/-- The copy reports by the codes of its request line parser: a length, or `-2` for a block that was
    cut. -/
structure HeaderSafe (data : List UInt8) (maxHeader : Int) : Prop where
  returns : ∃ r, httpParseHeader data maxHeader = .ok r
  empty : data = [CR, LF] → ∃ r, httpParseHeader data maxHeader = .ok r ∧ 0 ≤ r.ret ∧ r.headers = []
  cut : IsCutBlock data → ∃ r, httpParseHeader data maxHeader = .ok r ∧ r.ret = -2

theorem httpParseHeader_inBounds {data : List UInt8} (maxHeader : Int)
    (hmax : data.length ≤ ptrdiffMax) :
    (∃ r, httpParseHeader data maxHeader = .ok r) ↔ ¬ Stuck data := by
  by_cases hdata : data = []
  · subst hdata
    exact iff_of_true ⟨_, httpParseHeader_nil⟩ fun h => stuck_ne_nil h rfl
  · exact (headerLines maxHeader hdata hmax).ok_iff (Nat.le_refl _)

/-- What the copy returns for a block that was cut. -/
theorem httpParseHeader_cut {data : List UInt8} {maxHeader : Int} {r : HeaderResult}
    (hdata : data ≠ []) (hmax : data.length ≤ ptrdiffMax) (hcut : IsCutBlock data)
    (h : httpParseHeader data maxHeader = .ok r) : r.ret = toInt32 (takenLen data) := by
  rcases httpParseHeader_result hdata hmax h with ⟨ls, l, body, hend⟩ | ⟨ls, l, rest, s, hend, rfl⟩
  · exact (hcut.not_closed hend.lines).elim
  · show s.readLen = _
    rw [hend.readLen_eq, takenLen_lines hend.lines hend.rest_eq]

theorem headerSafe_iff {data : List UInt8} (maxHeader : Int) (hmax : data.length ≤ ptrdiffMax) :
    HeaderSafe data maxHeader ↔
      ¬ Stuck data ∧ (IsCutBlock data → data = [] ∨ toInt32 (takenLen data) = -2) := by
  constructor
  · intro h
    refine ⟨(httpParseHeader_inBounds maxHeader hmax).1 h.returns, fun hcut => ?_⟩
    obtain ⟨r, hr, hret⟩ := h.cut hcut
    by_cases hdata : data = []
    · exact Or.inl hdata
    · exact Or.inr ((httpParseHeader_cut hdata hmax hcut hr).symm.trans hret)
  · rintro ⟨hstuck, hcut⟩
    obtain ⟨r, hr⟩ := (httpParseHeader_inBounds maxHeader hmax).2 hstuck
    refine ⟨⟨r, hr⟩, ?_, fun h => ⟨r, hr, ?_⟩⟩
    · rintro rfl
      exact absurd stuck_empty hstuck
    · by_cases hdata : data = []
      · subst hdata
        rw [httpParseHeader_nil] at hr
        cases hr
        rfl
      · exact (httpParseHeader_cut hdata hmax h hr).trans ((hcut h).resolve_left hdata)

end Http

/-! ## Both parsers -/

/-- **Safety of `http_parse_header`.** The server's parser is safe exactly where it is not stuck; the
    copy besides only on the empty one of the blocks that were cut, or where its `int` happens to
    wrap to the right code. -/
theorem httpParseHeader_safe (data : List UInt8) (maxHeader : Int)
    (hmax : data.length ≤ ptrdiffMax) :
    (HeaderSafe data maxHeader ↔ ¬ Stuck data) ∧
    (Http.HeaderSafe data maxHeader ↔
      ¬ Stuck data ∧ (IsCutBlock data → data = [] ∨ toInt32 (takenLen data) = -2)) :=
  ⟨headerSafe_iff maxHeader hmax, Http.headerSafe_iff maxHeader hmax⟩

/-- A header line and the start of the empty one. -/
theorem httpParseHeader_safe_line : HeaderSafe (bytes "A: b\r\n\r") 4 := by
  refine (httpParseHeader_safe (bytes "A: b\r\n\r") 4 (by decide)).1.2 ?_
  refine (httpParseHeader_inBounds 4 (by decide)).1 ?_
  exact ⟨⟨1, bytes "A: b\r\n\r", [⟨0, 1, 3, 1⟩], 6⟩, by decide +kernel⟩

/-- A request without headers: the scan for a colon runs off the buffer. -/
theorem httpParseHeader_empty :
    httpParseHeader (bytes "\r\n") 4 = .error .read ∧ ¬ HeaderSafe (bytes "\r\n") 4 ∧
      ¬ Http.HeaderSafe (bytes "\r\n") 4 := by
  have hrun : httpParseHeader (bytes "\r\n") 4 = .error .read := by decide +kernel
  have hcopy : Http.httpParseHeader (bytes "\r\n") 4 = .error .read := by decide +kernel
  refine ⟨hrun, fun h => ?_, fun h => ?_⟩
  · obtain ⟨r, hr⟩ := h.returns
    rw [hrun] at hr
    cases hr
  · obtain ⟨r, hr⟩ := h.returns
    rw [hcopy] at hr
    cases hr

end Ryze
