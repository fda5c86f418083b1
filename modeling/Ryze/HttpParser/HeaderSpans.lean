import Ryze.HttpParser.HeaderBlock

set_option autoImplicit false

/-! # The spans of stored headers

The name of a stored header is a run of token characters, which may be empty. Its value is found from
the front and its length from the back; in a value of blanks only the two cross, so its length wraps
until folded lines add at least as many bytes as there are blanks (`Entry.Fits`). -/

namespace Ryze

open CLib

/-- The name of a header is a token that stands in the buffer, and so does its value, as integers. -/
def SpanValid (data : List UInt8) (h : HttpHeader) : Prop :=
  (∃ name, slice data h.name h.nameLen = some name ∧ name ≠ [] ∧ ∀ c ∈ name, isTokenChar c = true) ∧
    h.value + h.valueLen ≤ data.length

/-- The line has a name, and where its value is blanks only, the folded lines add as many bytes. -/
def Entry.Fits (added : RawLine → Nat) (e : Entry) : Prop :=
  e.line.name ≠ [] ∧ ((∀ c ∈ e.line.tail, isBlank c = true) → e.line.tail.length ≤ e.extra added)

/-- Every stored line of the buffer fits. -/
def SpansFit (added : RawLine → Nat) (data : List UInt8) (maxHeader : Int) : Prop :=
  ∀ ls, AllLines data ls → ∀ e ∈ entriesOf maxHeader ls, e.Fits added

/-! ## One header -/

theorem leadingBlanks_of_blank {v : List UInt8} (h : ∀ c ∈ v, isBlank c = true) :
    leadingBlanks v = v.length ∧ trimmedLen v = 0 := by
  constructor
  · rw [leadingBlanks, List.takeWhile_eq_self_iff.2 h]
  · rw [trimmedLen, List.rdropWhile_eq_nil_iff.2 h, List.length_nil]

/-- With a byte that is no blank, the blanks in front end before the ones behind begin. -/
theorem leadingBlanks_lt {v : List UInt8} (h : ¬ ∀ c ∈ v, isBlank c = true) :
    leadingBlanks v < trimmedLen v := by
  have hne : v.rdropWhile isBlank ≠ [] := fun hnil => h (List.rdropWhile_eq_nil_iff.1 hnil)
  have hlast := List.rdropWhile_last_not isBlank v hne
  by_contra hge
  -- then the last byte that is no blank is one of the blanks in front
  have hpre : v.rdropWhile isBlank <+: v.takeWhile isBlank :=
    List.prefix_of_prefix_length_le (List.rdropWhile_prefix isBlank v) (List.takeWhile_prefix isBlank)
      (Nat.not_lt.1 hge)
  exact hlast (List.mem_takeWhile_imp (hpre.subset (List.getLast_mem hne)))

theorem Entry.value_le_stop (added : RawLine → Nat) (e : Entry) :
    e.value ≤ e.stop added ↔
      ((∀ c ∈ e.line.tail, isBlank c = true) → e.line.tail.length ≤ e.extra added) := by
  unfold Entry.value Entry.stop
  by_cases hblank : ∀ c ∈ e.line.tail, isBlank c = true
  · obtain ⟨hlead, htrim⟩ := leadingBlanks_of_blank hblank
    rw [hlead, htrim]
    constructor
    · intro h _
      omega
    · intro h
      have := h hblank
      omega
  · have hlt := leadingBlanks_lt hblank
    exact iff_of_true (by omega) fun h => absurd h hblank

section Span

variable {added : RawLine → Nat} {w data : List UInt8} {es : List Entry} {e : Entry}

/-- **One header.** Its span is valid exactly if its entry fits. -/
theorem Layout.spanValid_iff (h : Layout added w es) (he : e ∈ es) (hw : w.length ≤ data.length)
    (hmax : data.length ≤ ptrdiffMax)
    (hname : slice data e.start e.line.name.length = some e.line.name) :
    SpanValid data (e.header added) ↔ e.Fits added := by
  have hstop := h.stop_le e he
  have hvalue := h.value_le he
  have hmod : ptrdiffMax < sizeMod := by decide
  have hspan : (e.header added).value + (e.header added).valueLen ≤ data.length ↔
      e.value ≤ e.stop added := by
    show e.value + ptrDiff (e.stop added) e.value ≤ data.length ↔ _
    unfold ptrDiff
    split <;> omega
  have htoken : ∀ c ∈ e.line.name, isTokenChar c = true := List.all_eq_true.1 (h.stored e he).1
  unfold SpanValid Entry.Fits
  rw [hspan, e.value_le_stop]
  refine and_congr_left fun _ => ?_
  constructor
  · rintro ⟨name, hslice, hne, -⟩
    obtain rfl : e.line.name = name := Option.some.inj (hname.symm.trans hslice)
    exact hne
  · intro hne
    exact ⟨e.line.name, hname, hne, htoken⟩

end Span

theorem AllLines.data_eq {data : List UInt8} {ls : List RawLine} (h : AllLines data ls) :
    ∃ rest, data = linesWire ls ++ rest := by
  obtain ⟨before, l, rest, rfl, hlines, -⟩ := h
  exact ⟨rest, by rw [linesWire_snoc, List.append_assoc, ← hlines.data_eq]⟩

/-! ## The parser of the server -/

section Server

variable {data : List UInt8} {maxHeader : Int} {r : HeaderResult} {ls : List RawLine}

/-- A run that returns has taken all lines. -/
theorem httpParseHeader_taken (hmax : data.length ≤ ptrdiffMax)
    (h : httpParseHeader data maxHeader = .ok r) :
    r.headers = [] ∨ ∃ ls, AllLines data ls ∧ Taken data maxHeader ls r.data r.headers := by
  by_cases hdata : data = []
  · subst hdata
    rw [httpParseHeader_nil] at h
    cases h
    exact Or.inl rfl
  · refine Or.inr ((headerLines maxHeader hdata hmax).taken
      (P := fun ls r => Taken data maxHeader ls r.data r.headers) (fun hend => hend.taken) ?_ h)
    rintro ls l rest r ⟨s, hend, rfl⟩
    exact ⟨hend.lines, not_continues hend.rest_eq, hend.taken⟩

/-- Where the lines end, the run returns. -/
theorem httpParseHeader_of_allLines (maxHeader : Int) (hmax : data.length ≤ ptrdiffMax)
    (h : AllLines data ls) :
    ∃ r, httpParseHeader data maxHeader = .ok r ∧ Taken data maxHeader ls r.data r.headers := by
  refine (headerLines maxHeader h.data_ne hmax).of_allLines
    (P := fun ls r => Taken data maxHeader ls r.data r.headers) (fun hend => hend.taken) ?_ h
    (Nat.le_refl _)
  rintro ls l rest r ⟨s, hend, rfl⟩
  exact hend.taken

theorem Taken.spanValid_iff (h : Taken data maxHeader ls r.data r.headers) (hlines : AllLines data ls)
    (hmax : data.length ≤ ptrdiffMax) :
    (∀ x ∈ r.headers, SpanValid r.data x) ↔
      ∀ e ∈ entriesOf maxHeader ls, e.Fits RawLine.foldedLen := by
  obtain ⟨rest, hdata⟩ := hlines.data_eq
  have hlayout := entriesOf_layout RawLine.foldedLen_lt maxHeader ls
  have hw : (linesWire ls).length ≤ r.data.length := by
    rw [h.length, hdata, List.length_append]
    exact Nat.le_add_right _ _
  rw [h.headers_eq, headersOf, List.forall_mem_map]
  refine forall_congr' fun e => forall_congr' fun he => ?_
  obtain ⟨t, ht⟩ := h.holds e he
  rw [Entry.text, List.append_assoc] at ht
  exact hlayout.spanValid_iff he hw (by rw [h.length]; exact hmax) (slice_of_drop ht
    (by have := hlayout.line_le he; omega))

theorem httpParseHeader_spans_iff (hmax : data.length ≤ ptrdiffMax) :
    (∀ r, httpParseHeader data maxHeader = .ok r → ∀ h ∈ r.headers, SpanValid r.data h) ↔
      SpansFit RawLine.foldedLen data maxHeader := by
  constructor
  · intro h ls hlines
    obtain ⟨r, hr, htaken⟩ := httpParseHeader_of_allLines maxHeader hmax hlines
    exact (htaken.spanValid_iff hlines hmax).1 (h r hr)
  · intro h r hr
    rcases httpParseHeader_taken hmax hr with hnil | ⟨ls, hlines, htaken⟩
    · rw [hnil]
      exact fun x hx => absurd hx List.not_mem_nil
    · exact (htaken.spanValid_iff hlines hmax).2 (h ls hlines)

end Server

/-! ## The copy -/

namespace Http

section Copy

variable {data : List UInt8} {maxHeader : Int} {r : HeaderResult} {ls : List RawLine}

theorem httpParseHeader_taken (hmax : data.length ≤ ptrdiffMax)
    (h : httpParseHeader data maxHeader = .ok r) :
    r.headers = [] ∨ ∃ ls, AllLines data ls ∧ r.headers = headersOf foldedLen maxHeader ls := by
  by_cases hdata : data = []
  · subst hdata
    rw [httpParseHeader_nil] at h
    cases h
    exact Or.inl rfl
  · refine Or.inr ((headerLines maxHeader hdata hmax).taken
      (P := fun ls r => r.headers = headersOf foldedLen maxHeader ls) (fun hend => hend.headers_eq)
      ?_ h)
    rintro ls l rest r ⟨s, hend, rfl⟩
    exact ⟨hend.lines, not_continues hend.rest_eq, hend.headers_eq⟩

theorem httpParseHeader_of_allLines (maxHeader : Int) (hmax : data.length ≤ ptrdiffMax)
    (h : AllLines data ls) :
    ∃ r, httpParseHeader data maxHeader = .ok r ∧ r.headers = headersOf foldedLen maxHeader ls := by
  refine (headerLines maxHeader h.data_ne hmax).of_allLines
    (P := fun ls r => r.headers = headersOf foldedLen maxHeader ls) (fun hend => hend.headers_eq) ?_ h
    (Nat.le_refl _)
  rintro ls l rest r ⟨s, hend, rfl⟩
  exact hend.headers_eq

/-- The copy moves no bytes, so its names stand where the lines do. -/
theorem spanValid_iff (hlines : AllLines data ls) (hmax : data.length ≤ ptrdiffMax) :
    (∀ x ∈ headersOf foldedLen maxHeader ls, SpanValid data x) ↔
      ∀ e ∈ entriesOf maxHeader ls, e.Fits foldedLen := by
  obtain ⟨rest, hdata⟩ := hlines.data_eq
  have hlayout := entriesOf_layout foldedLen_lt maxHeader ls
  have hw : (linesWire ls).length ≤ data.length := by
    rw [hdata, List.length_append]
    exact Nat.le_add_right _ _
  rw [headersOf, List.forall_mem_map]
  refine forall_congr' fun e => forall_congr' fun he => ?_
  have hle := hlayout.line_le he
  obtain ⟨t, ht⟩ := hlayout.at_line e he
  have hdrop : data.drop e.start = e.line.name ++ (colon :: (e.line.tail ++ [CR, LF]) ++ (t ++ rest)) := by
    rw [hdata, List.drop_append_of_le_length (by omega), ht, RawLine.wire]
    simp
  exact hlayout.spanValid_iff he hw hmax (slice_of_drop hdrop (by omega))

theorem httpParseHeader_spans_iff (hmax : data.length ≤ ptrdiffMax) :
    (∀ r, httpParseHeader data maxHeader = .ok r → ∀ h ∈ r.headers, SpanValid data h) ↔
      SpansFit foldedLen data maxHeader := by
  constructor
  · intro h ls hlines
    obtain ⟨r, hr, hheaders⟩ := httpParseHeader_of_allLines maxHeader hmax hlines
    refine (spanValid_iff hlines hmax).1 ?_
    rw [← hheaders]
    exact h r hr
  · intro h r hr
    rcases httpParseHeader_taken hmax hr with hnil | ⟨ls, hlines, hheaders⟩
    · rw [hnil]
      exact fun x hx => absurd hx List.not_mem_nil
    · rw [hheaders]
      exact (spanValid_iff hlines hmax).2 (h ls hlines)

end Copy

end Http

/-! ## Both parsers -/

/-- **Valid spans.** All headers of a run that returns have valid spans exactly if every stored line
    has a name and no value of more blanks than its folded lines add bytes. -/
theorem httpParseHeader_spans (data : List UInt8) (maxHeader : Int)
    (hmax : data.length ≤ ptrdiffMax) :
    ((∀ r, httpParseHeader data maxHeader = .ok r → ∀ h ∈ r.headers, SpanValid r.data h) ↔
      SpansFit RawLine.foldedLen data maxHeader) ∧
    ((∀ r, Http.httpParseHeader data maxHeader = .ok r → ∀ h ∈ r.headers, SpanValid data h) ↔
      SpansFit Http.foldedLen data maxHeader) :=
  ⟨httpParseHeader_spans_iff hmax, Http.httpParseHeader_spans_iff hmax⟩

/-- One header line: its span is the name and the value. -/
theorem httpParseHeader_spans_line : SpansFit RawLine.foldedLen (bytes "A: b\r\n\r\n") 4 := by
  refine (httpParseHeader_spans (bytes "A: b\r\n\r\n") 4 (by decide)).1.1 fun r hr => ?_
  have hrun : httpParseHeader (bytes "A: b\r\n\r\n") 4
      = .ok ⟨0, bytes "A: b\r\n\r\n", [⟨0, 1, 3, 1⟩], 8⟩ := by decide +kernel
  rw [hrun] at hr
  cases hr
  intro h hh
  rw [List.mem_singleton.1 hh]
  exact ⟨⟨bytes "A", by decide +kernel, by decide, by decide +kernel⟩, by decide⟩

/-- A value of one blank has the length `2 ^ 64 - 1`, in both parsers; a line that starts with a colon
    is stored with an empty name. -/
theorem httpParseHeader_spans_crossed :
    httpParseHeader (bytes "A: \r\n\r\n") 4
      = .ok ⟨0, bytes "A: \r\n\r\n", [⟨0, 1, 3, 2 ^ 64 - 1⟩], 7⟩ ∧
    Http.httpParseHeader (bytes "A: \r\n\r\n") 4 = .ok ⟨5, [⟨0, 1, 3, 2 ^ 64 - 1⟩]⟩ ∧
    ¬ SpanValid (bytes "A: \r\n\r\n") ⟨0, 1, 3, 2 ^ 64 - 1⟩ ∧
    httpParseHeader (bytes ":b\r\n\r\n") 4 = .ok ⟨0, bytes ":b\r\n\r\n", [⟨0, 0, 1, 1⟩], 6⟩ ∧
    ¬ SpanValid (bytes ":b\r\n\r\n") ⟨0, 0, 1, 1⟩ := by
  refine ⟨by decide +kernel, by decide +kernel, ?_, by decide +kernel, ?_⟩
  · rintro ⟨-, hle⟩
    revert hle
    decide +kernel
  · rintro ⟨⟨name, hslice, hne, -⟩, -⟩
    obtain rfl : [] = name := Option.some.inj hslice
    exact hne rfl

end Ryze
