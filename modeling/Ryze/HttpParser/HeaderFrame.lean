import Ryze.HttpParser.HeaderEntries

set_option autoImplicit false

/-! # What `http_parse_header` writes

A stored value ends at `fin`, also when its length has wrapped because the value is all blanks, and
`fin` never passes the start of the line that is read next. So folding a line writes behind the last
value and in front of the line's own end, and whatever the function has still to read, the body
included, is as it was (`httpParseHeader_frame`). -/

namespace Ryze

open CLib

/-! ## The bytes of stored headers -/

/-- The bytes a folded line is appended with. -/
def RawLine.foldedText (l : RawLine) : List UInt8 :=
  (l.name.drop 1 ++ colon :: l.tail).take l.foldedLen

theorem RawLine.foldedText_length (l : RawLine) : l.foldedText.length = l.foldedLen := by
  have hle := l.foldedLen_le
  rw [foldedText, List.length_take, List.length_append, List.length_drop, List.length_cons]
  omega

/-- The bytes of an entry: its line without the blanks it ends with, and the folded lines. -/
def Entry.text (e : Entry) : List UInt8 :=
  e.line.name ++ colon :: (e.line.tail.rdropWhile isBlank ++ e.folds.flatMap RawLine.foldedText)

theorem Entry.text_stop (e : Entry) : e.start + e.text.length = e.stop RawLine.foldedLen := by
  have hfolds : e.folds.map (fun l => l.foldedText.length) = e.folds.map RawLine.foldedLen :=
    List.map_congr_left fun l _ => l.foldedText_length
  rw [Entry.text, Entry.stop, Entry.extra, List.length_append, List.length_cons, List.length_append,
    List.length_flatMap, hfolds, trimmedLen]
  omega

theorem Entry.fold_text (e : Entry) (l : RawLine) : (e.fold l).text = e.text ++ l.foldedText := by
  simp [Entry.text, Entry.fold]

/-- The bytes of the entries stand in the buffer, each at its start. -/
def EntriesHold (buf : List UInt8) (es : List Entry) : Prop :=
  ∀ e ∈ es, ∃ t, buf.drop e.start = e.text ++ t

section EntriesHold

variable {w buf buf' rest : List UInt8} {es : List Entry} {l : RawLine}

theorem EntriesHold.push (h : EntriesHold buf es) (hdrop : buf.drop w.length = l.wire ++ rest) :
    EntriesHold buf (es ++ [⟨w.length, l, []⟩]) := by
  intro e he
  rcases List.mem_append.1 he with he | he
  · exact h e he
  · rw [List.mem_singleton.1 he]
    refine ⟨l.tail.rtakeWhile isBlank ++ CR :: LF :: rest, ?_⟩
    have htail : l.tail = l.tail.rdropWhile isBlank ++ l.tail.rtakeWhile isBlank :=
      (List.rdropWhile_append_rtakeWhile ..).symm
    rw [hdrop, RawLine.wire_append, Entry.text]
    simp only [List.flatMap_nil, List.append_nil, List.append_assoc, List.cons_append]
    rw [← List.append_assoc (l.tail.rdropWhile isBlank), ← htail]

/-- The bytes that are moved. -/
theorem foldedText_drop {p1 : Nat} (hfolded : l.isFolded = true)
    (hdrop : buf.drop p1 = l.wire ++ rest) : ∃ s, buf.drop (p1 + 1) = l.foldedText ++ s := by
  obtain ⟨c, v, hname⟩ : ∃ c v, l.name = c :: v := by
    refine List.exists_cons_of_ne_nil fun hname => ?_
    rw [RawLine.isFolded, hname] at hfolded
    cases hfolded
  refine ⟨(v ++ colon :: l.tail).drop l.foldedLen ++ CR :: LF :: rest, ?_⟩
  rw [← List.drop_drop, hdrop, RawLine.wire_append, RawLine.foldedText, hname, List.cons_append,
    List.drop_one, List.drop_one, List.tail_cons, List.tail_cons, ← List.append_assoc,
    List.take_append_drop, List.append_assoc, List.cons_append]

/-- Moving a folded line behind the last entry leaves the others as they are. -/
theorem EntriesHold.fold (h : EntriesHold buf es) (hlayout : Layout RawLine.foldedLen w es) {last : Entry}
    (hlast : es.getLast? = some last) (hfolded : l.isFolded = true)
    (hdrop : buf.drop w.length = l.wire ++ rest)
    (hmove : memmove buf (last.stop RawLine.foldedLen) (w.length + 1) l.foldedLen = .ok buf') :
    EntriesHold buf' (es.modifyLast (fun e => e.fold l)) := by
  obtain ⟨es, rfl⟩ : ∃ es', es = es' ++ [last] := ⟨_, (List.dropLast_append_getLast? _ hlast).symm⟩
  rw [List.modifyLast_concat]
  intro e he
  rcases List.mem_append.1 he with he | he
  · obtain ⟨t, ht⟩ := h e (List.mem_append_left _ he)
    have hsorted := (List.pairwise_append.1 hlayout.sorted).2.2 e he last (List.mem_singleton_self _)
    refine memmove_frame hmove ht ?_
    have hstop := last.text_stop
    rw [e.text_stop]
    omega
  · obtain ⟨t, ht⟩ := h last (by simp)
    obtain ⟨s, hs⟩ := foldedText_drop hfolded hdrop
    rw [List.mem_singleton.1 he, Entry.fold_text]
    exact memmove_extend hmove ht last.text_stop.symm hs l.foldedText_length.symm

end EntriesHold

/-! ## The frame -/

/-- The buffer `buf` and the headers after the lines `ls` of `data`: nothing behind the lines was
    touched, and the stored headers are the entries of the lines. -/
structure Taken (data : List UInt8) (maxHeader : Int) (ls : List RawLine) (buf : List UInt8)
    (headers : List HttpHeader) : Prop where
  length : buf.length = data.length
  rest : buf.drop (linesWire ls).length = data.drop (linesWire ls).length
  headers_eq : headers = headersOf RawLine.foldedLen maxHeader ls
  holds : EntriesHold buf (entriesOf maxHeader ls)

section Taken

variable {data : List UInt8} {maxHeader : Int} {ls : List RawLine} {buf rest : List UInt8}
  {headers : List HttpHeader} {l : RawLine}

/-- No stored value ends behind the lines. -/
theorem Taken.fin_le (h : Taken data maxHeader ls buf headers)
    (hmax : (linesWire ls).length < sizeMod) : ∀ x ∈ headers, x.fin ≤ (linesWire ls).length := by
  have hlayout := entriesOf_layout RawLine.foldedLen_lt maxHeader ls
  intro x hx
  rw [h.headers_eq] at hx
  obtain ⟨e, he, rfl⟩ := List.mem_map.1 hx
  rw [hlayout.header_fin he hmax]
  exact hlayout.stop_le e he

/-- One more line keeps the frame. -/
theorem Taken.line (h : Taken data maxHeader ls buf headers)
    (hdata : data = linesWire ls ++ (l.wire ++ rest)) (hmax : data.length ≤ ptrdiffMax) :
    ∃ buf' headers', headerLine maxHeader buf headers (linesWire ls).length
        ((linesWire ls).length + l.name.length) l.isToken
        ((linesWire ls).length + l.name.length + l.tail.length + 2) = .ok (buf', headers') ∧
      Taken data maxHeader (ls ++ [l]) buf' headers' := by
  have hlayout := entriesOf_layout RawLine.foldedLen_lt maxHeader ls
  have hdrop : buf.drop (linesWire ls).length = l.wire ++ rest := by
    rw [h.rest, hdata, List.drop_left]
  have hdataLen : data.length = (linesWire ls).length + l.wire.length + rest.length := by
    rw [hdata, List.length_append, List.length_append]
    omega
  have hsnoc : (linesWire (ls ++ [l])).length = (linesWire ls).length + l.wire.length := by
    rw [linesWire_snoc, List.length_append]
  have hmod : ptrdiffMax < sizeMod := by decide
  have hfin := h.fin_le (by omega)
  -- the headers follow `takeLine`; what is left to show is where the buffer was written
  have hkeep : ∀ {buf' headers'}, buf'.length = buf.length →
      buf'.drop (linesWire (ls ++ [l])).length = buf.drop (linesWire (ls ++ [l])).length →
      headers' = takeLine RawLine.foldedLen maxHeader headers (linesWire ls).length l →
      EntriesHold buf' (takeEntry maxHeader (entriesOf maxHeader ls) (linesWire ls).length l) →
      Taken data maxHeader (ls ++ [l]) buf' headers' := by
    intro buf' headers' hlen hrest hheaders hholds
    refine ⟨hlen.trans h.length, ?_, ?_, ?_⟩
    · rw [hrest, hsnoc, ← List.drop_drop, h.rest, List.drop_drop]
    · rw [hheaders, headersOf_snoc RawLine.foldedLen_lt (by omega), h.headers_eq]
    · rwa [entriesOf_snoc]
  obtain ⟨c, hload, hblank⟩ := load_line hdrop
  rw [headerLine, hload, ok_bind, hblank]
  by_cases hfolded : l.isFolded = true
  · rw [if_pos hfolded]
    cases hentries : (entriesOf maxHeader ls).getLast? with
    | none =>
        obtain hnil : entriesOf maxHeader ls = [] := List.getLast?_eq_none_iff.1 hentries
        have hlast : headers.getLast? = none := by rw [h.headers_eq, headersOf, hnil]; rfl
        refine ⟨buf, headers, by rw [foldLine, hlast]; rfl, hkeep rfl rfl ?_ ?_⟩
        · rw [takeLine, if_pos hfolded, extendLast, hlast, ite_self]
        · rw [hnil, takeEntry, if_pos hfolded]
          exact fun e he => absurd he List.not_mem_nil
    | some last =>
        have hmem := List.mem_of_getLast? hentries
        have hlast : headers.getLast? = some (last.header RawLine.foldedLen) := by
          rw [h.headers_eq, headersOf, List.getLast?_map, hentries]
          rfl
        have hlastFin := hlayout.header_fin hmem (by omega)
        have hstop := hlayout.stop_le last hmem
        obtain ⟨buf', hfold, hmove⟩ := foldLine_line hlast hdrop (by rw [h.length]; omega)
          (by omega)
        refine ⟨buf', _, hfold, hkeep (memmove_length hmove) (memmove_drop hmove ?_) ?_ ?_⟩
        · have hlt := l.foldedLen_lt
          omega
        · rw [takeLine, if_pos hfolded]
        · rw [hlastFin] at hmove
          rw [takeEntry, if_pos hfolded]
          exact h.holds.fold hlayout hentries hfolded hdrop hmove
  · rw [if_neg hfolded]
    have hlength : headers.length = (entriesOf maxHeader ls).length := by
      rw [h.headers_eq, headersOf, List.length_map]
    by_cases hstore : l.isToken = true ∧ (headers.length : Int) < maxHeader
    · rw [if_pos hstore, storeHeader_line hdrop, ok_bind]
      refine ⟨buf, headers ++ [l.stored (linesWire ls).length], rfl, hkeep rfl rfl ?_ ?_⟩
      · rw [takeLine, if_neg hfolded, if_pos hstore]
      · rw [takeEntry, if_neg hfolded, if_pos (by rwa [← hlength])]
        exact h.holds.push hdrop
    · rw [if_neg hstore]
      refine ⟨buf, headers, rfl, hkeep rfl rfl ?_ ?_⟩
      · rw [takeLine, if_neg hfolded, if_neg hstore]
      · rw [takeEntry, if_neg hfolded, if_neg (by rwa [← hlength])]
        exact h.holds

end Taken

/-! ## The rounds of the loop -/

/-- The variables `http_parse_header` starts with. -/
def headerStart (data : List UInt8) : HeaderState := ⟨data, 0, 0, [], 0⟩

/-- The loop is about to take a line at the start of `b`, behind the lines `ls`. -/
structure AtLine (data : List UInt8) (maxHeader : Int) (ls : List RawLine) (b : List UInt8)
    (s : HeaderState) : Prop where
  lines : Lines data ls b
  taken : Taken data maxHeader ls s.data s.headers
  p1_eq : s.p1 = (linesWire ls).length
  p_bounds : s.p1 ≤ s.p ∧ s.p ≤ s.p1 + 1 ∧ s.p < data.length

/-- The loop has taken the lines `ls` and the line `l`, and the buffer ends there, or a CR later. -/
structure Drained (data : List UInt8) (maxHeader : Int) (ls : List RawLine) (l : RawLine)
    (rest : List UInt8) (s : HeaderState) : Prop where
  lines : Lines data ls (l.wire ++ rest)
  rest_eq : rest = [] ∨ rest = [CR]
  taken : Taken data maxHeader (ls ++ [l]) s.data s.headers
  p_eq : s.p = s.data.length
  readLen_eq : s.readLen = (linesWire (ls ++ [l])).length

/-- The loop has taken the lines `ls` and the line `l`, and found the empty line. -/
structure Closed (data : List UInt8) (maxHeader : Int) (ls : List RawLine) (l : RawLine)
    (body : List UInt8) (r : HeaderResult) : Prop where
  lines : Lines data ls (l.wire ++ CR :: LF :: body)
  taken : Taken data maxHeader (ls ++ [l]) r.data r.headers
  ret : r.ret = 0
  readLen_eq : r.readLen = (linesWire (ls ++ [l])).length + 2

section Next

variable {buf rest : List UInt8} {p3 : Nat} (headers : List HttpHeader) (p1 : Nat)

theorem headerNext_closed {body : List UInt8} (h : buf.drop (p3 + 1) = CR :: LF :: body) :
    headerNext buf headers p1 p3 = .ok (.inr ⟨0, buf, headers, p3 + 3⟩) := by
  have hlf : buf.drop (p3 + 1 + 1) = LF :: body := by
    rw [← List.drop_drop, h]
    rfl
  have hlt := lt_length_of_drop hlf
  simp only [headerNext, load_of_drop h, load_of_drop hlf, ok_bind, if_true, pure_eq_ok]
  rw [if_neg (by omega), if_neg (by omega)]

theorem headerNext_drained (h : buf.drop (p3 + 1) = rest) (hp3 : p3 + 1 ≤ buf.length)
    (hrest : rest = [] ∨ rest = [CR]) :
    ∃ p1', headerNext buf headers p1 p3
      = .ok (.inl ⟨buf, buf.length, p1', headers, p3 + 1⟩) := by
  rcases hrest with rfl | rfl
  · have hend : p3 + 1 = buf.length := by
      have hlen := congrArg List.length h
      rw [List.length_drop, List.length_nil] at hlen
      omega
    refine ⟨p1, ?_⟩
    simp only [headerNext, hend, if_true, pure_eq_ok]
  · have hlen := congrArg List.length h
    rw [List.length_drop, List.length_singleton] at hlen
    refine ⟨p3 + 1, ?_⟩
    simp only [headerNext, load_of_drop h, ok_bind, if_true, pure_eq_ok]
    rw [if_neg (by omega), if_pos (by omega), show p3 + 1 + 1 = buf.length by omega]

theorem headerNext_continues (h : buf.drop (p3 + 1) = rest) (hrest : Continues rest) :
    ∃ p, headerNext buf headers p1 p3 = .ok (.inl ⟨buf, p, p3 + 1, headers, p3 + 1⟩) ∧
      p3 + 1 ≤ p ∧ p ≤ p3 + 2 ∧ p < buf.length := by
  obtain ⟨hnil, hcr, hempty⟩ := hrest
  obtain ⟨c, t, rfl⟩ := List.exists_cons_of_ne_nil hnil
  have hlt := lt_length_of_drop h
  simp only [headerNext, load_of_drop h, ok_bind]
  rw [if_neg (by omega)]
  by_cases hc : c = CR
  · subst hc
    obtain ⟨c', t, rfl⟩ : ∃ c' t', t = c' :: t' := by
      refine List.exists_cons_of_ne_nil ?_
      rintro rfl
      exact hcr rfl
    have hsecond : buf.drop (p3 + 1 + 1) = c' :: t := by
      rw [← List.drop_drop, h]
      rfl
    have hlt' := lt_length_of_drop hsecond
    have hc' : c' ≠ LF := by
      rintro rfl
      exact hempty t rfl
    refine ⟨p3 + 2, ?_, by omega, by omega, by omega⟩
    rw [if_pos rfl, if_neg (by omega), load_of_drop hsecond, ok_bind, if_neg hc']
    rfl
  · refine ⟨p3 + 1, ?_, by omega, by omega, by omega⟩
    rw [if_neg hc]
    rfl

end Next

section Round

variable {data b : List UInt8} {maxHeader : Int} {ls : List RawLine} {s : HeaderState}

theorem AtLine.p_ne (h : AtLine data maxHeader ls b s) : s.p ≠ s.data.length := by
  rw [h.taken.length]
  exact Nat.ne_of_lt h.p_bounds.2.2

theorem AtLine.drop (h : AtLine data maxHeader ls b s) : s.data.drop s.p1 = b := by
  rw [h.p1_eq, h.taken.rest]
  conv_lhs => rw [h.lines.data_eq]
  exact List.drop_left

theorem headerBody_noLine (h : AtLine data maxHeader ls b s) (hb : NoLine b) :
    headerBody maxHeader s = .error .read := by
  rw [headerBody, if_neg h.p_ne, scanLine_noLine (by rwa [h.drop])]
  rfl

/-- **One round.** A line is taken, and what stands behind it decides how the loop goes on. -/
theorem headerBody_line {l : RawLine} {rest : List UInt8}
    (h : AtLine data maxHeader ls (l.wire ++ rest) s) (hmax : data.length ≤ ptrdiffMax) :
    (Continues rest → ∃ s', headerBody maxHeader s = .ok (.inl s') ∧
      AtLine data maxHeader (ls ++ [l]) rest s') ∧
    (rest = [] ∨ rest = [CR] → ∃ s', headerBody maxHeader s = .ok (.inl s') ∧
      Drained data maxHeader ls l rest s') ∧
    ∀ body, rest = CR :: LF :: body → ∃ r, headerBody maxHeader s = .ok (.inr r) ∧
      Closed data maxHeader ls l body r := by
  have hdata := h.lines.data_eq
  have hdrop : s.data.drop (linesWire ls).length = l.wire ++ rest := by
    rw [← h.p1_eq, h.drop]
  obtain ⟨buf, headers, hline, htaken⟩ := h.taken.line hdata hmax
  have hlen := l.wire_length
  have hsnoc : (linesWire (ls ++ [l])).length = (linesWire ls).length + l.wire.length := by
    rw [linesWire_snoc, List.length_append]
  have hp3 : (linesWire ls).length + l.name.length + l.tail.length + 2 + 1
      = (linesWire (ls ++ [l])).length := by omega
  have hbody : headerBody maxHeader s = headerNext buf headers (linesWire ls).length
      ((linesWire ls).length + l.name.length + l.tail.length + 2) := by
    rw [headerBody, if_neg h.p_ne, h.p1_eq, scanLine_line hdrop]
    simp only [ok_bind, hline]
  have hrest : buf.drop ((linesWire ls).length + l.name.length + l.tail.length + 2 + 1) = rest := by
    rw [hp3, htaken.rest, linesWire_snoc]
    conv_lhs => rw [hdata, ← List.append_assoc]
    exact List.drop_left
  have hle : (linesWire ls).length + l.name.length + l.tail.length + 2 + 1 ≤ buf.length := by
    rw [hp3, htaken.length, hdata, hsnoc, List.length_append, List.length_append]
    omega
  rw [hbody]
  refine ⟨?_, ?_, ?_⟩
  · intro hcont
    obtain ⟨p, hnext, hlo, hhi, hlt⟩ := headerNext_continues headers
      (linesWire ls).length hrest hcont
    refine ⟨_, hnext, h.lines.next hcont, htaken, hp3, ?_, ?_, ?_⟩
    · exact hlo
    · exact hhi
    · rw [← htaken.length]
      exact hlt
  · intro hend
    obtain ⟨p1', hnext⟩ := headerNext_drained headers (linesWire ls).length hrest hle hend
    exact ⟨_, hnext, h.lines, hend, htaken, rfl, hp3⟩
  · rintro body rfl
    refine ⟨_, headerNext_closed _ _ hrest, h.lines, htaken, rfl, ?_⟩
    show (linesWire ls).length + l.name.length + l.tail.length + 2 + 3 = _
    omega

end Round

/-! ## Whole runs -/

section Run

variable {data : List UInt8} {maxHeader : Int}

theorem atLine_start (hdata : data ≠ []) : AtLine data maxHeader [] data (headerStart data) where
  lines := Lines.start hdata
  taken := ⟨rfl, rfl, rfl, fun _ he => absurd he List.not_mem_nil⟩
  p1_eq := rfl
  p_bounds := ⟨Nat.le_refl 0, Nat.zero_le 1, List.length_pos_of_ne_nil hdata⟩

theorem Drained.body {ls : List RawLine} {l : RawLine} {rest : List UInt8} {s : HeaderState}
    (h : Drained data maxHeader ls l rest s) :
    headerBody maxHeader s = .ok (.inr ⟨1, s.data, s.headers, s.readLen⟩) := by
  rw [headerBody, if_pos h.p_eq]
  rfl

/-- The loop takes the buffer apart line by line. -/
def headerLines (maxHeader : Int) (hdata : data ≠ []) (hmax : data.length ≤ ptrdiffMax) :
    LineLoop data (headerBody maxHeader) (headerStart data) where
  At := AtLine data maxHeader
  Drained := Drained data maxHeader
  Closed := Closed data maxHeader
  Ended := fun ls l rest r =>
    ∃ s, Drained data maxHeader ls l rest s ∧ r = ⟨1, s.data, s.headers, s.readLen⟩
  at_start := atLine_start hdata
  at_lines := AtLine.lines
  noLine := headerBody_noLine
  continues := fun h => (headerBody_line h hmax).1
  drains := fun h => (headerBody_line h hmax).2.1
  closes := fun h => (headerBody_line h hmax).2.2 _ rfl
  ends := fun h => ⟨_, h.body, _, h, rfl⟩

/-- What the function returns: 0 behind an empty line, 1 at the end of the buffer. -/
theorem httpParseHeader_result (hdata : data ≠ []) (hmax : data.length ≤ ptrdiffMax)
    {r : HeaderResult} (h : httpParseHeader data maxHeader = .ok r) :
    (∃ ls l body, Closed data maxHeader ls l body r) ∨
      ∃ ls l rest s, Drained data maxHeader ls l rest s ∧ r = ⟨1, s.data, s.headers, s.readLen⟩ := by
  rcases (headerLines maxHeader hdata hmax).result h with ⟨ls, l, body, -, h⟩ | ⟨ls, l, rest, h⟩
  · exact Or.inl ⟨ls, l, body, h⟩
  · exact Or.inr ⟨ls, l, rest, h⟩

theorem headerBody_nil : headerBody maxHeader (headerStart []) = .ok (.inr ⟨1, [], [], 0⟩) := by
  rw [headerBody, if_pos (by rfl)]
  rfl

theorem httpParseHeader_nil : httpParseHeader [] maxHeader = .ok ⟨1, [], [], 0⟩ :=
  cLoop_exit headerBody_nil 1

/-- On no bytes the loop stops before its first round. -/
theorem headerLoop_nil {s : HeaderState} (hs : LoopReaches (headerBody maxHeader) (headerStart []) s) :
    s.p = s.data.length := by
  have hstart : s = headerStart [] := by
    refine hs.invariant (fun t => t = headerStart []) rfl ?_
    rintro t t' rfl ht
    rw [headerBody_nil] at ht
    cases ht
  rw [hstart]
  rfl

end Run

/-! ## Where folding writes -/

/-- A round that leaves the buffer `buf` writes nothing, or it moves some bytes of its line to where
    the last stored value ends, which is in front of the line, and stays in front of the line's
    end. -/
def WritesBehind (s : HeaderState) (buf : List UInt8) : Prop :=
  buf = s.data ∨ ∃ h n p2 isToken p3, s.headers.getLast? = some h ∧
    scanLine s.data s.p1 = .ok (p2, isToken, p3) ∧ memmove s.data h.fin (s.p1 + 1) n = .ok buf ∧
    h.fin ≤ s.p1 ∧ h.fin + n < p3

theorem headerLine_moves {maxHeader : Int} {data data' : List UInt8}
    {headers headers' : List HttpHeader} {p1 p2 p3 : Nat} {isToken : Bool} (hp3 : p1 + 2 ≤ p3)
    (h : headerLine maxHeader data headers p1 p2 isToken p3 = .ok (data', headers')) :
    data' = data ∨ ∃ x n, headers.getLast? = some x ∧ memmove data x.fin (p1 + 1) n = .ok data' ∧
      p1 + n + 2 ≤ p3 := by
  rw [headerLine] at h
  obtain ⟨c, -, h⟩ := bind_eq_ok.1 h
  split at h
  · unfold foldLine at h
    split at h
    · cases h
      exact Or.inl rfl
    · next x hlast =>
        simp only at h
        split at h
        · obtain ⟨moved, hmove, h⟩ := bind_eq_ok.1 h
          cases h
          refine Or.inr ⟨x, _, hlast, hmove, ?_⟩
          have hle := toInt32_toNat_le (p3 - (p1 + 1) - 1)
          rw [show ((p3 - (p1 + 1) - 1 : Nat) : Int) = (p3 : Int) - (p1 + 1 : Nat) - 1 by omega] at hle
          omega
        · cases h
          exact Or.inl rfl
  · split at h
    · obtain ⟨x, -, h⟩ := bind_eq_ok.1 h
      cases h
      exact Or.inl rfl
    · cases h
      exact Or.inl rfl

theorem headerNext_data {data : List UInt8} {headers : List HttpHeader} {p1 p3 : Nat}
    {r : HeaderState ⊕ HeaderResult} (h : headerNext data headers p1 p3 = .ok r)
    (hp3 : p3 < data.length) : r.elim HeaderState.data HeaderResult.data = data := by
  rcases headerNext_cases h hp3 with ⟨p, p1', rfl, -⟩ | rfl
  · rfl
  · rfl

theorem AtLine.writesBehind {data b : List UInt8} {maxHeader : Int} {ls : List RawLine}
    {s : HeaderState} (h : AtLine data maxHeader ls b s) (hmax : data.length ≤ ptrdiffMax)
    {r : HeaderState ⊕ HeaderResult} (hbody : headerBody maxHeader s = .ok r) :
    WritesBehind s (r.elim HeaderState.data HeaderResult.data) := by
  obtain ⟨p2, isToken, p3, buf, headers, hscan, hline, hnext⟩ := headerBody_parts hbody h.p_ne
  obtain ⟨hp12, hp23, hp3⟩ := scanLine_bounds hscan
  rw [headerNext_data hnext (by rw [headerLine_length hline]; exact hp3)]
  rcases headerLine_moves (by omega) hline with rfl | ⟨x, n, hlast, hmove, hn⟩
  · exact Or.inl rfl
  · have hmod : ptrdiffMax < sizeMod := by decide
    have hle : (linesWire ls).length ≤ data.length := by
      rw [h.lines.data_eq, List.length_append]
      exact Nat.le_add_right _ _
    have hfin := h.taken.fin_le (by omega) x (List.mem_of_getLast? hlast)
    rw [← h.p1_eq] at hfin
    exact Or.inr ⟨x, n, p2, isToken, p3, hlast, hscan, hmove, hfin, by omega⟩

/-- **The frame of folding.** At the start of every line the rest of the buffer is the input, every
    round writes behind the last stored value and in front of its own line's end, and on return all
    from `read_len` on is the input. -/
theorem httpParseHeader_frame (data : List UInt8) (maxHeader : Int)
    (hmax : data.length ≤ ptrdiffMax) :
    (∀ s, LoopReaches (headerBody maxHeader) (headerStart data) s → s.p ≠ s.data.length →
      s.data.drop s.p1 = data.drop s.p1 ∧
      (∀ s', headerBody maxHeader s = .ok (.inl s') → WritesBehind s s'.data) ∧
      ∀ r, headerBody maxHeader s = .ok (.inr r) → WritesBehind s r.data) ∧
    ∀ r, httpParseHeader data maxHeader = .ok r →
      r.data.length = data.length ∧ r.data.drop r.readLen = data.drop r.readLen := by
  by_cases hdata : data = []
  · subst hdata
    constructor
    · intro s hs hp
      exact absurd (headerLoop_nil hs) hp
    · intro r hr
      rw [httpParseHeader_nil] at hr
      cases hr
      exact ⟨rfl, rfl⟩
  · constructor
    · intro s hs hp
      rcases (headerLines maxHeader hdata hmax).reached hs with ⟨ls, b, hat⟩ | ⟨ls, l, rest, hat⟩
      · refine ⟨?_, fun s' hs' => hat.writesBehind hmax hs', fun r hr => hat.writesBehind hmax hr⟩
        rw [hat.p1_eq, hat.taken.rest]
      · exact absurd hat.p_eq hp
    · intro r hr
      rcases httpParseHeader_result hdata hmax hr with ⟨ls, l, body, h⟩ | ⟨ls, l, rest, s, h, rfl⟩
      · refine ⟨h.taken.length, ?_⟩
        rw [h.readLen_eq, ← List.drop_drop, h.taken.rest, List.drop_drop]
      · refine ⟨h.taken.length, ?_⟩
        show s.data.drop s.readLen = data.drop s.readLen
        rw [h.readLen_eq, h.taken.rest]

/-- A header line with a folded one behind it, the empty line and a body. -/
theorem httpParseHeader_frame_folded :
    ∃ r, httpParseHeader (bytes "A: b\r\n c:d\r\n\r\nbody") 4 = .ok r ∧
      r.data.drop r.readLen = bytes "body" := by
  have hrun : (httpParseHeader (bytes "A: b\r\n c:d\r\n\r\nbody") 4).map HeaderResult.readLen
      = .ok 14 := by decide +kernel
  cases hr : httpParseHeader (bytes "A: b\r\n c:d\r\n\r\nbody") 4 with
  | error e =>
      rw [hr] at hrun
      cases hrun
  | ok r =>
      rw [hr] at hrun
      have hread : r.readLen = 14 := Except.ok.inj hrun
      refine ⟨r, rfl, ?_⟩
      rw [((httpParseHeader_frame (bytes "A: b\r\n c:d\r\n\r\nbody") 4 (by decide)).2 r hr).2, hread]
      decide

end Ryze
