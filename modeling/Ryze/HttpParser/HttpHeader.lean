import Ryze.HttpParser.HeaderFrame

set_option autoImplicit false

/-! # `http_parse_header` of `src/http`

The older parser takes the same lines off a buffer and stores the same headers, but it never moves a
byte: a folded line only makes the last value longer, by one byte more than the line has behind its
blank. It reports by one number, the length of the lines it has taken, at the empty line and at the
end of the buffer alike; `-2` is left for a buffer without a byte. -/

namespace Ryze

open CLib

namespace Http

/-- The variables of the loop; `readLen` is the `int` that is returned. -/
structure HeaderState where
  p : Nat
  p1 : Nat
  headers : List HttpHeader
  readLen : Int
deriving DecidableEq, Repr

/-- The return code and `headers[0..*header_len)`. -/
structure HeaderResult where
  ret : Int
  headers : List HttpHeader
deriving DecidableEq, Repr

/-- Line folding: count the line into the value of the last stored header. -/
def foldLine (headers : List HttpHeader) (p1 p3 : Nat) : List HttpHeader :=
  match headers.getLast? with
  | none => headers
  | some h =>
    let len := toInt32 ((p3 : Int) - p1 - 1)
    if 0 < len then headers.dropLast ++ [{ h with valueLen := sizeAdd h.valueLen len.toNat }]
    else headers

def headerLine (maxHeader : Int) (data : List UInt8) (headers : List HttpHeader)
    (p1 p2 : Nat) (isToken : Bool) (p3 : Nat) : CRun (List HttpHeader) := do
  let c ← load data p1
  if isBlank c then return foldLine headers p1 p3
  else if isToken ∧ (headers.length : Int) < maxHeader then do
    let h ← storeHeader data p1 p2 p3
    return headers ++ [h]
  else return headers

/-- `t = ++p; …` behind a line that ends at `p3`. -/
def headerNext (data : List UInt8) (headers : List HttpHeader) (p1 p3 : Nat) :
    CRun (HeaderState ⊕ HeaderResult) :=
  let t := p3 + 1
  let readLen := toInt32 t
  if t = data.length then return .inl ⟨t, p1, headers, readLen⟩
  else do
    let c ← load data t
    if c = CR then
      if t + 1 = data.length then return .inl ⟨t + 1, t, headers, readLen⟩
      else do
        let c' ← load data (t + 1)
        if c' = LF then return .inr ⟨readLen, headers⟩
        else return .inl ⟨t + 1, t, headers, readLen⟩
    else return .inl ⟨t, t, headers, readLen⟩

/-- One round of `for(; p != end;)`. -/
def headerBody (maxHeader : Int) (data : List UInt8) (s : HeaderState) :
    CRun (HeaderState ⊕ HeaderResult) :=
  if s.p = data.length then return .inr ⟨s.readLen, s.headers⟩
  else do
    let (p2, isToken, p3) ← scanLine data s.p1
    let headers ← headerLine maxHeader data s.headers s.p1 p2 isToken p3
    headerNext data headers s.p1 p3

def headerStart : HeaderState := ⟨0, 0, [], -2⟩

/-- `http_parse_header(data, data_len, headers, max_header, header_len)` of `src/http`. -/
def httpParseHeader (data : List UInt8) (maxHeader : Int) : CRun HeaderResult :=
  cLoop (headerBody maxHeader data) (data.length + 2) headerStart

/-! ## One line -/

/-- By how many bytes a folded line makes a value longer. -/
def foldedLen (l : RawLine) : Nat := (toInt32 (l.name.length + l.tail.length + 1 : Nat)).toNat

theorem foldedLen_lt (l : RawLine) : foldedLen l < l.wire.length := by
  have hle : foldedLen l ≤ l.name.length + l.tail.length + 1 := toInt32_toNat_le _
  have hlen := l.wire_length
  omega

section Line

variable {data rest : List UInt8} {p1 : Nat} {l : RawLine} {maxHeader : Int}

theorem headerLine_line (hdrop : data.drop p1 = l.wire ++ rest) (headers : List HttpHeader) :
    headerLine maxHeader data headers p1 (p1 + l.name.length) l.isToken
      (p1 + l.name.length + l.tail.length + 2)
        = .ok (takeLine foldedLen maxHeader headers p1 l) := by
  obtain ⟨c, hload, hblank⟩ := load_line hdrop
  rw [headerLine, hload, ok_bind, hblank, takeLine]
  by_cases hfolded : l.isFolded = true
  · have hcast : (0 < toInt32 (l.name.length + l.tail.length + 1 : Nat)) ↔ 0 < foldedLen l := by
      unfold foldedLen
      omega
    have hlen : ((p1 + l.name.length + l.tail.length + 2 : Nat) : Int) - p1 - 1
        = (l.name.length + l.tail.length + 1 : Nat) := by omega
    rw [if_pos hfolded, if_pos hfolded, foldLine, extendLast]
    cases headers.getLast? with
    | none => rw [ite_self]; rfl
    | some h =>
        simp only [hlen, pure_eq_ok]
        by_cases hpos : 0 < foldedLen l
        · rw [if_pos (hcast.2 hpos), if_pos hpos]
          rfl
        · rw [if_neg (fun hlt => hpos (hcast.1 hlt)), if_neg hpos]
  · rw [if_neg hfolded, if_neg hfolded]
    by_cases hstore : l.isToken = true ∧ (headers.length : Int) < maxHeader
    · rw [if_pos hstore, if_pos hstore, storeHeader_line hdrop]
      rfl
    · rw [if_neg hstore, if_neg hstore]
      rfl

end Line

/-! ## The rounds of the loop -/

/-- The loop is about to take a line at the start of `b`, behind the lines `ls`. -/
structure AtLine (data : List UInt8) (maxHeader : Int) (ls : List RawLine) (b : List UInt8)
    (s : HeaderState) : Prop where
  lines : Lines data ls b
  headers_eq : s.headers = headersOf foldedLen maxHeader ls
  p1_eq : s.p1 = (linesWire ls).length
  p_bounds : s.p1 ≤ s.p ∧ s.p ≤ s.p1 + 1 ∧ s.p < data.length

/-- The loop has taken the lines `ls` and the line `l`, and the buffer ends there, or a CR later. -/
structure Drained (data : List UInt8) (maxHeader : Int) (ls : List RawLine) (l : RawLine)
    (rest : List UInt8) (s : HeaderState) : Prop where
  lines : Lines data ls (l.wire ++ rest)
  rest_eq : rest = [] ∨ rest = [CR]
  headers_eq : s.headers = headersOf foldedLen maxHeader (ls ++ [l])
  p_eq : s.p = data.length
  readLen_eq : s.readLen = toInt32 (linesWire (ls ++ [l])).length

/-- The loop has taken the lines `ls` and the line `l`, and found the empty line. -/
structure Closed (data : List UInt8) (maxHeader : Int) (ls : List RawLine) (l : RawLine)
    (body : List UInt8) (r : HeaderResult) : Prop where
  lines : Lines data ls (l.wire ++ CR :: LF :: body)
  headers_eq : r.headers = headersOf foldedLen maxHeader (ls ++ [l])
  ret : r.ret = toInt32 (linesWire (ls ++ [l])).length

/-- Behind a line both parsers go on the same way; the copy reports where the lines end. -/
theorem headerNext_eq (data : List UInt8) (headers : List HttpHeader) (p1 p3 : Nat) :
    headerNext data headers p1 p3 = (Ryze.headerNext data headers p1 p3).map (Sum.map
      (fun s => ⟨s.p, s.p1, s.headers, toInt32 s.readLen⟩)
      (fun r => ⟨toInt32 (r.readLen - 2 : Nat), r.headers⟩)) := by
  unfold headerNext Ryze.headerNext
  simp only
  by_cases hend : p3 + 1 = data.length
  · simp only [if_pos hend]
    rfl
  · simp only [if_neg hend]
    cases load data (p3 + 1) with
    | error e => rfl
    | ok c =>
        simp only [ok_bind]
        by_cases hc : c = CR
        · simp only [if_pos hc]
          by_cases hend' : p3 + 1 + 1 = data.length
          · simp only [if_pos hend']
            rfl
          · simp only [if_neg hend']
            cases load data (p3 + 1 + 1) with
            | error e => rfl
            | ok c' =>
                simp only [ok_bind]
                by_cases hc' : c' = LF
                · simp only [if_pos hc']
                  rfl
                · simp only [if_neg hc']
                  rfl
        · simp only [if_neg hc]
          rfl

section Round

variable {data b : List UInt8} {maxHeader : Int} {ls : List RawLine} {s : HeaderState}

theorem AtLine.drop (h : AtLine data maxHeader ls b s) : data.drop (linesWire ls).length = b := by
  conv_lhs => rw [h.lines.data_eq]
  exact List.drop_left

theorem headerBody_noLine (h : AtLine data maxHeader ls b s) (hb : NoLine b) :
    headerBody maxHeader data s = .error .read := by
  rw [headerBody, if_neg (Nat.ne_of_lt h.p_bounds.2.2), scanLine_noLine (by rwa [h.p1_eq, h.drop])]
  rfl

theorem headerBody_line {l : RawLine} {rest : List UInt8}
    (h : AtLine data maxHeader ls (l.wire ++ rest) s) (hmax : data.length ≤ ptrdiffMax) :
    (Continues rest → ∃ s', headerBody maxHeader data s = .ok (.inl s') ∧
      AtLine data maxHeader (ls ++ [l]) rest s') ∧
    (rest = [] ∨ rest = [CR] → ∃ s', headerBody maxHeader data s = .ok (.inl s') ∧
      Drained data maxHeader ls l rest s') ∧
    ∀ body, rest = CR :: LF :: body → ∃ r, headerBody maxHeader data s = .ok (.inr r) ∧
      Closed data maxHeader ls l body r := by
  have hdrop := h.drop
  have hlen := l.wire_length
  have hsnoc : (linesWire (ls ++ [l])).length = (linesWire ls).length + l.wire.length := by
    rw [linesWire_snoc, List.length_append]
  have hp3 : (linesWire ls).length + l.name.length + l.tail.length + 2 + 1
      = (linesWire (ls ++ [l])).length := by omega
  have hle : (linesWire ls).length + l.name.length + l.tail.length + 2 + 1 ≤ data.length := by
    rw [hp3, hsnoc, h.lines.data_eq, List.length_append, List.length_append]
    omega
  have hmod : ptrdiffMax < sizeMod := by decide
  have hheaders : takeLine foldedLen maxHeader s.headers (linesWire ls).length l
      = headersOf foldedLen maxHeader (ls ++ [l]) := by
    rw [h.headers_eq, headersOf_snoc foldedLen_lt (by omega)]
  have hbody : headerBody maxHeader data s
      = headerNext data (headersOf foldedLen maxHeader (ls ++ [l])) (linesWire ls).length
          ((linesWire ls).length + l.name.length + l.tail.length + 2) := by
    rw [headerBody, if_neg (Nat.ne_of_lt h.p_bounds.2.2), h.p1_eq, scanLine_line hdrop]
    simp only [ok_bind, headerLine_line hdrop, hheaders]
  have hrest : data.drop ((linesWire ls).length + l.name.length + l.tail.length + 2 + 1) = rest := by
    rw [hp3, hsnoc]
    exact drop_add_of_drop hdrop
  rw [hbody, headerNext_eq]
  refine ⟨?_, ?_, ?_⟩
  · intro hcont
    obtain ⟨p, hnext, hlo, hhi, hlt⟩ := headerNext_continues
      (headersOf foldedLen maxHeader (ls ++ [l])) (linesWire ls).length hrest hcont
    rw [hnext]
    exact ⟨_, rfl, h.lines.next hcont, rfl, hp3, hlo, hhi, hlt⟩
  · intro hend
    obtain ⟨p1', hnext⟩ := headerNext_drained (headersOf foldedLen maxHeader (ls ++ [l]))
      (linesWire ls).length hrest hle hend
    rw [hnext]
    exact ⟨_, rfl, h.lines, hend, rfl, rfl, by rw [hp3]⟩
  · rintro body rfl
    rw [headerNext_closed _ _ hrest]
    refine ⟨_, rfl, h.lines, rfl, ?_⟩
    have hread : (linesWire ls).length + l.name.length + l.tail.length + 2 + 3 - 2
        = (linesWire (ls ++ [l])).length := by omega
    simp only [hread]

theorem Drained.body {l : RawLine} {rest : List UInt8} (h : Drained data maxHeader ls l rest s) :
    headerBody maxHeader data s = .ok (.inr ⟨s.readLen, s.headers⟩) := by
  rw [headerBody, if_pos h.p_eq]
  rfl

end Round

/-! ## Whole runs -/

section Run

variable {data : List UInt8} {maxHeader : Int}

theorem atLine_start (hdata : data ≠ []) : AtLine data maxHeader [] data headerStart where
  lines := Lines.start hdata
  headers_eq := rfl
  p1_eq := rfl
  p_bounds := ⟨Nat.le_refl 0, Nat.zero_le 1, List.length_pos_of_ne_nil hdata⟩

def headerLines (maxHeader : Int) (hdata : data ≠ []) (hmax : data.length ≤ ptrdiffMax) :
    LineLoop data (headerBody maxHeader data) headerStart where
  At := AtLine data maxHeader
  Drained := Drained data maxHeader
  Closed := Closed data maxHeader
  Ended := fun ls l rest r => ∃ s, Drained data maxHeader ls l rest s ∧ r = ⟨s.readLen, s.headers⟩
  at_start := atLine_start hdata
  at_lines := AtLine.lines
  noLine := headerBody_noLine
  continues := fun h => (headerBody_line h hmax).1
  drains := fun h => (headerBody_line h hmax).2.1
  closes := fun h => (headerBody_line h hmax).2.2 _ rfl
  ends := fun h => ⟨_, h.body, _, h, rfl⟩

/-- What the copy returns, at the empty line and at the end of the buffer. -/
theorem httpParseHeader_result (hdata : data ≠ []) (hmax : data.length ≤ ptrdiffMax)
    {r : HeaderResult} (h : httpParseHeader data maxHeader = .ok r) :
    (∃ ls l body, Closed data maxHeader ls l body r) ∨
      ∃ ls l rest s, Drained data maxHeader ls l rest s ∧ r = ⟨s.readLen, s.headers⟩ := by
  rcases (headerLines maxHeader hdata hmax).result h with ⟨ls, l, body, -, h⟩ | ⟨ls, l, rest, h⟩
  · exact Or.inl ⟨ls, l, body, h⟩
  · exact Or.inr ⟨ls, l, rest, h⟩

theorem headerBody_nil : headerBody maxHeader [] headerStart = .ok (.inr ⟨-2, []⟩) := by
  rw [headerBody, if_pos (by rfl)]
  rfl

theorem httpParseHeader_nil : httpParseHeader [] maxHeader = .ok ⟨-2, []⟩ :=
  cLoop_exit headerBody_nil 1

theorem headerLoop_nil {s : HeaderState} (hs : LoopReaches (headerBody maxHeader []) headerStart s) :
    s.p = 0 := by
  have hstart : s = headerStart := by
    refine hs.invariant (fun t => t = headerStart) rfl ?_
    rintro t t' rfl ht
    rw [headerBody_nil] at ht
    cases ht
  rw [hstart]
  rfl

end Run

end Http

end Ryze
