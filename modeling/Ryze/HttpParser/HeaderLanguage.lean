import Ryze.HttpParser.HeaderSafety

set_option autoImplicit false

/-! # The language of `http_parse_header`

The function accepts a block of one line or more with an empty line behind it, whatever follows, and
no other bytes; a line is what its two scans make of one (`RawLine`). It asks for more exactly where
the buffer ends behind a line, or one CR later, and on all other buffers it leaves them: its
`return -1` is never reached. No block is the beginning of another one, so the lines are those that
were sent, and the stored headers are theirs. -/

namespace Ryze

open CLib

/-- Lines with an empty line behind them. Only the first one may begin with an empty line itself. -/
structure RawBlock where
  first : RawLine
  others : List RawLine
  others_open : ∀ l ∈ others, ¬ [CR, LF] <+: l.name

namespace RawBlock

def lines (b : RawBlock) : List RawLine := b.first :: b.others

def wire (b : RawBlock) : List UInt8 := linesWire b.lines ++ [CR, LF]

end RawBlock

/-! ## Lines one behind the other -/

theorem prefix_name_iff (l : RawLine) (rest : List UInt8) :
    [CR, LF] <+: l.wire ++ rest ↔ [CR, LF] <+: l.name := by
  rw [RawLine.wire_append]
  have hcolon : CR ≠ colon ∧ LF ≠ colon := by decide
  match l.name with
  | [] => simp [List.cons_prefix_cons, hcolon.1]
  | [c] => simp [List.cons_prefix_cons, hcolon.2]
  | c :: d :: name => simp [List.cons_prefix_cons]

/-- Behind a line the function goes on with another one that does not begin with an empty line. -/
theorem continues_wire (l : RawLine) (rest : List UInt8) :
    Continues (l.wire ++ rest) ↔ ¬ [CR, LF] <+: l.name := by
  have hlen := l.wire_length
  constructor
  · intro hcont hname
    obtain ⟨t, ht⟩ := (prefix_name_iff l rest).2 hname
    exact hcont.2.2 t ht.symm
  · intro hname
    refine ⟨fun h => ?_, fun h => ?_,
      fun body h => hname ((prefix_name_iff l rest).1 ⟨body, h.symm⟩)⟩
    · have hnil := congrArg List.length h
      rw [List.length_append, List.length_nil] at hnil
      omega
    · have hcr := congrArg List.length h
      rw [List.length_append, List.length_singleton] at hcr
      omega

/-- The function takes all of some lines, up to the last one. -/
theorem Lines.advance {data b : List UInt8} {ls others : List RawLine} {l : RawLine}
    (h : Lines data ls (l.wire ++ (linesWire others ++ b)))
    (hopen : ∀ k ∈ others, ¬ [CR, LF] <+: k.name) :
    ∃ before last, ls ++ l :: others = before ++ [last] ∧ Lines data before (last.wire ++ b) := by
  induction others generalizing ls l with
  | nil => exact ⟨ls, l, rfl, h⟩
  | cons k others ih =>
      rw [linesWire_cons, List.append_assoc] at h
      have hnext := h.next ((continues_wire k _).2 (hopen k List.mem_cons_self))
      obtain ⟨before, last, heq, hlast⟩ := ih hnext fun m hm => hopen m (List.mem_cons_of_mem _ hm)
      exact ⟨before, last, by rw [← heq, List.append_assoc]; rfl, hlast⟩

/-- Behind its first line the function has gone on with lines that do not begin with an empty
    one. -/
theorem Lines.continues {data b : List UInt8} {ls : List RawLine} (h : Lines data ls b) :
    (∀ l ∈ ls.tail, ¬ [CR, LF] <+: l.name) ∧ (ls ≠ [] → Continues b) := by
  induction h with
  | start => exact ⟨fun l hl => absurd hl List.not_mem_nil, fun hne => absurd rfl hne⟩
  | @next ls l rest _ hrest ih =>
      refine ⟨fun k hk => ?_, fun _ => hrest⟩
      cases ls with
      | nil => cases hk
      | cons m ls =>
          rw [List.cons_append, List.tail_cons, List.mem_append, List.mem_singleton] at hk
          rcases hk with hk | rfl
          · exact ih.1 k hk
          · exact (continues_wire k rest).1 (ih.2 (List.cons_ne_nil m ls))

/-- The lines up to the last one are the lines of a block. -/
theorem Lines.block {data rest : List UInt8} {ls : List RawLine} {l : RawLine}
    (h : Lines data ls (l.wire ++ rest)) :
    ∃ b : RawBlock, b.lines = ls ++ [l] ∧ data = linesWire b.lines ++ rest := by
  have hdata : data = linesWire (ls ++ [l]) ++ rest := by
    rw [linesWire_snoc, List.append_assoc, ← h.data_eq]
  obtain ⟨htail, hcont⟩ := h.continues
  cases ls with
  | nil => exact ⟨⟨l, [], fun k hk => absurd hk List.not_mem_nil⟩, rfl, hdata⟩
  | cons first ls =>
      refine ⟨⟨first, ls ++ [l], fun k hk => ?_⟩, rfl, hdata⟩
      rcases List.mem_append.1 hk with hk | hk
      · exact htail k hk
      · rw [List.mem_singleton.1 hk]
        exact (continues_wire l rest).1 (hcont (List.cons_ne_nil first ls))

namespace RawBlock

/-- A buffer that begins with the lines of a block. -/
theorem lines_of_wire (b : RawBlock) (rest : List UInt8) :
    ∃ before last, b.lines = before ++ [last] ∧
      Lines (linesWire b.lines ++ rest) before (last.wire ++ rest) := by
  have hdata : linesWire b.lines ++ rest = b.first.wire ++ (linesWire b.others ++ rest) := by
    rw [lines, linesWire_cons, List.append_assoc]
  have hstart : Lines (linesWire b.lines ++ rest) []
      (b.first.wire ++ (linesWire b.others ++ rest)) := by
    rw [← hdata]
    refine Lines.start fun hnil => ?_
    have hlen := congrArg List.length (hdata.symm.trans hnil)
    have hfirst := b.first.wire_length
    rw [List.length_append, List.length_nil] at hlen
    omega
  exact hstart.advance b.others_open

theorem wire_append (b : RawBlock) (body : List UInt8) :
    b.wire ++ body = linesWire b.lines ++ CR :: LF :: body := by
  simp [wire]

/-- **No block begins another one.** -/
theorem wire_unique {b b' : RawBlock} {body body' : List UInt8}
    (h : b.wire ++ body = b'.wire ++ body') : b = b' ∧ body = body' := by
  -- of lines that do not begin with an empty one, as many are there on both sides
  have hothers : ∀ {ls ls' : List RawLine}, (∀ l ∈ ls, ¬ [CR, LF] <+: l.name) →
      (∀ l ∈ ls', ¬ [CR, LF] <+: l.name) →
      linesWire ls ++ CR :: LF :: body = linesWire ls' ++ CR :: LF :: body' →
      ls = ls' ∧ body = body' := by
    intro ls ls' hls hls' h
    induction ls generalizing ls' with
    | nil =>
        cases ls' with
        | nil => exact ⟨rfl, (List.cons.inj (List.cons.inj h).2).2⟩
        | cons k ls' =>
            rw [linesWire_cons, List.append_assoc] at h
            exact absurd ((prefix_name_iff k _).1 ⟨body, h⟩) (hls' k List.mem_cons_self)
    | cons l ls ih =>
        cases ls' with
        | nil =>
            rw [linesWire_cons, List.append_assoc] at h
            exact absurd ((prefix_name_iff l _).1 ⟨body', h.symm⟩) (hls l List.mem_cons_self)
        | cons k ls' =>
            rw [linesWire_cons, List.append_assoc, linesWire_cons, List.append_assoc] at h
            obtain ⟨rfl, hrest⟩ := RawLine.wire_unique h
            obtain ⟨rfl, hbody⟩ := ih (fun m hm => hls m (List.mem_cons_of_mem _ hm))
              (fun m hm => hls' m (List.mem_cons_of_mem _ hm)) hrest
            exact ⟨rfl, hbody⟩
  rw [wire_append, wire_append, lines, lines, linesWire_cons, linesWire_cons, List.append_assoc,
    List.append_assoc] at h
  obtain ⟨hfirst, hrest⟩ := RawLine.wire_unique h
  obtain ⟨hothers, hbody⟩ := hothers b.others_open b'.others_open hrest
  obtain ⟨first, others, _⟩ := b
  obtain ⟨first', others', _⟩ := b'
  subst hfirst hothers
  exact ⟨rfl, hbody⟩

end RawBlock

/-! ## What is accepted -/

/-- `r` is the block `b` with `body` behind it: its length was read, the stored headers are those of
    its lines, their bytes stand in the buffer, and the body is as it was. -/
structure HeaderResult.Accepts (maxHeader : Int) (b : RawBlock) (body : List UInt8)
    (r : HeaderResult) : Prop where
  ret : r.ret = 0
  readLen_eq : r.readLen = b.wire.length
  headers_eq : r.headers = headersOf RawLine.foldedLen maxHeader b.lines
  holds : EntriesHold r.data (entriesOf maxHeader b.lines)
  body_eq : r.data.drop r.readLen = body

section Language

variable {data : List UInt8} {maxHeader : Int}

/-- A result at the empty line is that of a block. -/
theorem Closed.accepts {ls : List RawLine} {l : RawLine} {body : List UInt8} {r : HeaderResult}
    (h : Closed data maxHeader ls l body r) :
    ∃ b : RawBlock, data = b.wire ++ body ∧ r.Accepts maxHeader b body := by
  obtain ⟨b, hlines, hdata⟩ := h.lines.block
  have hlen : b.wire.length = (linesWire (ls ++ [l])).length + 2 := by
    rw [RawBlock.wire, List.length_append, hlines]
    rfl
  rw [← RawBlock.wire_append] at hdata
  refine ⟨b, hdata, h.ret, by rw [h.readLen_eq, hlen], ?_, ?_, ?_⟩
  · rw [hlines]
    exact h.taken.headers_eq
  · rw [hlines]
    exact h.taken.holds
  · rw [h.readLen_eq, ← List.drop_drop, h.taken.rest, List.drop_drop, ← hlen, hdata, List.drop_left]

/-- Every block is accepted, whatever follows. -/
theorem httpParseHeader_accepts (maxHeader : Int) (hmax : data.length ≤ ptrdiffMax) {b : RawBlock}
    {body : List UInt8} (hdata : data = b.wire ++ body) :
    ∃ r, httpParseHeader data maxHeader = .ok r ∧ r.Accepts maxHeader b body := by
  obtain ⟨before, last, hlines, htaken⟩ := b.lines_of_wire (CR :: LF :: body)
  rw [← RawBlock.wire_append, ← hdata] at htaken
  obtain ⟨r, hr, hclosed⟩ := (headerLines maxHeader htaken.data_ne hmax).closed htaken
    (Nat.le_refl (data.length + 2))
  obtain ⟨b', hdata', haccepts⟩ := Closed.accepts hclosed
  obtain ⟨rfl, -⟩ := RawBlock.wire_unique (hdata.symm.trans hdata')
  exact ⟨r, hr, haccepts⟩

/-- More is asked for at the end of the lines of a block, or a CR later. -/
theorem httpParseHeader_asks (hmax : data.length ≤ ptrdiffMax) {b : RawBlock} {rest : List UInt8}
    (hdata : data = linesWire b.lines ++ rest) (hrest : rest = [] ∨ rest = [CR]) :
    ∃ r, httpParseHeader data maxHeader = .ok r ∧ r.ret = 1 := by
  obtain ⟨before, last, hlines, htaken⟩ := b.lines_of_wire rest
  rw [← hdata] at htaken
  obtain ⟨r, hr, s, -, rfl⟩ := (headerLines maxHeader htaken.data_ne hmax).ended htaken hrest
    (Nat.le_refl (data.length + 2))
  exact ⟨_, hr, rfl⟩

/-- What is returned is 0 on a block or 1 before the end of one. -/
theorem httpParseHeader_ends (hmax : data.length ≤ ptrdiffMax) {r : HeaderResult}
    (hr : httpParseHeader data maxHeader = .ok r) :
    (r.ret = 0 ∧ ∃ (b : RawBlock) (body : List UInt8), data = b.wire ++ body) ∨
    (r.ret = 1 ∧ (data = [] ∨ ∃ b : RawBlock, data = linesWire b.lines ∨
      data = linesWire b.lines ++ [CR])) := by
  by_cases hdata : data = []
  · subst hdata
    rw [httpParseHeader_nil] at hr
    cases hr
    exact Or.inr ⟨rfl, Or.inl rfl⟩
  · rcases httpParseHeader_result hdata hmax hr with ⟨ls, l, body, h⟩ | ⟨ls, l, rest, s, h, rfl⟩
    · obtain ⟨b, heq, -⟩ := h.accepts
      exact Or.inl ⟨h.ret, b, body, heq⟩
    · obtain ⟨b, -, heq⟩ := h.lines.block
      refine Or.inr ⟨rfl, Or.inr ⟨b, ?_⟩⟩
      rcases h.rest_eq with rfl | rfl
      · exact Or.inl (heq.trans (List.append_nil _))
      · exact Or.inr heq

/-- **The language of `http_parse_header`.** It returns 0 exactly on the blocks with anything behind
    them, whose lines it takes as they are, and 1 exactly on the lines of a block, also with one CR
    behind them, and on no bytes. There is no third code. -/
theorem httpParseHeader_language (data : List UInt8) (maxHeader : Int)
    (hmax : data.length ≤ ptrdiffMax) :
    (∀ r, httpParseHeader data maxHeader = .ok r → r.ret = 0 ∨ r.ret = 1) ∧
    ((∃ r, httpParseHeader data maxHeader = .ok r ∧ r.ret = 0) ↔
      ∃ (b : RawBlock) (body : List UInt8), data = b.wire ++ body) ∧
    ((∃ r, httpParseHeader data maxHeader = .ok r ∧ r.ret = 1) ↔
      data = [] ∨ ∃ b : RawBlock, data = linesWire b.lines ∨ data = linesWire b.lines ++ [CR]) ∧
    ∀ (b : RawBlock) (body : List UInt8), data = b.wire ++ body →
      ∃ r, httpParseHeader data maxHeader = .ok r ∧ r.Accepts maxHeader b body := by
  refine ⟨fun r hr => (httpParseHeader_ends hmax hr).imp And.left And.left, ⟨?_, ?_⟩, ⟨?_, ?_⟩,
    fun b body heq => httpParseHeader_accepts maxHeader hmax heq⟩
  · rintro ⟨r, hr, hret⟩
    rcases httpParseHeader_ends hmax hr with ⟨-, hblock⟩ | ⟨hone, -⟩
    · exact hblock
    · rw [hret] at hone
      cases hone
  · rintro ⟨b, body, heq⟩
    obtain ⟨r, hr, haccepts⟩ := httpParseHeader_accepts maxHeader hmax heq
    exact ⟨r, hr, haccepts.ret⟩
  · rintro ⟨r, hr, hret⟩
    rcases httpParseHeader_ends hmax hr with ⟨hzero, -⟩ | ⟨-, hasks⟩
    · rw [hret] at hzero
      cases hzero
    · exact hasks
  · rintro (rfl | ⟨b, rfl | rfl⟩)
    · exact ⟨_, httpParseHeader_nil, rfl⟩
    · exact httpParseHeader_asks hmax (List.append_nil _).symm (Or.inl rfl)
    · exact httpParseHeader_asks hmax rfl (Or.inr rfl)

end Language

/-- A line that begins with an empty line, and a folded one. -/
theorem httpParseHeader_language_folded :
    ∃ (b : RawBlock) (body : List UInt8),
      bytes "\r\nA: b\r\n c:d\r\n\r\nbody" = b.wire ++ body := by
  refine (httpParseHeader_language (bytes "\r\nA: b\r\n c:d\r\n\r\nbody") 4 (by decide)).2.1.1 ?_
  have hrun : (httpParseHeader (bytes "\r\nA: b\r\n c:d\r\n\r\nbody") 4).map HeaderResult.ret
      = .ok 0 := by decide +kernel
  cases hr : httpParseHeader (bytes "\r\nA: b\r\n c:d\r\n\r\nbody") 4 with
  | error e =>
      rw [hr] at hrun
      cases hrun
  | ok r =>
      rw [hr] at hrun
      exact ⟨r, rfl, Except.ok.inj hrun⟩

end Ryze
