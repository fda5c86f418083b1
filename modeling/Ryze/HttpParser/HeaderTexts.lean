import Ryze.HttpParser.HeaderSpans
import Mathlib.Data.List.Forall2

set_option autoImplicit false

/-! # The headers a block stands for

The first `max_header` header lines with a token name are to be stored, each with its name and with
its value and what its folded lines continue it with (`HeadersAre`). Where every folded line holds a
colon, the function takes the lines of a block one by one (`httpParseHeader_block`), and the texts of
what it stored are those of its entries (`Taken.headersAre_iff`). -/

namespace Ryze

open CLib

/-! ## What is to be stored -/

/-- A value without the blanks around it. -/
def trim (v : List UInt8) : List UInt8 := (v.rdropWhile isBlank).dropWhile isBlank

/-- The value of a header line, with its folded lines. -/
def BlockField.value (f : BlockField) : List UInt8 := trim f.tail ++ f.folds.flatMap FoldedLine.content

def BlockField.isToken (f : BlockField) : Bool := f.name.all isTokenChar

/-- Header lines with their offsets, the first one at offset `p`. -/
def fieldsAt : (p : Nat) → List BlockField → List (Nat × BlockField)
  | _, [] => []
  | p, f :: fs => (p, f) :: fieldsAt (p + (closeLines f.lines).length) fs

/-- The first `max_header` header lines whose name is a token. -/
def fieldsToStore (maxHeader : Int) (fs : List BlockField) : List (Nat × BlockField) :=
  ((fieldsAt 0 fs).filter (fun q => q.2.isToken)).take maxHeader.toNat

/-- The bytes of some header lines and their folded lines. -/
def blockBytes (fs : List BlockField) : List UInt8 := closeLines (fs.flatMap BlockField.lines)

/-- A header is that of the header line `q.2` at offset `q.1`. -/
def HeaderIs (data : List UInt8) (h : HttpHeader) (q : Nat × BlockField) : Prop :=
  h.name = q.1 ∧ h.text data = (some q.2.name, some q.2.value)

/-- The headers are those of the header lines that are to be stored. -/
def HeadersAre (data : List UInt8) (headers : List HttpHeader) (maxHeader : Int)
    (fs : List BlockField) : Prop :=
  List.Forall₂ (HeaderIs data) headers (fieldsToStore maxHeader fs)

theorem closeLines_append (ws ws' : List (List UInt8)) :
    closeLines (ws ++ ws') = closeLines ws ++ closeLines ws' := List.flatMap_append

theorem blockBytes_append (fs fs' : List BlockField) :
    blockBytes (fs ++ fs') = blockBytes fs ++ blockBytes fs' := by
  rw [blockBytes, List.flatMap_append, closeLines_append]
  rfl

theorem fieldsAt_snoc (p : Nat) (fs : List BlockField) (f : BlockField) :
    fieldsAt p (fs ++ [f]) = fieldsAt p fs ++ [(p + (blockBytes fs).length, f)] := by
  induction fs generalizing p with
  | nil => rfl
  | cons g fs ih =>
      have hlen : (blockBytes (g :: fs)).length = (closeLines g.lines).length + (blockBytes fs).length := by
        rw [← List.singleton_append, blockBytes_append, List.length_append]
        simp [blockBytes]
      rw [List.cons_append, fieldsAt, ih, fieldsAt, List.cons_append, hlen, Nat.add_assoc]

/-- The header line `f` behind the lines of `fs` is to be stored. -/
def Stores (maxHeader : Int) (fs : List BlockField) (f : BlockField) : Prop :=
  f.isToken = true ∧ ((fieldsToStore maxHeader fs).length : Int) < maxHeader

theorem fieldsToStore_snoc_of_stores {maxHeader : Int} {fs : List BlockField} {f : BlockField}
    (h : Stores maxHeader fs f) : fieldsToStore maxHeader (fs ++ [f])
      = fieldsToStore maxHeader fs ++ [((blockBytes fs).length, f)] := by
  obtain ⟨htoken, hlt⟩ := h
  unfold fieldsToStore at *
  rw [List.length_take] at hlt
  rw [fieldsAt_snoc, List.filter_append, List.filter_singleton, Nat.zero_add, htoken, cond_true,
    List.take_append, List.take_of_length_le (l := [_]) (by rw [List.length_singleton]; omega)]

theorem fieldsToStore_snoc_of_not {maxHeader : Int} {fs : List BlockField} {f : BlockField}
    (h : ¬ Stores maxHeader fs f) :
    fieldsToStore maxHeader (fs ++ [f]) = fieldsToStore maxHeader fs := by
  unfold Stores fieldsToStore at *
  rw [List.length_take] at h
  rw [fieldsAt_snoc, List.filter_append, List.filter_singleton]
  by_cases htoken : f.isToken = true
  · simp only [htoken, true_and] at h
    rw [htoken, cond_true, List.take_append_of_le_length (by omega)]
  · rw [Bool.eq_false_iff.2 htoken, cond_false, List.append_nil]

/-! ## Raw lines -/

theorem isTail_of_text {v : List UInt8} (hv : IsText v) : IsTail v := by
  constructor
  · intro u w h
    exact absurd (by rw [h]; simp) hv.2
  · have hrun : crRun v = 0 := by
      by_contra hne
      obtain ⟨w, rfl⟩ := crRun_of_ne hne
      exact hv.1 (by simp)
    rw [hrun]

/-- A header line as the function takes it. -/
def BlockField.raw (f : BlockField) : RawLine where
  name := f.name
  tail := f.tail
  name_colon := f.name_colon
  tail_open := isTail_of_text f.tail_text

theorem BlockField.raw_wire (f : BlockField) : f.raw.wire = f.line ++ [CR, LF] := by
  simp [RawLine.wire, BlockField.raw, BlockField.line]

theorem BlockField.raw_not_folded (f : BlockField) : f.raw.isFolded = false := by
  obtain ⟨c, w, hname⟩ := List.exists_cons_of_ne_nil f.name_ne
  have hfirst := f.name_first c (by rw [hname]; rfl)
  show f.name.head?.any isBlank = false
  rw [hname]
  exact hfirst

namespace FoldedLine

/-- A folded line with a colon as the function takes it. -/
def raw (k : FoldedLine) : RawLine where
  name := k.line.takeWhile (· != colon)
  tail := (k.line.dropWhile (· != colon)).drop 1
  name_colon := fun h => by simpa using List.mem_takeWhile_imp h
  tail_open := isTail_of_text
    ⟨fun h => k.line_text.1 ((List.dropWhile_sublist _).subset (List.mem_of_mem_drop h)),
      fun h => k.line_text.2 ((List.dropWhile_sublist _).subset (List.mem_of_mem_drop h))⟩

theorem blank_ne (k : FoldedLine) : k.blank ≠ colon := by
  intro h
  have hblank := k.is_blank
  rw [h] at hblank
  exact absurd hblank (by decide)

theorem raw_name (k : FoldedLine) : k.raw.name = k.blank :: k.content.takeWhile (· != colon) :=
  List.takeWhile_cons_of_pos (p := (· != colon)) (bne_iff_ne.2 k.blank_ne)

theorem raw_folded (k : FoldedLine) : k.raw.isFolded = true := by
  rw [RawLine.isFolded, raw_name]
  exact k.is_blank

/-- A folded line with a colon is cut there. -/
theorem raw_content {k : FoldedLine} (h : colon ∈ k.content) :
    k.content.takeWhile (· != colon) ++ colon :: k.raw.tail = k.content := by
  have hdrop : k.line.dropWhile (· != colon) = k.content.dropWhile (· != colon) :=
    List.dropWhile_cons_of_pos (p := (· != colon)) (bne_iff_ne.2 k.blank_ne)
  show _ ++ colon :: (k.line.dropWhile (· != colon)).drop 1 = _
  rw [hdrop]
  have hsplit := List.takeWhile_append_dropWhile (p := (· != colon)) (l := k.content)
  cases hrest : k.content.dropWhile (· != colon) with
  | nil =>
      rw [hrest, List.append_nil] at hsplit
      rw [← hsplit] at h
      exact absurd (List.mem_takeWhile_imp h) (by simp)
  | cons c v =>
      have hc : c = colon := by
        have hhead := List.head?_dropWhile_not (· != colon) k.content
        rw [hrest] at hhead
        simpa using hhead
      rw [hrest, hc] at hsplit
      exact hsplit

theorem raw_wire {k : FoldedLine} (h : colon ∈ k.content) : k.raw.wire = k.line ++ [CR, LF] := by
  rw [RawLine.wire, raw_name, line]
  conv_rhs => rw [← raw_content h]
  simp

/-- The bytes a folded line with a colon is appended with. -/
theorem raw_foldedText {k : FoldedLine} (h : colon ∈ k.content) :
    k.raw.foldedText = k.content.take (toInt32 (k.content.length : Nat)).toNat := by
  have hlen : k.raw.name.length + k.raw.tail.length = k.content.length := by
    conv_rhs => rw [← raw_content h]
    rw [raw_name, List.length_cons, List.length_append, List.length_cons]
    omega
  rw [RawLine.foldedText, RawLine.foldedLen, hlen, raw_name, List.drop_one, List.tail_cons,
    raw_content h]

end FoldedLine

/-- The lines of a block whose folded lines all hold a colon. -/
def rawLines (fs : List BlockField) : List RawLine :=
  fs.flatMap (fun f => f.raw :: f.folds.map FoldedLine.raw)

/-- Every folded line holds a colon. -/
def FoldsHaveColon (fs : List BlockField) : Prop := ∀ f ∈ fs, ∀ k ∈ f.folds, colon ∈ k.content

theorem linesWire_folds {ks : List FoldedLine} (h : ∀ k ∈ ks, colon ∈ k.content) :
    linesWire (ks.map FoldedLine.raw) = closeLines (ks.map FoldedLine.line) := by
  induction ks with
  | nil => rfl
  | cons k ks ih =>
      rw [List.map_cons, List.map_cons, linesWire_cons, closeLines_cons,
        FoldedLine.raw_wire (h k (List.mem_cons_self ..)),
        ih (fun k hk => h k (List.mem_cons_of_mem _ hk))]
      simp

theorem linesWire_rawLines {fs : List BlockField} (h : FoldsHaveColon fs) :
    linesWire (rawLines fs) = blockBytes fs := by
  induction fs with
  | nil => rfl
  | cons f fs ih =>
      rw [rawLines, List.flatMap_cons, List.cons_append, linesWire_cons, linesWire_append,
        linesWire_folds (h f (List.mem_cons_self ..)), f.raw_wire]
      have hrest := ih (fun f hf => h f (List.mem_cons_of_mem _ hf))
      rw [rawLines] at hrest
      rw [hrest, blockBytes, blockBytes, List.flatMap_cons, closeLines_append, BlockField.lines,
        closeLines_cons]
      simp

/-! ## The lines of a block -/

/-- The line does not start with a CR. -/
theorem rawLines_start {fs : List BlockField} :
    ∀ l ∈ rawLines fs, ∃ c w, l.name = c :: w ∧ c ≠ CR := by
  intro l hl
  obtain ⟨f, -, hl⟩ := List.mem_flatMap.1 hl
  rcases List.mem_cons.1 hl with rfl | hl
  · obtain ⟨c, w, hname⟩ := List.exists_cons_of_ne_nil f.name_ne
    refine ⟨c, w, hname, fun hc => f.name_text.1 ?_⟩
    rw [hname, hc]
    exact List.mem_cons_self ..
  · obtain ⟨k, -, rfl⟩ := List.mem_map.1 hl
    exact ⟨_, _, k.raw_name, ne_cr_of_blank k.is_blank⟩

theorem continues_of_start {c : UInt8} {w : List UInt8} (hc : c ≠ CR) : Continues (c :: w) := by
  refine ⟨List.cons_ne_nil _ _, fun h => hc (List.cons.inj h).1, fun body h => hc (List.cons.inj h).1⟩

theorem lines_of_wire {ls : List RawLine} (hls : ∀ l ∈ ls, ∃ c w, l.name = c :: w ∧ c ≠ CR)
    {b : List UInt8} (hb : Continues b) : Lines (linesWire ls ++ b) ls b := by
  induction ls using List.reverseRecOn generalizing b with
  | nil => exact Lines.start hb.1
  | append_singleton ls l ih =>
      obtain ⟨c, w, hname, hc⟩ := hls l (by simp)
      have hcont : Continues (l.wire ++ b) := by
        rw [RawLine.wire_append, hname, List.cons_append]
        exact continues_of_start hc
      have hlines := ih (fun l hl => hls l (List.mem_append_left _ hl)) hcont
      rw [linesWire_snoc, List.append_assoc]
      exact hlines.next hb

theorem rawLines_snoc {fs : List BlockField} (hfs : fs ≠ []) :
    ∃ ls l, rawLines fs = ls ++ [l] := by
  rcases List.eq_nil_or_concat' (rawLines fs) with hnil | h
  · obtain ⟨f, fs, rfl⟩ := List.exists_cons_of_ne_nil hfs
    cases hnil
  · exact h

/-- **The run on a block.** Where every folded line holds a colon, the function takes the lines one by
    one and stops at the empty line. -/
theorem httpParseHeader_block {fs : List BlockField} (hfs : fs ≠ []) (hcolon : FoldsHaveColon fs)
    {body : List UInt8} (hmax : (headerBlock fs ++ body).length ≤ ptrdiffMax) (maxHeader : Int) :
    AllLines (headerBlock fs ++ body) (rawLines fs) ∧
      ∃ r, httpParseHeader (headerBlock fs ++ body) maxHeader = .ok r ∧ r.ret = 0 ∧
        Taken (headerBlock fs ++ body) maxHeader (rawLines fs) r.data r.headers := by
  obtain ⟨ls, l, hls⟩ := rawLines_snoc hfs
  have hstart := @rawLines_start fs
  rw [hls] at hstart
  have hdata : headerBlock fs ++ body = linesWire ls ++ (l.wire ++ CR :: LF :: body) := by
    rw [headerBlock, ← blockBytes, ← linesWire_rawLines hcolon, hls, linesWire_snoc]
    simp
  have hlines : Lines (headerBlock fs ++ body) ls (l.wire ++ CR :: LF :: body) := by
    rw [hdata]
    refine lines_of_wire (fun l hl => hstart l (List.mem_append_left _ hl)) ?_
    obtain ⟨c, w, hname, hc⟩ := hstart l (by simp)
    rw [RawLine.wire_append, hname, List.cons_append]
    exact continues_of_start hc
  refine ⟨⟨ls, l, _, hls, hlines, not_continues_empty body⟩, ?_⟩
  obtain ⟨r, hr, hclosed⟩ :=
    (headerLines maxHeader hlines.data_ne hmax).closed hlines (Nat.le_refl _)
  refine ⟨r, hr, hclosed.ret, ?_⟩
  rw [hls]
  exact hclosed.taken

/-! ## The texts of entries -/

/-- The bytes of an entry's value. -/
def Entry.valueText (e : Entry) : List UInt8 :=
  (e.line.tail.rdropWhile isBlank ++ e.folds.flatMap RawLine.foldedText).drop
    (leadingBlanks e.line.tail)

/-- An entry is that of the header line `q.2` at offset `q.1`. -/
structure EntryIs (e : Entry) (q : Nat × BlockField) : Prop where
  start : e.start = q.1
  name : e.line.name = q.2.name
  value_le : e.value ≤ e.stop RawLine.foldedLen
  valueText : e.valueText = q.2.value

theorem Entry.leadingBlanks_le {e : Entry} (hle : e.value ≤ e.stop RawLine.foldedLen) :
    leadingBlanks e.line.tail ≤
      (e.line.tail.rdropWhile isBlank ++ e.folds.flatMap RawLine.foldedText).length := by
  have hstop := e.text_stop
  rw [Entry.text, List.length_append, List.length_cons] at hstop
  unfold Entry.value at hle
  omega

theorem Entry.text_value (e : Entry) {buf t : List UInt8} (h : buf.drop e.start = e.text ++ t)
    (hle : e.value ≤ e.stop RawLine.foldedLen) :
    buf.drop e.value = e.valueText ++ t ∧
      e.valueText.length = e.stop RawLine.foldedLen - e.value := by
  have hstop := e.text_stop
  have hfront : e.text = (e.line.name ++ [colon]) ++
      (e.line.tail.rdropWhile isBlank ++ e.folds.flatMap RawLine.foldedText) := by
    simp [Entry.text]
  have hlen := congrArg List.length hfront
  rw [List.length_append, List.length_append, List.length_singleton] at hlen
  have hlead := Entry.leadingBlanks_le hle
  constructor
  · have hcolon : buf.drop (e.start + e.line.name.length + 1)
        = e.line.tail.rdropWhile isBlank ++ e.folds.flatMap RawLine.foldedText ++ t := by
      rw [hfront, List.append_assoc] at h
      have := drop_add_of_drop h
      rwa [List.length_append, List.length_singleton, ← Nat.add_assoc] at this
    rw [Entry.value, ← List.drop_drop, hcolon, List.drop_append_of_le_length hlead]
    rfl
  · unfold Entry.value at *
    rw [Entry.valueText, List.length_drop]
    omega

theorem forall₂_congr_mem {α β : Type} {R S : α → β → Prop} {l : List α} {m : List β}
    (h : ∀ a ∈ l, ∀ b, R a b ↔ S a b) : List.Forall₂ R l m ↔ List.Forall₂ S l m := by
  induction l generalizing m with
  | nil => simp
  | cons a l ih =>
      cases m with
      | nil => simp
      | cons b m =>
          rw [List.forall₂_cons, List.forall₂_cons, h a (List.mem_cons_self ..),
            ih (fun a ha => h a (List.mem_cons_of_mem _ ha))]

/-- **The texts of stored headers** are those of the entries. -/
theorem Taken.headersAre_iff {data : List UInt8} {maxHeader : Int} {ls : List RawLine}
    {r : HeaderResult} {fs : List BlockField} (h : Taken data maxHeader ls r.data r.headers)
    (hlines : AllLines data ls) (hmax : data.length ≤ ptrdiffMax) :
    HeadersAre r.data r.headers maxHeader fs ↔
      List.Forall₂ EntryIs (entriesOf maxHeader ls) (fieldsToStore maxHeader fs) := by
  obtain ⟨rest, hdata⟩ := hlines.data_eq
  have hlayout := entriesOf_layout RawLine.foldedLen_lt maxHeader ls
  have hlen : data.length = (linesWire ls).length + rest.length := by rw [hdata, List.length_append]
  have hmod : ptrdiffMax < sizeMod := by decide
  rw [HeadersAre, h.headers_eq, headersOf, List.forall₂_map_left_iff]
  refine forall₂_congr_mem fun e he q => ?_
  obtain ⟨t, ht⟩ := h.holds e he
  have hline := hlayout.line_le he
  have hstop := hlayout.stop_le e he
  have hname : slice r.data e.start e.line.name.length = some e.line.name := by
    rw [Entry.text, List.append_assoc] at ht
    exact slice_of_drop ht (by rw [h.length]; omega)
  unfold HeaderIs HttpHeader.text
  simp only [Entry.header, hname, Prod.mk.injEq, Option.some.injEq]
  by_cases hle : e.value ≤ e.stop RawLine.foldedLen
  · obtain ⟨hdrop, hvalue⟩ := e.text_value ht hle
    rw [ptrDiff_of_le hle, ← hvalue, slice_of_drop hdrop (by rw [h.length]; omega), Option.some.injEq]
    constructor
    · rintro ⟨hstart, hname, htext⟩
      exact ⟨hstart, hname, hle, htext⟩
    · intro his
      exact ⟨his.start, his.name, his.valueText⟩
  · -- the length has wrapped, so there is no text
    refine iff_of_false ?_ fun his => hle his.value_le
    rintro ⟨-, -, hslice⟩
    unfold slice ptrDiff at hslice
    rw [if_neg hle, if_neg (by rw [h.length]; omega)] at hslice
    cases hslice

end Ryze
