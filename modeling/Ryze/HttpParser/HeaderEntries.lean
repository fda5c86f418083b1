import Ryze.HttpParser.HeaderStore
import Mathlib.Data.List.ModifyLast

set_option autoImplicit false

/-! # The stored headers of some lines

Which lines are stored, and which folded lines belong to which stored line, is decided by the lines
alone (`entriesOf`); the two parsers differ only in how many bytes a folded line adds to a value,
which is the parameter `added` here. Stored lines lie one behind the other, each with the bytes its
folded lines add in front of the next one (`Layout`). -/

namespace Ryze

open CLib

/-- A stored line at offset `start`, with the lines that were folded into it. -/
structure Entry where
  start : Nat
  line : RawLine
  folds : List RawLine

namespace Entry

section Spans

variable (added : RawLine → Nat) (e : Entry)

/-- How many bytes the folded lines add to the value. -/
def extra : Nat := (e.folds.map added).sum

/-- Where the value starts. -/
def value : Nat := e.start + e.line.name.length + 1 + leadingBlanks e.line.tail

/-- Where the value ends. -/
def stop : Nat := e.start + e.line.name.length + 1 + trimmedLen e.line.tail + e.extra added

/-- The header that is stored for the entry. -/
def header : HttpHeader where
  name := e.start
  nameLen := e.line.name.length
  value := e.value
  valueLen := ptrDiff (e.stop added) e.value

/-- One more line is folded into the entry. -/
def fold (l : RawLine) : Entry := { e with folds := e.folds ++ [l] }

@[simp] theorem fold_start (l : RawLine) : (e.fold l).start = e.start := rfl

@[simp] theorem fold_line (l : RawLine) : (e.fold l).line = e.line := rfl

@[simp] theorem fold_value (l : RawLine) : (e.fold l).value = e.value := rfl

theorem fold_extra (l : RawLine) : (e.fold l).extra added = e.extra added + added l := by
  simp [extra, fold]

theorem fold_stop (l : RawLine) : (e.fold l).stop added = e.stop added + added l := by
  simp only [stop, fold_extra, fold_start, fold_line]
  omega

end Spans

end Entry

/-- The entries after a line at offset `p1`. -/
def takeEntry (maxHeader : Int) (es : List Entry) (p1 : Nat) (l : RawLine) : List Entry :=
  if l.isFolded then es.modifyLast (fun e => e.fold l)
  else if l.isToken ∧ (es.length : Int) < maxHeader then es ++ [⟨p1, l, []⟩]
  else es

/-- The entries of lines that start at offset `p1`. -/
def takeEntries (maxHeader : Int) : (p1 : Nat) → List Entry → List RawLine → List Entry
  | _, es, [] => es
  | p1, es, l :: ls => takeEntries maxHeader (p1 + l.wire.length) (takeEntry maxHeader es p1 l) ls

/-- The entries of the lines a buffer begins with. -/
def entriesOf (maxHeader : Int) (ls : List RawLine) : List Entry := takeEntries maxHeader 0 [] ls

theorem takeEntries_append (maxHeader : Int) (p1 : Nat) (es : List Entry) (ls ls' : List RawLine) :
    takeEntries maxHeader p1 es (ls ++ ls')
      = takeEntries maxHeader (p1 + (linesWire ls).length) (takeEntries maxHeader p1 es ls) ls' := by
  induction ls generalizing p1 es with
  | nil => simp [takeEntries, linesWire]
  | cons l ls ih =>
      rw [List.cons_append, takeEntries, ih, takeEntries, linesWire_cons, List.length_append,
        Nat.add_assoc]

theorem entriesOf_snoc (maxHeader : Int) (ls : List RawLine) (l : RawLine) :
    entriesOf maxHeader (ls ++ [l])
      = takeEntry maxHeader (entriesOf maxHeader ls) (linesWire ls).length l := by
  rw [entriesOf, takeEntries_append, Nat.zero_add, entriesOf]
  rfl

/-! ## Where entries lie -/

/-- The entries taken from the bytes `w`: each is a stored line of them, and ends in front of the next
    one. -/
structure Layout (added : RawLine → Nat) (w : List UInt8) (es : List Entry) : Prop where
  at_line : ∀ e ∈ es, ∃ t, w.drop e.start = e.line.wire ++ t
  stored : ∀ e ∈ es, e.line.isToken = true ∧ e.line.isFolded = false
  stop_le : ∀ e ∈ es, e.stop added ≤ w.length
  sorted : es.Pairwise (fun e e' => e.stop added ≤ e'.start)

section Layout

variable {added : RawLine → Nat} {maxHeader : Int} {w : List UInt8} {es : List Entry} {e : Entry}
  {l : RawLine}

theorem Layout.line_le (h : Layout added w es) (he : e ∈ es) :
    e.start + e.line.wire.length ≤ w.length := by
  obtain ⟨t, ht⟩ := h.at_line e he
  have hlen := congrArg List.length ht
  rw [List.length_drop, List.length_append] at hlen
  have := e.line.wire_length
  omega

theorem Layout.value_le (h : Layout added w es) (he : e ∈ es) : e.value ≤ w.length := by
  have hline := h.line_le he
  have hlen := e.line.wire_length
  have hlead := leadingBlanks_le e.line.tail
  unfold Entry.value
  omega

theorem layout_nil (added : RawLine → Nat) (w : List UInt8) : Layout added w [] where
  at_line := fun _ he => absurd he (List.not_mem_nil)
  stored := fun _ he => absurd he (List.not_mem_nil)
  stop_le := fun _ he => absurd he (List.not_mem_nil)
  sorted := List.Pairwise.nil

/-- More bytes behind the lines change nothing. -/
theorem Layout.append (h : Layout added w es) (t : List UInt8) : Layout added (w ++ t) es where
  at_line := by
    intro e he
    obtain ⟨u, hu⟩ := h.at_line e he
    refine ⟨u ++ t, ?_⟩
    have hle := h.line_le he
    rw [List.drop_append_of_le_length (by omega), hu, List.append_assoc]
  stored := h.stored
  stop_le := by
    intro e he
    have := h.stop_le e he
    rw [List.length_append]
    omega
  sorted := h.sorted

/-- Folding a line into the last entry. -/
theorem Layout.fold (h : Layout added w es) (hadded : added l < l.wire.length) :
    Layout added (w ++ l.wire) (es.modifyLast (fun e => e.fold l)) := by
  have hmore := h.append l.wire
  rcases List.eq_nil_or_concat' es with rfl | ⟨es, last, rfl⟩
  · exact hmore
  · rw [List.modifyLast_concat]
    have hlast : last ∈ es ++ [last] := by simp
    have hcases : ∀ {e : Entry}, e ∈ es ++ [last.fold l] → e ∈ es ++ [last] ∨ e = last.fold l := by
      intro e he
      rcases List.mem_append.1 he with he | he
      · exact Or.inl (List.mem_append_left _ he)
      · exact Or.inr (List.mem_singleton.1 he)
    refine ⟨fun e he => ?_, fun e he => ?_, fun e he => ?_, ?_⟩
    · rcases hcases he with he | rfl
      · exact hmore.at_line e he
      · exact hmore.at_line last hlast
    · rcases hcases he with he | rfl
      · exact hmore.stored e he
      · exact hmore.stored last hlast
    · rcases hcases he with he | rfl
      · exact hmore.stop_le e he
      · have hstop := h.stop_le last hlast
        rw [Entry.fold_stop, List.length_append]
        omega
    · obtain ⟨hes, -, hlt⟩ := List.pairwise_append.1 h.sorted
      refine List.pairwise_append.2 ⟨hes, List.pairwise_singleton .., fun e he x hx => ?_⟩
      rw [List.mem_singleton.1 hx, Entry.fold_start]
      exact hlt e he last (List.mem_singleton_self _)

/-- Storing a line behind the others. -/
theorem Layout.push (h : Layout added w es) (htoken : l.isToken = true)
    (hfolded : l.isFolded = false) : Layout added (w ++ l.wire) (es ++ [⟨w.length, l, []⟩]) := by
  have hmore := h.append l.wire
  have hlen := l.wire_length
  have htrim := trimmedLen_le l.tail
  refine ⟨fun e he => ?_, fun e he => ?_, fun e he => ?_, ?_⟩
  · rcases List.mem_append.1 he with he | he
    · exact hmore.at_line e he
    · rw [List.mem_singleton.1 he]
      exact ⟨[], by rw [List.drop_left, List.append_nil]⟩
  · rcases List.mem_append.1 he with he | he
    · exact hmore.stored e he
    · rw [List.mem_singleton.1 he]
      exact ⟨htoken, hfolded⟩
  · rcases List.mem_append.1 he with he | he
    · exact hmore.stop_le e he
    · rw [List.mem_singleton.1 he, List.length_append]
      simp only [Entry.stop, Entry.extra, List.map_nil, List.sum_nil]
      omega
  · refine List.pairwise_append.2 ⟨h.sorted, List.pairwise_singleton .., fun e he x hx => ?_⟩
    rw [List.mem_singleton.1 hx]
    exact h.stop_le e he

theorem Layout.take (h : Layout added w es) (hadded : added l < l.wire.length) :
    Layout added (w ++ l.wire) (takeEntry maxHeader es w.length l) := by
  unfold takeEntry
  by_cases hfolded : l.isFolded = true
  · rw [if_pos hfolded]
    exact h.fold hadded
  · rw [if_neg hfolded]
    by_cases hstore : l.isToken = true ∧ (es.length : Int) < maxHeader
    · rw [if_pos hstore]
      exact h.push hstore.1 (Bool.eq_false_iff.2 hfolded)
    · rw [if_neg hstore]
      exact h.append l.wire

/-- The entries of some lines lie inside these lines. -/
theorem entriesOf_layout (hadded : ∀ l, added l < l.wire.length) (maxHeader : Int)
    (ls : List RawLine) : Layout added (linesWire ls) (entriesOf maxHeader ls) := by
  induction ls using List.reverseRecOn with
  | nil => exact layout_nil added _
  | append_singleton ls l ih =>
      rw [linesWire_snoc, entriesOf_snoc]
      exact ih.take (hadded l)

/-! ## The headers of the entries -/

/-- A value that grows ends later by what was added, also when its length had wrapped. -/
theorem ptrDiff_grow {a b n : Nat} (ha : a + n < sizeMod) (hb : b < sizeMod) :
    sizeAdd (ptrDiff a b) n = ptrDiff (a + n) b := by
  unfold sizeAdd ptrDiff sizeMod at *
  split <;> split <;> omega

/-- `takeLine` stores the headers of the entries. -/
theorem takeLine_entries (h : Layout added w es) (hadded : added l < l.wire.length)
    (hmax : w.length + l.wire.length < sizeMod) :
    takeLine added maxHeader (es.map (Entry.header added)) w.length l
      = (takeEntry maxHeader es w.length l).map (Entry.header added) := by
  unfold takeLine takeEntry
  rw [List.length_map]
  by_cases hfolded : l.isFolded = true
  · rw [if_pos hfolded, if_pos hfolded]
    rcases List.eq_nil_or_concat' es with rfl | ⟨es, last, rfl⟩
    · exact ite_self _
    · have hlast : last ∈ es ++ [last] := by simp
      have hstop := h.stop_le last hlast
      have hvalue := h.value_le hlast
      have hgrow := ptrDiff_grow (n := added l) (show last.stop added + added l < sizeMod by omega)
        (show last.value < sizeMod by omega)
      rw [List.modifyLast_concat, List.map_append, List.map_append]
      simp only [List.map_cons, List.map_nil, extendLast, List.getLast?_concat, List.dropLast_concat]
      by_cases hpos : 0 < added l
      · rw [if_pos hpos]
        simp only [Entry.header, Entry.fold_start, Entry.fold_line, Entry.fold_value,
          Entry.fold_stop, hgrow]
      · rw [if_neg hpos]
        simp only [Entry.header, Entry.fold_start, Entry.fold_line, Entry.fold_value,
          Entry.fold_stop, show added l = 0 by omega, Nat.add_zero]
  · rw [if_neg hfolded, if_neg hfolded]
    by_cases hstore : l.isToken = true ∧ (es.length : Int) < maxHeader
    · rw [if_pos hstore, if_pos hstore, List.map_append]
      rfl
    · rw [if_neg hstore, if_neg hstore]

/-- The headers stored for the lines a buffer begins with. -/
def headersOf (added : RawLine → Nat) (maxHeader : Int) (ls : List RawLine) : List HttpHeader :=
  (entriesOf maxHeader ls).map (Entry.header added)

theorem headersOf_snoc {ls : List RawLine} (hadded : ∀ l, added l < l.wire.length)
    (hmax : (linesWire ls).length + l.wire.length < sizeMod) :
    headersOf added maxHeader (ls ++ [l])
      = takeLine added maxHeader (headersOf added maxHeader ls) (linesWire ls).length l := by
  rw [headersOf, entriesOf_snoc, headersOf,
    takeLine_entries (entriesOf_layout hadded maxHeader ls) (hadded l) hmax]

theorem Layout.header_fin (h : Layout added w es) (he : e ∈ es) (hmax : w.length < sizeMod) :
    (e.header added).fin = e.stop added := by
  have hstop := h.stop_le e he
  have hvalue := h.value_le he
  exact sizeAdd_ptrDiff (a := e.stop added) (b := e.value) (by omega) (by omega)

end Layout

end Ryze
