import Ryze.HttpParser.HttpHeader

set_option autoImplicit false

/-! # Header blocks

A header block is what a sender writes: header lines, each with the folded lines that belong to it,
and the empty line. The lines hold no CR and no LF, so the block ends at the first CR LF that stands
directly behind another one. -/

namespace Ryze

open CLib

/-- Bytes that may stand inside a line. -/
def IsText (w : List UInt8) : Prop := CR ∉ w ∧ LF ∉ w

theorem IsText.append {v w : List UInt8} (hv : IsText v) (hw : IsText w) : IsText (v ++ w) := by
  refine ⟨fun h => ?_, fun h => ?_⟩
  · exact (List.mem_append.1 h).elim hv.1 hw.1
  · exact (List.mem_append.1 h).elim hv.2 hw.2

theorem IsText.cons {c : UInt8} {w : List UInt8} (hcr : c ≠ CR) (hlf : c ≠ LF) (hw : IsText w) :
    IsText (c :: w) := by
  refine ⟨fun h => ?_, fun h => ?_⟩
  · exact (List.mem_cons.1 h).elim (fun h => hcr h.symm) hw.1
  · exact (List.mem_cons.1 h).elim (fun h => hlf h.symm) hw.2

/-- A folded line without its CR LF: a blank and what it continues the value with. -/
structure FoldedLine where
  blank : UInt8
  content : List UInt8
  is_blank : isBlank blank = true
  content_text : IsText content

namespace FoldedLine

def line (k : FoldedLine) : List UInt8 := k.blank :: k.content

theorem line_text (k : FoldedLine) : IsText k.line := by
  refine k.content_text.cons (ne_cr_of_blank k.is_blank) ?_
  intro h
  have hblank := k.is_blank
  rw [h] at hblank
  exact absurd hblank (by decide)

end FoldedLine

/-- A header line `name ':' tail` with the folded lines behind it. -/
structure BlockField where
  name : List UInt8
  tail : List UInt8
  folds : List FoldedLine
  name_ne : name ≠ []
  name_text : IsText name
  name_colon : colon ∉ name
  name_first : ∀ c ∈ name.head?, isBlank c = false
  tail_text : IsText tail

namespace BlockField

def line (f : BlockField) : List UInt8 := f.name ++ colon :: f.tail

/-- The header line and its folded lines. -/
def lines (f : BlockField) : List (List UInt8) := f.line :: f.folds.map FoldedLine.line

theorem line_text (f : BlockField) : IsText f.line :=
  f.name_text.append (f.tail_text.cons (by decide) (by decide))

theorem line_ne (f : BlockField) : f.line ≠ [] := by simp [line]

theorem lines_text (f : BlockField) : ∀ w ∈ f.lines, w ≠ [] ∧ IsText w := by
  intro w hw
  rcases List.mem_cons.1 hw with rfl | hw
  · exact ⟨f.line_ne, f.line_text⟩
  · obtain ⟨k, -, rfl⟩ := List.mem_map.1 hw
    exact ⟨List.cons_ne_nil _ _, k.line_text⟩

end BlockField

/-- Some lines, each with its CR LF. -/
def closeLines (ws : List (List UInt8)) : List UInt8 := ws.flatMap (fun w => w ++ [CR, LF])

/-- The bytes of a header block. -/
def headerBlock (fs : List BlockField) : List UInt8 :=
  closeLines (fs.flatMap BlockField.lines) ++ [CR, LF]

/-- The buffer is a header block that was cut before its end. -/
def IsCutBlock (data : List UInt8) : Prop := ∃ fs t, t ≠ [] ∧ data ++ t = headerBlock fs

theorem blockLines_text (fs : List BlockField) :
    ∀ w ∈ fs.flatMap BlockField.lines, w ≠ [] ∧ IsText w := by
  intro w hw
  obtain ⟨f, -, hw⟩ := List.mem_flatMap.1 hw
  exact f.lines_text w hw

theorem closeLines_cons (w : List UInt8) (ws : List (List UInt8)) :
    closeLines (w :: ws) = w ++ CR :: LF :: closeLines ws := by
  simp [closeLines]

/-- Only the end of the block starts with a CR LF. -/
theorem closeLines_empty {ws : List (List UInt8)} (hws : ∀ w ∈ ws, w ≠ [] ∧ IsText w)
    {v : List UInt8} (h : closeLines ws ++ [CR, LF] = CR :: LF :: v) : v = [] := by
  cases ws with
  | nil => exact (List.cons.inj (List.cons.inj h).2).2.symm
  | cons w ws =>
      obtain ⟨hne, hcr, -⟩ := hws w (List.mem_cons_self ..)
      obtain ⟨c, w, rfl⟩ := List.exists_cons_of_ne_nil hne
      rw [closeLines_cons] at h
      have hc : c = CR := (List.cons.inj h).1
      exact absurd (by rw [hc]; exact List.mem_cons_self ..) hcr

/-- Two CR LFs side by side stand only at the end of the block. -/
theorem closeLines_end {ws : List (List UInt8)} (hws : ∀ w ∈ ws, w ≠ [] ∧ IsText w)
    {u v : List UInt8} (h : closeLines ws ++ [CR, LF] = u ++ CR :: LF :: CR :: LF :: v) : v = [] := by
  induction ws generalizing u with
  | nil =>
      have hlen := congrArg List.length h
      simp only [closeLines, List.flatMap_nil, List.length_append, List.length_cons,
        List.length_nil] at hlen
      omega
  | cons w ws ih =>
      obtain ⟨-, hcr, -⟩ := hws w (List.mem_cons_self ..)
      have hrest : ∀ w ∈ ws, w ≠ [] ∧ IsText w := fun w hw => hws w (List.mem_cons_of_mem _ hw)
      rw [closeLines_cons, List.append_assoc] at h
      -- the first of the two stands behind the line, or the line holds a CR
      obtain ⟨t, rfl, ht⟩ | ⟨t, rfl, ht⟩ := List.append_eq_append_iff.1 h
      · match t, ht with
        | [], ht => exact closeLines_empty hrest (List.cons.inj (List.cons.inj ht).2).2
        | [c], ht =>
            obtain ⟨-, ht⟩ := List.cons.inj ht
            exact absurd (List.cons.inj ht).1 (by decide)
        | c :: d :: t, ht => exact ih hrest (List.cons.inj (List.cons.inj ht).2).2
      · cases t with
        | nil => exact closeLines_empty hrest (List.cons.inj (List.cons.inj ht).2).2.symm
        | cons c t =>
            have hc : CR = c := (List.cons.inj ht).1
            exact absurd (by rw [hc]; simp) hcr

end Ryze
