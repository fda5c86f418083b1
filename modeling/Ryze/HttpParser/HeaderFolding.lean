import Ryze.HttpParser.HeaderSafety
import Ryze.HttpParser.HeaderTexts

set_option autoImplicit false

/-! # Line folding

A folded line reaches the value it belongs to if it holds a colon, if its header line was stored and
if an `int` can count its bytes. Without a colon it takes the next line with it; behind a header line
that was not stored it goes to the header before. A value of blanks only is never right. The block
and all its beginnings are read right exactly if none of this happens (`httpParseHeader_folding`). -/

namespace Ryze

open CLib

/-- The header line with other folded lines. -/
def BlockField.withFolds (f : BlockField) (ks : List FoldedLine) : BlockField := { f with folds := ks }

@[simp] theorem BlockField.withFolds_raw (f : BlockField) (ks : List FoldedLine) :
    (f.withFolds ks).raw = f.raw := rfl

@[simp] theorem BlockField.withFolds_folds (f : BlockField) (ks : List FoldedLine) :
    (f.withFolds ks).folds = ks := rfl

/-- The block `fs'` is `fs` cut behind one of its lines. -/
def Begins (fs' fs : List BlockField) : Prop :=
  ∃ before f ks ks' rest, fs = before ++ BlockField.withFolds f (ks ++ ks') :: rest ∧
    fs' = before ++ [f.withFolds ks]

/-- The function takes the block off every buffer that begins with it: it returns 0, with the headers
    that are to be stored, each continued by its own folded lines. -/
def ReadsBlock (fs : List BlockField) (maxHeader : Int) : Prop :=
  ∀ body, (headerBlock fs ++ body).length ≤ ptrdiffMax →
    ∃ r, httpParseHeader (headerBlock fs ++ body) maxHeader = .ok r ∧ r.ret = 0 ∧
      HeadersAre r.data r.headers maxHeader fs

/-- Neither the header line `f` behind `before` nor a folded line of it meets one of the defects. -/
structure FieldClean (maxHeader : Int) (before : List BlockField) (f : BlockField) : Prop where
  colons : ∀ k ∈ f.folds, colon ∈ k.content
  value : Stores maxHeader before f → (∀ c ∈ f.tail, isBlank c = true) → f.tail = []
  fits : Stores maxHeader before f → ∀ k ∈ f.folds, k.content.length < 2 ^ 31
  dropped : ¬ Stores maxHeader before f → fieldsToStore maxHeader before ≠ [] →
    ∀ k ∈ f.folds, toInt32 (k.content.length : Nat) ≤ 0

def BlockClean (maxHeader : Int) (fs : List BlockField) : Prop :=
  ∀ before f rest, fs = before ++ f :: rest → FieldClean maxHeader before f

/-! ## Entries line by line -/

section Rounds

variable {maxHeader : Int} {fs : List BlockField} {f : BlockField} {ks : List FoldedLine}
  {k : FoldedLine}

theorem stores_withFolds : Stores maxHeader fs (f.withFolds ks) ↔ Stores maxHeader fs f := Iff.rfl

theorem rawLines_head :
    rawLines (fs ++ [f.withFolds []]) = rawLines fs ++ [f.raw] := by
  simp [rawLines]

theorem rawLines_fold :
    rawLines (fs ++ [f.withFolds (ks ++ [k])]) = rawLines (fs ++ [f.withFolds ks]) ++ [k.raw] := by
  simp [rawLines]

theorem entries_fold : entriesOf maxHeader (rawLines (fs ++ [f.withFolds (ks ++ [k])]))
    = (entriesOf maxHeader (rawLines (fs ++ [f.withFolds ks]))).modifyLast (fun e => e.fold k.raw) := by
  rw [rawLines_fold, entriesOf_snoc, takeEntry, if_pos k.raw_folded]

/-- A header line behind lines whose entries are known. -/
theorem entries_head (hcolon : FoldsHaveColon fs)
    (hlen : (entriesOf maxHeader (rawLines fs)).length = (fieldsToStore maxHeader fs).length) :
    (Stores maxHeader fs f → entriesOf maxHeader (rawLines (fs ++ [f.withFolds []]))
      = entriesOf maxHeader (rawLines fs) ++ [⟨(blockBytes fs).length, f.raw, []⟩]) ∧
    (¬ Stores maxHeader fs f → entriesOf maxHeader (rawLines (fs ++ [f.withFolds []]))
      = entriesOf maxHeader (rawLines fs)) := by
  rw [rawLines_head, entriesOf_snoc, takeEntry, hlen, linesWire_rawLines hcolon, f.raw_not_folded,
    if_neg (by decide)]
  constructor
  · intro hstores
    exact if_pos hstores
  · intro hnot
    exact if_neg hnot

end Rounds

/-! ## Clean blocks -/

/-- An entry holds the header line `q.2` at offset `q.1`, and of its folded lines what an `int` can
    count. -/
structure EntryOf (e : Entry) (q : Nat × BlockField) : Prop where
  start : e.start = q.1
  line : e.line = q.2.raw
  folds : e.folds.flatMap RawLine.foldedText = q.2.folds.flatMap FoldedLine.content

theorem leadingBlanks_rdrop {v : List UInt8} (h : ¬ ∀ c ∈ v, isBlank c = true) :
    leadingBlanks v = leadingBlanks (v.rdropWhile isBlank) := by
  have hsplit : v.rdropWhile isBlank ++ v.rtakeWhile isBlank = v :=
    List.rdropWhile_append_rtakeWhile ..
  unfold leadingBlanks
  conv_lhs => rw [← hsplit]
  rw [List.takeWhile_append, if_neg]
  -- otherwise all of the value would be blanks
  intro hall
  refine h fun c hc => ?_
  rw [← hsplit] at hc
  rcases List.mem_append.1 hc with hc | hc
  · rw [← (List.takeWhile_prefix isBlank).eq_of_length hall] at hc
    exact List.mem_takeWhile_imp hc
  · exact List.mem_rtakeWhile_imp hc

/-- A value that is not blanks only is trimmed on both sides. -/
theorem trim_eq {v : List UInt8} (h : (∀ c ∈ v, isBlank c = true) → v = []) :
    leadingBlanks v ≤ trimmedLen v ∧ (v.rdropWhile isBlank).drop (leadingBlanks v) = trim v := by
  by_cases hblank : ∀ c ∈ v, isBlank c = true
  · rw [h hblank]
    exact ⟨Nat.le_refl _, rfl⟩
  · refine ⟨Nat.le_of_lt (leadingBlanks_lt hblank), ?_⟩
    rw [leadingBlanks_rdrop hblank, trim, leadingBlanks]
    have hsplit := List.takeWhile_append_dropWhile (p := isBlank) (l := v.rdropWhile isBlank)
    conv_lhs => rw [← hsplit]
    rw [hsplit]
    conv_lhs => rw [← hsplit, List.drop_left' (by rw [hsplit])]

theorem EntryOf.entryIs {e : Entry} {q : Nat × BlockField} (h : EntryOf e q)
    (hvalue : (∀ c ∈ q.2.tail, isBlank c = true) → q.2.tail = []) : EntryIs e q := by
  obtain ⟨hle, htrim⟩ := trim_eq hvalue
  have htail : e.line.tail = q.2.tail := by rw [h.line]; rfl
  refine ⟨h.start, by rw [h.line]; rfl, ?_, ?_⟩
  · unfold Entry.value Entry.stop
    rw [htail]
    omega
  · rw [Entry.valueText, htail, List.drop_append_of_le_length hle, htrim, h.folds]
    rfl

theorem forall₂_snoc_right {α β : Type} {R : α → β → Prop} {l : List α} {m : List β} {b : β}
    (h : List.Forall₂ R l (m ++ [b])) : ∃ l' a, l = l' ++ [a] ∧ List.Forall₂ R l' m ∧ R a b := by
  induction m generalizing l with
  | nil =>
      obtain ⟨a, l, hab, hl, rfl⟩ := List.forall₂_cons_right_iff.1 h
      rw [List.forall₂_nil_right_iff.1 hl]
      exact ⟨[], a, rfl, List.Forall₂.nil, hab⟩
  | cons c m ih =>
      obtain ⟨a, l, hac, hl, rfl⟩ := List.forall₂_cons_right_iff.1 h
      obtain ⟨l', d, rfl, hl', hd⟩ := ih hl
      exact ⟨a :: l', d, rfl, List.Forall₂.cons hac hl', hd⟩

theorem forall₂_snoc {α β : Type} {R : α → β → Prop} {l : List α} {m : List β} {a : α} {b : β}
    (h : List.Forall₂ R l m) (hab : R a b) : List.Forall₂ R (l ++ [a]) (m ++ [b]) :=
  List.rel_append h (List.Forall₂.cons hab List.Forall₂.nil)

section Clean

variable {maxHeader : Int} {fs : List BlockField} {f : BlockField} {ks ks' : List FoldedLine}
  {k : FoldedLine}

theorem BlockClean.colons (h : BlockClean maxHeader fs) : FoldsHaveColon fs := by
  intro f hf
  obtain ⟨before, rest, hsplit⟩ := List.append_of_mem hf
  exact (h before f rest hsplit).colons

theorem BlockClean.left {fs' : List BlockField} (h : BlockClean maxHeader (fs ++ fs')) :
    BlockClean maxHeader fs := by
  intro before f rest hsplit
  exact h before f (rest ++ fs') (by rw [hsplit]; simp)

theorem blockClean_snoc :
    BlockClean maxHeader (fs ++ [f]) ↔ BlockClean maxHeader fs ∧ FieldClean maxHeader fs f := by
  constructor
  · intro h
    exact ⟨h.left, h fs f [] rfl⟩
  · rintro ⟨hfs, hf⟩ before g rest hsplit
    rcases List.eq_nil_or_concat' rest with rfl | ⟨rest, d, rfl⟩
    · obtain ⟨rfl, hgf⟩ := List.append_inj' hsplit rfl
      rwa [← (List.cons.inj hgf).1]
    · rw [← List.cons_append, ← List.append_assoc] at hsplit
      exact hfs before g rest (List.append_inj' hsplit rfl).1

theorem FieldClean.fewer (h : FieldClean maxHeader fs (f.withFolds (ks ++ ks'))) :
    FieldClean maxHeader fs (f.withFolds ks) where
  colons := fun k hk => h.colons k (List.mem_append_left _ hk)
  value := h.value
  fits := fun hs k hk => h.fits hs k (List.mem_append_left _ hk)
  dropped := fun hs hne k hk => h.dropped hs hne k (List.mem_append_left _ hk)

/-- A folded line of a stored header line brings its content to that header. -/
theorem EntryOf.fold {e : Entry} {p : Nat} (h : EntryOf e (p, f.withFolds ks))
    (hk : k.raw.foldedText = k.content) : EntryOf (e.fold k.raw) (p, f.withFolds (ks ++ [k])) where
  start := h.start
  line := h.line
  folds := by
    have hfolds := h.folds
    simp only [BlockField.withFolds_folds] at hfolds
    simp [Entry.fold, hfolds, hk]

theorem EntryOf.fold_empty {e : Entry} {q : Nat × BlockField} (h : EntryOf e q)
    (hk : k.raw.foldedText = []) : EntryOf (e.fold k.raw) q where
  start := h.start
  line := h.line
  folds := by
    have hfolds := h.folds
    simp [Entry.fold, hfolds, hk]

theorem FieldClean.entries (hcolon : FoldsHaveColon fs)
    (hes : List.Forall₂ EntryOf (entriesOf maxHeader (rawLines fs)) (fieldsToStore maxHeader fs))
    (hclean : FieldClean maxHeader fs (f.withFolds ks)) :
    List.Forall₂ EntryOf (entriesOf maxHeader (rawLines (fs ++ [f.withFolds ks])))
      (fieldsToStore maxHeader (fs ++ [f.withFolds ks])) := by
  induction ks using List.reverseRecOn with
  | nil =>
      obtain ⟨hpush, hdrop⟩ := entries_head (f := f) hcolon hes.length_eq
      by_cases hstores : Stores maxHeader fs f
      · rw [hpush hstores, fieldsToStore_snoc_of_stores (stores_withFolds.2 hstores)]
        exact forall₂_snoc hes ⟨rfl, rfl, rfl⟩
      · rw [hdrop hstores, fieldsToStore_snoc_of_not (mt stores_withFolds.1 hstores)]
        exact hes
  | append_singleton ks k ih =>
      have hprev := ih hclean.fewer
      have hkmem : k ∈ (f.withFolds (ks ++ [k])).folds := by simp
      have htext := FoldedLine.raw_foldedText (hclean.colons k hkmem)
      rw [entries_fold]
      by_cases hstores : Stores maxHeader fs f
      · -- the header line is the last one stored
        rw [fieldsToStore_snoc_of_stores (stores_withFolds.2 hstores)] at hprev ⊢
        obtain ⟨es, e, hes', hall, he⟩ := forall₂_snoc_right hprev
        have hfits := hclean.fits (stores_withFolds.2 hstores) k hkmem
        rw [toInt32_of_lt hfits, Int.toNat_natCast, List.take_length] at htext
        rw [hes', List.modifyLast_concat]
        exact forall₂_snoc hall (he.fold htext)
      · rw [fieldsToStore_snoc_of_not (mt stores_withFolds.1 hstores)] at hprev ⊢
        rcases List.eq_nil_or_concat' (fieldsToStore maxHeader fs) with hnil | ⟨qs, q, hqs⟩
        · rw [hnil] at hprev ⊢
          rw [List.forall₂_nil_right_iff.1 hprev]
          exact List.Forall₂.nil
        · -- another one is, so the line must not add anything
          rw [hqs] at hprev ⊢
          obtain ⟨es, e, hes', hall, he⟩ := forall₂_snoc_right hprev
          have hdropped := hclean.dropped (mt stores_withFolds.1 hstores) (by rw [hqs]; simp) k hkmem
          rw [Int.toNat_of_nonpos hdropped, List.take_zero] at htext
          rw [hes', List.modifyLast_concat]
          exact forall₂_snoc hall (he.fold_empty htext)

theorem BlockClean.entries (h : BlockClean maxHeader fs) :
    List.Forall₂ EntryOf (entriesOf maxHeader (rawLines fs)) (fieldsToStore maxHeader fs) := by
  induction fs using List.reverseRecOn with
  | nil =>
      have hnil : fieldsToStore maxHeader [] = [] := List.take_nil
      rw [hnil]
      exact List.Forall₂.nil
  | append_singleton fs f ih =>
      obtain ⟨hfs, hf⟩ := blockClean_snoc.1 h
      have hfields : FieldClean maxHeader fs (f.withFolds f.folds) := hf
      exact hfields.entries hfs.colons (ih hfs)

/-- The header lines that are to be stored are header lines of the block. -/
theorem fieldsToStore_mem {q : Nat × BlockField} (h : q ∈ fieldsToStore maxHeader fs) :
    ∃ before rest, fs = before ++ q.2 :: rest ∧ Stores maxHeader before q.2 := by
  induction fs using List.reverseRecOn with
  | nil => exact absurd (List.mem_of_mem_take h) List.not_mem_nil
  | append_singleton fs f ih =>
      have hearlier : q ∈ fieldsToStore maxHeader fs →
          ∃ before rest, fs ++ [f] = before ++ q.2 :: rest ∧ Stores maxHeader before q.2 := by
        intro hq
        obtain ⟨before, rest, hsplit, hstores⟩ := ih hq
        exact ⟨before, rest ++ [f], by rw [hsplit]; simp, hstores⟩
      by_cases hstores : Stores maxHeader fs f
      · rw [fieldsToStore_snoc_of_stores hstores] at h
        rcases List.mem_append.1 h with hq | hq
        · exact hearlier hq
        · rw [List.mem_singleton.1 hq]
          exact ⟨fs, [], rfl, hstores⟩
      · rw [fieldsToStore_snoc_of_not hstores] at h
        exact hearlier h

/-- **Clean blocks are read right.** -/
theorem BlockClean.readsBlock (h : BlockClean maxHeader fs) (hfs : fs ≠ []) :
    ReadsBlock fs maxHeader := by
  intro body hmax
  obtain ⟨hlines, r, hr, hret, htaken⟩ := httpParseHeader_block hfs h.colons hmax maxHeader
  refine ⟨r, hr, hret, (htaken.headersAre_iff hlines hmax).2 ?_⟩
  have hall := h.entries
  rw [List.forall₂_iff_zip] at hall ⊢
  refine ⟨hall.1, fun {e q} heq => ?_⟩
  obtain ⟨before, rest, hsplit, hstores⟩ := fieldsToStore_mem (List.of_mem_zip heq).2
  exact (hall.2 heq).entryIs ((h before q.2 rest hsplit).value hstores)

end Clean

/-! ## Blocks that are read right with all their beginnings -/

section Begins

variable {maxHeader : Int} {fs fs' : List BlockField} {f : BlockField} {ks ks' : List FoldedLine}
  {k : FoldedLine}

theorem Begins.snoc (h : Begins fs' fs) (f : BlockField) : Begins fs' (fs ++ [f]) := by
  obtain ⟨before, g, ks, ks', rest, rfl, rfl⟩ := h
  exact ⟨before, g, ks, ks', rest ++ [f], by simp, rfl⟩

theorem begins_last (h : f.folds = ks ++ ks') : Begins (fs ++ [f.withFolds ks]) (fs ++ [f]) :=
  ⟨fs, f, ks, ks', [], by rw [← h]; rfl, rfl⟩

theorem headerBlock_length (fs : List BlockField) :
    (headerBlock fs).length = (blockBytes fs).length + 2 := List.length_append

theorem blockBytes_fold : blockBytes (fs ++ [f.withFolds (ks ++ [k])])
    = blockBytes (fs ++ [f.withFolds ks]) ++ (k.line ++ [CR, LF]) := by
  simp [blockBytes, closeLines, BlockField.lines, BlockField.withFolds, BlockField.line]

theorem Begins.length_le (h : Begins fs' fs) : (headerBlock fs').length ≤ (headerBlock fs).length := by
  obtain ⟨before, f, ks, ks', rest, rfl, rfl⟩ := h
  have hcut : blockBytes (before ++ f.withFolds (ks ++ ks') :: rest)
      = blockBytes (before ++ [f.withFolds ks])
        ++ (closeLines (ks'.map FoldedLine.line) ++ blockBytes rest) := by
    simp [blockBytes, closeLines, BlockField.lines, BlockField.withFolds, BlockField.line]
  rw [headerBlock_length, headerBlock_length, hcut, List.length_append]
  omega

theorem foldsHaveColon_snoc :
    FoldsHaveColon (fs ++ [f]) ↔ FoldsHaveColon fs ∧ ∀ k ∈ f.folds, colon ∈ k.content := by
  unfold FoldsHaveColon
  simp [or_imp, forall_and]

/-- In a block that is read right the entries are the header lines to be stored. -/
theorem ReadsBlock.entries (h : ReadsBlock fs maxHeader) (hfs : fs ≠ []) (hcolon : FoldsHaveColon fs)
    (hlen : (headerBlock fs).length ≤ ptrdiffMax) :
    List.Forall₂ EntryIs (entriesOf maxHeader (rawLines fs)) (fieldsToStore maxHeader fs) := by
  rw [← List.append_nil (headerBlock fs)] at hlen
  obtain ⟨hlines, r, hr, -, htaken⟩ := httpParseHeader_block hfs hcolon hlen maxHeader
  obtain ⟨r', hr', -, hare⟩ := h [] hlen
  rw [hr] at hr'
  cases hr'
  exact (htaken.headersAre_iff hlines hlen).1 hare

/-- A folded line without a colon at the end of the block: no line begins there. -/
theorem ReadsBlock.last_colon (h : ReadsBlock (fs ++ [f.withFolds (ks ++ [k])]) maxHeader)
    (hcolon : FoldsHaveColon (fs ++ [f.withFolds ks]))
    (hlen : (headerBlock (fs ++ [f.withFolds (ks ++ [k])])).length ≤ ptrdiffMax) :
    colon ∈ k.content := by
  by_contra hk
  rw [← List.append_nil (headerBlock _)] at hlen
  obtain ⟨r, hr, -⟩ := h [] hlen
  refine (httpParseHeader_inBounds maxHeader hlen).1 ⟨r, hr⟩ ?_
  have hdata : headerBlock (fs ++ [f.withFolds (ks ++ [k])]) ++ []
      = linesWire (rawLines (fs ++ [f.withFolds ks])) ++ (k.line ++ [CR, LF, CR, LF]) := by
    rw [linesWire_rawLines hcolon, headerBlock, ← blockBytes, blockBytes_fold]
    simp
  rw [hdata]
  refine ⟨_, _, lines_of_wire rawLines_start (continues_of_start (ne_cr_of_blank k.is_blank)), ?_⟩
  intro w t heq _
  have hmem : colon ∈ k.line ++ [CR, LF, CR, LF] := by
    rw [heq]
    simp
  rcases List.mem_append.1 hmem with hmem | hmem
  · rcases List.mem_cons.1 hmem with hblank | hmem
    · exact absurd hblank.symm k.blank_ne
    · exact absurd hmem hk
  · exact absurd hmem (by decide)

theorem EntryIs.fold_valueText {e : Entry} {q : Nat × BlockField} (h : EntryIs e q) (l : RawLine) :
    (e.fold l).valueText = e.valueText ++ l.foldedText := by
  have hle := Entry.leadingBlanks_le h.value_le
  rw [Entry.valueText, Entry.valueText, ← List.drop_append_of_le_length hle]
  simp [Entry.fold]

/-- The header line of a block that is read right. -/
theorem fieldClean_head (hcolon : FoldsHaveColon fs)
    (hlength : (entriesOf maxHeader (rawLines fs)).length = (fieldsToStore maxHeader fs).length)
    (hes : List.Forall₂ EntryIs (entriesOf maxHeader (rawLines (fs ++ [f.withFolds []])))
      (fieldsToStore maxHeader (fs ++ [f.withFolds []]))) :
    FieldClean maxHeader fs (f.withFolds []) where
  colons := fun _ hk => absurd hk List.not_mem_nil
  value := by
    intro hstores hblank
    rw [(entries_head hcolon hlength).1 (stores_withFolds.1 hstores),
      fieldsToStore_snoc_of_stores hstores] at hes
    obtain ⟨es, e, hsplit, -, he⟩ := forall₂_snoc_right hes
    obtain rfl := (List.cons.inj (List.append_inj' hsplit rfl).2).1
    -- the value starts in front of its end, as nothing was folded into it yet
    have hle := (Entry.value_le_stop RawLine.foldedLen _).1 he.value_le hblank
    exact List.length_eq_zero_iff.1 (Nat.le_zero.1 hle)
  fits := fun _ _ hk => absurd hk List.not_mem_nil
  dropped := fun _ _ _ hk => absurd hk List.not_mem_nil

/-- One more folded line of a block that is read right before it and behind it. -/
theorem FieldClean.snoc (h : FieldClean maxHeader fs (f.withFolds ks)) (hk : colon ∈ k.content)
    (hes : List.Forall₂ EntryIs (entriesOf maxHeader (rawLines (fs ++ [f.withFolds ks])))
      (fieldsToStore maxHeader (fs ++ [f.withFolds ks])))
    (hes' : List.Forall₂ EntryIs (entriesOf maxHeader (rawLines (fs ++ [f.withFolds (ks ++ [k])])))
      (fieldsToStore maxHeader (fs ++ [f.withFolds (ks ++ [k])]))) :
    FieldClean maxHeader fs (f.withFolds (ks ++ [k])) := by
  have htext := FoldedLine.raw_foldedText hk
  have hlen := congrArg List.length htext
  rw [List.length_take] at hlen
  have hall : ∀ {P : FoldedLine → Prop}, (∀ j ∈ ks, P j) → P k → ∀ j ∈ ks ++ [k], P j := by
    intro P hks hlast j hj
    rcases List.mem_append.1 hj with hj | hj
    · exact hks j hj
    · rwa [List.mem_singleton.1 hj]
  rw [entries_fold] at hes'
  refine ⟨hall h.colons hk, h.value, fun hstores => ?_, fun hstores hne => ?_⟩
  · refine hall (h.fits hstores) ?_
    rw [fieldsToStore_snoc_of_stores hstores] at hes'
    rw [fieldsToStore_snoc_of_stores (stores_withFolds.2 (stores_withFolds.1 hstores))] at hes
    obtain ⟨es, e, hsplit, -, he⟩ := forall₂_snoc_right hes
    rw [hsplit, List.modifyLast_concat] at hes'
    obtain ⟨es', e', hsplit', -, he'⟩ := forall₂_snoc_right hes'
    obtain rfl := (List.cons.inj (List.append_inj' hsplit' rfl).2).1
    -- the value grew by the content, so the `int` has counted all of it
    have hgrow : (f.withFolds (ks ++ [k])).value = (f.withFolds ks).value ++ k.content := by
      simp [BlockField.value, BlockField.withFolds]
    have hvalue := he'.valueText
    rw [he.fold_valueText, he.valueText] at hvalue
    have hcontent : k.raw.foldedText = k.content :=
      List.append_cancel_left (hvalue.trans hgrow)
    rw [hcontent] at hlen
    by_contra hbig
    have hspec := toInt32_spec (k.content.length : Nat)
    omega
  · refine hall (h.dropped hstores hne) ?_
    rw [fieldsToStore_snoc_of_not hstores] at hes'
    rw [fieldsToStore_snoc_of_not (mt stores_withFolds.1 (mt stores_withFolds.2 hstores))] at hes
    obtain ⟨qs, q, hqs⟩ := (List.eq_nil_or_concat' (fieldsToStore maxHeader fs)).resolve_left hne
    rw [hqs] at hes hes'
    obtain ⟨es, e, hsplit, -, he⟩ := forall₂_snoc_right hes
    rw [hsplit, List.modifyLast_concat] at hes'
    obtain ⟨es', e', hsplit', -, he'⟩ := forall₂_snoc_right hes'
    obtain rfl := (List.cons.inj (List.append_inj' hsplit' rfl).2).1
    -- the last stored value did not grow
    have hvalue := he'.valueText
    rw [he.fold_valueText, he.valueText] at hvalue
    have hcontent : k.raw.foldedText = [] := by
      rw [← List.append_nil q.2.value] at hvalue
      exact List.append_cancel_left (hvalue.trans (by simp))
    have hpos := List.length_pos_of_mem hk
    rw [hcontent, List.length_nil] at hlen
    omega

/-- **Only clean blocks are read right with all their beginnings.** -/
theorem blockClean_of_begins (h : ∀ fs', Begins fs' fs → ReadsBlock fs' maxHeader)
    (hlen : (headerBlock fs).length ≤ ptrdiffMax) : BlockClean maxHeader fs := by
  induction fs using List.reverseRecOn with
  | nil =>
      intro before f rest hsplit
      exact absurd hsplit (by simp)
  | append_singleton fs f ih =>
      have hfs := ih (fun fs' hb => h fs' (hb.snoc f)) (by
        rw [headerBlock_length, blockBytes_append, List.length_append] at hlen
        rw [headerBlock_length]
        omega)
      refine blockClean_snoc.2 ⟨hfs, ?_⟩
      -- the folded lines of the last header line one by one
      have hcut : ∀ ks ks', f.folds = ks ++ ks' → FieldClean maxHeader fs (f.withFolds ks) := by
        intro ks
        induction ks using List.reverseRecOn with
        | nil =>
            intro ks' hfolds
            have hb : Begins (fs ++ [f.withFolds []]) (fs ++ [f]) := begins_last hfolds
            have hcolon : FoldsHaveColon (fs ++ [f.withFolds []]) :=
              foldsHaveColon_snoc.2 ⟨hfs.colons, fun _ hk => absurd hk List.not_mem_nil⟩
            exact fieldClean_head hfs.colons hfs.entries.length_eq
              ((h _ hb).entries (by simp) hcolon (Nat.le_trans hb.length_le hlen))
        | append_singleton ks k ihk =>
            intro ks' hfolds
            have hb' : Begins (fs ++ [f.withFolds (ks ++ [k])]) (fs ++ [f]) := begins_last hfolds
            rw [List.append_assoc] at hfolds
            have hb : Begins (fs ++ [f.withFolds ks]) (fs ++ [f]) := begins_last hfolds
            have hclean := ihk _ hfolds
            have hcolon : FoldsHaveColon (fs ++ [f.withFolds ks]) :=
              foldsHaveColon_snoc.2 ⟨hfs.colons, hclean.colons⟩
            have hk := (h _ hb').last_colon hcolon (Nat.le_trans hb'.length_le hlen)
            have hcolon' : FoldsHaveColon (fs ++ [f.withFolds (ks ++ [k])]) := by
              refine foldsHaveColon_snoc.2 ⟨hfs.colons, fun j hj => ?_⟩
              rcases List.mem_append.1 hj with hj | hj
              · exact hclean.colons j hj
              · rwa [List.mem_singleton.1 hj]
            exact hclean.snoc hk
              ((h _ hb).entries (by simp) hcolon (Nat.le_trans hb.length_le hlen))
              ((h _ hb').entries (by simp) hcolon' (Nat.le_trans hb'.length_le hlen))
      exact hcut f.folds [] (List.append_nil _).symm

end Begins

theorem BlockClean.begins {maxHeader : Int} {fs fs' : List BlockField} (h : BlockClean maxHeader fs)
    (hb : Begins fs' fs) : BlockClean maxHeader fs' := by
  obtain ⟨before, f, ks, ks', rest, rfl, rfl⟩ := hb
  exact blockClean_snoc.2 ⟨h.left, (h before _ rest rfl).fewer⟩

/-- **Line folding.** A clean block is read right. All blocks a block begins with are read right
    exactly if it is clean. -/
theorem httpParseHeader_folding (fs : List BlockField) (maxHeader : Int)
    (hlen : (headerBlock fs).length ≤ ptrdiffMax) :
    (fs ≠ [] → BlockClean maxHeader fs → ReadsBlock fs maxHeader) ∧
    ((∀ fs', Begins fs' fs → ReadsBlock fs' maxHeader) ↔ BlockClean maxHeader fs) := by
  refine ⟨fun hfs h => h.readsBlock hfs, fun h => blockClean_of_begins h hlen, ?_⟩
  intro h fs' hb
  refine (h.begins hb).readsBlock ?_
  obtain ⟨before, f, ks, -, -, -, rfl⟩ := hb
  simp

/-! ## Two blocks -/

/-- The header line `A: b` with some folded lines. -/
def fieldA (ks : List FoldedLine) : BlockField where
  name := bytes "A"
  tail := bytes " b"
  folds := ks
  name_ne := by decide
  name_text := ⟨by decide, by decide⟩
  name_colon := by decide
  name_first := fun c hc => by rw [← Option.some.inj hc]; decide
  tail_text := ⟨by decide, by decide⟩

/-- The header line `D: e`. -/
def fieldD : BlockField where
  name := bytes "D"
  tail := bytes " e"
  folds := []
  name_ne := by decide
  name_text := ⟨by decide, by decide⟩
  name_colon := by decide
  name_first := fun c hc => by rw [← Option.some.inj hc]; decide
  tail_text := ⟨by decide, by decide⟩

/-- The folded line ` c:d`. -/
def foldColon : FoldedLine := ⟨SP, bytes "c:d", by decide, ⟨by decide, by decide⟩⟩

/-- The folded line ` c`. -/
def foldPlain : FoldedLine := ⟨SP, bytes "c", by decide, ⟨by decide, by decide⟩⟩

/-- A folded line with a colon is read right. -/
theorem httpParseHeader_folding_clean : ReadsBlock [fieldA [foldColon]] 4 := by
  refine (httpParseHeader_folding [fieldA [foldColon]] 4 (by decide)).1 (by simp) ?_
  rw [← List.nil_append [fieldA [foldColon]]]
  refine blockClean_snoc.2 ⟨fun before f rest hsplit => absurd hsplit (by simp), ?_, ?_, ?_, ?_⟩
  · intro k hk
    rw [List.mem_singleton.1 hk]
    decide
  · intro _ hblank
    exact absurd (hblank 98 (by decide)) (by decide)
  · intro _ k hk
    rw [List.mem_singleton.1 hk]
    decide
  · intro _ hne
    exact absurd rfl hne

/-- A folded line without a colon takes the header line behind it into the value of the one before. -/
theorem httpParseHeader_folding_swallowed : ¬ ReadsBlock [fieldA [foldPlain], fieldD] 4 := by
  intro h
  have hrun : httpParseHeader (headerBlock [fieldA [foldPlain], fieldD] ++ []) 4
      = .ok ⟨0, bytes "A: bc\r\nD: e: e\r\n\r\n", [⟨0, 1, 3, 8⟩], 18⟩ := by decide +kernel
  obtain ⟨r, hr, -, hare⟩ := h [] (by decide)
  rw [hrun] at hr
  cases hr
  have hlen := hare.length_eq
  revert hlen
  decide +kernel

end Ryze
