import Ryze.HttpParser.ChunkedGrammar

set_option autoImplicit false

/-! # Decoding chunks inside the buffer

`http_parse_chunked` writes its output over the input it is reading. The scan is stated a second time
over an input that is never written to, with the pieces it takes kept in a list, and the two are shown
to go the same way round by round (`chunkedBody_lockstep`): the end of the output never passes the
start of the size line, so everything the scan still reads is as it was. Nothing depends on how sizes
are read, so `str_parse_hex` is a parameter here. -/

namespace Ryze

open CLib

/-! ## The loop over any `str_parse_hex` -/

/-- What a size is read with: the memory from the size on and its length as an `int`. -/
abbrev SizeReader := List UInt8 → Int → CRun (Int × Nat)

/-- `d` at a CR that stands at `i`. -/
def sizeLen (s : ChunkedState) : Int := toInt32 (((s.p2.getD s.i : Nat) : Int) - s.p1)

def chunkedCrWith (parse : SizeReader) (s : ChunkedState) : CRun (ChunkedState ⊕ ChunkedResult) :=
  if 0 < sizeLen s then do
    let (ret, n) ← parse (s.data.drop s.p1) (sizeLen s)
    if ret = 0 then chunkedSize s n
    else return .inr ⟨-1, s.data, s.bodyLen, s.readLen⟩
  else return .inr ⟨-1, s.data, s.bodyLen, s.readLen⟩

def chunkedBodyWith (parse : SizeReader) (s : ChunkedState) : CRun (ChunkedState ⊕ ChunkedResult) :=
  if s.i < s.data.length then do
    let c ← load s.data s.i
    if c = semicolon then return .inl { s with p2 := some s.i, i := s.i + 1 }
    else if c = CR then chunkedCrWith parse s
    else return .inl { s with i := s.i + 1 }
  else return .inr ⟨0, s.data, s.bodyLen, s.readLen⟩

def chunkedStart (data : List UInt8) : ChunkedState := ⟨data, 0, 0, none, 0, 0⟩

def httpParseChunkedWith (parse : SizeReader) (data : List UInt8) : CRun ChunkedResult :=
  cLoop (chunkedBodyWith parse) (data.length + 1) (chunkedStart data)

theorem httpParseChunkedWith_strParseHex (data : List UInt8) :
    httpParseChunkedWith strParseHex data = httpParseChunked data := rfl

/-- In state `s` the loop computes `i + 2 + n + 2`. -/
def AddsSize (parse : SizeReader) (s : ChunkedState) (n : Nat) : Prop :=
  load s.data s.i = .ok CR ∧ 0 < sizeLen s ∧ parse (s.data.drop s.p1) (sizeLen s) = .ok (0, n)

/-- No such sum exceeds `SIZE_MAX` while the buffer is decoded. -/
def NoWrap (parse : SizeReader) (data : List UInt8) : Prop :=
  ∀ s n, LoopReaches (chunkedBodyWith parse) (chunkedStart data) s → AddsSize parse s n →
    s.i + 2 + n + 2 < sizeMod

/-! ## The scan over a copy -/

/-- The variables of the scan over an input that stays as it is; `pieces` are the offsets and lengths
    of the chunk data found so far. -/
structure CopyState where
  i : Nat
  p1 : Nat
  p2 : Option Nat
  pieces : List (Nat × Nat)
  readLen : Nat

structure CopyResult where
  ret : Int
  pieces : List (Nat × Nat)
  readLen : Nat

/-- The pieces of the input, one behind the other. -/
def piecesText (input : List UInt8) (pieces : List (Nat × Nat)) : List UInt8 :=
  pieces.flatMap fun q => (input.drop q.1).take q.2

def copySize (input : List UInt8) (c : CopyState) (n : Nat) : CopyState ⊕ CopyResult :=
  let next := c.i + 2 + n + 2
  if next ≤ input.length then
    if 0 < n then .inl ⟨next + 1, next, none, c.pieces ++ [(c.i + 2, n)], next⟩
    else .inr ⟨0, c.pieces, c.i + 2⟩
  else .inr ⟨1, c.pieces, c.readLen⟩

def copyCr (parse : SizeReader) (input : List UInt8) (c : CopyState) :
    CRun (CopyState ⊕ CopyResult) :=
  let d := toInt32 (((c.p2.getD c.i : Nat) : Int) - c.p1)
  if 0 < d then do
    let (ret, n) ← parse (input.drop c.p1) d
    if ret = 0 then return copySize input c n
    else return .inr ⟨-1, c.pieces, c.readLen⟩
  else return .inr ⟨-1, c.pieces, c.readLen⟩

def copyBody (parse : SizeReader) (input : List UInt8) (c : CopyState) :
    CRun (CopyState ⊕ CopyResult) :=
  if c.i < input.length then do
    let b ← load input c.i
    if b = semicolon then return .inl { c with p2 := some c.i, i := c.i + 1 }
    else if b = CR then copyCr parse input c
    else return .inl { c with i := c.i + 1 }
  else return .inr ⟨0, c.pieces, c.readLen⟩

/-- The scan over a copy of the input. -/
def scanCopy (parse : SizeReader) (input : List UInt8) : CRun CopyResult :=
  cLoop (copyBody parse input) (input.length + 1) ⟨0, 0, none, [], 0⟩

/-! ## The two loops side by side -/

/-- The pieces lie one behind the other in front of `bound`. -/
def InOrder (pieces : List (Nat × Nat)) (bound : Nat) : Prop :=
  (pieces.Pairwise fun q q' => q.1 + q.2 ≤ q'.1) ∧ ∀ q ∈ pieces, q.1 + q.2 ≤ bound

/-- The decoder and the scan are at the same place, and what is still to be read is as it was. -/
structure InStep (data : List UInt8) (s : ChunkedState) (c : CopyState) : Prop where
  i_eq : c.i = s.i
  p1_eq : c.p1 = s.p1
  p2_eq : c.p2 = s.p2
  readLen_eq : c.readLen = s.readLen
  readLen_p1 : s.readLen = s.p1
  length : s.data.length = data.length
  body : s.data.take s.bodyLen = piecesText data c.pieces
  rest : s.data.drop s.p1 = data.drop s.p1
  behind : s.bodyLen ≤ s.p1
  p1_le : s.p1 ≤ s.i ∧ s.p1 ≤ data.length
  inOrder : InOrder c.pieces s.p1

/-- The decoder's result is the scan's, with the pieces in front of the buffer and everything from
    `read_len` on as it was. -/
structure SameResult (data : List UInt8) (r : ChunkedResult) (c : CopyResult) : Prop where
  ret : r.ret = c.ret
  readLen : r.readLen = c.readLen
  bodyLen : r.bodyLen = (piecesText data c.pieces).length
  body : r.body = piecesText data c.pieces
  inOrder : InOrder c.pieces data.length
  behind : r.bodyLen ≤ r.readLen
  readLen_le : r.readLen ≤ data.length
  length : r.data.length = data.length
  rest : r.data.drop r.readLen = data.drop r.readLen

theorem piecesText_append (input : List UInt8) (pieces : List (Nat × Nat)) (q : Nat × Nat) :
    piecesText input (pieces ++ [q]) = piecesText input pieces ++ (input.drop q.1).take q.2 := by
  simp [piecesText]

theorem InOrder.mono {pieces : List (Nat × Nat)} {a b : Nat} (h : InOrder pieces a) (hab : a ≤ b) :
    InOrder pieces b :=
  ⟨h.1, fun q hq => Nat.le_trans (h.2 q hq) hab⟩

theorem InOrder.append {pieces : List (Nat × Nat)} {a off n b : Nat} (h : InOrder pieces a)
    (hoff : a ≤ off) (hb : off + n ≤ b) : InOrder (pieces ++ [(off, n)]) b := by
  constructor
  · rw [List.pairwise_append]
    refine ⟨h.1, List.pairwise_singleton _ _, fun q hq q' hq' => ?_⟩
    rw [List.mem_singleton.1 hq']
    exact Nat.le_trans (h.2 q hq) hoff
  · intro q hq
    rcases List.mem_append.1 hq with hq | hq
    · have := h.2 q hq
      omega
    · rw [List.mem_singleton.1 hq]
      exact hb

section Step

variable {data : List UInt8} {s : ChunkedState} {c : CopyState}

/-- Wherever the decoder still reads, the buffer is the input. -/
theorem InStep.drop (h : InStep data s c) {k : Nat} (hk : s.p1 ≤ k) : s.data.drop k = data.drop k := by
  rw [show k = s.p1 + (k - s.p1) by omega, ← List.drop_drop, h.rest, List.drop_drop]

theorem InStep.load (h : InStep data s c) : load s.data s.i = load data c.i := by
  have hdrop := h.drop h.p1_le.1
  rw [h.i_eq]
  unfold CLib.load
  rw [← List.head?_drop, ← List.head?_drop, hdrop]

/-- The decoder stops with a code and without touching the buffer again. -/
theorem InStep.stop (h : InStep data s c) (ret : Int) {readLen : Nat} (hread : s.p1 ≤ readLen)
    (hle : readLen ≤ data.length) :
    SameResult data ⟨ret, s.data, s.bodyLen, readLen⟩ ⟨ret, c.pieces, readLen⟩ where
  ret := rfl
  readLen := rfl
  bodyLen := by
    have hlen := congrArg List.length h.body
    have hbehind := h.behind
    have hp1 := h.p1_le.2
    rw [List.length_take, h.length, Nat.min_eq_left (by omega)] at hlen
    exact hlen
  body := h.body
  inOrder := h.inOrder.mono h.p1_le.2
  behind := Nat.le_trans h.behind hread
  readLen_le := hle
  length := h.length
  rest := h.drop hread

theorem InStep.stop_here (h : InStep data s c) (ret : Int) :
    SameResult data ⟨ret, s.data, s.bodyLen, s.readLen⟩ ⟨ret, c.pieces, c.readLen⟩ := by
  rw [h.readLen_eq]
  exact h.stop ret (Nat.le_of_eq h.readLen_p1.symm) (h.readLen_p1 ▸ h.p1_le.2)

/-- One chunk: the piece goes behind the body, in front of the next size line. -/
theorem InStep.size (h : InStep data s c) {n : Nat} (hwrap : s.i + 2 + n + 2 < sizeMod) :
    RunRel (Sum.LiftRel (InStep data) (SameResult data)) (chunkedSize s n)
      (.ok (copySize data c n)) := by
  have hnext : sizeAdd (sizeAdd (sizeAdd s.i 2) n) 2 = s.i + 2 + n + 2 := by
    rw [sizeAdd_of_lt (a := s.i) (by omega), sizeAdd_of_lt (a := s.i + 2) (by omega),
      sizeAdd_of_lt (by omega)]
  have hlen := h.length
  have hbehind := h.behind
  have hp1 := h.p1_le
  unfold chunkedSize copySize
  simp only [hnext, h.i_eq, hlen]
  by_cases hfit : s.i + 2 + n + 2 ≤ data.length
  · rw [if_pos hfit, if_pos hfit]
    by_cases hn : 0 < n
    · rw [if_pos hn, if_pos hn]
      obtain ⟨moved, hmove⟩ : ∃ moved, memmove s.data s.bodyLen (s.i + 2) n = .ok moved :=
        ⟨_, memmove_eq_ok.2 ⟨by omega, by omega, rfl⟩⟩
      rw [hmove, ok_bind, sizeAdd_of_lt (by omega)]
      refine Sum.LiftRel.inl ?_
      exact {
        i_eq := rfl
        p1_eq := rfl
        p2_eq := rfl
        readLen_eq := rfl
        readLen_p1 := rfl
        length := (memmove_length hmove).trans hlen
        body := by
          rw [piecesText_append, memmove_take hmove, h.body, h.drop (by omega)]
        rest := (memmove_drop hmove (k := s.i + 2 + n + 2) (by omega)).trans (h.drop (by omega))
        behind := by
          show s.bodyLen + n ≤ s.i + 2 + n + 2
          omega
        p1_le := ⟨Nat.le_succ _, hfit⟩
        inOrder := @InOrder.append _ s.p1 (s.i + 2) n (s.i + 2 + n + 2) h.inOrder (by omega) (by omega) }
    · rw [if_neg hn, if_neg hn]
      exact Sum.LiftRel.inr (h.stop 0 (by omega) (by omega))
  · rw [if_neg hfit, if_neg hfit]
    exact Sum.LiftRel.inr (h.stop_here 1)

/-- **One round.** -/
theorem chunkedBody_lockstep {parse : SizeReader} (h : InStep data s c)
    (hwrap : ∀ n, AddsSize parse s n → s.i + 2 + n + 2 < sizeMod) :
    RunRel (Sum.LiftRel (InStep data) (SameResult data)) (chunkedBodyWith parse s)
      (copyBody parse data c) := by
  have hwalk : ∀ p2, InStep data { s with p2 := p2, i := s.i + 1 } { c with p2 := p2, i := c.i + 1 } :=
    fun p2 => { h with
      i_eq := by rw [h.i_eq]
      p2_eq := rfl
      p1_le := ⟨Nat.le_succ_of_le h.p1_le.1, h.p1_le.2⟩ }
  unfold chunkedBodyWith copyBody
  rw [h.length, h.i_eq]
  by_cases hi : s.i < data.length
  · rw [if_pos hi, if_pos hi, h.load, h.i_eq]
    cases hload : load data s.i with
    | error e => rfl
    | ok b =>
        simp only [ok_bind]
        by_cases hsemi : b = semicolon
        · rw [if_pos hsemi, if_pos hsemi]
          have := hwalk (some s.i)
          rw [h.i_eq] at this
          exact Sum.LiftRel.inl this
        · rw [if_neg hsemi, if_neg hsemi]
          by_cases hcr : b = CR
          · rw [if_pos hcr, if_pos hcr]
            have hd : toInt32 (((c.p2.getD c.i : Nat) : Int) - c.p1) = sizeLen s := by
              rw [sizeLen, h.p2_eq, h.i_eq, h.p1_eq]
            unfold chunkedCrWith copyCr
            simp only [hd]
            by_cases hpos : 0 < sizeLen s
            · rw [if_pos hpos, if_pos hpos, h.p1_eq, ← h.rest]
              cases hparse : parse (s.data.drop s.p1) (sizeLen s) with
              | error e => rfl
              | ok r =>
                  obtain ⟨ret, n⟩ := r
                  simp only [ok_bind]
                  by_cases hret : ret = 0
                  · rw [if_pos hret, if_pos hret]
                    refine h.size (hwrap n ⟨?_, hpos, ?_⟩)
                    · rw [h.load, h.i_eq, hload, hcr]
                    · rw [hparse, hret]
                  · rw [if_neg hret, if_neg hret]
                    exact Sum.LiftRel.inr (h.stop_here (-1))
            · rw [if_neg hpos, if_neg hpos]
              exact Sum.LiftRel.inr (h.stop_here (-1))
          · rw [if_neg hcr, if_neg hcr]
            have := hwalk s.p2
            rw [h.i_eq] at this
            refine Sum.LiftRel.inl ?_
            rw [h.p2_eq]
            exact this
  · rw [if_neg hi, if_neg hi]
    exact Sum.LiftRel.inr (h.stop_here 0)

end Step

/-- The decoder, whatever it reads sizes with, ends as the scan over a copy does. -/
theorem httpParseChunkedWith_inPlace {parse : SizeReader} {data : List UInt8}
    (hwrap : NoWrap parse data) :
    RunRel (SameResult data) (httpParseChunkedWith parse data) (scanCopy parse data) := by
  have hstart : InStep data (chunkedStart data) ⟨0, 0, none, [], 0⟩ := {
    i_eq := rfl
    p1_eq := rfl
    p2_eq := rfl
    readLen_eq := rfl
    readLen_p1 := rfl
    length := rfl
    body := rfl
    rest := rfl
    behind := Nat.le_refl 0
    p1_le := ⟨Nat.le_refl 0, Nat.zero_le _⟩
    inOrder := ⟨List.Pairwise.nil, fun q hq => by cases hq⟩ }
  exact cLoop_lockstep (InStep data) (SameResult data)
    (fun s c hreach h => chunkedBody_lockstep h fun n => hwrap s n hreach) LoopReaches.start hstart _

/-! ## No wrap -/

theorem chunkedSize_goes {s s' : ChunkedState} {n : Nat} (h : chunkedSize s n = .ok (.inl s')) :
    s'.data.length = s.data.length ∧ s'.i = sizeAdd (sizeAdd (sizeAdd s.i 2) n) 2 + 1 := by
  unfold chunkedSize at h
  by_cases hfit : sizeAdd (sizeAdd (sizeAdd s.i 2) n) 2 ≤ s.data.length
  · by_cases hn : 0 < n
    · simp only [if_pos hfit, if_pos hn] at h
      obtain ⟨moved, hmove, h⟩ := bind_eq_ok.1 h
      cases h
      exact ⟨memmove_length hmove, rfl⟩
    · simp only [if_pos hfit, if_neg hn] at h
      cases h
  · simp only [if_neg hfit] at h
    cases h

/-- A round that goes on leaves the buffer as long as it was; with no wrap it moves on. -/
theorem chunkedBodyWith_goes {parse : SizeReader} {s s' : ChunkedState}
    (h : chunkedBodyWith parse s = .ok (.inl s')) :
    s'.data.length = s.data.length ∧ s.i < s.data.length ∧
      ((∀ n, AddsSize parse s n → s.i + 2 + n + 2 < sizeMod) → s.i < s'.i) := by
  unfold chunkedBodyWith at h
  split at h
  · next hi =>
      obtain ⟨b, hb, h⟩ := bind_eq_ok.1 h
      split at h
      · cases h
        exact ⟨rfl, hi, fun _ => Nat.lt_succ_self s.i⟩
      · split at h
        · next hcr =>
            unfold chunkedCrWith at h
            split at h
            · next hpos =>
                obtain ⟨⟨ret, n⟩, hparse, h⟩ := bind_eq_ok.1 h
                simp only at h
                split at h
                · next hret =>
                    obtain ⟨hlen, hi'⟩ := chunkedSize_goes h
                    refine ⟨hlen, hi, fun hwrap => ?_⟩
                    have hlt := hwrap n ⟨hcr ▸ hb, hpos, hret ▸ hparse⟩
                    rw [hi', sizeAdd_of_lt (a := s.i) (by omega),
                      sizeAdd_of_lt (a := s.i + 2) (by omega), sizeAdd_of_lt (by omega)]
                    omega
                · cases h
            · cases h
        · cases h
          exact ⟨rfl, hi, fun _ => Nat.lt_succ_self s.i⟩
  · cases h

/-- `str_parse_hex` returns no size that could make the sum wrap. -/
theorem noWrap_strParseHex {data : List UInt8} (hmax : data.length ≤ ptrdiffMax) :
    NoWrap strParseHex data := by
  intro s n hreach ⟨hcr, _, hparse⟩
  have hlen : s.data.length = data.length :=
    hreach.invariant (fun t => t.data.length = data.length) rfl
      fun t t' ht hnext => (chunkedBodyWith_goes hnext).1.trans ht
  obtain ⟨hi, -⟩ := List.getElem?_eq_some_iff.1 (load_eq_ok.1 hcr)
  have hle := hexLoop_le hparse
  have hptr : ptrdiffMax = 2 ^ 63 - 1 := rfl
  have hmod : sizeMod = 2 ^ 64 := rfl
  omega

theorem chunkedBodyWith_ne_fuel {parse : SizeReader} (hparse : ∀ m d, parse m d ≠ .error .fuel)
    (s : ChunkedState) : chunkedBodyWith parse s ≠ .error .fuel := by
  unfold chunkedBodyWith
  split
  · refine bind_ne_error (fun h => nomatch load_error h) fun b => ?_
    split
    · simp
    · split
      · unfold chunkedCrWith
        split
        · refine bind_ne_error (hparse _ _) fun r => ?_
          simp only
          split
          · unfold chunkedSize
            simp only
            split
            · split
              · refine bind_ne_error (fun h => ?_) fun moved => by simp
                rcases memmove_error h with h | h <;> cases h
              · simp
            · simp
          · simp
        · simp
      · simp
  · simp

/-- The decoder ends. -/
theorem httpParseChunkedWith_ends {parse : SizeReader} {data : List UInt8}
    (hwrap : NoWrap parse data) (hparse : ∀ m d, parse m d ≠ .error .fuel) :
    httpParseChunkedWith parse data ≠ .error .fuel := by
  refine cLoop_ne_fuel (fun s => s.data.length - s.i) ?_ (chunkedBodyWith_ne_fuel hparse)
    LoopReaches.start (by
      show data.length - 0 < data.length + 1
      omega)
  intro s s' hreach hnext
  obtain ⟨hlen, hi, hmove⟩ := chunkedBodyWith_goes hnext
  have hlt := hmove fun n => hwrap s n hreach
  omega

/-- **Decoding in place.** Whatever sizes are read with, as long as no sum of a position and a size
    exceeds `SIZE_MAX`, the decoder ends, and it ends as the scan over a copy does. -/
theorem httpParseChunked_inPlace :
    (∀ data : List UInt8, NoWrap strParseHex data →
      RunRel (SameResult data) (httpParseChunked data) (scanCopy strParseHex data)) ∧
    ∀ (parse : SizeReader) (data : List UInt8), NoWrap parse data →
      RunRel (SameResult data) (httpParseChunkedWith parse data) (scanCopy parse data) ∧
        ((∀ m d, parse m d ≠ .error .fuel) → httpParseChunkedWith parse data ≠ .error .fuel) :=
  ⟨fun _ hwrap => httpParseChunkedWith_inPlace hwrap,
    fun _ _ hwrap => ⟨httpParseChunkedWith_inPlace hwrap, httpParseChunkedWith_ends hwrap⟩⟩

theorem httpParseChunked_inPlace_hello :
    NoWrap strParseHex (bytes "5\r\nhello\r\n") ∧
      RunRel (SameResult (bytes "5\r\nhello\r\n")) (httpParseChunked (bytes "5\r\nhello\r\n"))
        (scanCopy strParseHex (bytes "5\r\nhello\r\n")) :=
  ⟨noWrap_strParseHex (by decide), httpParseChunked_inPlace.1 _ (noWrap_strParseHex (by decide))⟩

end Ryze
