import Ryze.HttpParser.ChunkedWire
import Ryze.HttpParser.HexDigits
import Mathlib.Data.List.Palindrome

set_option autoImplicit false

/-! # `http_decode_chunked` of `src/http`

The older parser reads one chunk-size line. It hands everything in front of the CR to `str_parse_hex`,
the extension too, reads the digits in the wrong order, and has one code for a size that is 0 and a
line it refuses. So it reads a size line right exactly if the line is a short numeral that is the same
in both directions (`httpDecodeChunked_decodes`). -/

namespace Ryze

open CLib

namespace Http

/-! ## The functions -/

/-- `str_parse_hex` of `src/http/http_parser.c` with `left` bytes to go. `result` is an `int`: digits
    that can be shifted to their places go to different places, so adding them up never overflows. -/
def hexLoop : List UInt8 → (left : Nat) → (base result : Nat) → CRun Int
  | _, 0, _, result => .ok result
  | [], _ + 1, _, _ => .error .read
  | c :: ds, left + 1, base, result =>
    match hexDigit c with
    | none => .ok (-1)
    | some n => do
      let x ← intShl n base
      hexLoop ds left (base + 4) (result + x)

/-- `str_parse_hex(data, data_len)`; its caller passes a positive `data_len`. -/
def strParseHex (data : List UInt8) (dataLen : Int) : CRun Int := hexLoop data dataLen.toNat 0 0

/-- The return code and `*offset`, `none` where nothing is stored. -/
structure DecodeResult where
  ret : Int
  offset : Option Int
deriving DecidableEq, Repr

/-- `for(; p != end; p++)` on the memory from `p` on. The position of the last `;` is kept in `p2`,
    which nothing reads. -/
def decodeLoop (data : List UInt8) : List UInt8 → (p : Nat) → (p2 : Option Nat) → CRun DecodeResult
  | [], _, _ => .ok ⟨-1, none⟩
  | c :: ds, p, p2 =>
    if c = semicolon then decodeLoop data ds (p + 1) (some p)
    else if c = CR then
      let n := toInt32 p
      if 0 < n then do
        let n ← strParseHex data n
        return if 0 < n then ⟨n, some (toInt32 (p + 2 : Nat))⟩ else ⟨-1, none⟩
      else return ⟨-1, none⟩
    else decodeLoop data ds (p + 1) p2

/-- `http_decode_chunked(data, data_len, offset)`. -/
def httpDecodeChunked (data : List UInt8) : CRun DecodeResult := decodeLoop data data 0 none

/-! ## The two `str_parse_hex` -/

/-- The two digit loops differ in how they report and in the width of the sum. -/
theorem hexLoop_eq (ds : List UInt8) {left base result : Nat}
    (hsize : result + (32 - base) * 2 ^ 31 < sizeMod) :
    hexLoop ds left base result
      = (Ryze.hexLoop ds left base result).map fun r => if r.1 = 0 then (r.2 : Int) else -1 := by
  induction ds generalizing left base result with
  | nil => cases left <;> rfl
  | cons c ds ih =>
      cases left with
      | zero => rfl
      | succ left =>
          cases hc : hexDigit c with
          | none => simp only [hexLoop, Ryze.hexLoop, hc, Except.map, if_neg (show ¬ (-1 : Int) = 0 by decide)]
          | some n =>
              simp only [hexLoop, Ryze.hexLoop, hc]
              cases hx : intShl n base with
              | error e => rfl
              | ok x =>
                  obtain ⟨hbase, hlt⟩ := intShl_eq_ok hx
                  rw [ok_bind, ok_bind, sizeAdd_of_lt (by omega)]
                  exact ih (by omega)

theorem strParseHex_eq (data : List UInt8) (dataLen : Int) :
    strParseHex data dataLen
      = (Ryze.strParseHex data dataLen).map fun r => if r.1 = 0 then (r.2 : Int) else -1 :=
  hexLoop_eq data (by decide)

/-! ## A size line -/

theorem decodeLoop_cr (data w rest : List UInt8) (hw : CR ∉ w) (p : Nat) (p2 : Option Nat) :
    ∃ p2', decodeLoop data (w ++ CR :: rest) p p2
      = decodeLoop data (CR :: rest) (p + w.length) p2' := by
  induction w generalizing p p2 with
  | nil => exact ⟨p2, rfl⟩
  | cons c w ih =>
      have hw' : CR ∉ w := fun h => hw (List.mem_cons_of_mem _ h)
      have hc : c ≠ CR := fun h => hw (h ▸ List.mem_cons_self ..)
      rw [List.cons_append, decodeLoop, List.length_cons,
        show p + (w.length + 1) = p + 1 + w.length by omega, if_neg hc]
      by_cases hsemi : c = semicolon
      · rw [if_pos hsemi]
        exact ih hw' (p + 1) (some p)
      · rw [if_neg hsemi]
        exact ih hw' (p + 1) p2

/-- What the function makes of a buffer up to its first CR. -/
theorem httpDecodeChunked_line (w rest : List UInt8) (hw : CR ∉ w) :
    httpDecodeChunked (w ++ CR :: rest) =
      if 0 < toInt32 w.length then do
        let n ← strParseHex (w ++ CR :: rest) (toInt32 w.length)
        return if 0 < n then ⟨n, some (toInt32 (w.length + 2 : Nat))⟩ else ⟨-1, none⟩
      else .ok ⟨-1, none⟩ := by
  obtain ⟨p2, hloop⟩ := decodeLoop_cr (w ++ CR :: rest) w rest hw 0 none
  rw [httpDecodeChunked, hloop, Nat.zero_add, decodeLoop, if_neg (by decide), if_pos rfl]
  rfl

/-- A size line is read as its size, and `*offset` is set behind its CR LF. -/
def Decodes (l : SizeLine) (rest : List UInt8) : Prop :=
  httpDecodeChunked (l.wire ++ CR :: LF :: rest)
    = .ok ⟨l.size, some (l.wire.length + 2 : Nat)⟩

end Http

/-! ## Numerals read from both ends -/

theorem hexValue_eq (digits : List UInt8) :
    hexValue digits = Nat.ofDigits 16 (digits.map hexDigitVal).reverse := by
  have hgen : ∀ (w : List UInt8) (acc : Nat),
      w.foldl (fun n c => 16 * n + (hexDigit c).getD 0) acc
        = Nat.ofDigits 16 (w.map hexDigitVal).reverse + 16 ^ w.length * acc := by
    intro w
    induction w with
    | nil => simp
    | cons c w ih =>
        intro acc
        rw [List.foldl_cons, ih, List.map_cons, List.reverse_cons, Nat.ofDigits_append,
          Nat.ofDigits_singleton, List.length_reverse, List.length_map, List.length_cons, hexDigitVal]
        ring
  rw [hexValue, hgen digits 0, Nat.mul_zero, Nat.add_zero]

/-- A numeral means the same from both ends exactly if it is a palindrome. -/
theorem ofDigits_reverse_iff {ds : List Nat} (hds : ∀ d ∈ ds, d < 16) :
    Nat.ofDigits 16 ds.reverse = Nat.ofDigits 16 ds ↔ ds.Palindrome := by
  rw [List.Palindrome.iff_reverse_eq]
  constructor
  · intro h
    exact Nat.ofDigits_inj_of_len_eq (by decide) List.length_reverse
      (fun d hd => hds d (List.mem_reverse.1 hd)) hds h
  · intro h
    rw [h]

theorem pow_mul_getD_le_ofDigits (ds : List Nat) (i : Nat) :
    16 ^ i * ds.getD i 0 ≤ Nat.ofDigits 16 ds := by
  induction ds generalizing i with
  | nil => simp
  | cons d ds ih =>
      rw [Nat.ofDigits_cons]
      cases i with
      | zero => simp
      | succ i =>
          rw [List.getD_cons_succ]
          calc 16 ^ (i + 1) * ds.getD i 0 = 16 * (16 ^ i * ds.getD i 0) := by ring
            _ ≤ 16 * Nat.ofDigits 16 ds := Nat.mul_le_mul_left _ (ih i)
            _ ≤ _ := Nat.le_add_left _ _

/-! ## Which size lines are read right -/

namespace Http

/-- A short line without an extension whose digits are the same in both directions and not all 0. -/
def ReadsRight (l : SizeLine) : Prop :=
  l.exts = [] ∧ l.digits.length ≤ 8 ∧ l.size ≠ 0 ∧ (l.digits.map hexDigitVal).Palindrome

theorem wire_of_no_exts {l : SizeLine} (h : l.exts = []) : l.wire = l.digits := by
  rw [SizeLine.wire, h, List.flatMap_nil, List.append_nil]

/-- What is not refused is a field of digits that fit, read from the wrong end. -/
theorem strParseHex_ok_iff {w rest : List UInt8} {n : Nat} :
    strParseHex (w ++ rest) w.length = .ok (n : Int) ↔
      (∀ c ∈ w, isHexDigit c = true) ∧ FitsInt (w.map hexDigitVal) ∧
        n = Nat.ofDigits 16 (w.map hexDigitVal) := by
  rw [← @hexLoop_zero_iff w rest n, strParseHex_eq, Ryze.strParseHex, Int.toNat_natCast]
  cases Ryze.hexLoop (w ++ rest) w.length 0 0 with
  | error e => simp [Except.map]
  | ok r =>
      obtain ⟨ret, m⟩ := r
      by_cases hret : ret = 0
      · simp [Except.map, hret]
      · simp only [Except.map, hret, if_false, Except.ok.injEq, Prod.mk.injEq, false_and, iff_false]
        omega

/-- A numeral below `2 ^ 31` of at most eight digits that is a palindrome fits from either end. -/
theorem ReadsRight.fits {l : SizeLine} (h : ReadsRight l) (hsize : l.size < 2 ^ 31) :
    FitsInt (l.digits.map hexDigitVal) := by
  obtain ⟨-, hlen, -, hpal⟩ := h
  refine ⟨by rwa [List.length_map], ?_⟩
  have hle := pow_mul_getD_le_ofDigits (l.digits.map hexDigitVal) 7
  rw [← (ofDigits_reverse_iff (hexDigitVals_lt l.digits)).2 hpal, ← hexValue_eq, ← SizeLine.size] at hle
  omega

theorem ReadsRight.decodes {l : SizeLine} (h : ReadsRight l) (hsize : l.size < 2 ^ 31)
    (rest : List UInt8) : Decodes l rest := by
  have hfits := h.fits hsize
  obtain ⟨hexts, hlen, hne, hpal⟩ := h
  have hpos := List.length_pos_of_ne_nil l.digits_ne
  have hvalue : l.size = Nat.ofDigits 16 (l.digits.map hexDigitVal) := by
    rw [SizeLine.size, hexValue_eq, (ofDigits_reverse_iff (hexDigitVals_lt l.digits)).2 hpal]
  rw [Decodes, httpDecodeChunked_line _ _ l.cr_not_mem, wire_of_no_exts hexts,
    toInt32_of_lt (by omega), if_pos (by omega), strParseHex_ok_iff.2 ⟨l.digits_hex, hfits, hvalue⟩,
    ok_bind, if_pos (by omega), toInt32_of_lt (by omega)]
  rfl

theorem Decodes.readsRight {l : SizeLine} {rest : List UInt8} (h : Decodes l rest) :
    ReadsRight l := by
  rw [Decodes, httpDecodeChunked_line _ _ l.cr_not_mem] at h
  split at h
  · obtain ⟨n, hn, h⟩ := bind_eq_ok.1 h
    split at h
    · next hpos =>
        obtain ⟨hnsize, hoffset⟩ := DecodeResult.mk.inj (Except.ok.inj h)
        -- the stored offset is the line's length, so the length was not cut down
        have hlen : l.wire.length < 2 ^ 31 := by
          obtain ⟨k, hk, hlo, hhi⟩ := toInt32_spec (l.wire.length + 2 : Nat)
          have := Option.some.inj hoffset
          omega
        rw [toInt32_of_lt hlen, hnsize] at hn
        obtain ⟨hall, hfits, hvalue⟩ := strParseHex_ok_iff.1 hn
        have hexts : l.exts = [] := by
          cases hexts : l.exts with
          | nil => rfl
          | cons e es =>
              have hsemi := hall semicolon (by simp [SizeLine.wire, hexts])
              exact absurd hsemi (by decide)
        rw [wire_of_no_exts hexts] at hfits hvalue
        have hlen8 : l.digits.length ≤ 8 := by simpa using hfits.1
        refine ⟨hexts, hlen8, by omega, (ofDigits_reverse_iff (hexDigitVals_lt l.digits)).1 ?_⟩
        rw [← hexValue_eq, ← SizeLine.size, hvalue]
    · cases h
  · cases h

/-- **Which size lines are read.** -/
theorem httpDecodeChunked_decodes (l : SizeLine) (rest : List UInt8) (hsize : l.size < 2 ^ 31) :
    Decodes l rest ↔ ReadsRight l :=
  ⟨fun h => h.readsRight, fun h => h.decodes hsize rest⟩

theorem httpDecodeChunked_decodes_five :
    helloChunk.line.size < 2 ^ 31 ∧ Decodes helloChunk.line (bytes "hello\r\n") := by
  have hfive : ReadsRight helloChunk.line :=
    ⟨rfl, by decide, by decide, List.Palindrome.of_reverse_eq (by decide)⟩
  exact ⟨by decide, (httpDecodeChunked_decodes helloChunk.line _ (by decide)).2 hfive⟩

theorem noExts_line : ∀ e ∈ ([] : List (List UInt8)), CR ∉ e := by simp

/-- The last chunk's size line. -/
def lastLine : SizeLine where
  digits := bytes "0"
  exts := []
  digits_ne := by decide
  digits_hex := List.all_eq_true.1 (by decide)
  exts_line := noExts_line

/-- The last chunk is refused, and `10` is read as 1. -/
theorem httpDecodeChunked_misreads :
    ¬ (∀ rest, Decodes lastLine rest) ∧ ¬ ∀ rest, Decodes sixteenChunk.line rest := by
  constructor
  · intro h
    have hrun : httpDecodeChunked (lastLine.wire ++ CR :: LF :: []) = .ok ⟨-1, none⟩ := by
      decide +kernel
    have hdecodes := h []
    rw [Decodes, hrun] at hdecodes
    cases hdecodes
  · intro h
    have hrun : httpDecodeChunked (sixteenChunk.line.wire ++ CR :: LF :: []) = .ok ⟨1, some 4⟩ := by
      decide +kernel
    have hdecodes := h []
    rw [Decodes, hrun] at hdecodes
    have hsize := (DecodeResult.mk.inj (Except.ok.inj hdecodes)).1
    exact absurd hsize (by decide)

end Http

end Ryze
