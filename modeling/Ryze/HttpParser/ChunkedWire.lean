import Ryze.HttpParser.ChunkedGrammar

set_option autoImplicit false

/-! # Chunked encodings

The encoding of a list of chunks, and what `http_parse_chunked` makes of it. The function reads sizes
with the least significant digit first and stops two bytes early at the last chunk, so it gives an
encoding back only where it misreads a size and loses its way: where it reads all sizes right it ends
at the last size line (`cut_encoding`), and where it does not, it never stops behind that line's CR
LF CR LF by recognising it (`cut_closed_ne_encoding`). -/

namespace Ryze

open CLib

/-- The value of hexadecimal digits, most significant first. -/
def hexValue (digits : List UInt8) : Nat :=
  digits.foldl (fun n c => 16 * n + (hexDigit c).getD 0) 0

/-- A size line without its CR LF: digits and extensions. -/
structure SizeLine where
  digits : List UInt8
  exts : List (List UInt8)
  digits_ne : digits ≠ []
  digits_hex : ∀ c ∈ digits, (hexDigit c).isSome = true
  exts_line : ∀ e ∈ exts, CR ∉ e

def SizeLine.wire (l : SizeLine) : List UInt8 := l.digits ++ l.exts.flatMap (semicolon :: ·)

def SizeLine.size (l : SizeLine) : Nat := hexValue l.digits

/-- A chunk: its size line says how long its data is. -/
structure Chunk where
  line : SizeLine
  data : List UInt8
  size_eq : line.size = data.length
  data_ne : data ≠ []

def Chunk.wire (c : Chunk) : List UInt8 := c.line.wire ++ CR :: LF :: (c.data ++ [CR, LF])

/-- The data of all chunks. -/
def chunksData (cs : List Chunk) : List UInt8 := cs.flatMap Chunk.data

def chunksWire (cs : List Chunk) : List UInt8 := cs.flatMap Chunk.wire

/-- The encoding of a list of chunks. -/
def encoding (cs : List Chunk) : List UInt8 := chunksWire cs ++ bytes "0\r\n\r\n"

/-- The function reads the size off a line that the line stands for. -/
def SizeLine.Readable (l : SizeLine) : Prop := readSize 0 l.wire = .ok (some l.size)

/-- Decoding the encoding of `cs`, with `S` behind it, gives the chunks back and stops at `S`. -/
def RoundTrips (cs : List Chunk) (S : List UInt8) : Prop :=
  ∃ r, httpParseChunked (encoding cs ++ S) = .ok r ∧ r.ret = 0 ∧ r.body = chunksData cs ∧
    r.readLen = (encoding cs).length

/-! ## Size lines -/

theorem hexDigit_cr : hexDigit CR = none := by decide

theorem hexDigit_semicolon : hexDigit semicolon = none := by decide

theorem SizeLine.cr_not_mem (l : SizeLine) : CR ∉ l.wire := by
  intro h
  rcases List.mem_append.1 h with hd | he
  · have hhex := l.digits_hex CR hd
    rw [hexDigit_cr] at hhex
    cases hhex
  · obtain ⟨e, he, hcr⟩ := List.mem_flatMap.1 he
    rcases List.mem_cons.1 hcr with hsemi | hcr
    · exact absurd hsemi (by decide)
    · exact l.exts_line e he hcr

theorem SizeLine.wire_ne_nil (l : SizeLine) : l.wire ≠ [] := by
  intro h
  exact l.digits_ne (List.append_eq_nil_iff.1 h).1

/-- A size line starts with a digit, so it makes no difference that the loop steps over its first
    byte. -/
theorem SizeLine.readSize_one (l : SizeLine) : readSize 1 l.wire = readSize 0 l.wire := by
  obtain ⟨c, ds, hdigits⟩ := List.exists_cons_of_ne_nil l.digits_ne
  have hc : c ≠ semicolon := by
    rintro rfl
    have hhex := l.digits_hex semicolon (by rw [hdigits]; exact List.mem_cons_self ..)
    rw [hexDigit_semicolon] at hhex
    cases hhex
  have hfield : sizeField 1 l.wire = sizeField 0 l.wire := by
    simp [sizeField, SizeLine.wire, hdigits, lastSemicolon, hc]
  rw [readSize, readSize, hfield]

theorem SizeLine.isSizeLine (l : SizeLine) {k : Nat} (hk : k ≤ 1) : IsSizeLine k l.wire := by
  have hpos := List.length_pos_of_ne_nil l.wire_ne_nil
  exact ⟨by omega, fun h => l.cr_not_mem (List.mem_of_mem_drop h)⟩

theorem SizeLine.Readable.readSize {l : SizeLine} (h : l.Readable) {k : Nat} (hk : k ≤ 1) :
    readSize k l.wire = .ok (some l.size) := by
  obtain rfl | rfl : k = 0 ∨ k = 1 := by omega
  · exact h
  · rw [l.readSize_one]
    exact h

/-- One readable chunk in front of a buffer. -/
theorem cut_chunk {c : Chunk} (hread : c.line.Readable) {k : Nat} (hk : k ≤ 1) {b : List UInt8}
    {e : ChunkEnd} {body : List UInt8} {len : Nat} (h : Cut 1 b e body len) :
    Cut k (c.wire ++ b) e (c.data ++ body) (c.wire.length + len) := by
  have hsize := hread.readSize hk
  rw [c.size_eq] at hsize
  have hrest : Cut 1 ((LF :: (c.data ++ CR :: LF :: b)).drop (c.data.length + 3)) e body len := by
    rw [List.drop_succ_cons, ← List.drop_drop, List.drop_left]
    exact h
  have hnext := Cut.next (c.line.isSizeLine hk) hsize (List.length_pos_of_ne_nil c.data_ne)
    (by simp only [List.length_cons, List.length_append]; omega) hrest
  have htake : ((LF :: (c.data ++ CR :: LF :: b)).drop 1).take c.data.length = c.data :=
    List.take_left' rfl
  have hwire : c.wire ++ b = c.line.wire ++ CR :: LF :: (c.data ++ CR :: LF :: b) := by
    simp [Chunk.wire]
  have hlen : c.wire.length + len = c.line.wire.length + c.data.length + 4 + len := by
    simp only [Chunk.wire, List.length_append, List.length_cons, List.length_nil]
    omega
  rw [hwire, hlen]
  rw [htake] at hnext
  exact hnext

theorem cut_chunks {cs : List Chunk} (hread : ∀ c ∈ cs, c.line.Readable) {b : List UInt8}
    {e : ChunkEnd} {body : List UInt8} {len : Nat} (h : ∀ k ≤ 1, Cut k b e body len) {k : Nat}
    (hk : k ≤ 1) :
    Cut k (chunksWire cs ++ b) e (chunksData cs ++ body) ((chunksWire cs).length + len) := by
  induction cs generalizing k with
  | nil => simpa [chunksWire, chunksData] using h k hk
  | cons c cs ih =>
      have hrest := ih (fun d hd => hread d (List.mem_cons_of_mem _ hd)) (Nat.le_refl 1)
      have hcut := cut_chunk (hread c (List.mem_cons_self ..)) hk hrest
      simpa [chunksWire, chunksData, Nat.add_assoc] using hcut

theorem cut_last (S : List UInt8) {k : Nat} (hk : k ≤ 1) :
    Cut k (bytes "0\r\n\r\n" ++ S) .closed [] 3 := by
  have hline : IsSizeLine k [48] ∧ readSize k [48] = .ok (some 0) := by
    obtain rfl | rfl : k = 0 ∨ k = 1 := by omega
    · exact ⟨⟨by decide, by decide⟩, by decide⟩
    · exact ⟨⟨by decide, by decide⟩, by decide⟩
  have htail : 3 ≤ (LF :: CR :: LF :: S).length := by simp
  exact Cut.closed hline.1 hline.2 htail

/-- Where all sizes are read right, the decoder stops behind the last size line, two bytes before
    the encoding ends. -/
theorem cut_encoding {cs : List Chunk} (hread : ∀ c ∈ cs, c.line.Readable) (S : List UInt8) :
    Cut 0 (encoding cs ++ S) .closed (chunksData cs) ((encoding cs).length - 2) := by
  have h := cut_chunks hread (fun k hk => cut_last S hk) (Nat.zero_le 1)
  have hlen : (encoding cs).length - 2 = (chunksWire cs).length + 3 := by
    rw [encoding, List.length_append]
    rfl
  rw [encoding, List.append_assoc, ← encoding, hlen]
  simpa using h

/-! ## Where a cutting can end -/

/-- A cutting that ends at a size read as 0 ends behind a line with a CR. -/
theorem cut_closed_split {k : Nat} {b body : List UInt8} {e : ChunkEnd} {len : Nat}
    (h : Cut k b e body len) (he : e = .closed) (hk : k ≤ 1) :
    ∃ k' pre line tail, k' ≤ 1 ∧ IsSizeLine k' line ∧ readSize k' line = .ok (some 0) ∧
      b = pre ++ line ++ CR :: tail ∧ len = pre.length + line.length + 2 := by
  induction h with
  | unfinished hcr => cases he
  | malformed hline hsize => cases he
  | overflow hline hsize => cases he
  | short hline hsize htail => cases he
  | @closed k line tail hline hsize htail =>
      exact ⟨k, [], line, tail, hk, hline, hsize, rfl, by simp⟩
  | @next k line tail n e body len hline hsize hn htail hrest ih =>
      obtain ⟨k', pre, line', tail', hk', hline', hsize', hb, hlen⟩ := ih he (Nat.le_refl 1)
      refine ⟨k', line ++ CR :: (tail.take (n + 3) ++ pre), line', tail', hk', hline', hsize', ?_, ?_⟩
      · have hsplit : tail = tail.take (n + 3) ++ (pre ++ line' ++ CR :: tail') := by
          rw [← hb, List.take_append_drop]
        calc line ++ CR :: tail
            = line ++ CR :: (tail.take (n + 3) ++ (pre ++ line' ++ CR :: tail')) := by
              rw [← hsplit]
          _ = line ++ CR :: (tail.take (n + 3) ++ pre) ++ line' ++ CR :: tail' := by simp
      · rw [hlen]
        simp only [List.length_append, List.length_cons, List.length_take]
        omega

/-- A cutting that ends in an unfinished size line has no CR behind that line's first byte. -/
theorem cut_unfinished_cr {k : Nat} {b body : List UInt8} {e : ChunkEnd} {len : Nat}
    (h : Cut k b e body len) (he : e = .unfinished) (hk : k ≤ 1) : CR ∉ b.drop (len + 1) := by
  induction h with
  | @unfinished k b hcr =>
      intro hmem
      have hsub : b.drop (0 + 1) = (b.drop k).drop (1 - k) := by
        rw [List.drop_drop, show k + (1 - k) = 0 + 1 by omega]
      rw [hsub] at hmem
      exact hcr (List.mem_of_mem_drop hmem)
  | malformed hline hsize => cases he
  | overflow hline hsize => cases he
  | short hline hsize htail => cases he
  | closed hline hsize htail => cases he
  | @next k line tail n e body len hline hsize hn htail hrest ih =>
      have hrest' := ih he (Nat.le_refl 1)
      rw [List.drop_drop] at hrest'
      rw [show line.length + n + 4 + len + 1 = line.length + (n + 3 + (len + 1) + 1) by omega,
        ← List.drop_drop, List.drop_left, List.drop_succ_cons]
      exact hrest'

theorem mem_drop_of_le_one {k : Nat} (hk : k ≤ 1) : CR ∈ ([48, CR, LF] : List UInt8).drop k := by
  obtain rfl | rfl : k = 0 ∨ k = 1 := by omega
  · decide
  · decide

/-- No cutting ends at a size line whose CR LF ends an encoding: in front of that CR LF stands
    another one. -/
theorem cut_closed_ne_encoding {cs : List Chunk} {S body : List UInt8} {len : Nat}
    (h : Cut 0 (encoding cs ++ S) .closed body len) : len ≠ (encoding cs).length := by
  intro hlen
  obtain ⟨k, pre, line, tail, hk, ⟨hkl, hcr⟩, hsize, hb, hlen'⟩ :=
    cut_closed_split h rfl (Nat.zero_le 1)
  -- the line ends where the encoding's last CR LF begins
  have hfront : pre ++ line = chunksWire cs ++ [48, CR, LF] := by
    have hpre : (pre ++ line).length = (chunksWire cs ++ [48, CR, LF]).length := by
      have henc : (encoding cs).length = (chunksWire cs).length + 5 := by
        rw [encoding, List.length_append]
        rfl
      simp only [List.length_append, List.length_cons, List.length_nil]
      omega
    have happ : (pre ++ line) ++ CR :: tail
        = (chunksWire cs ++ [48, CR, LF]) ++ (CR :: LF :: S) := by
      rw [← hb, encoding]
      simp [bytes]
      decide
    exact (List.append_inj happ hpre).1
  rcases List.append_eq_append_iff.1 hfront with ⟨a, _, rfl⟩ | ⟨c, _, hc⟩
  · refine hcr ?_
    rw [List.drop_append]
    exact List.mem_append_right _ (mem_drop_of_le_one (k := k - a.length) (by omega))
  · rcases c with _ | ⟨_, _ | ⟨_, _ | ⟨_, c⟩⟩⟩
    · obtain rfl : line = [48, CR, LF] := hc.symm
      exact hcr (mem_drop_of_le_one hk)
    · obtain rfl : line = [CR, LF] := (List.cons.inj hc).2.symm
      obtain rfl | rfl : k = 0 ∨ k = 1 := by omega
      · exact hcr (by decide)
      · exact absurd hsize (by decide)
    · obtain rfl : line = [LF] := (List.cons.inj (List.cons.inj hc).2).2.symm
      obtain rfl | rfl : k = 0 ∨ k = 1 := by omega
      · exact absurd hsize (by decide)
      · exact absurd hsize (by decide)
    · have hnil : line = [] := by
        have hlen3 := congrArg List.length hc
        simp only [List.length_cons, List.length_append, List.length_nil] at hlen3
        exact List.eq_nil_of_length_eq_zero (by omega)
      subst hnil
      obtain rfl : k = 0 := by simpa using hkl
      exact absurd hsize (by decide)

/-! ## The round trip -/

/-- The decoder gives an encoding back, with some bytes behind it, exactly if its own cutting runs
    into an unfinished size line right behind the encoding and has moved the chunks' bytes by
    then. -/
theorem roundTrips_iff_cut {cs : List Chunk} {S : List UInt8}
    (hmax : (encoding cs ++ S).length ≤ ptrdiffMax) :
    RoundTrips cs S ↔
      Cut 0 (encoding cs ++ S) .unfinished (chunksData cs) (encoding cs).length := by
  constructor
  · rintro ⟨r, hr, hret, hbody, hread⟩
    obtain ⟨e, body, len, hcut⟩ := cut_total 0 (encoding cs ++ S)
    obtain ⟨data', htake, hrun⟩ := httpParseChunked_cut hcut hmax
    rw [hr] at hrun
    cases e with
    | unfinished =>
        obtain rfl := Except.ok.inj hrun
        rw [ChunkedResult.body, htake] at hbody
        rw [← hbody, ← hread]
        exact hcut
    | malformed =>
        obtain rfl := Except.ok.inj hrun
        simp at hret
    | overflow => cases hrun
    | short =>
        obtain rfl := Except.ok.inj hrun
        simp at hret
    | closed =>
        obtain rfl := Except.ok.inj hrun
        exact absurd hread (cut_closed_ne_encoding hcut)
  · intro hcut
    obtain ⟨data', htake, hrun⟩ := httpParseChunked_cut hcut hmax
    exact ⟨_, hrun, rfl, htake, rfl⟩

/-- **The chunked round trip never holds.** Whatever the chunks and however they are encoded, there
    are bytes that may follow for which decoding does not give the chunks back and stop at these
    bytes. With given bytes behind the encoding it does so exactly if the function's own cutting runs
    into an unfinished size line there, and then these bytes hold no CR behind the first one and some
    size of the encoding was misread. -/
theorem httpParseChunked_never_roundTrips (cs : List Chunk)
    (hmax : (encoding cs).length + 2 ≤ ptrdiffMax) :
    ¬ (∀ S : List UInt8, (encoding cs ++ S).length ≤ ptrdiffMax → RoundTrips cs S) ∧
    ∀ S : List UInt8, (encoding cs ++ S).length ≤ ptrdiffMax →
      (RoundTrips cs S ↔
        Cut 0 (encoding cs ++ S) .unfinished (chunksData cs) (encoding cs).length) ∧
      (RoundTrips cs S → CR ∉ S.drop 1 ∧ ¬ ∀ c ∈ cs, c.line.Readable) := by
  have hexact : ∀ S : List UInt8, (encoding cs ++ S).length ≤ ptrdiffMax → RoundTrips cs S →
      CR ∉ S.drop 1 ∧ ¬ ∀ c ∈ cs, c.line.Readable := by
    intro S hS hround
    constructor
    · have hnot := cut_unfinished_cr ((roundTrips_iff_cut hS).1 hround) rfl (Nat.zero_le 1)
      rwa [← List.drop_drop, List.drop_left] at hnot
    · intro hread
      obtain ⟨r, hr, _, _, hlen⟩ := hround
      obtain ⟨data', _, hrun⟩ := httpParseChunked_cut (cut_encoding hread S) hS
      rw [hr] at hrun
      obtain rfl := Except.ok.inj hrun
      have hpos : 0 < (encoding cs).length := by
        rw [encoding, List.length_append]
        exact Nat.add_pos_right _ (by decide)
      simp only at hlen
      omega
  refine ⟨fun hall => ?_, fun S hS => ⟨roundTrips_iff_cut hS, hexact S hS⟩⟩
  have hS : (encoding cs ++ [CR, CR]).length ≤ ptrdiffMax := by
    rw [List.length_append]
    exact hmax
  exact (hexact [CR, CR] hS (hall _ hS)).1 (by decide)

/-- `5 CR LF hello CR LF`. -/
def helloChunk : Chunk where
  line := {
    digits := bytes "5"
    exts := []
    digits_ne := by decide
    digits_hex := List.all_eq_true.1 (by decide)
    exts_line := by decide }
  data := bytes "hello"
  size_eq := by decide
  data_ne := by decide

theorem httpParseChunked_hello : ¬ RoundTrips [helloChunk] [] := by
  intro hround
  have hmisread := ((httpParseChunked_never_roundTrips [helloChunk] (by decide)).2 []
    (by decide)).2 hround
  refine hmisread.2 ?_
  simp only [List.mem_singleton, forall_eq, SizeLine.Readable]
  decide

/-- `10 CR LF`, 16 bytes of data and CR LF. -/
def sixteenChunk : Chunk where
  line := {
    digits := bytes "10"
    exts := []
    digits_ne := by decide
    digits_hex := List.all_eq_true.1 (by decide)
    exts_line := by decide }
  data := bytes "xxxxxxxxxxxxxxxx"
  size_eq := by decide
  data_ne := by decide

/-- The size `10` is read as 1, and the chunk's data is then refused as the next size line. -/
theorem httpParseChunked_sixteen : ¬ ∀ (cs : List Chunk) (S : List UInt8),
    (encoding cs ++ S).length ≤ ptrdiffMax → RoundTrips cs S := by
  intro h
  obtain ⟨r, hr, hret, _⟩ := h [sixteenChunk] [] (by decide)
  have hrun : (httpParseChunked (encoding [sixteenChunk] ++ [])).map ChunkedResult.ret
      = .ok (-1) := by decide +kernel
  rw [hr] at hrun
  have hminus := Except.ok.inj hrun
  omega

end Ryze
