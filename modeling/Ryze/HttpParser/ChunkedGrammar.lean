import Ryze.HttpParser.Chunked

set_option autoImplicit false

/-! # How `http_parse_chunked` cuts a buffer

`Cut k b e body len` describes a buffer `b` that starts with a size line as the function takes it
apart: a chunk is a line up to the first CR at or behind offset `k`, a byte that is not looked at, as
many bytes of data as the size says and two bytes that are not looked at; `k` is 1 behind a chunk,
where the loop steps over the line's first byte. Every buffer is cut in some way (`cut_total`), and
the way it is cut says what the function returns (`httpParseChunked_cut`). -/

namespace Ryze

open CLib

/-! ## The size on a line -/

/-- The part of a size line that is read as its size. -/
def sizeField (k : Nat) (line : List UInt8) : List UInt8 :=
  match lastSemicolon (line.drop k) k none with
  | some j => line.take j
  | none => line

/-- The size that is read off a line, `none` if the line is refused. -/
def readSize (k : Nat) (line : List UInt8) : CRun (Option Nat) :=
  let d := toInt32 (sizeField k line).length
  if 0 < d then do
    let (ret, n) ← strParseHex (sizeField k line) d
    return if ret = 0 then some n else none
  else return none

theorem sizeField_start (k : Nat) (line : List UInt8) :
    ∃ rest, line = sizeField k line ++ rest := by
  unfold sizeField
  split
  · next j _ => exact ⟨line.drop j, (List.take_append_drop j line).symm⟩
  · exact ⟨[], (List.append_nil line).symm⟩

/-- Where the field ends, as the loop computes it. -/
theorem sizeField_length {k : Nat} {line : List UInt8} (hk : k ≤ line.length) :
    (sizeField k line).length = (lastSemicolon (line.drop k) k none).getD line.length := by
  unfold sizeField
  split
  · next j hj =>
      have hb := lastSemicolon_bounds hj
      rw [List.length_drop] at hb
      rw [hj, Option.getD_some, List.length_take]
      omega
  · next hnone => rw [hnone, Option.getD_none]

theorem intShl_eq_ok {n base x : Nat} (h : intShl n base = .ok x) : base < 32 ∧ x < 2 ^ 31 := by
  unfold intShl at h
  split at h
  · next hc =>
      cases h
      exact hc
  · cases h

/-- Eight digits are all an `int` can be shifted by, so a size that is read stays small. -/
theorem hexLoop_le {ds : List UInt8} {left base result n : Nat} {ret : Int}
    (h : hexLoop ds left base result = .ok (ret, n)) : n ≤ result + (32 - base) * 2 ^ 31 := by
  induction ds generalizing left base result with
  | nil =>
      cases left with
      | zero =>
          simp only [hexLoop, Except.ok.injEq, Prod.mk.injEq] at h
          omega
      | succ left => simp [hexLoop] at h
  | cons c ds ih =>
      cases left with
      | zero =>
          simp only [hexLoop, Except.ok.injEq, Prod.mk.injEq] at h
          omega
      | succ left =>
          simp only [hexLoop] at h
          split at h
          · simp only [Except.ok.injEq, Prod.mk.injEq] at h
            omega
          · next d _ =>
              obtain ⟨x, hx, h⟩ := bind_eq_ok.1 h
              obtain ⟨hbase, hlt⟩ := intShl_eq_ok hx
              have hle := ih h
              have hadd := sizeAdd_le result x
              omega

/-- Reading no further than the list is long, only a shift can stop the digit loop. -/
theorem hexLoop_error {ds : List UInt8} {left : Nat} (hleft : left ≤ ds.length) {base result : Nat}
    {f : Fault} (h : hexLoop ds left base result = .error f) : f = .shift := by
  induction ds generalizing left base result with
  | nil =>
      obtain rfl : left = 0 := by simpa using hleft
      simp [hexLoop] at h
  | cons c ds ih =>
      cases left with
      | zero => simp [hexLoop] at h
      | succ left =>
          simp only [hexLoop] at h
          split at h
          · cases h
          · next d _ =>
              unfold intShl at h
              split at h
              · exact ih (by simpa using hleft) h
              · cases h
                rfl

theorem readSize_le {k n : Nat} {line : List UInt8} (h : readSize k line = .ok (some n)) :
    n ≤ 2 ^ 36 := by
  simp only [readSize] at h
  split at h
  · obtain ⟨⟨ret, m⟩, hparse, h⟩ := bind_eq_ok.1 h
    have hle := hexLoop_le hparse
    split at h
    · cases h
      omega
    · cases h
  · cases h

theorem readSize_error {k : Nat} {line : List UInt8} {f : Fault} (h : readSize k line = .error f) :
    f = .shift := by
  simp only [readSize] at h
  split at h
  · cases hparse : strParseHex (sizeField k line) (toInt32 (sizeField k line).length) with
    | error e =>
        rw [hparse] at h
        cases h
        rw [strParseHex] at hparse
        exact hexLoop_error (toInt32_toNat_le (sizeField k line).length) hparse
    | ok r =>
        rw [hparse] at h
        cases h
  · cases h

/-! ## Cutting a buffer -/

/-- How the cutting of a buffer ends. -/
inductive ChunkEnd
  /-- in a size line without a CR -/
  | unfinished
  /-- at a size line that is refused -/
  | malformed
  /-- at a size line whose digits overflow a shift -/
  | overflow
  /-- in a chunk that is not all there -/
  | short
  /-- at a size line that is read as 0 -/
  | closed
deriving DecidableEq, Repr

/-- What the function returns for each ending. -/
def ChunkEnd.ret : ChunkEnd → CRun Int
  | .unfinished => .ok 0
  | .malformed => .ok (-1)
  | .overflow => .error .shift
  | .short => .ok 1
  | .closed => .ok 0

/-- `line` runs up to the first CR at or behind offset `k`. -/
def IsSizeLine (k : Nat) (line : List UInt8) : Prop := k ≤ line.length ∧ CR ∉ line.drop k

/-- The buffer `b`, taken apart by the function, ends as `e` says behind the chunk data `body` and
    the first `len` bytes. -/
inductive Cut : Nat → List UInt8 → ChunkEnd → List UInt8 → Nat → Prop
  | unfinished {k b} (hcr : CR ∉ b.drop k) : Cut k b .unfinished [] 0
  | malformed {k line tail} (hline : IsSizeLine k line) (hsize : readSize k line = .ok none) :
      Cut k (line ++ CR :: tail) .malformed [] 0
  | overflow {k line tail} (hline : IsSizeLine k line) (hsize : readSize k line = .error .shift) :
      Cut k (line ++ CR :: tail) .overflow [] 0
  | short {k line tail n} (hline : IsSizeLine k line) (hsize : readSize k line = .ok (some n))
      (htail : tail.length < n + 3) : Cut k (line ++ CR :: tail) .short [] 0
  | closed {k line tail} (hline : IsSizeLine k line) (hsize : readSize k line = .ok (some 0))
      (htail : 3 ≤ tail.length) : Cut k (line ++ CR :: tail) .closed [] (line.length + 2)
  | next {k line tail n e body len} (hline : IsSizeLine k line)
      (hsize : readSize k line = .ok (some n)) (hn : 0 < n) (htail : n + 3 ≤ tail.length)
      (hrest : Cut 1 (tail.drop (n + 3)) e body len) :
      Cut k (line ++ CR :: tail) e ((tail.drop 1).take n ++ body) (line.length + n + 4 + len)

/-- A buffer with a CR at or behind offset `k` starts with a size line. -/
theorem exists_sizeLine {k : Nat} {b : List UInt8} (hcr : CR ∈ b.drop k) :
    ∃ line tail, b = line ++ CR :: tail ∧ IsSizeLine k line := by
  obtain ⟨w, tail, hw, hnot⟩ := List.eq_append_cons_of_mem hcr
  have hk : k < b.length := by
    by_contra hge
    rw [List.drop_eq_nil_of_le (by omega)] at hcr
    exact absurd hcr (by simp)
  have hlen : (b.take k).length = k := by
    rw [List.length_take]
    omega
  refine ⟨b.take k ++ w, tail, ?_, ?_, ?_⟩
  · rw [List.append_assoc, ← hw, List.take_append_drop]
  · rw [List.length_append]
    omega
  · rw [List.drop_left' hlen]
    exact hnot

/-- Every buffer is cut in some way. The induction is on the length of what is left. -/
theorem cut_total (k : Nat) (b : List UInt8) : ∃ e body len, Cut k b e body len := by
  induction hm : b.length using Nat.strongRecOn generalizing k b with
  | ind m ih =>
      by_cases hcr : CR ∈ b.drop k
      · obtain ⟨line, tail, rfl, hline⟩ := exists_sizeLine hcr
        cases hsize : readSize k line with
        | error f =>
            obtain rfl := readSize_error hsize
            exact ⟨_, _, _, Cut.overflow hline hsize⟩
        | ok r =>
            cases r with
            | none => exact ⟨_, _, _, Cut.malformed hline hsize⟩
            | some n =>
                by_cases htail : tail.length < n + 3
                · exact ⟨_, _, _, Cut.short hline hsize htail⟩
                · by_cases hn : n = 0
                  · subst hn
                    exact ⟨_, _, _, Cut.closed hline hsize (by omega)⟩
                  · obtain ⟨e, body, len, hrest⟩ := ih (tail.drop (n + 3)).length
                      (by rw [← hm, List.length_drop, List.length_append, List.length_cons]; omega)
                      1 _ rfl
                    exact ⟨_, _, _, Cut.next hline hsize (by omega) (by omega) hrest⟩
      · exact ⟨_, _, _, Cut.unfinished hcr⟩

/-! ## The loop follows the cutting -/

/-- The loop's variables at the start of a size line: `*read_len` is where the line starts, also at
    the first one. -/
def lineStart (data : List UInt8) (k p1 bodyLen : Nat) : ChunkedState :=
  ⟨data, p1 + k, p1, none, bodyLen, p1⟩

/-- The loop's variables at the CR of a size line. -/
def lineEnd (data : List UInt8) (k p1 bodyLen : Nat) (line : List UInt8) : ChunkedState :=
  ⟨data, p1 + line.length, p1, (lastSemicolon (line.drop k) k none).map (p1 + ·), bodyLen, p1⟩

section Line

variable {data line tail : List UInt8} {k p1 bodyLen : Nat}

/-- From the start of a size line to its CR. -/
theorem chunkedLoop_toCr (hline : IsSizeLine k line) (hdrop : data.drop p1 = line ++ CR :: tail)
    (n : Nat) :
    cLoop chunkedBody (line.length - k + n) (lineStart data k p1 bodyLen)
      = cLoop chunkedBody n (lineEnd data k p1 bodyLen line) := by
  obtain ⟨hk, hcr⟩ := hline
  have hstart : data.drop (p1 + k) = line.drop k ++ CR :: tail := by
    rw [← List.drop_drop, hdrop, List.drop_append_of_le_length hk]
  have hscan := chunkedLoop_scan (line.drop k) (CR :: tail) hcr
    (lineStart data k p1 bodyLen) hstart n
  rw [List.length_drop] at hscan
  rw [hscan]
  congr 1
  have hsemi := lastSemicolon_shift (line.drop k) p1 k none
  rw [Option.map_none] at hsemi
  simp only [lineStart, lineEnd, hsemi, ChunkedState.mk.injEq, true_and, and_true]
  omega

/-- The branch at the CR reads the size off the line in front of it. -/
theorem chunkedBody_lineEnd (hline : IsSizeLine k line)
    (hdrop : data.drop p1 = line ++ CR :: tail) :
    chunkedBody (lineEnd data k p1 bodyLen line) = (do
      match ← readSize k line with
      | some n => chunkedSize (lineEnd data k p1 bodyLen line) n
      | none => return .inr ⟨-1, data, bodyLen, p1⟩) := by
  have hcr : data.drop (p1 + line.length) = CR :: tail := drop_add_of_drop hdrop
  have hd : (((lastSemicolon (line.drop k) k none).map (p1 + ·)).getD (p1 + line.length) : Int)
      - p1 = ((sizeField k line).length : Int) := by
    rw [sizeField_length hline.1]
    cases lastSemicolon (line.drop k) k none with
    | none =>
        rw [Option.map_none, Option.getD_none, Option.getD_none]
        omega
    | some j =>
        rw [Option.map_some, Option.getD_some, Option.getD_some]
        omega
  have hbody : chunkedBody (lineEnd data k p1 bodyLen line)
      = chunkedCr (lineEnd data k p1 bodyLen line) := by
    have hlt : (lineEnd data k p1 bodyLen line).i < (lineEnd data k p1 bodyLen line).data.length :=
      lt_length_of_drop hcr
    have hload : load (lineEnd data k p1 bodyLen line).data (lineEnd data k p1 bodyLen line).i
        = .ok CR := load_of_drop hcr
    rw [chunkedBody, if_pos hlt, hload, ok_bind, if_neg (by decide), if_pos rfl]
  obtain ⟨rest, hrest⟩ := sizeField_start k line
  have hparse : strParseHex (data.drop p1) (toInt32 (sizeField k line).length)
      = strParseHex (sizeField k line) (toInt32 (sizeField k line).length) := by
    rw [hdrop, hrest, List.append_assoc, ← hrest]
    exact hexLoop_append _ _ (toInt32_toNat_le _) 0 0
  rw [hbody]
  simp only [chunkedCr, readSize, lineEnd, hd, hparse]
  split
  · cases strParseHex (sizeField k line) (toInt32 (sizeField k line).length) with
    | error f => rfl
    | ok r =>
        obtain ⟨ret, n⟩ := r
        simp only [ok_bind]
        split <;> rfl
  · rfl

/-- How the loop ends from the CR on is how it ends from the start of the line. -/
theorem chunkedLoop_of_lineEnd {m : Nat} {x : CRun ChunkedResult} (hline : IsSizeLine k line)
    (hdrop : data.drop p1 = line ++ CR :: tail) (hm : m ≤ tail.length) (hx : x ≠ .error .fuel)
    (h : cLoop chunkedBody (m + 1) (lineEnd data k p1 bodyLen line) = x) :
    cLoop chunkedBody (data.length - p1 + 1) (lineStart data k p1 bodyLen) = x := by
  have hlen : data.length - p1 = line.length + (tail.length + 1) := by
    rw [← List.length_drop, hdrop, List.length_append, List.length_cons]
  rw [← chunkedLoop_toCr hline hdrop] at h
  exact cLoop_mono (by omega) h hx

/-- The chunk behind a size line is all there exactly if its data and three more bytes follow the
    CR. -/
theorem chunkedNext_eq {n : Nat} (hdrop : data.drop p1 = line ++ CR :: tail)
    (hp1 : p1 ≤ data.length) (hmax : data.length ≤ ptrdiffMax) (hn : n ≤ 2 ^ 36) :
    sizeAdd (sizeAdd (sizeAdd (p1 + line.length) 2) n) 2 = p1 + line.length + n + 4 ∧
      data.length = p1 + line.length + 1 + tail.length := by
  have hptr : ptrdiffMax = 2 ^ 63 - 1 := rfl
  have hmod : sizeMod = 2 ^ 64 := rfl
  have hlen : data.length - p1 = line.length + (tail.length + 1) := by
    rw [← List.length_drop, hdrop, List.length_append, List.length_cons]
  rw [sizeAdd_of_lt (a := p1 + line.length) (by omega),
    sizeAdd_of_lt (a := p1 + line.length + 2) (by omega), sizeAdd_of_lt (by omega)]
  omega

theorem chunkedSize_short {n : Nat} (hdrop : data.drop p1 = line ++ CR :: tail)
    (hp1 : p1 ≤ data.length) (hmax : data.length ≤ ptrdiffMax) (hn : n ≤ 2 ^ 36)
    (htail : tail.length < n + 3) :
    chunkedSize (lineEnd data k p1 bodyLen line) n = .ok (.inr ⟨1, data, bodyLen, p1⟩) := by
  obtain ⟨hnext, hlen⟩ := chunkedNext_eq hdrop hp1 hmax hn
  simp only [chunkedSize, lineEnd, hnext]
  rw [if_neg (by omega)]
  rfl

theorem chunkedSize_closed (hdrop : data.drop p1 = line ++ CR :: tail) (hp1 : p1 ≤ data.length)
    (hmax : data.length ≤ ptrdiffMax) (htail : 3 ≤ tail.length) :
    chunkedSize (lineEnd data k p1 bodyLen line) 0
      = .ok (.inr ⟨0, data, bodyLen, p1 + line.length + 2⟩) := by
  obtain ⟨hnext, hlen⟩ := chunkedNext_eq (n := 0) hdrop hp1 hmax (by omega)
  simp only [chunkedSize, lineEnd, hnext]
  rw [if_pos (by omega), if_neg (by omega)]
  rfl

/-- A chunk that is all there is moved to the end of the body, and the memory behind it stays. -/
theorem chunkedSize_next {n : Nat} (hdrop : data.drop p1 = line ++ CR :: tail)
    (hp1 : p1 ≤ data.length) (hbody : bodyLen ≤ p1) (hmax : data.length ≤ ptrdiffMax)
    (hn : n ≤ 2 ^ 36) (hpos : 0 < n) (htail : n + 3 ≤ tail.length) :
    ∃ data', data'.length = data.length ∧
      data'.take (bodyLen + n) = data.take bodyLen ++ (tail.drop 1).take n ∧
      data'.drop (p1 + line.length + n + 4) = tail.drop (n + 3) ∧
      chunkedSize (lineEnd data k p1 bodyLen line) n
        = .ok (.inl (lineStart data' 1 (p1 + line.length + n + 4) (bodyLen + n))) := by
  obtain ⟨hnext, hlen⟩ := chunkedNext_eq hdrop hp1 hmax hn
  have hptr : ptrdiffMax = 2 ^ 63 - 1 := rfl
  have hmod : sizeMod = 2 ^ 64 := rfl
  have hcr : data.drop (p1 + line.length) = CR :: tail := drop_add_of_drop hdrop
  have hsrc : data.drop (p1 + line.length + 2) = tail.drop 1 := by
    rw [← List.drop_drop, hcr]
    rfl
  obtain ⟨data', hmove⟩ : ∃ data', memmove data bodyLen (p1 + line.length + 2) n = .ok data' :=
    ⟨_, memmove_eq_ok.2 ⟨by omega, by omega, rfl⟩⟩
  refine ⟨data', memmove_length hmove, ?_, ?_, ?_⟩
  · rw [memmove_take hmove, hsrc]
  · rw [memmove_drop hmove (by omega), show p1 + line.length + n + 4 = p1 + line.length + (n + 4)
      by omega, ← List.drop_drop, hcr]
    rfl
  · simp only [chunkedSize, lineEnd, hnext]
    rw [if_pos (by omega), if_pos hpos, hmove, ok_bind, sizeAdd_of_lt (by omega)]
    rfl

end Line

theorem ChunkEnd.ret_ne_fuel (e : ChunkEnd) (f : Int → ChunkedResult) :
    e.ret.map f ≠ .error .fuel := by
  cases e <;> simp [ChunkEnd.ret, Except.map]

/-- The loop, started at a size line, ends as the cutting of the memory from there on says. The
    induction is on the cutting; the body built so far never reaches into the line. -/
theorem chunkedLoop_cut {k : Nat} {b : List UInt8} {e : ChunkEnd} {body : List UInt8} {len : Nat}
    (h : Cut k b e body len) {data : List UInt8} {p1 bodyLen : Nat} (hdrop : data.drop p1 = b)
    (hp1 : p1 ≤ data.length) (hbody : bodyLen ≤ p1) (hmax : data.length ≤ ptrdiffMax) :
    ∃ data', data'.take (bodyLen + body.length) = data.take bodyLen ++ body ∧
      cLoop chunkedBody (data.length - p1 + 1) (lineStart data k p1 bodyLen)
        = e.ret.map fun ret => ⟨ret, data', bodyLen + body.length, p1 + len⟩ := by
  induction h generalizing data p1 bodyLen with
  | @unfinished k b hcr =>
      have hcr' : CR ∉ data.drop (p1 + k) := by
        rwa [← List.drop_drop, hdrop]
      have hend := chunkedLoop_unfinished (lineStart data k p1 bodyLen) hcr' 0
      refine ⟨data, by simp, cLoop_mono ?_ hend (ChunkEnd.ret_ne_fuel .unfinished _)⟩
      show data.length - (p1 + k) + 1 ≤ data.length - p1 + 1
      omega
  | malformed hline hsize =>
      refine ⟨data, by simp, chunkedLoop_of_lineEnd hline hdrop (Nat.zero_le _)
        (ChunkEnd.ret_ne_fuel .malformed _) (cLoop_exit ?_ 0)⟩
      rw [chunkedBody_lineEnd hline hdrop, hsize]
      rfl
  | overflow hline hsize =>
      refine ⟨data, by simp, chunkedLoop_of_lineEnd hline hdrop (Nat.zero_le _)
        (ChunkEnd.ret_ne_fuel .overflow _) ?_⟩
      rw [cLoop, chunkedBody_lineEnd hline hdrop, hsize]
      rfl
  | short hline hsize htail =>
      refine ⟨data, by simp, chunkedLoop_of_lineEnd hline hdrop (Nat.zero_le _)
        (ChunkEnd.ret_ne_fuel .short _) (cLoop_exit ?_ 0)⟩
      rw [chunkedBody_lineEnd hline hdrop, hsize]
      exact chunkedSize_short hdrop hp1 hmax (readSize_le hsize) htail
  | closed hline hsize htail =>
      refine ⟨data, by simp, chunkedLoop_of_lineEnd hline hdrop (Nat.zero_le _)
        (ChunkEnd.ret_ne_fuel .closed _) (cLoop_exit ?_ 0)⟩
      rw [chunkedBody_lineEnd hline hdrop, hsize]
      exact chunkedSize_closed hdrop hp1 hmax htail
  | @next k line tail n e body len hline hsize hn htail hrest ih =>
      have hn36 := readSize_le hsize
      obtain ⟨moved, hlen, htake, hdrop', hstep⟩ :=
        chunkedSize_next (k := k) hdrop hp1 hbody hmax hn36 hn htail
      obtain ⟨hnext, hdata⟩ := chunkedNext_eq hdrop hp1 hmax hn36
      have hbody' : bodyLen + n ≤ p1 + line.length + n + 4 := by omega
      obtain ⟨data', htake', hloop⟩ := ih hdrop' (by omega) hbody' (by omega)
      have hpiece : ((tail.drop 1).take n).length = n := by
        rw [List.length_take, List.length_drop]
        omega
      refine ⟨data', ?_, chunkedLoop_of_lineEnd (m := data.length - (p1 + line.length + n + 4) + 1)
        hline hdrop (by omega) (ChunkEnd.ret_ne_fuel e _) ?_⟩
      · rw [List.length_append, hpiece, ← Nat.add_assoc, htake', htake, List.append_assoc]
      · have hgo : chunkedBody (lineEnd data k p1 bodyLen line)
            = .ok (.inl (lineStart moved 1 (p1 + line.length + n + 4) (bodyLen + n))) := by
          rw [chunkedBody_lineEnd hline hdrop, hsize]
          exact hstep
        rw [cLoop_next hgo, ← hlen, hloop, List.length_append, hpiece]
        simp only [Nat.add_assoc]

/-- What `http_parse_chunked` returns for a buffer that is cut as `e` says: the body is the data of
    the chunks in front of the ending. -/
theorem httpParseChunked_cut {b : List UInt8} {e : ChunkEnd} {body : List UInt8} {len : Nat}
    (h : Cut 0 b e body len) (hmax : b.length ≤ ptrdiffMax) :
    ∃ data', data'.take body.length = body ∧
      httpParseChunked b = e.ret.map fun ret => ⟨ret, data', body.length, len⟩ := by
  obtain ⟨data', htake, hloop⟩ :=
    chunkedLoop_cut h (show b.drop 0 = b from rfl) (Nat.zero_le _) (Nat.le_refl 0) hmax
  rw [Nat.zero_add] at htake
  refine ⟨data', by simpa using htake, ?_⟩
  rw [Nat.zero_add, Nat.zero_add] at hloop
  exact hloop

end Ryze
