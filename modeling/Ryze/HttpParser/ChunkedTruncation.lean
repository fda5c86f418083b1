import Ryze.HttpParser.SizeFields

set_option autoImplicit false

/-! # Truncated chunked bodies

`http_parse_chunked` returns 1 where a chunk is not all there, but its loop also ends, with 0, where
the buffer stops inside a size line or between two chunks, and it looks neither at the LF behind a
size nor at the two bytes behind a chunk's data. -/

namespace Ryze

open CLib

/-- The function's own cutting of the buffer ends as `e` says. -/
def CutsTo (b : List UInt8) (e : ChunkEnd) : Prop := ∃ body len, Cut 0 b e body len

theorem httpParseChunked_cutsTo {b : List UInt8} {e : ChunkEnd} (h : CutsTo b e)
    (hmax : b.length ≤ ptrdiffMax) :
    (httpParseChunked b).map ChunkedResult.ret = e.ret := by
  obtain ⟨body, len, hcut⟩ := h
  obtain ⟨data', _, hrun⟩ := httpParseChunked_cut hcut hmax
  rw [hrun]
  cases e <;> rfl

theorem ret_of_cutsTo {b : List UInt8} {e : ChunkEnd} {ret : Int} (h : CutsTo b e)
    (hmax : b.length ≤ ptrdiffMax) (he : e.ret = .ok ret) :
    ∃ r, httpParseChunked b = .ok r ∧ r.ret = ret := by
  have hret := httpParseChunked_cutsTo h hmax
  rw [he] at hret
  cases hr : httpParseChunked b with
  | error f =>
      rw [hr] at hret
      cases hret
  | ok r =>
      rw [hr] at hret
      exact ⟨r, rfl, Except.ok.inj hret⟩

/-- Behind chunks that are all there the buffer goes on with `rest`; `k` is 1 behind a chunk. -/
inductive BehindChunks : Nat → List UInt8 → Nat → List UInt8 → Prop
  | here {k b} : BehindChunks k b k b
  | next {k line tail n k' rest} (hline : IsSizeLine k line) (hsize : IsSize (parsedField k line) n)
      (hn : 0 < n) (htail : n + 3 ≤ tail.length)
      (hrest : BehindChunks 1 (tail.drop (n + 3)) k' rest) :
      BehindChunks k (line ++ CR :: tail) k' rest

theorem BehindChunks.cut {k k' : Nat} {b rest : List UInt8} (h : BehindChunks k b k' rest)
    {e : ChunkEnd} (hrest : ∃ body len, Cut k' rest e body len) : ∃ body len, Cut k b e body len := by
  induction h with
  | here => exact hrest
  | next hline hsize hn htail _ ih =>
      obtain ⟨body, len, hcut⟩ := ih hrest
      exact ⟨_, _, Cut.next hline (readSize_some_iff.2 hsize) hn htail hcut⟩

/-- The size is read as it is meant. -/
def SizeLine.ReadsRight (l : SizeLine) : Prop := IsSize (parsedField 0 l.wire) l.size

theorem SizeLine.ReadsRight.readable {l : SizeLine} (h : l.ReadsRight) : l.Readable :=
  readSize_some_iff.2 h

end Ryze
