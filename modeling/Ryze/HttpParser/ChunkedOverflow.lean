import Ryze.HttpParser.ChunkedInPlace
import Ryze.HttpParser.ChunkedTruncation
import Ryze.HttpParser.HexDigits

set_option autoImplicit false

/-! # Hostile chunk sizes

A size that is read has at most eight digits, so no sum of a position and a size wraps
(`noWrap_strParseHex`). What can go wrong is the shift itself: `Hostile` says, of the bytes of a
buffer, that the decoder comes to a size field that starts with more than eight digits, or whose
eighth digit is 8 or more. -/

namespace Ryze

open CLib

/-- The buffer, from a size line on, holds a size field whose leading digits do not fit, behind any
    number of chunks that are all there; `k` is 1 behind a chunk. -/
inductive Hostile : Nat → List UInt8 → Prop
  | here {k line tail} (hline : IsSizeLine k line)
      (hdigits : ¬ FitsInt (leadingDigits (parsedField k line))) : Hostile k (line ++ CR :: tail)
  | later {k line tail n} (hline : IsSizeLine k line) (hsize : IsSize (parsedField k line) n)
      (hn : 0 < n) (htail : n + 3 ≤ tail.length) (hrest : Hostile 1 (tail.drop (n + 3))) :
      Hostile k (line ++ CR :: tail)

/-- All arithmetic of the decoder on this buffer is defined: it returns, so no shift and no move was
    out of range, and no sum of a position and a size wraps. -/
def ArithmeticSafe (data : List UInt8) : Prop :=
  (∃ r, httpParseChunked data = .ok r) ∧ NoWrap strParseHex data

/-! ## Hostile buffers -/

theorem Hostile.cut {k : Nat} {b : List UInt8} (h : Hostile k b) :
    ∃ body len, Cut k b .overflow body len := by
  induction h with
  | here hline hdigits => exact ⟨_, _, Cut.overflow hline (readSize_error_iff.2 hdigits)⟩
  | later hline hsize hn htail hrest ih =>
      obtain ⟨body, len, hcut⟩ := ih
      exact ⟨_, _, Cut.next hline (readSize_some_iff.2 hsize) hn htail hcut⟩

theorem hostile_of_cut {k : Nat} {b body : List UInt8} {e : ChunkEnd} {len : Nat}
    (h : Cut k b e body len) (he : e = .overflow) : Hostile k b := by
  induction h with
  | unfinished hcr => cases he
  | malformed hline hsize => cases he
  | overflow hline hsize => exact Hostile.here hline (readSize_error_iff.1 hsize)
  | short hline hsize htail => cases he
  | closed hline hsize htail => cases he
  | next hline hsize hn htail hrest ih =>
      exact Hostile.later hline (readSize_some_iff.1 hsize) hn htail (ih he)

/-- **No overflow.** The decoder's arithmetic is defined exactly on the buffers that are not
    hostile. -/
theorem httpParseChunked_arithmeticSafe (data : List UInt8) (hmax : data.length ≤ ptrdiffMax) :
    ArithmeticSafe data ↔ ¬ Hostile 0 data := by
  constructor
  · rintro ⟨⟨r, hr⟩, -⟩ hhostile
    have hret := httpParseChunked_cutsTo hhostile.cut hmax
    rw [hr] at hret
    cases hret
  · intro hhostile
    refine ⟨?_, noWrap_strParseHex hmax⟩
    obtain ⟨e, body, len, hcut⟩ := cut_total 0 data
    have he : e ≠ .overflow := fun he => hhostile (hostile_of_cut hcut he)
    obtain ⟨ret, hret⟩ : ∃ ret, e.ret = .ok ret := by
      cases e with
      | unfinished => exact ⟨0, rfl⟩
      | malformed => exact ⟨-1, rfl⟩
      | overflow => exact absurd rfl he
      | short => exact ⟨1, rfl⟩
      | closed => exact ⟨0, rfl⟩
    obtain ⟨r, hr, -⟩ := ret_of_cutsTo ⟨body, len, hcut⟩ hmax hret
    exact ⟨r, hr⟩

theorem httpParseChunked_arithmeticSafe_hello : ArithmeticSafe (bytes "5\r\nhello\r\n") := by
  refine (httpParseChunked_arithmeticSafe _ (by decide)).2 fun hhostile => ?_
  have hret := httpParseChunked_cutsTo hhostile.cut (by decide)
  have hrun : (httpParseChunked (bytes "5\r\nhello\r\n")).map ChunkedResult.ret = .ok 0 := by
    decide +kernel
  rw [hrun] at hret
  cases hret

/-- A size of eight digits, the last of them `8`: it is shifted into the sign bit. -/
theorem httpParseChunked_overflow :
    httpParseChunked (bytes "00000008\r\n") = .error .shift ∧
      httpParseChunked (bytes "000000001\r\n") = .error .shift ∧
      ¬ ArithmeticSafe (bytes "00000008\r\n") := by
  have hrun : httpParseChunked (bytes "00000008\r\n") = .error .shift := by decide +kernel
  refine ⟨hrun, by decide +kernel, ?_⟩
  rintro ⟨⟨r, hr⟩, -⟩
  rw [hrun] at hr
  cases hr

end Ryze
