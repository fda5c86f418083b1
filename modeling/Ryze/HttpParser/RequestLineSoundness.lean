import Ryze.HttpParser.RequestLineSafety

set_option autoImplicit false

/-! # What `http_parse_request_line` accepts

The function searches its two spaces in the whole buffer and measures the distance from the second
one to the line end, so what it accepts is two words without spaces, of any length and with any other
bytes in them, and ` HTTP/1.c` CR LF with any byte `c` but CR (`httpParseRequestLine_accepts`). The
result is a request line exactly if both words are there, neither holds a CR or LF, and `c` is a
digit. -/

namespace Ryze

open CLib

/-! ## The accepted buffers -/

/-- The buffer begins with what the function takes for a request line. -/
structure TakenForLine (data method path : List UInt8) (c : UInt8) (rest : List UInt8) : Prop where
  method_sp : ∀ b ∈ method, b ≠ SP
  path_sp : ∀ b ∈ path, b ≠ SP
  version_cr : c ≠ CR
  data_eq : data = method ++ SP :: (path ++ SP :: (bytes "HTTP/1." ++ c :: CR :: LF :: rest))

/-- The result for such a buffer. -/
def acceptedLine (method path : List UInt8) (c : UInt8) : RequestLineResult where
  ret := 0
  line := some {
    method := ⟨0, method.length⟩
    path := ⟨method.length + 1, path.length⟩
    minorVersion := schar c - 48 }
  readLen := method.length + path.length + 12

theorem matchesAt_true {data ls : List UInt8} {p : Nat} (h : matchesAt data ls p = .ok true) :
    ∃ rest, data.drop p = ls ++ rest := by
  induction ls generalizing p with
  | nil => exact ⟨data.drop p, rfl⟩
  | cons l ls ih =>
      rw [matchesAt] at h
      obtain ⟨c, hc, h⟩ := bind_eq_ok.1 h
      split at h
      · next hcl =>
          obtain ⟨rest, hrest⟩ := ih h
          obtain ⟨hlt, hget⟩ := List.getElem?_eq_some_iff.1 (load_eq_ok.1 hc)
          refine ⟨rest, ?_⟩
          rw [List.drop_eq_getElem_cons hlt, hget, hcl, hrest]
          rfl
      · cases h

theorem http_ne_cr : ∀ b ∈ SP :: bytes "HTTP/1.", b ≠ CR := by
  intro b hb
  exact bne_iff_ne.1 (List.all_eq_true.1
    (show (SP :: bytes "HTTP/1.").all (· != CR) = true by decide) b hb)

theorem TakenForLine.run {data method path rest : List UInt8} {c : UInt8}
    (h : TakenForLine data method path c rest) :
    httpParseRequestLine data = .ok (acceptedLine method path c) := by
  obtain ⟨hmethod, hpath, hc, rfl⟩ := h
  have hline : ∀ b ∈ (bytes "HTTP/1." ++ [c]), b ≠ CR := by
    intro b hb
    rcases List.mem_append.1 hb with hb | hb
    · exact http_ne_cr b (List.mem_cons_of_mem _ hb)
    · rwa [List.mem_singleton.1 hb]
  have hscan := crlfLoop_of_line (bytes "HTTP/1." ++ [c]) rest hline
    (method.length + 1 + path.length + 1)
  rw [List.append_assoc, List.singleton_append] at hscan
  have hpos : method.length + 1 + path.length = (method ++ SP :: path).length := by
    rw [List.length_append, List.length_cons]
    omega
  have hdrop : ∀ t : List UInt8, (method ++ SP :: (path ++ SP :: t)).drop
      (method.length + 1 + path.length) = SP :: t := by
    intro t
    rw [hpos, show method ++ SP :: (path ++ SP :: t) = (method ++ SP :: path) ++ SP :: t by simp,
      List.drop_left]
  have hhttp : (method ++ SP :: (path ++ SP :: (bytes "HTTP/1." ++ c :: CR :: LF :: rest))).drop
      (method.length + 1 + path.length + 1) = bytes "HTTP/1." ++ c :: CR :: LF :: rest := by
    rw [← List.drop_drop, hdrop]
    rfl
  have hdigit : (method ++ SP :: (path ++ SP :: (bytes "HTTP/1." ++ c :: CR :: LF :: rest))).drop
      (method.length + 1 + path.length + 8) = c :: CR :: LF :: rest := by
    rw [← List.drop_drop, hdrop]
    rfl
  have hlen : (bytes "HTTP/1." ++ [c]).length = 8 := rfl
  rw [httpParseRequestLine, spaceLoop_spaces hmethod hpath]
  simp only [crlfLoop_second, hscan, hlen, ok_bind, matchesAt_of_drop _ _ _ _ hhttp,
    load_of_drop hdigit, pure_eq_ok, acceptedLine]
  rw [if_neg (by omega), if_pos trivial, Nat.add_sub_cancel_left,
    show method.length + 1 + path.length + 1 + 8 + 1 + 1 = method.length + path.length + 12 by omega]

/-- A line end nine bytes behind the literal's start: the literal, one more byte, CR LF. -/
theorem crlfLoop_http {u : List UInt8} {p : Nat}
    (h : crlfLoop (bytes "HTTP/1." ++ u) p = .ok (some (p + 9))) :
    ∃ c rest, c ≠ CR ∧ u = c :: CR :: LF :: rest := by
  have hlit : (bytes "HTTP/1.").length = 7 := rfl
  rw [crlfLoop_skip _ _ (fun b hb => http_ne_cr b (List.mem_cons_of_mem _ hb)), hlit] at h
  cases u with
  | nil => cases h
  | cons c u =>
      by_cases hc : c = CR
      · subst hc
        cases u with
        | nil => cases h
        | cons c' u =>
            rw [crlfLoop_cr] at h
            split at h
            · have hpos := Option.some.inj (Except.ok.inj h)
              omega
            · -- the scan has stepped over two bytes and finds its LF later
              obtain ⟨line, rest, -, hpos⟩ := crlfLoop_found h
              omega
      · rw [crlfLoop_ne hc] at h
        obtain ⟨line, rest, rfl, hpos⟩ := crlfLoop_found h
        obtain rfl : line = [] := List.eq_nil_of_length_eq_zero (by omega)
        exact ⟨c, rest, hc, rfl⟩

/-- **What is accepted.** -/
theorem httpParseRequestLine_accepts {data : List UInt8} {r : RequestLineResult}
    (h : httpParseRequestLine data = .ok r) (hret : r.ret = 0) :
    ∃ method path c rest, TakenForLine data method path c rest ∧ r = acceptedLine method path c := by
  have hrun := h
  rw [httpParseRequestLine] at h
  rcases spaceLoop_cases data with ⟨pos, hpos, hspaces⟩ | ⟨method, path, t, hmethod, hpath, rfl, hspaces⟩
  · rw [hspaces] at h
    obtain ⟨lf, hlf, h⟩ := bind_eq_ok.1 h
    split at h
    · simp at hpos
    · cases h
      cases hret
  · rw [hspaces] at h
    simp only [crlfLoop_second] at h
    obtain ⟨lf, hlf, h⟩ := bind_eq_ok.1 h
    cases lf with
    | none =>
        cases h
        cases hret
    | some pos2 =>
        simp only at h
        split at h
        · cases h
          cases hret
        · next hten =>
            obtain ⟨http, hhttp, h⟩ := bind_eq_ok.1 h
            cases http with
            | false =>
                cases h
                cases hret
            | true =>
                obtain ⟨u, hu⟩ := matchesAt_true hhttp
                obtain rfl : t = bytes "HTTP/1." ++ u := by
                  have hpos : method.length + 1 + path.length + 1
                      = (method ++ SP :: (path ++ [SP])).length := by
                    simp only [List.length_append, List.length_cons, List.length_nil]
                    omega
                  rwa [hpos, show method ++ SP :: (path ++ SP :: t)
                    = (method ++ SP :: (path ++ [SP])) ++ t by simp, List.drop_left] at hu
                have hpos2 : pos2 = method.length + 1 + path.length + 1 + 9 := by omega
                rw [hpos2] at hlf
                obtain ⟨c, rest, hc, rfl⟩ := crlfLoop_http hlf
                have htaken : TakenForLine _ method path c rest := ⟨hmethod, hpath, hc, rfl⟩
                refine ⟨method, path, c, rest, htaken, ?_⟩
                have hboth := htaken.run
                rw [hrun] at hboth
                exact Except.ok.inj hboth

/-! ## Request lines -/

/-- The parts of a request line: two words without line breaks or spaces, and a digit. -/
structure IsRequestLine (method path : List UInt8) (d : Nat) : Prop where
  method_ne : method ≠ []
  path_ne : path ≠ []
  method_line : ∀ b ∈ method, b ≠ SP ∧ b ≠ CR ∧ b ≠ LF
  path_line : ∀ b ∈ path, b ≠ SP ∧ b ≠ CR ∧ b ≠ LF
  digit : d < 10

/-- The first `len` bytes are a request line, and `line` says where its parts are. -/
def HoldsLine (data : List UInt8) (len : Nat) (line : Option RequestLine) : Prop :=
  ∃ method path d, IsRequestLine method path d ∧
    slice data 0 len = some (requestLineWire method path d) ∧
    line = some {
      method := ⟨0, method.length⟩
      path := ⟨method.length + 1, path.length⟩
      minorVersion := d }

/-- What the parser accepts of a buffer is a request line. -/
def LineSound (data : List UInt8) : Prop :=
  ∀ r, httpParseRequestLine data = .ok r → r.ret = 0 → HoldsLine data r.readLen r.line

/-- The same of the copy in `src/http`, which returns the length it accepts. -/
def Http.LineSound (data : List UInt8) : Prop :=
  ∀ r, Http.httpParseRequestLine data = .ok r → 0 ≤ r.ret → HoldsLine data r.ret.toNat r.line

/-- A word is missing, there is a CR or LF in one of them, or the version is no digit. -/
def IsLax (method path : List UInt8) (c : UInt8) : Prop :=
  method = [] ∨ path = [] ∨ (∃ b ∈ method ++ path, b = CR ∨ b = LF) ∨ c < 48 ∨ 57 < c

/-- The buffer begins with a lax line. -/
def BeginsLax (data : List UInt8) : Prop :=
  ∃ method path c rest, TakenForLine data method path c rest ∧ IsLax method path c

/-- The buffer begins with a line whose length is positive as an `int`, and which is lax or too long
    for an `int`. -/
def Http.BeginsLax (data : List UInt8) : Prop :=
  ∃ method path c rest, TakenForLine data method path c rest ∧
    0 ≤ toInt32 (method.length + path.length + 12 : Nat) ∧
    (IsLax method path c ∨ 2147483648 ≤ method.length + path.length + 12)

theorem isRequestLine_of_not_lax {data method path rest : List UInt8} {c : UInt8}
    (h : TakenForLine data method path c rest) (hlax : ¬ IsLax method path c) :
    IsRequestLine method path (c.toNat - 48) ∧ c = UInt8.ofNat (48 + (c.toNat - 48)) := by
  simp only [IsLax, not_or, not_exists, not_and, List.mem_append, UInt8.not_lt] at hlax
  obtain ⟨hmethod, hpath, hbreak, hlo, hhi⟩ := hlax
  have hlo' : 48 ≤ c.toNat := hlo
  have hhi' : c.toNat ≤ 57 := hhi
  refine ⟨⟨hmethod, hpath, ?_, ?_, by omega⟩, ?_⟩
  · intro b hb
    exact ⟨h.method_sp b hb, hbreak b (Or.inl hb)⟩
  · intro b hb
    exact ⟨h.path_sp b hb, hbreak b (Or.inr hb)⟩
  · rw [show 48 + (c.toNat - 48) = c.toNat by omega, UInt8.ofNat_toNat]

/-- The bytes taken for a line, as far as they are one. -/
theorem TakenForLine.slice {data method path rest : List UInt8} {c : UInt8}
    (h : TakenForLine data method path c rest) :
    CLib.slice data 0 (method.length + path.length + 12)
      = some (method ++ SP :: (path ++ SP :: (bytes "HTTP/1." ++ [c, CR, LF]))) := by
  have hlen : (method ++ SP :: (path ++ SP :: (bytes "HTTP/1." ++ [c, CR, LF]))).length
      = method.length + path.length + 12 := by
    have hlit : (bytes "HTTP/1.").length = 7 := rfl
    simp only [List.length_append, List.length_cons, List.length_nil, hlit]
    omega
  rw [← hlen]
  refine slice_of_drop (b := rest) ?_ (Nat.zero_le _)
  rw [List.drop_zero, h.data_eq]
  simp

/-- An accepted line is a request line exactly if it is not lax. -/
theorem TakenForLine.holdsLine_iff {data method path rest : List UInt8} {c : UInt8}
    (h : TakenForLine data method path c rest) :
    HoldsLine data (method.length + path.length + 12) (acceptedLine method path c).line ↔
      ¬ IsLax method path c := by
  constructor
  · rintro ⟨method', path', d, hline, hslice, hspans⟩ hlax
    simp only [acceptedLine, Option.some.injEq, RequestLine.mk.injEq, Span.mk.injEq, true_and]
      at hspans
    obtain ⟨hmethodLen, ⟨-, hpathLen⟩, -⟩ := hspans
    rw [h.slice, requestLineWire] at hslice
    obtain ⟨rfl, htail⟩ := List.append_inj (Option.some.inj hslice) hmethodLen
    obtain ⟨rfl, hversion⟩ := List.append_inj (List.cons.inj htail).2 hpathLen
    have hdigit : [c, CR, LF] = [UInt8.ofNat (48 + d), CR, LF] :=
      List.append_cancel_left (List.cons.inj hversion).2
    have hc : c = UInt8.ofNat (48 + d) := (List.cons.inj hdigit).1
    have hd := hline.digit
    have hcNat : c.toNat = 48 + d := by
      rw [hc, UInt8.toNat_ofNat']
      omega
    rcases hlax with hmethod | hpath | ⟨b, hb, hbreak⟩ | hlo | hhi
    · exact hline.method_ne hmethod
    · exact hline.path_ne hpath
    · have hb' : b ≠ CR ∧ b ≠ LF := by
        rcases List.mem_append.1 hb with hb | hb
        · exact (hline.method_line b hb).2
        · exact (hline.path_line b hb).2
      rcases hbreak with rfl | rfl
      · exact hb'.1 rfl
      · exact hb'.2 rfl
    · have hlt : c.toNat < 48 := hlo
      omega
    · have hlt : 57 < c.toNat := hhi
      omega
  · intro hlax
    obtain ⟨hline, hc⟩ := isRequestLine_of_not_lax h hlax
    have hversion : schar c - 48 = ((c.toNat - 48 : Nat) : Int) := by
      have hdigit := schar_digit hline.digit
      rwa [← hc] at hdigit
    refine ⟨method, path, c.toNat - 48, hline, ?_, ?_⟩
    · rw [h.slice, requestLineWire, ← hc]
    · rw [acceptedLine, hversion]

theorem lineSound_iff (data : List UInt8) : LineSound data ↔ ¬ BeginsLax data := by
  constructor
  · rintro hsound ⟨method, path, c, rest, htaken, hlax⟩
    exact htaken.holdsLine_iff.1 (hsound _ htaken.run rfl) hlax
  · intro hlax r hr hret
    obtain ⟨method, path, c, rest, htaken, rfl⟩ := httpParseRequestLine_accepts hr hret
    exact htaken.holdsLine_iff.2 fun h => hlax ⟨method, path, c, rest, htaken, h⟩

/-- The copy accepts what the parser accepts, if the length it returns is positive. -/
theorem Http.httpParseRequestLine_accepts {data : List UInt8} {r : Http.RequestLineResult}
    (h : Http.httpParseRequestLine data = .ok r) (hret : 0 ≤ r.ret) :
    ∃ method path c rest, TakenForLine data method path c rest ∧
      r = Http.recode (acceptedLine method path c) := by
  rw [Http.httpParseRequestLine_eq] at h
  cases hrun : Ryze.httpParseRequestLine data with
  | error e =>
      rw [hrun] at h
      cases h
  | ok r' =>
      rw [hrun] at h
      cases h
      rcases httpParseRequestLine_ret hrun with ⟨hzero, -⟩ | hone | hone
      · obtain ⟨method, path, c, rest, htaken, rfl⟩ := Ryze.httpParseRequestLine_accepts hrun hzero
        exact ⟨method, path, c, rest, htaken, rfl⟩
      · simp [Http.recode, hone] at hret
      · simp [Http.recode, hone] at hret

/-- The bytes counted by a length that was cut down are not the line the spans describe. -/
theorem TakenForLine.holdsLine_int_iff {data method path rest : List UInt8} {c : UInt8}
    (h : TakenForLine data method path c rest) {len : Nat}
    (hlen : len = method.length + path.length + 12) (hpos : 0 ≤ toInt32 len) :
    HoldsLine data (toInt32 len).toNat (acceptedLine method path c).line ↔
      ¬ (IsLax method path c ∨ 2147483648 ≤ len) := by
  constructor
  · intro hholds
    have hcut : (toInt32 len).toNat = len := by
      obtain ⟨method', path', d, -, hslice, hspans⟩ := hholds
      simp only [acceptedLine, Option.some.injEq, RequestLine.mk.injEq, Span.mk.injEq, true_and]
        at hspans
      obtain ⟨hmethod, ⟨-, hpath⟩, -⟩ := hspans
      unfold CLib.slice at hslice
      split at hslice
      · next hle =>
          rw [Nat.zero_add] at hle
          have hwire := congrArg List.length (Option.some.inj hslice)
          rw [requestLineWire_length, List.drop_zero, List.length_take, Nat.min_eq_left hle] at hwire
          rw [hwire, hlen, hmethod, hpath]
      · cases hslice
    obtain ⟨k, hk, hlo, hhi⟩ := toInt32_spec len
    rintro (hlax | hlong)
    · rw [hcut, hlen] at hholds
      exact h.holdsLine_iff.1 hholds hlax
    · omega
  · intro hnot
    have hshort : len < 2147483648 := by
      by_contra hge
      exact hnot (Or.inr (by omega))
    rw [toInt32_of_lt hshort, Int.toNat_natCast, hlen]
    exact h.holdsLine_iff.2 fun hlax => hnot (Or.inl hlax)

theorem Http.lineSound_iff (data : List UInt8) : Http.LineSound data ↔ ¬ Http.BeginsLax data := by
  have hrecode : ∀ method path c, (Http.recode (acceptedLine method path c)).ret
      = toInt32 (method.length + path.length + 12 : Nat) := by
    intro method path c
    simp only [Http.recode, acceptedLine, if_true]
  constructor
  · rintro hsound ⟨method, path, c, rest, htaken, hpos, hbad⟩
    have hrun : Http.httpParseRequestLine data
        = .ok (Http.recode (acceptedLine method path c)) := by
      rw [Http.httpParseRequestLine_eq, htaken.run]
      rfl
    have hholds := hsound _ hrun (by rw [hrecode]; exact hpos)
    rw [hrecode] at hholds
    exact (htaken.holdsLine_int_iff rfl hpos).1 hholds hbad
  · intro hlax r hr hret
    obtain ⟨method, path, c, rest, htaken, rfl⟩ := Http.httpParseRequestLine_accepts hr hret
    rw [hrecode] at hret ⊢
    exact (htaken.holdsLine_int_iff rfl hret).2 fun h =>
      hlax ⟨method, path, c, rest, htaken, hret, h⟩

/-- **Soundness of the request line.** What the parser accepts of a buffer is a request line exactly
    if the buffer does not begin with a lax one; the copy also has to return the line's length. -/
theorem httpParseRequestLine_sound (data : List UInt8) :
    (LineSound data ↔ ¬ BeginsLax data) ∧ (Http.LineSound data ↔ ¬ Http.BeginsLax data) :=
  ⟨lineSound_iff data, Http.lineSound_iff data⟩

/-- A word in front of a header line: both are taken for the method, the header's value for the
    path. -/
theorem httpParseRequestLine_lax :
    ¬ LineSound (bytes "GET\r\nHost: x HTTP/1.1\r\n") ∧
      ¬ Http.LineSound (bytes "GET\r\nHost: x HTTP/1.1\r\n") := by
  have htaken : TakenForLine (bytes "GET\r\nHost: x HTTP/1.1\r\n") (bytes "GET\r\nHost:")
      (bytes "x") 49 [] := by
    refine ⟨?_, ?_, by decide, by decide⟩
    · exact fun b hb => bne_iff_ne.1 (List.all_eq_true.1
        (show (bytes "GET\r\nHost:").all (· != SP) = true by decide) b hb)
    · exact fun b hb => bne_iff_ne.1 (List.all_eq_true.1
        (show (bytes "x").all (· != SP) = true by decide) b hb)
  have hlax : IsLax (bytes "GET\r\nHost:") (bytes "x") 49 :=
    Or.inr (Or.inr (Or.inl ⟨CR, by decide, Or.inl rfl⟩))
  rw [lineSound_iff, Http.lineSound_iff]
  refine ⟨fun h => h ⟨_, _, _, _, htaken, hlax⟩, fun h => h ⟨_, _, _, _, htaken, ?_, Or.inl hlax⟩⟩
  decide

end Ryze
