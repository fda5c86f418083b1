import Ryze.HttpParser.Header

set_option autoImplicit false

/-! # Bytes behind a request head do not change how it is parsed

Two runs of `http_parse_header`, one on a buffer and one on the buffer with more bytes behind it, go
through the same rounds as long as the first one ends with 0: each scan that succeeded inside the
shorter buffer succeeds alike in the longer one, and each comparison with `end` comes out the same
way. The two buffers then differ only by the added bytes, also after folding. -/

namespace Ryze

open CLib

/-! ## The buffer keeps its length -/

theorem foldLine_length {data data' : List UInt8} {headers headers' : List HttpHeader} {p1 p3 : Nat}
    (h : foldLine data headers p1 p3 = .ok (data', headers')) : data'.length = data.length := by
  simp only [foldLine] at h
  split at h
  · cases h; rfl
  · split at h
    · obtain ⟨d, hd, h⟩ := bind_eq_ok.1 h
      cases h
      exact memmove_length hd
    · cases h; rfl

theorem headerLine_length {maxHeader : Int} {data data' : List UInt8}
    {headers headers' : List HttpHeader} {p1 p2 p3 : Nat} {isToken : Bool}
    (h : headerLine maxHeader data headers p1 p2 isToken p3 = .ok (data', headers')) :
    data'.length = data.length := by
  simp only [headerLine] at h
  obtain ⟨c, _, h⟩ := bind_eq_ok.1 h
  split at h
  · exact foldLine_length h
  · split at h
    · obtain ⟨hd, _, h⟩ := bind_eq_ok.1 h
      cases h; rfl
    · cases h; rfl

/-- What stepping to the next line can do: go on with the same buffer and `p` inside it, or return
    0. -/
theorem headerNext_cases {data : List UInt8} {headers : List HttpHeader} {p1 p3 : Nat}
    {r : HeaderState ⊕ HeaderResult} (h : headerNext data headers p1 p3 = .ok r)
    (hp3 : p3 < data.length) :
    (∃ p p1', r = .inl ⟨data, p, p1', headers, p3 + 1⟩ ∧ p ≤ data.length ∧
      (p1' = p1 ∧ p = data.length ∨ p1' = p3 + 1)) ∨ r = .inr ⟨0, data, headers, p3 + 3⟩ := by
  simp only [headerNext] at h
  split at h
  · next ht =>
      cases h
      exact Or.inl ⟨_, _, rfl, by omega, Or.inl ⟨rfl, ht⟩⟩
  · obtain ⟨c, _, h⟩ := bind_eq_ok.1 h
    split at h
    · split at h
      · cases h
        exact Or.inl ⟨_, _, rfl, by omega, Or.inr rfl⟩
      · obtain ⟨c', hc', h⟩ := bind_eq_ok.1 h
        split at h
        · cases h
          exact Or.inr rfl
        · cases h
          exact Or.inl ⟨_, _, rfl, by omega, Or.inr rfl⟩
    · cases h
      exact Or.inl ⟨_, _, rfl, by omega, Or.inr rfl⟩

/-! ## One line with more bytes behind the buffer -/

section Append

variable {data tail : List UInt8}

/-- What the two scans of a line find: a colon, and a CR LF at or behind it. -/
theorem scanLine_bounds {p1 p2 p3 : Nat} {isToken : Bool}
    (h : scanLine data p1 = .ok (p2, isToken, p3)) : p1 ≤ p2 ∧ p2 + 2 ≤ p3 ∧ p3 < data.length := by
  simp only [scanLine] at h
  obtain ⟨⟨q2, b⟩, hcolon, h⟩ := bind_eq_ok.1 h
  obtain ⟨lf, hlf, h⟩ := bind_eq_ok.1 h
  cases lf with
  | none => simp at h
  | some q3 =>
      cases h
      obtain ⟨w, rest, hw, rfl⟩ := colonLoop_found hcolon
      obtain ⟨line, rest', hline, rfl⟩ := crlfLoop_found hlf
      have hcolon' : data.drop (p1 + w.length) = colon :: rest := drop_add_of_drop hw
      -- the colon itself is part of the line the second scan walks over
      have hne : line ≠ [] := by
        rintro rfl
        rw [hcolon'] at hline
        exact absurd (List.cons.inj hline).1 (by decide)
      have hpos := List.length_pos_of_ne_nil hne
      have hlen : data.length - (p1 + w.length) = line.length + (rest'.length + 2) := by
        rw [← List.length_drop, hline]
        simp
      exact ⟨by omega, by omega, by omega⟩

theorem colonLoop_append {ds : List UInt8} {t : Nat} {b : Bool} {r : Nat × Bool}
    (h : colonLoop ds t b = .ok r) : colonLoop (ds ++ tail) t b = .ok r := by
  induction ds generalizing t b with
  | nil => simp [colonLoop] at h
  | cons c ds ih =>
      simp only [List.cons_append, colonLoop] at h ⊢
      split
      · next hc =>
          rw [if_pos hc] at h
          exact ih h
      · next hc =>
          rw [if_neg hc] at h
          split
          · next hcolon => rwa [if_pos hcolon] at h
          · next hcolon =>
              rw [if_neg hcolon] at h
              exact ih h

theorem scanLine_append {p1 p2 p3 : Nat} {isToken : Bool}
    (h : scanLine data p1 = .ok (p2, isToken, p3)) :
    scanLine (data ++ tail) p1 = .ok (p2, isToken, p3) := by
  have hb := scanLine_bounds h
  simp only [scanLine] at h ⊢
  obtain ⟨⟨q2, b⟩, hcolon, h⟩ := bind_eq_ok.1 h
  obtain ⟨lf, hlf, h⟩ := bind_eq_ok.1 h
  rw [List.drop_append_of_le_length (by omega), colonLoop_append hcolon, ok_bind]
  cases lf with
  | none => simp at h
  | some q3 =>
      cases h
      rw [List.drop_append_of_le_length (by omega), crlfLoop_append hlf, ok_bind]
      rfl

theorem skipBlanks_append {ds : List UInt8} {t r : Nat} (h : skipBlanks ds t = .ok r) :
    skipBlanks (ds ++ tail) t = .ok r := by
  induction ds generalizing t with
  | nil => simp [skipBlanks] at h
  | cons c ds ih =>
      simp only [List.cons_append, skipBlanks] at h ⊢
      split
      · next hc =>
          rw [if_pos hc] at h
          exact ih h
      · next hc => rwa [if_neg hc] at h

theorem skipBlanksBack_append {t r : Nat} (h : skipBlanksBack data t = .ok r) :
    skipBlanksBack (data ++ tail) t = .ok r := by
  induction t with
  | zero =>
      simp only [skipBlanksBack] at h ⊢
      obtain ⟨c, hc, h⟩ := bind_eq_ok.1 h
      rwa [load_append_left hc, ok_bind]
  | succ t ih =>
      simp only [skipBlanksBack] at h ⊢
      obtain ⟨c, hc, h⟩ := bind_eq_ok.1 h
      rw [load_append_left hc, ok_bind]
      split
      · next hb =>
          rw [if_pos hb] at h
          exact ih h
      · next hb => rwa [if_neg hb] at h

theorem storeHeader_append {p1 p2 p3 : Nat} {r : HttpHeader} (hp2 : p2 < data.length)
    (h : storeHeader data p1 p2 p3 = .ok r) : storeHeader (data ++ tail) p1 p2 p3 = .ok r := by
  simp only [storeHeader] at h ⊢
  obtain ⟨v, hv, h⟩ := bind_eq_ok.1 h
  obtain ⟨t, ht, h⟩ := bind_eq_ok.1 h
  rw [List.drop_append_of_le_length (by omega), skipBlanks_append hv, ok_bind,
    skipBlanksBack_append ht, ok_bind]
  exact h

theorem foldLine_append {headers headers' : List HttpHeader} {data' : List UInt8} {p1 p3 : Nat}
    (h : foldLine data headers p1 p3 = .ok (data', headers')) :
    foldLine (data ++ tail) headers p1 p3 = .ok (data' ++ tail, headers') := by
  simp only [foldLine] at h ⊢
  split at h
  · next hlast =>
      cases h
      rfl
  · next x hlast =>
      split at h
      · next hlen =>
          obtain ⟨d, hd, h⟩ := bind_eq_ok.1 h
          cases h
          simp only [if_pos hlen, memmove_append hd, ok_bind, pure_eq_ok]
      · next hlen =>
          cases h
          simp only [if_neg hlen, pure_eq_ok]

theorem headerLine_append {maxHeader : Int} {headers headers' : List HttpHeader}
    {data' : List UInt8} {p1 p2 p3 : Nat} {isToken : Bool} (hp2 : p2 < data.length)
    (h : headerLine maxHeader data headers p1 p2 isToken p3 = .ok (data', headers')) :
    headerLine maxHeader (data ++ tail) headers p1 p2 isToken p3 = .ok (data' ++ tail, headers') := by
  simp only [headerLine] at h ⊢
  obtain ⟨c, hc, h⟩ := bind_eq_ok.1 h
  rw [load_append_left hc, ok_bind]
  split
  · next hblank =>
      rw [if_pos hblank] at h
      exact foldLine_append h
  · next hblank =>
      rw [if_neg hblank] at h
      split
      · next hstore =>
          rw [if_pos hstore] at h
          obtain ⟨x, hx, h⟩ := bind_eq_ok.1 h
          cases h
          rw [storeHeader_append hp2 hx, ok_bind]
          rfl
      · next hstore =>
          rw [if_neg hstore] at h
          cases h
          rfl

end Append

/-! ## One round -/

/-- The same state on a buffer with more bytes behind it. -/
def HeaderState.extend (s : HeaderState) (tail : List UInt8) : HeaderState :=
  { s with data := s.data ++ tail }

/-- The same result on a buffer with more bytes behind it. -/
def HeaderResult.extend (r : HeaderResult) (tail : List UInt8) : HeaderResult :=
  { r with data := r.data ++ tail }

/-- A step to the next line that does not stop at `end` is the same step on the longer buffer. -/
theorem headerNext_append {data tail : List UInt8} {headers : List HttpHeader} {p1 p3 : Nat}
    {r : HeaderState ⊕ HeaderResult} (h : headerNext data headers p1 p3 = .ok r)
    (hp3 : p3 < data.length) (hgo : ∀ s, r = .inl s → s.p ≠ data.length) :
    headerNext (data ++ tail) headers p1 p3
      = .ok (r.map (HeaderState.extend · tail) (HeaderResult.extend · tail)) := by
  simp only [headerNext] at h ⊢
  have hlen : (data ++ tail).length = data.length + tail.length := List.length_append
  split at h
  · next ht =>
      cases h
      exact absurd ht (hgo _ rfl)
  · next ht =>
      obtain ⟨c, hc, h⟩ := bind_eq_ok.1 h
      rw [if_neg (by omega), load_append_left hc, ok_bind]
      split at h
      · next hcr =>
          rw [if_pos hcr]
          split at h
          · next ht' =>
              cases h
              exact absurd ht' (hgo _ rfl)
          · next ht' =>
              obtain ⟨c', hc', h⟩ := bind_eq_ok.1 h
              rw [if_neg (by omega), load_append_left hc', ok_bind]
              split at h
              · next hlf =>
                  cases h
                  rw [if_pos hlf]
                  rfl
              · next hlf =>
                  cases h
                  rw [if_neg hlf]
                  rfl
      · next hcr =>
          cases h
          rw [if_neg hcr]
          rfl

/-- The three parts of a round that did not start at `end`. -/
theorem headerBody_parts {maxHeader : Int} {s : HeaderState} {r : HeaderState ⊕ HeaderResult}
    (h : headerBody maxHeader s = .ok r) (hp : s.p ≠ s.data.length) :
    ∃ p2 isToken p3 data headers, scanLine s.data s.p1 = .ok (p2, isToken, p3) ∧
      headerLine maxHeader s.data s.headers s.p1 p2 isToken p3 = .ok (data, headers) ∧
      headerNext data headers s.p1 p3 = .ok r := by
  rw [headerBody, if_neg hp] at h
  obtain ⟨⟨p2, isToken, p3⟩, hscan, h⟩ := bind_eq_ok.1 h
  obtain ⟨⟨data, headers⟩, hline, h⟩ := bind_eq_ok.1 h
  exact ⟨p2, isToken, p3, data, headers, hscan, hline, h⟩

theorem headerBody_of_parts {maxHeader : Int} {s : HeaderState} {r : HeaderState ⊕ HeaderResult}
    {p2 p3 : Nat} {isToken : Bool} {data : List UInt8} {headers : List HttpHeader}
    (hp : s.p ≠ s.data.length) (hscan : scanLine s.data s.p1 = .ok (p2, isToken, p3))
    (hline : headerLine maxHeader s.data s.headers s.p1 p2 isToken p3 = .ok (data, headers))
    (hnext : headerNext data headers s.p1 p3 = .ok r) : headerBody maxHeader s = .ok r := by
  simp only [headerBody, if_neg hp, hscan, ok_bind, hline, hnext]

/-- A round that goes on keeps the buffer's length and leaves `p` inside the buffer. -/
theorem headerBody_next {maxHeader : Int} {s s' : HeaderState}
    (h : headerBody maxHeader s = .ok (.inl s')) :
    s'.data.length = s.data.length ∧ s'.p ≤ s'.data.length := by
  have hp : s.p ≠ s.data.length := by
    intro hp
    rw [headerBody, if_pos hp] at h
    simp at h
  obtain ⟨p2, isToken, p3, data, headers, hscan, hline, hnext⟩ := headerBody_parts h hp
  have hlen := headerLine_length hline
  have hp3 : p3 < data.length := by rw [hlen]; exact (scanLine_bounds hscan).2.2
  rcases headerNext_cases hnext hp3 with ⟨p, p1', hs', hle, _⟩ | hr
  · cases hs'
    exact ⟨hlen, hle⟩
  · cases hr

theorem headerBody_exit_length {maxHeader : Int} {s : HeaderState} {r : HeaderResult}
    (h : headerBody maxHeader s = .ok (.inr r)) : r.data.length = s.data.length := by
  by_cases hp : s.p = s.data.length
  · rw [headerBody, if_pos hp] at h
    cases h
    rfl
  · obtain ⟨p2, isToken, p3, data, headers, hscan, hline, hnext⟩ := headerBody_parts h hp
    have hlen := headerLine_length hline
    have hp3 : p3 < data.length := by rw [hlen]; exact (scanLine_bounds hscan).2.2
    rcases headerNext_cases hnext hp3 with ⟨p, p1', hs', _, _⟩ | hr
    · cases hs'
    · cases hr
      exact hlen

/-- A round on the longer buffer, as long as the shorter one is not used up. -/
theorem headerBody_append {maxHeader : Int} {s : HeaderState} {tail : List UInt8}
    {r : HeaderState ⊕ HeaderResult} (h : headerBody maxHeader s = .ok r)
    (hp : s.p < s.data.length) (hgo : ∀ s', r = .inl s' → s'.p ≠ s'.data.length) :
    headerBody maxHeader (s.extend tail)
      = .ok (r.map (HeaderState.extend · tail) (HeaderResult.extend · tail)) := by
  obtain ⟨p2, isToken, p3, data, headers, hscan, hline, hnext⟩ := headerBody_parts h (by omega)
  obtain ⟨hp12, hp23, hp3⟩ := scanLine_bounds hscan
  have hlen := headerLine_length hline
  refine headerBody_of_parts ?_ (scanLine_append hscan) (headerLine_append (by omega) hline)
    (headerNext_append hnext (by omega) ?_)
  · show s.p ≠ (s.data ++ tail).length
    rw [List.length_append]
    omega
  · rintro s' rfl
    have hs' := hgo s' rfl
    rw [(headerBody_next h).1, ← hlen] at hs'
    exact hs'

/-! ## Whole runs -/

/-- A loop that starts at `end` has nothing left to read and returns 1. -/
theorem headerLoop_at_end {maxHeader : Int} {n : Nat} {s : HeaderState} {r : HeaderResult}
    (hp : s.p = s.data.length) (h : cLoop (headerBody maxHeader) n s = .ok r) : r.ret = 1 := by
  have hbody : headerBody maxHeader s = .ok (.inr ⟨1, s.data, s.headers, s.readLen⟩) := by
    rw [headerBody, if_pos hp]
    rfl
  obtain ⟨m, rfl, _⟩ := cLoop_ok_cases h
  rw [cLoop_exit hbody] at h
  cases h
  rfl

/-- The rest of a run that returns 0, with more bytes behind the buffer. The induction is on the
    rounds; a round that reached `end` would have made the run return 1. -/
theorem headerLoop_append {maxHeader : Int} {n : Nat} {s : HeaderState} {r : HeaderResult}
    (tail : List UInt8) (hp : s.p ≤ s.data.length) (h : cLoop (headerBody maxHeader) n s = .ok r)
    (hret : r.ret = 0) :
    cLoop (headerBody maxHeader) n (s.extend tail) = .ok (r.extend tail) := by
  induction n generalizing s with
  | zero => simp [cLoop] at h
  | succ n ih =>
      have hlt : s.p < s.data.length := by
        refine Nat.lt_of_le_of_ne hp fun hend => ?_
        have hone := headerLoop_at_end hend h
        omega
      obtain ⟨m, hm, hcase⟩ := cLoop_ok_cases h
      obtain rfl : n = m := by omega
      rcases hcase with hexit | ⟨s', hnext, hrest⟩
      · exact cLoop_exit (headerBody_append hexit hlt (by simp)) n
      · have hgo : ∀ t, (.inl s' : HeaderState ⊕ HeaderResult) = .inl t → t.p ≠ t.data.length := by
          rintro t ht hend
          cases ht
          have hone := headerLoop_at_end hend hrest
          omega
        rw [cLoop_next (headerBody_append hnext hlt hgo)]
        exact ih (headerBody_next hnext).2 hrest

/-- `http_parse_header` gives back a buffer of the same length. -/
theorem httpParseHeader_length {data : List UInt8} {maxHeader : Int} {r : HeaderResult}
    (h : httpParseHeader data maxHeader = .ok r) : r.data.length = data.length :=
  cLoop_invariant (fun s => s.data.length = data.length) (fun r => r.data.length = data.length)
    (fun _ _ hs hnext => (headerBody_next hnext).1.trans hs)
    (fun _ _ hs hexit => (headerBody_exit_length hexit).trans hs) rfl h

theorem httpParseHeader_append {data : List UInt8} {maxHeader : Int} {r : HeaderResult}
    (h : httpParseHeader data maxHeader = .ok r) (hret : r.ret = 0) (tail : List UInt8) :
    httpParseHeader (data ++ tail) maxHeader = .ok (r.extend tail) :=
  cLoop_mono (by rw [List.length_append]; omega)
    (headerLoop_append tail (Nat.zero_le _) h hret) (by simp)

/-- **Prefix stability.** A request line that is accepted or refused inside `D` is accepted or refused
    alike on `D ++ S`; headers that are complete inside `H` are parsed to the same names, values and
    length on `H ++ S`, with the same final contents of `H` and with `S` left as it was. -/
theorem httpParse_prefixStable :
    (∀ (D S : List UInt8) (r : RequestLineResult), httpParseRequestLine D = .ok r →
      r.ret = 0 ∨ r.ret = -1 →
      ∃ r', httpParseRequestLine (D ++ S) = .ok r' ∧ r'.ret = r.ret ∧ r'.line = r.line ∧
        r'.readLen = r.readLen) ∧
    (∀ (H S : List UInt8) (maxHeader : Int) (r : HeaderResult),
      httpParseHeader H maxHeader = .ok r → r.ret = 0 →
      ∃ r', httpParseHeader (H ++ S) maxHeader = .ok r' ∧ r'.ret = 0 ∧ r'.headers = r.headers ∧
        r'.readLen = r.readLen ∧ r'.data.take H.length = r.data ∧ r'.data.drop H.length = S) := by
  refine ⟨fun D S r h hret => ⟨r, httpParseRequestLine_append D S r h hret, rfl, rfl, rfl⟩, ?_⟩
  intro H S maxHeader r h hret
  have hlen := httpParseHeader_length h
  refine ⟨r.extend S, httpParseHeader_append h hret S, hret, rfl, rfl, ?_, ?_⟩
  · exact List.take_left' hlen
  · exact List.drop_left' hlen

/-- A request line and folded headers with a second request behind them. -/
theorem httpParse_prefixStable_pipelined :
    (∃ r, httpParseRequestLine (bytes "GET / HTTP/1.1\r\n" ++ bytes "GET") = .ok r ∧ r.ret = 0 ∧
      r.readLen = 16) ∧
    (∃ r, httpParseHeader (bytes "a: b\r\n  c:\r\n\r\n" ++ bytes "GET") 8 = .ok r ∧ r.ret = 0 ∧
      r.headers = [⟨0, 1, 3, 4⟩] ∧ r.data.drop 14 = bytes "GET") := by
  have hline : httpParseRequestLine (bytes "GET / HTTP/1.1\r\n")
      = .ok ⟨0, some ⟨⟨0, 3⟩, ⟨4, 1⟩, 1⟩, 16⟩ := by decide +kernel
  have hheader : httpParseHeader (bytes "a: b\r\n  c:\r\n\r\n") 8
      = .ok ⟨0, bytes "a: b c: c:\r\n\r\n", [⟨0, 1, 3, 4⟩], 14⟩ := by decide +kernel
  obtain ⟨r, hr, hret, -, hread⟩ := httpParse_prefixStable.1 _ (bytes "GET") _ hline (Or.inl rfl)
  obtain ⟨q, hq, hret', hheaders, -, -, htail⟩ :=
    httpParse_prefixStable.2 _ (bytes "GET") 8 _ hheader rfl
  exact ⟨⟨r, hr, hret, hread⟩, ⟨q, hq, hret', hheaders, htail⟩⟩

end Ryze
