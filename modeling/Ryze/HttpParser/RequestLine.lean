import Ryze.HttpParser.Basic
import Mathlib.Tactic.IntervalCases

set_option autoImplicit false

/-! # `http_parse_request_line`

The function records the first two spaces of the buffer and the first CR LF behind the second one,
then checks that what lies between is as long as ` HTTP/1.d` CR LF. The results here are its value on
a well-formed line (`httpParseRequestLine_wire`) and its independence of what follows a line it
decided about (`httpParseRequestLine_append`). -/

namespace Ryze

open CLib

/-- A `char *` into the buffer with its length. -/
structure Span where
  off : Nat
  len : Nat
deriving DecidableEq, Repr

/-- The bytes of a span, if it lies in the buffer. -/
def Span.text (data : List UInt8) (s : Span) : Option (List UInt8) := slice data s.off s.len

/-- What `http_parse_request_line` stores through `method`, `path` and `minor_version`. -/
structure RequestLine where
  method : Span
  path : Span
  minorVersion : Int
deriving DecidableEq, Repr

/-- The return code, the stored results (`none` where nothing is stored) and `*read_len`. -/
structure RequestLineResult where
  ret : Int
  line : Option RequestLine
  readLen : Nat
deriving DecidableEq, Repr

/-- The first loop: record the positions of spaces in `pos`, stop at the second one. -/
def spaceLoop : List UInt8 → Nat → List Nat → List Nat × Nat
  | [], p, pos => (pos, p)
  | c :: ds, p, pos =>
    if c = SP then
      if (pos ++ [p]).length = 2 then (pos ++ [p], p) else spaceLoop ds (p + 1) (pos ++ [p])
    else spaceLoop ds (p + 1) pos

/-- `http_parse_request_line(data, data_len, …)`. -/
def httpParseRequestLine (data : List UInt8) : CRun RequestLineResult :=
  let (pos, p) := spaceLoop data 0 []
  do
    let lf ← crlfLoop (data.drop p) p
    match pos, lf with
    | [pos0, pos1], some pos2 =>
      -- " HTTP/1.1\r\n"
      if pos2 - pos1 ≠ 10 then return { ret := -1, line := none, readLen := 0 }
      else do
        let http ← matchesAt data (bytes "HTTP/1.") (pos1 + 1)
        if http then do
          let d ← load data (pos1 + 8)
          return {
            ret := 0
            line := some {
              method := ⟨0, pos0⟩
              path := ⟨pos0 + 1, pos1 - (pos0 + 1)⟩
              minorVersion := schar d - 48 }
            readLen := pos2 + 1 }
        else return { ret := -1, line := none, readLen := 0 }
    | _, _ => return { ret := 1, line := none, readLen := 0 }

/-! ## The space loop -/

theorem spaceLoop_skip (w ds : List UInt8) (hw : ∀ c ∈ w, c ≠ SP) (p : Nat) (pos : List Nat) :
    spaceLoop (w ++ ds) p pos = spaceLoop ds (p + w.length) pos := by
  induction w generalizing p with
  | nil => rfl
  | cons c w ih =>
      rw [List.cons_append, spaceLoop, if_neg (hw c (List.mem_cons_self ..)),
        ih (fun d hd => hw d (List.mem_cons_of_mem _ hd)), List.length_cons]
      congr 1
      omega

theorem spaceLoop_le (ds : List UInt8) (p : Nat) (pos : List Nat) :
    (spaceLoop ds p pos).2 ≤ p + ds.length := by
  induction ds generalizing p pos with
  | nil => simp [spaceLoop]
  | cons c ds ih =>
      simp only [spaceLoop, List.length_cons]
      split
      · split
        · simp
        · have := ih (p + 1) (pos ++ [p]); omega
      · have := ih (p + 1) pos; omega

/-- Once both spaces are found, more bytes at the end change nothing. -/
theorem spaceLoop_append (ds s : List UInt8) (p : Nat) (pos : List Nat) (hpos : pos.length < 2)
    (h : (spaceLoop ds p pos).1.length = 2) :
    spaceLoop (ds ++ s) p pos = spaceLoop ds p pos := by
  induction ds generalizing p pos with
  | nil => simp only [spaceLoop] at h; omega
  | cons c ds ih =>
      simp only [List.cons_append, spaceLoop] at h ⊢
      by_cases hc : c = SP
      · rw [if_pos hc] at h ⊢
        by_cases h2 : (pos ++ [p]).length = 2
        · rw [if_pos h2, if_pos hc, if_pos h2]
        · rw [if_neg h2] at h ⊢
          rw [if_pos hc, if_neg h2]
          have hone : (pos ++ [p]).length < 2 := by
            rw [List.length_append, List.length_singleton] at h2 ⊢
            omega
          exact ih (p + 1) (pos ++ [p]) hone h
      · rw [if_neg hc] at h ⊢
        rw [if_neg hc]
        exact ih (p + 1) pos hpos h

/-! ## A well-formed line -/

/-- `method SP path SP HTTP/1.d CR LF`. -/
def requestLineWire (method path : List UInt8) (d : Nat) : List UInt8 :=
  method ++ SP :: (path ++ SP :: (bytes "HTTP/1." ++ [UInt8.ofNat (48 + d), CR, LF]))

theorem requestLineWire_length (method path : List UInt8) (d : Nat) :
    (requestLineWire method path d).length = method.length + path.length + 12 := by
  have : (bytes "HTTP/1.").length = 7 := by rfl
  simp only [requestLineWire, List.length_append, List.length_cons, List.length_nil, this]
  omega

theorem schar_digit {d : Nat} (hd : d < 10) : schar (UInt8.ofNat (48 + d)) - 48 = d := by
  have h : (UInt8.ofNat (48 + d)).toNat = 48 + d := by
    rw [UInt8.toNat_ofNat']
    omega
  rw [schar, h, if_pos (by omega)]
  omega

/-- Both spaces of a well-formed line are found, the second one behind the path. -/
theorem spaceLoop_wire (method path rest : List UInt8) (d : Nat) (hmethod : ∀ c ∈ method, c ≠ SP)
    (hpath : ∀ c ∈ path, c ≠ SP) :
    spaceLoop (requestLineWire method path d ++ rest) 0 []
      = ([method.length, method.length + 1 + path.length], method.length + 1 + path.length) := by
  rw [requestLineWire, List.append_assoc, spaceLoop_skip _ _ hmethod]
  simp only [List.cons_append, spaceLoop, if_true]
  rw [List.nil_append, if_neg (by simp), List.append_assoc, spaceLoop_skip _ _ hpath]
  simp [spaceLoop]

/-- The memory from the second space of a well-formed line on. -/
theorem requestLineWire_drop (method path rest : List UInt8) (d : Nat) :
    (requestLineWire method path d ++ rest).drop (method.length + 1 + path.length)
      = (SP :: (bytes "HTTP/1." ++ [UInt8.ofNat (48 + d)])) ++ CR :: LF :: rest := by
  have hlen : method.length + 1 + path.length = (method ++ SP :: path).length := by
    simp only [List.length_append, List.length_cons]; omega
  rw [hlen, requestLineWire, show method ++ SP :: (path ++ SP :: (bytes "HTTP/1." ++
    [UInt8.ofNat (48 + d), CR, LF])) ++ rest = (method ++ SP :: path) ++ ((SP ::
    (bytes "HTTP/1." ++ [UInt8.ofNat (48 + d)])) ++ CR :: LF :: rest) by simp, List.drop_left]

/-- On a well-formed line, whatever follows, the parser returns its three parts. -/
theorem httpParseRequestLine_wire (method path rest : List UInt8) (d : Nat) (hd : d < 10)
    (hmethod : ∀ c ∈ method, c ≠ SP) (hpath : ∀ c ∈ path, c ≠ SP) :
    httpParseRequestLine (requestLineWire method path d ++ rest) = .ok {
      ret := 0
      line := some {
        method := ⟨0, method.length⟩
        path := ⟨method.length + 1, path.length⟩
        minorVersion := d }
      readLen := (requestLineWire method path d).length } := by
  have hdrop := requestLineWire_drop method path rest d
  have hlit : ∀ c ∈ SP :: (bytes "HTTP/1." ++ [UInt8.ofNat (48 + d)]), c ≠ CR := by
    have hall : (SP :: (bytes "HTTP/1." ++ [UInt8.ofNat (48 + d)])).all (· != CR) = true := by
      interval_cases d <;> decide
    exact fun c hc => bne_iff_ne.1 (List.all_eq_true.1 hall c hc)
  have hhttp : (requestLineWire method path d ++ rest).drop (method.length + 1 + path.length + 1)
      = bytes "HTTP/1." ++ (UInt8.ofNat (48 + d) :: CR :: LF :: rest) := by
    rw [← List.drop_drop, hdrop]
    simp
  have hdigit : (requestLineWire method path d ++ rest).drop (method.length + 1 + path.length + 8)
      = UInt8.ofNat (48 + d) :: CR :: LF :: rest := by
    rw [← List.drop_drop, hdrop]
    rfl
  have hlitlen : (SP :: (bytes "HTTP/1." ++ [UInt8.ofNat (48 + d)])).length = 9 := by rfl
  simp only [httpParseRequestLine, spaceLoop_wire _ _ _ _ hmethod hpath, hdrop,
    crlfLoop_of_line _ _ hlit, hlitlen, ok_bind, matchesAt_of_drop _ _ _ _ hhttp,
    load_of_drop hdigit, schar_digit hd, requestLineWire_length, pure_eq_ok]
  rw [if_neg (by omega), if_pos trivial, Nat.add_sub_cancel_left,
    show method.length + 1 + path.length + 9 + 1 + 1 = method.length + path.length + 12 by omega]

/-! ## Prefix stability -/

/-- A line the parser accepted or refused inside the buffer is accepted or refused alike, with the
    same results, when more bytes follow. -/
theorem httpParseRequestLine_append (data s : List UInt8) (r : RequestLineResult)
    (h : httpParseRequestLine data = .ok r) (hret : r.ret = 0 ∨ r.ret = -1) :
    httpParseRequestLine (data ++ s) = .ok r := by
  simp only [httpParseRequestLine] at h ⊢
  obtain ⟨lf, hlf, h⟩ := bind_eq_ok.1 h
  split at h
  · next pos0 pos1 pos2 hpos =>
      have hspaces : spaceLoop (data ++ s) 0 [] = spaceLoop data 0 [] :=
        spaceLoop_append data s 0 [] (by simp) (by rw [hpos]; rfl)
      have hp : (spaceLoop data 0 []).2 ≤ data.length := by simpa using spaceLoop_le data 0 []
      rw [hspaces, List.drop_append_of_le_length hp, crlfLoop_append hlf, ok_bind, hpos]
      simp only
      split
      · next hlen => rwa [if_pos hlen] at h
      · next hlen =>
          rw [if_neg hlen] at h
          obtain ⟨http, hhttp, h⟩ := bind_eq_ok.1 h
          rw [matchesAt_append hhttp s, ok_bind]
          split
          · next ht =>
              rw [if_pos ht] at h
              obtain ⟨d, hd, h⟩ := bind_eq_ok.1 h
              rw [load_append_left hd s, ok_bind]
              exact h
          · next ht => rwa [if_neg ht] at h
  · cases h
    simp at hret

end Ryze
