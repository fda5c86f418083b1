import Ryze.HttpParser.RequestLine
import Mathlib.Data.List.Induction

set_option autoImplicit false

/-! # `http_parse_header`

One round of the function's outer loop handles one line: find the colon and the CR LF behind it
(`scanLine`), store the header or fold the line into the last stored one (`headerLine`), and step to
the next line or stop at an empty one (`headerNext`). The inner scans have no end test, so they run
off the buffer where nothing stops them. Folding moves bytes inside the buffer, so the buffer is part
of the loop state. -/

namespace Ryze

open CLib

/-- `struct http_header`, its pointers as offsets. `value_len` is a `size_t` and may have wrapped. -/
structure HttpHeader where
  name : Nat
  nameLen : Nat
  value : Nat
  valueLen : Nat
deriving DecidableEq, Repr

/-- The bytes of a stored name and value, if both lie in the buffer. -/
def HttpHeader.text (data : List UInt8) (h : HttpHeader) : Option (List UInt8) × Option (List UInt8) :=
  (slice data h.name h.nameLen, slice data h.value h.valueLen)

/-- The variables of the outer loop; `headers` is `headers[0..i)`. -/
structure HeaderState where
  data : List UInt8
  p : Nat
  p1 : Nat
  headers : List HttpHeader
  readLen : Nat
deriving DecidableEq, Repr

/-- The return code, the buffer as it was left, `headers[0..*nheader)` and `*read_len`. -/
structure HeaderResult where
  ret : Int
  data : List UInt8
  headers : List HttpHeader
  readLen : Nat
deriving DecidableEq, Repr

/-! ## The inner loops -/

/-- `for(;; t++)` up to the first colon: its offset, and whether only token characters stand before
    it. -/
def colonLoop : List UInt8 → Nat → Bool → CRun (Nat × Bool)
  | [], _, _ => .error .read
  | c :: ds, t, isToken =>
    if isTokenChar c then colonLoop ds (t + 1) isToken
    else if c = colon then .ok (t, isToken)
    else colonLoop ds (t + 1) false

/-- Both scans of a line that starts at `p1`: `p2`, `is_token` and `p3`. The second one is
    `crlfLoop` without an end test. -/
def scanLine (data : List UInt8) (p1 : Nat) : CRun (Nat × Bool × Nat) := do
  let (p2, isToken) ← colonLoop (data.drop p1) p1 true
  match ← crlfLoop (data.drop p2) p2 with
  | some p3 => return (p2, isToken, p3)
  | none => throw .read

/-- `while(*t == ' ' || *t == '\t') t++;` -/
def skipBlanks : List UInt8 → Nat → CRun Nat
  | [], _ => .error .read
  | c :: ds, t => if isBlank c then skipBlanks ds (t + 1) else .ok t

/-- `while(*t == ' ' || *t == '\t') t--;` -/
def skipBlanksBack (data : List UInt8) : Nat → CRun Nat
  | 0 => do
    let c ← load data 0
    if isBlank c then throw .read else return 0
  | t + 1 => do
    let c ← load data (t + 1)
    if isBlank c then skipBlanksBack data t else return t + 1

/-! ## One line -/

/-- The header a line `p1 … p2 ':' … p3` is stored as. -/
def storeHeader (data : List UInt8) (p1 p2 p3 : Nat) : CRun HttpHeader := do
  let value ← skipBlanks (data.drop (p2 + 1)) (p2 + 1)
  let t ← skipBlanksBack data (p3 - 2)
  return { name := p1, nameLen := p2 - p1, value := value, valueLen := ptrDiff (t + 1) value }

/-- Line folding: append the line behind its first blank to the value of the last stored header. -/
def foldLine (data : List UInt8) (headers : List HttpHeader) (p1 p3 : Nat) :
    CRun (List UInt8 × List HttpHeader) :=
  match headers.getLast? with
  | none => return (data, headers)
  | some h =>
    let t := p1 + 1
    let len := toInt32 ((p3 : Int) - t - 1)
    if 0 < len then do
      let data ← memmove data (sizeAdd h.value h.valueLen) t len.toNat
      return (data, headers.dropLast ++ [{ h with valueLen := sizeAdd h.valueLen len.toNat }])
    else return (data, headers)

/-- What a line does to the buffer and to the stored headers. -/
def headerLine (maxHeader : Int) (data : List UInt8) (headers : List HttpHeader)
    (p1 p2 : Nat) (isToken : Bool) (p3 : Nat) : CRun (List UInt8 × List HttpHeader) := do
  let c ← load data p1
  if isBlank c then foldLine data headers p1 p3
  else if isToken ∧ (headers.length : Int) < maxHeader then do
    let h ← storeHeader data p1 p2 p3
    return (data, headers ++ [h])
  else return (data, headers)

/-- `t = ++p; …` behind a line that ends at `p3`: the next line's state, or the end of the
    headers. -/
def headerNext (data : List UInt8) (headers : List HttpHeader) (p1 p3 : Nat) :
    CRun (HeaderState ⊕ HeaderResult) :=
  let t := p3 + 1
  if t = data.length then return .inl ⟨data, t, p1, headers, t⟩
  else do
    let c ← load data t
    if c = CR then
      if t + 1 = data.length then return .inl ⟨data, t + 1, t, headers, t⟩
      else do
        let c' ← load data (t + 1)
        if c' = LF then return .inr ⟨0, data, headers, t + 2⟩
        else return .inl ⟨data, t + 1, t, headers, t⟩
    else return .inl ⟨data, t, t, headers, t⟩

/-- One round of `for(; p != end;)`. The scans set `p2` and `p3` or do not end, so `if(p3)` always
    takes its first branch and `p2` is never NULL in it. -/
def headerBody (maxHeader : Int) (s : HeaderState) : CRun (HeaderState ⊕ HeaderResult) :=
  if s.p = s.data.length then return .inr ⟨1, s.data, s.headers, s.readLen⟩
  else do
    let (p2, isToken, p3) ← scanLine s.data s.p1
    let (data, headers) ← headerLine maxHeader s.data s.headers s.p1 p2 isToken p3
    headerNext data headers s.p1 p3

/-- `http_parse_header(data, data_len, headers, max_header, …)`, on a `headers` array of at least
    `max_header` elements. -/
def httpParseHeader (data : List UInt8) (maxHeader : Int) : CRun HeaderResult :=
  cLoop (headerBody maxHeader) (data.length + 2) ⟨data, 0, 0, [], 0⟩

/-! ## The inner loops on well-formed input -/

theorem colonLoop_token (w rest : List UInt8) (hw : ∀ c ∈ w, isTokenChar c = true) (t : Nat)
    (b : Bool) : colonLoop (w ++ colon :: rest) t b = .ok (t + w.length, b) := by
  induction w generalizing t with
  | nil => simp [colonLoop, isTokenChar_colon]
  | cons c w ih =>
      rw [List.cons_append, colonLoop, if_pos (hw c (List.mem_cons_self ..)),
        ih (fun d hd => hw d (List.mem_cons_of_mem _ hd)), List.length_cons]
      congr 2
      omega

theorem colonLoop_found {ds : List UInt8} {t p2 : Nat} {b isToken : Bool}
    (h : colonLoop ds t b = .ok (p2, isToken)) :
    ∃ w rest, ds = w ++ colon :: rest ∧ p2 = t + w.length := by
  induction ds generalizing t b with
  | nil => simp [colonLoop] at h
  | cons c ds ih =>
      simp only [colonLoop] at h
      split at h
      · obtain ⟨w, rest, rfl, rfl⟩ := ih h
        exact ⟨c :: w, rest, rfl, by simp only [List.length_cons]; omega⟩
      · split at h
        · next hc =>
            cases h
            exact ⟨[], ds, by rw [hc]; rfl, rfl⟩
        · obtain ⟨w, rest, rfl, rfl⟩ := ih h
          exact ⟨c :: w, rest, rfl, by simp only [List.length_cons]; omega⟩

theorem skipBlanks_run (w rest : List UInt8) (c : UInt8) (hw : ∀ d ∈ w, isBlank d = true)
    (hc : isBlank c = false) (t : Nat) : skipBlanks (w ++ c :: rest) t = .ok (t + w.length) := by
  induction w generalizing t with
  | nil => simp [skipBlanks, hc]
  | cons d w ih =>
      rw [List.cons_append, skipBlanks, if_pos (hw d (List.mem_cons_self ..)),
        ih (fun e he => hw e (List.mem_cons_of_mem _ he)), List.length_cons]
      congr 1
      omega

/-- Going back over a run of blanks stops at the byte before it. -/
theorem skipBlanksBack_run (data w rest : List UInt8) (c : UInt8) (off : Nat)
    (hdrop : data.drop off = c :: (w ++ rest)) (hw : ∀ d ∈ w, isBlank d = true)
    (hc : isBlank c = false) : skipBlanksBack data (off + w.length) = .ok off := by
  induction w using List.reverseRecOn generalizing rest with
  | nil =>
      cases off with
      | zero => simp [skipBlanksBack, load_of_drop hdrop, hc]
      | succ off => simp [skipBlanksBack, load_of_drop hdrop, hc]
  | append_singleton w b ih =>
      have hb : isBlank b = true := hw b (by simp)
      have hlast : data.drop (off + w.length + 1) = b :: rest := by
        rw [show off + w.length + 1 = off + (w.length + 1) by omega, ← List.drop_drop, hdrop]
        simp
      rw [List.length_append, List.length_singleton, ← Nat.add_assoc, skipBlanksBack,
        load_of_drop hlast, ok_bind, if_pos hb]
      exact ih (b :: rest) (by simpa using hdrop) (fun d hd => hw d (by simp [hd]))

end Ryze
