import Ryze.HttpParser.Header

set_option autoImplicit false

/-! # `http_parse_header` on well-formed header lines

A `HeaderField` is a header line `name ':' blanks value blanks CR LF` that carries the proofs of its
own shape. The body of the outer loop stores such a line (`headerBody_field`, `headerBody_last`), and
by induction over the lines the whole call stores as many of them as fit
(`httpParseHeader_wire`). -/

namespace Ryze

open CLib

/-- A header line with its blanks, as a sender may write it. -/
structure HeaderField where
  name : List UInt8
  pre : List UInt8
  value : List UInt8
  post : List UInt8
  name_ne : name ≠ []
  name_token : ∀ c ∈ name, isTokenChar c = true
  pre_blank : ∀ c ∈ pre, isBlank c = true
  post_blank : ∀ c ∈ post, isBlank c = true
  value_ne : value ≠ []
  value_line : ∀ c ∈ value, c ≠ CR ∧ c ≠ LF
  value_first : ∀ c ∈ value.head?, isBlank c = false
  value_last : ∀ c ∈ value.getLast?, isBlank c = false

namespace HeaderField

/-- The line without its CR LF. -/
def line (f : HeaderField) : List UInt8 := f.name ++ colon :: (f.pre ++ f.value ++ f.post)

/-- The bytes of the line on the wire. -/
def wire (f : HeaderField) : List UInt8 := f.line ++ [CR, LF]

theorem line_length (f : HeaderField) :
    f.line.length = f.name.length + 1 + f.pre.length + f.value.length + f.post.length := by
  simp only [line, List.length_append, List.length_cons]
  omega

theorem wire_length (f : HeaderField) : f.wire.length = f.line.length + 2 := by
  simp [wire]

theorem line_ne_cr (f : HeaderField) : ∀ c ∈ f.line, c ≠ CR := by
  intro c hc
  simp only [line, List.mem_append, List.mem_cons] at hc
  rcases hc with hname | rfl | (hpre | hvalue) | hpost
  · exact ne_cr_of_token (f.name_token c hname)
  · decide
  · exact ne_cr_of_blank (f.pre_blank c hpre)
  · exact (f.value_line c hvalue).1
  · exact ne_cr_of_blank (f.post_blank c hpost)

/-- The first byte of a line is a token character. -/
theorem line_head (f : HeaderField) : ∃ c rest, f.line = c :: rest ∧ isTokenChar c = true := by
  obtain ⟨c, rest, hname⟩ := List.exists_cons_of_ne_nil f.name_ne
  refine ⟨c, rest ++ colon :: (f.pre ++ f.value ++ f.post), ?_, ?_⟩
  · rw [line, hname, List.cons_append]
  · exact f.name_token c (by rw [hname]; exact List.mem_cons_self ..)

/-- What `http_parse_header` stores for a line at offset `p1`. -/
def stored (p1 : Nat) (f : HeaderField) : HttpHeader where
  name := p1
  nameLen := f.name.length
  value := p1 + f.name.length + 1 + f.pre.length
  valueLen := f.value.length

end HeaderField

/-! ## One line -/

section Line

variable {data next : List UInt8} {p1 : Nat} {f : HeaderField}

/-- The memory at the end of the colon scan of a line. -/
private theorem drop_colon (h : data.drop p1 = f.wire ++ next) :
    data.drop (p1 + f.name.length)
      = (colon :: (f.pre ++ f.value ++ f.post)) ++ CR :: LF :: next := by
  rw [← List.drop_drop, h, HeaderField.wire, HeaderField.line]
  simp

theorem scanLine_field (h : data.drop p1 = f.wire ++ next) :
    scanLine data p1 = .ok (p1 + f.name.length, true, p1 + f.line.length + 1) := by
  have hcolon : colonLoop (data.drop p1) p1 true = .ok (p1 + f.name.length, true) := by
    rw [h, show f.wire ++ next = f.name ++ colon :: (f.pre ++ f.value ++ f.post ++ CR :: LF :: next)
      by simp [HeaderField.wire, HeaderField.line]]
    exact colonLoop_token _ _ f.name_token p1 true
  have hline : ∀ c ∈ colon :: (f.pre ++ f.value ++ f.post), c ≠ CR := fun c hc =>
    f.line_ne_cr c (List.mem_append_right _ hc)
  simp only [scanLine, hcolon, ok_bind, drop_colon h, crlfLoop_of_line _ _ hline, pure_eq_ok]
  rw [f.line_length]
  simp only [List.length_cons, List.length_append]
  congr 3
  omega

theorem storeHeader_field (h : data.drop p1 = f.wire ++ next) :
    storeHeader data p1 (p1 + f.name.length) (p1 + f.line.length + 1) = .ok (f.stored p1) := by
  have hafter : data.drop (p1 + f.name.length + 1)
      = f.pre ++ (f.value ++ f.post ++ CR :: LF :: next) := by
    rw [← List.drop_drop, drop_colon h]
    simp
  obtain ⟨c, v, hv⟩ := List.exists_cons_of_ne_nil f.value_ne
  have hvalue : skipBlanks (data.drop (p1 + f.name.length + 1)) (p1 + f.name.length + 1)
      = .ok (p1 + f.name.length + 1 + f.pre.length) := by
    rw [hafter, hv]
    exact skipBlanks_run _ _ c f.pre_blank (f.value_first c (by rw [hv]; rfl)) _
  -- the last byte of the value, at which the scan from behind stops
  obtain ⟨w, d, hw⟩ := (List.eq_nil_or_concat f.value).resolve_left f.value_ne
  have hlast : data.drop (p1 + f.name.length + 1 + f.pre.length + w.length)
      = d :: (f.post ++ CR :: LF :: next) := by
    rw [← List.drop_drop, ← List.drop_drop, hafter, List.drop_left, hw]
    simp
  have hback := skipBlanksBack_run data f.post _ d _ hlast f.post_blank
    (f.value_last d (by rw [hw]; simp))
  have hlen : f.value.length = w.length + 1 := by rw [hw]; simp
  have hend : p1 + f.line.length + 1 - 2
      = p1 + f.name.length + 1 + f.pre.length + w.length + f.post.length := by
    rw [f.line_length]
    omega
  simp only [storeHeader, hvalue, ok_bind, hend, hback, pure_eq_ok, HeaderField.stored]
  rw [ptrDiff_of_le (by omega)]
  congr 2
  · omega
  · omega

/-- Store a header if `i < max_header`. -/
def pushHeader (maxHeader : Int) (headers : List HttpHeader) (h : HttpHeader) : List HttpHeader :=
  if (headers.length : Int) < maxHeader then headers ++ [h] else headers

theorem headerLine_field (h : data.drop p1 = f.wire ++ next) (maxHeader : Int)
    (headers : List HttpHeader) :
    headerLine maxHeader data headers p1 (p1 + f.name.length) true (p1 + f.line.length + 1)
      = .ok (data, pushHeader maxHeader headers (f.stored p1)) := by
  obtain ⟨c, rest, hline, hc⟩ := f.line_head
  have hfirst : data.drop p1 = c :: (rest ++ [CR, LF] ++ next) := by
    rw [h, HeaderField.wire, hline]
    simp
  simp only [headerLine, load_of_drop hfirst, ok_bind, not_blank_of_token hc, storeHeader_field h,
    pushHeader, true_and, pure_eq_ok]
  rw [if_neg (by simp)]
  split <;> rfl

end Line

/-! ## One round -/

section Round

variable {data : List UInt8} {f : HeaderField} {s : HeaderState}

/-- A line that another line follows: the next round starts behind it. -/
theorem headerBody_field {c : UInt8} {next : List UInt8} (hp : s.p ≠ s.data.length)
    (h : s.data.drop s.p1 = f.wire ++ c :: next) (hc : c ≠ CR) (maxHeader : Int) :
    headerBody maxHeader s = .ok (.inl ⟨s.data, s.p1 + f.wire.length, s.p1 + f.wire.length,
      pushHeader maxHeader s.headers (f.stored s.p1), s.p1 + f.wire.length⟩) := by
  have hnext : s.data.drop (s.p1 + f.wire.length) = c :: next := drop_add_of_drop h
  have hlt := lt_length_of_drop hnext
  have ht : s.p1 + f.line.length + 1 + 1 = s.p1 + f.wire.length := by rw [f.wire_length]; omega
  simp only [headerBody, if_neg hp, scanLine_field h, ok_bind, headerLine_field h, headerNext, ht,
    load_of_drop hnext, if_neg hc, if_neg (Nat.ne_of_lt hlt), pure_eq_ok]

/-- The last line, with the empty line behind it: the call returns 0. -/
theorem headerBody_last {body : List UInt8} (hp : s.p ≠ s.data.length)
    (h : s.data.drop s.p1 = f.wire ++ CR :: LF :: body) (maxHeader : Int) :
    headerBody maxHeader s = .ok (.inr ⟨0, s.data, pushHeader maxHeader s.headers (f.stored s.p1),
      s.p1 + f.wire.length + 2⟩) := by
  have hcr : s.data.drop (s.p1 + f.wire.length) = CR :: LF :: body := drop_add_of_drop h
  have hlf : s.data.drop (s.p1 + f.wire.length + 1) = LF :: body := by
    rw [← List.drop_drop, hcr]
    rfl
  have hlt := lt_length_of_drop hlf
  have ht : s.p1 + f.line.length + 1 + 1 = s.p1 + f.wire.length := by rw [f.wire_length]; omega
  simp only [headerBody, if_neg hp, scanLine_field h, ok_bind, headerLine_field h, headerNext, ht,
    load_of_drop hcr, load_of_drop hlf, if_true, pure_eq_ok]
  rw [if_neg (by omega), if_neg (by omega)]

end Round

/-! ## The whole call -/

/-- The headers a block of lines at offset `p1` is stored as. -/
def storedFields : Nat → List HeaderField → List HttpHeader
  | _, [] => []
  | p1, f :: fs => f.stored p1 :: storedFields (p1 + f.wire.length) fs

/-- The lines of a header block. -/
def fieldsWire (fs : List HeaderField) : List UInt8 := fs.flatMap HeaderField.wire

theorem storedFields_length (p1 : Nat) (fs : List HeaderField) :
    (storedFields p1 fs).length = fs.length := by
  induction fs generalizing p1 with
  | nil => rfl
  | cons f fs ih => simp [storedFields, ih]

/-- Pushing headers one by one keeps the first `max_header` of them. -/
theorem foldl_pushHeader (maxHeader : Nat) (headers hs : List HttpHeader)
    (h : headers.length ≤ maxHeader) :
    hs.foldl (pushHeader maxHeader) headers = headers ++ hs.take (maxHeader - headers.length) := by
  induction hs generalizing headers with
  | nil => simp
  | cons x hs ih =>
      rw [List.foldl_cons, pushHeader]
      by_cases hlt : headers.length < maxHeader
      · rw [if_pos (by exact_mod_cast hlt), ih _ (by simp; omega),
          show maxHeader - headers.length = (maxHeader - (headers.length + 1)) + 1 by omega,
          List.take_succ_cons]
        simp
      · rw [if_neg (by exact_mod_cast hlt), ih _ h, show maxHeader - headers.length = 0 by omega]
        simp

/-- The outer loop on a block of lines: one round a line, by induction over the lines. -/
theorem headerLoop_fields (maxHeader : Int) (data body : List UInt8) (fs : List HeaderField) :
    ∀ (f : HeaderField) (s : HeaderState) (n : Nat), s.data = data → s.p ≠ data.length →
      data.drop s.p1 = fieldsWire (f :: fs) ++ CR :: LF :: body → fs.length < n →
      cLoop (headerBody maxHeader) n s = .ok ⟨0, data,
        (storedFields s.p1 (f :: fs)).foldl (pushHeader maxHeader) s.headers,
        s.p1 + (fieldsWire (f :: fs)).length + 2⟩ := by
  induction fs with
  | nil =>
      intro f s n hdata hp hdrop hn
      subst hdata
      obtain ⟨m, rfl⟩ : ∃ m, n = m + 1 := ⟨n - 1, by omega⟩
      simp only [fieldsWire, List.flatMap_cons, List.flatMap_nil, List.append_nil] at hdrop ⊢
      rw [cLoop_exit (headerBody_last hp hdrop maxHeader)]
      rfl
  | cons g fs ih =>
      intro f s n hdata hp hdrop hn
      subst hdata
      obtain ⟨m, rfl⟩ : ∃ m, n = m + 1 := ⟨n - 1, by omega⟩
      obtain ⟨c, rest, hline, hc⟩ := g.line_head
      have hdrop' : s.data.drop s.p1 = f.wire ++ (fieldsWire (g :: fs) ++ CR :: LF :: body) := by
        rw [hdrop]
        simp [fieldsWire]
      have hnext : s.data.drop (s.p1 + f.wire.length) = fieldsWire (g :: fs) ++ CR :: LF :: body :=
        drop_add_of_drop hdrop'
      have hhead : fieldsWire (g :: fs) ++ CR :: LF :: body
          = c :: (rest ++ [CR, LF] ++ fieldsWire fs ++ CR :: LF :: body) := by
        simp [fieldsWire, HeaderField.wire, hline]
      rw [hhead] at hdrop'
      rw [cLoop_next (headerBody_field hp hdrop' (ne_cr_of_token hc) maxHeader)]
      have hlt := lt_length_of_drop (hnext.trans hhead)
      rw [ih g ⟨s.data, s.p1 + f.wire.length, s.p1 + f.wire.length,
        pushHeader maxHeader s.headers (f.stored s.p1), s.p1 + f.wire.length⟩ m rfl
        (Nat.ne_of_lt hlt) hnext (by simp at hn; omega)]
      simp only [storedFields, List.foldl_cons, fieldsWire, List.flatMap_cons, List.length_append]
      congr 2
      omega

/-- Each line takes bytes, so a block has at most as many lines as bytes. -/
theorem length_le_fieldsWire (fs : List HeaderField) : fs.length ≤ (fieldsWire fs).length := by
  induction fs with
  | nil => simp
  | cons f fs ih =>
      simp only [fieldsWire, List.flatMap_cons, List.length_append, List.length_cons] at ih ⊢
      have := f.wire_length
      omega

/-- `http_parse_header` on a block of header lines, the empty line and anything behind it. -/
theorem httpParseHeader_wire (f : HeaderField) (fs : List HeaderField) (body : List UInt8)
    (maxHeader : Nat) :
    httpParseHeader (fieldsWire (f :: fs) ++ CR :: LF :: body) maxHeader = .ok ⟨0,
      fieldsWire (f :: fs) ++ CR :: LF :: body, (storedFields 0 (f :: fs)).take maxHeader,
      (fieldsWire (f :: fs)).length + 2⟩ := by
  have hlen := length_le_fieldsWire (f :: fs)
  simp only [List.length_cons] at hlen
  rw [httpParseHeader, headerLoop_fields maxHeader _ body fs f ⟨_, 0, 0, [], 0⟩ _ rfl
    (by simp) rfl (by simp; omega), foldl_pushHeader _ _ _ (by simp)]
  simp

/-- The stored headers of a block are its names and values. -/
theorem storedFields_text (data rest : List UInt8) (fs : List HeaderField) (p1 : Nat)
    (hdrop : data.drop p1 = fieldsWire fs ++ rest) (hp1 : p1 ≤ data.length) :
    (storedFields p1 fs).map (HttpHeader.text data)
      = fs.map (fun f => (some f.name, some f.value)) := by
  induction fs generalizing p1 with
  | nil => rfl
  | cons f fs ih =>
      have hdrop' : data.drop p1 = f.name ++ (colon :: f.pre ++ f.value ++ f.post ++ [CR, LF] ++
          fieldsWire fs ++ rest) := by
        rw [hdrop]
        simp [fieldsWire, HeaderField.wire, HeaderField.line]
      have hvalue : data.drop (p1 + (f.name ++ colon :: f.pre).length)
          = f.value ++ (f.post ++ [CR, LF] ++ fieldsWire fs ++ rest) := by
        refine drop_add_of_drop ?_
        rw [hdrop']
        simp
      have hnext : data.drop (p1 + f.wire.length) = fieldsWire fs ++ rest := by
        refine drop_add_of_drop ?_
        rw [hdrop]
        simp [fieldsWire]
      have hle : p1 + f.wire.length ≤ data.length := by
        have hlen : data.length - p1 = (fieldsWire (f :: fs) ++ rest).length := by
          rw [← List.length_drop, hdrop]
        simp only [fieldsWire, List.flatMap_cons, List.length_append] at hlen
        omega
      have hoff : p1 + (f.name ++ colon :: f.pre).length = p1 + f.name.length + 1 + f.pre.length := by
        simp only [List.length_append, List.length_cons]
        omega
      rw [hoff] at hvalue
      have hwire := f.wire_length
      have hline := f.line_length
      simp only [storedFields, List.map_cons, ih _ hnext hle, HttpHeader.text, HeaderField.stored,
        slice_of_drop hdrop' hp1, slice_of_drop hvalue (by omega)]

end Ryze
