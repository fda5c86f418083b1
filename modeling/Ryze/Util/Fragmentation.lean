import Ryze.Util.HttpReceive

set_option autoImplicit false

/-! # Fragmentation

However the bytes of a response arrive, `http_get` returns its body, as long as no call of `recv` can
return more than `int` holds. The state after some calls is determined by the number of bytes
received: the buffer holds them, and the searches see the header from the moment it is complete. -/

namespace Ryze

open CLib ZeroMemory

abbrev headerEnd : List UInt8 := bytes "\r\n\r\n"

abbrev lengthName : List UInt8 := bytes "Content-Length: "

/-- A header block around the digits of its `Content-Length`. -/
def headerText (before digits after : List UInt8) : List UInt8 :=
  before ++ (lengthName ++ (digits ++ CR :: LF :: after))

/-- A header block: no NUL, the empty line at its end and nowhere else, one `Content-Length`. -/
structure HeaderBlock where
  before : List UInt8
  digits : List UInt8
  after : List UInt8
  digits_ne : digits ≠ []
  digits_digit : ∀ c ∈ digits, isDigit c = true
  nul : 0 ∉ headerText before digits after
  ends : headerEnd <:+ headerText before digits after
  ends_once : ∀ i, headerEnd <+: (headerText before digits after).drop i →
    i + 4 = (headerText before digits after).length
  length_once : ∀ i, lengthName <+: (headerText before digits after).drop i → i = before.length

namespace HeaderBlock

variable {H : HeaderBlock}

def text (H : HeaderBlock) : List UInt8 := headerText H.before H.digits H.after

/-- The `Content-Length`. -/
def contentLength (H : HeaderBlock) : Nat := decimal H.digits

/-! ## What the searches see -/

/-- An occurrence in the front of a list is one in the list. -/
theorem prefix_drop_take {needle s : List UInt8} {i k : Nat} (hne : needle ≠ [])
    (h : needle <+: (s.take k).drop i) : needle <+: s.drop i ∧ i + needle.length ≤ k := by
  have hlen := h.length_le
  rw [List.length_drop, List.length_take] at hlen
  have hpos := List.length_pos_of_ne_nil hne
  refine ⟨h.trans ?_, by omega⟩
  rw [List.drop_take]
  exact List.take_prefix ..

/-- An occurrence that ends in the front part is one in the front part. -/
theorem prefix_drop_append {needle a s : List UInt8} {i : Nat} (h : needle <+: (a ++ s).drop i)
    (hin : i + needle.length ≤ a.length) : needle <+: a.drop i := by
  rw [List.drop_append_of_le_length (by omega)] at h
  exact List.prefix_of_prefix_length_le h (List.prefix_append ..)
    (by rw [List.length_drop]; omega)

theorem headerEnd_length : headerEnd.length = 4 := by rfl

theorem lengthName_length : lengthName.length = 16 := by rfl

theorem text_length_ge (H : HeaderBlock) : H.before.length + 16 + H.digits.length + 2 ≤ H.text.length := by
  have hname := lengthName_length
  simp only [text, headerText, List.length_append, List.length_cons]
  omega

theorem four_le (H : HeaderBlock) : 4 ≤ H.text.length := by
  have hge := H.text_length_ge
  omega

/-- An incomplete header has no empty line. -/
theorem strstr_end_take {k : Nat} (hk : k < H.text.length) :
    strstr headerEnd (H.text.take k) 0 = none := by
  refine strstr_none (by decide) ?_ 0
  intro i hi
  obtain ⟨hstart, hle⟩ := prefix_drop_take (by decide) hi
  have heq : i + 4 = H.text.length := H.ends_once i hstart
  rw [headerEnd_length] at hle
  omega

/-- A complete header ends at its first empty line, whatever follows. -/
theorem strstr_end_append (H : HeaderBlock) (s : List UInt8) :
    strstr headerEnd (H.text ++ s) 0 = some (H.text.length - 4) := by
  have hfour := H.four_le
  have hlast : headerEnd <+: (H.text ++ s).drop (H.text.length - 4) := by
    obtain ⟨front, hfront⟩ := H.ends
    have hlen : H.text.length - 4 = front.length := by
      rw [text, ← hfront, List.length_append, headerEnd_length]
      omega
    rw [List.drop_append_of_le_length (by omega), hlen, text, ← hfront, List.drop_left]
    exact List.prefix_append ..
  rw [strstr_first (by decide) hlast, Nat.zero_add]
  intro i hi hstart
  have hin : i + headerEnd.length ≤ H.text.length := by
    rw [headerEnd_length]
    omega
  have heq : i + 4 = H.text.length := H.ends_once i (prefix_drop_append hstart hin)
  omega

theorem text_drop_length (H : HeaderBlock) :
    H.text.drop H.before.length = lengthName ++ (H.digits ++ CR :: LF :: H.after) := List.drop_left

theorem strstr_length_append (H : HeaderBlock) (s : List UInt8) :
    strstr lengthName (H.text ++ s) 0 = some H.before.length := by
  have hge := H.text_length_ge
  have hfound : lengthName <+: (H.text ++ s).drop H.before.length := by
    rw [List.drop_append_of_le_length (by omega), H.text_drop_length, List.append_assoc]
    exact List.prefix_append ..
  rw [strstr_first (by decide) hfound, Nat.zero_add]
  intro i hi hstart
  have hin : i + lengthName.length ≤ H.text.length := by
    rw [lengthName_length]
    omega
  have heq : i = H.before.length := H.length_once i (prefix_drop_append hstart hin)
  omega

/-- The bytes behind `Content-Length: `. -/
theorem text_drop_digits (H : HeaderBlock) :
    H.text.drop (H.before.length + 16) = H.digits ++ CR :: LF :: H.after := by
  have hdrop := drop_add_of_drop H.text_drop_length
  rwa [lengthName_length] at hdrop

theorem nul_notMem_text (H : HeaderBlock) : 0 ∉ H.text := H.nul

theorem nul_notMem_take (k : Nat) : 0 ∉ H.text.take k := fun hmem =>
  H.nul (List.mem_of_mem_take hmem)

end HeaderBlock

/-! ## The end of the number -/

theorem endNumber_found {buf ds rest : List UInt8} {i left : Nat}
    (hdrop : buf.drop i = ds ++ CR :: LF :: rest) (hds : ∀ c ∈ ds, isDigit c = true)
    (hleft : ds.length < left) : endNumber buf left i = write buf (i + ds.length) [0] := by
  induction ds generalizing i left with
  | nil =>
      obtain ⟨left, rfl⟩ : ∃ k, left = k + 1 := ⟨left - 1, by omega⟩
      have hcr : buf[i]? = some CR := load_eq_ok.1 (load_of_drop hdrop)
      have hlf : buf[i + 1]? = some LF :=
        load_eq_ok.1 (load_of_drop (drop_add_of_drop (a := [CR]) hdrop))
      rw [endNumber, List.getD_eq_getElem?_getD, List.getD_eq_getElem?_getD, hcr, hlf,
        if_pos ⟨rfl, rfl⟩]
      rfl
  | cons c ds ih =>
      obtain ⟨left, rfl⟩ : ∃ k, left = k + 1 := ⟨left - 1, by omega⟩
      have hc : buf[i]? = some c := load_eq_ok.1 (load_of_drop hdrop)
      have hne : c ≠ CR := by
        rintro rfl
        exact absurd (hds CR (List.mem_cons_self ..)) (by decide)
      have hnot : ¬ (buf.getD i 0 = CR ∧ buf.getD (i + 1) 0 = LF) := by
        rintro ⟨hcr, -⟩
        rw [List.getD_eq_getElem?_getD, hc] at hcr
        exact hne hcr
      have hnext : buf.drop (i + 1) = ds ++ CR :: LF :: rest := drop_add_of_drop (a := [c]) hdrop
      rw [List.length_cons] at hleft ⊢
      rw [endNumber, if_neg hnot, ih hnext (fun d hd => hds d (List.mem_cons_of_mem c hd))
        (by omega)]
      congr 1
      omega

/-! ## The complete header -/

section Head

variable {d : Delivery} {H : HeaderBlock} {x : List UInt8}

/-- The length as `http_get` reads it. -/
def HeaderBlock.readLength (H : HeaderBlock) : Int := min longMax H.contentLength

/-- A buffer with a complete header: the number is cut off and read, the bytes behind the header stay
    as they are. -/
theorem endNumber_header {buf : List UInt8} {bufSize : Nat} (hbuf : Holds buf (H.text ++ x))
    (hsize : H.text.length ≤ bufSize) :
    let start := H.before.length + 16
    let buf' := endNumber buf (bufSize - 1 - start) start
    atol (string (buf'.drop start)) = H.readLength ∧ read buf' H.text.length x.length = x := by
  intro start buf'
  have hge := H.text_length_ge
  have hdigits : (H.text ++ x).drop start = H.digits ++ (CR :: LF :: H.after ++ x) := by
    rw [List.drop_append_of_le_length (by omega), H.text_drop_digits, List.append_assoc]
  have hbuf' : buf' = write buf (start + H.digits.length) [0] := by
    obtain ⟨z, hz⟩ := hbuf
    have hdrop : buf.drop start
        = H.digits ++ CR :: LF :: (H.after ++ x ++ List.replicate z 0) := by
      rw [hz, List.drop_append_of_le_length (by rw [List.length_append]; omega), hdigits]
      simp
    exact endNumber_found hdrop H.digits_digit (by omega)
  have hset := hbuf.set (i := start + H.digits.length) (by rw [List.length_append]; omega) 0
  rw [← hbuf'] at hset
  have hnul : 0 ∉ H.digits := fun hmem => absurd (H.digits_digit 0 hmem) (by decide)
  constructor
  · have hstring : string (buf'.drop start) = H.digits := by
      obtain ⟨z, hz⟩ := hset
      have htake : ((H.text ++ x).take (start + H.digits.length)).drop start = H.digits := by
        rw [List.drop_take, hdigits, Nat.add_sub_cancel_left, List.take_left]
      have hlen : start ≤ ((H.text ++ x).take (start + H.digits.length)).length := by
        rw [List.length_take, List.length_append]
        omega
      rw [hz, List.append_assoc, List.drop_append_of_le_length hlen, htake, List.cons_append,
        string_append_zero hnul]
    rw [hstring, atol, strtol_decimal H.digits_ne H.digits_digit]
    rfl
  · have hlen : ((H.text ++ x).take (start + H.digits.length)).length = start + H.digits.length := by
      rw [List.length_take, List.length_append]
      omega
    have hdrop : ((H.text ++ x).take (start + H.digits.length) ++
        0 :: (H.text ++ x).drop (start + H.digits.length + 1)).drop H.text.length = x := by
      rw [List.drop_append, List.drop_eq_nil_of_le (by omega), hlen, List.nil_append,
        show H.text.length - (start + H.digits.length)
          = (H.text.length - (start + H.digits.length + 1)) + 1 by omega, List.drop_succ_cons,
        List.drop_drop, show start + H.digits.length + 1 + (H.text.length -
          (start + H.digits.length + 1)) = H.text.length by omega, List.drop_left]
    rw [hset.read, hdrop, List.take_length]
    rw [List.length_append, hlen, List.length_cons, List.length_drop, List.length_append]
    omega

/-- From a complete header on, `http_get` fills the result behind what came with the header. -/
theorem headDone_eq (d : Delivery) (socket : Socket) {buf : List UInt8} {bufSize len : Nat}
    (hbuf : Holds buf (H.text ++ x)) (hlen : len = H.text.length + x.length)
    (hsize : H.text.length ≤ bufSize) :
    ∃ result, Holds result x ∧ headDone d socket buf bufSize len H.text.length
      = (cLoop (bodyRound d H.readLength) (socket.rest.length + 1) ⟨socket, result, x.length⟩ >>=
          fun r => .ok (some (write r H.readLength.toNat [0]))) := by
  obtain ⟨hnumber, hread⟩ := endNumber_header hbuf hsize
  have hfound : strstr lengthName (string buf) 0 = some H.before.length := by
    rw [hbuf.string_eq, string_append H.nul_notMem_text]
    exact H.strstr_length_append _
  have hnonneg : ¬ H.readLength < 0 := by
    unfold HeaderBlock.readLength longMax
    omega
  have hsub : len - H.text.length = x.length := by omega
  have hcopied : ∃ result, Holds result x ∧ (if len > H.text.length then
      (write ([] : List UInt8) 0 (read (endNumber buf (bufSize - 1 - (H.before.length + 16))
        (H.before.length + 16)) H.text.length (len - H.text.length)), len - H.text.length)
      else ([], 0)) = (result, x.length) := by
    by_cases hgt : len > H.text.length
    · refine ⟨write [] 0 x, holds_nil.append x, ?_⟩
      rw [if_pos hgt, hsub, hread]
    · have hnil : x = [] := List.eq_nil_of_length_eq_zero (by omega)
      refine ⟨[], hnil ▸ holds_nil, ?_⟩
      rw [if_neg hgt, hnil]
      rfl
  obtain ⟨result, hresult, hcopied⟩ := hcopied
  refine ⟨result, hresult, ?_⟩
  rw [headDone, hfound]
  simp only [hnumber]
  rw [receiveBody, hcopied]
  simp only [if_neg hnonneg, pure_eq_ok]
  cases cLoop (bodyRound d H.readLength) (socket.rest.length + 1) ⟨socket, result, x.length⟩ with
  | error e => rfl
  | ok r => rfl

end Head

/-! ## Receiving the header -/

section Rounds

variable {d : Delivery} {H : HeaderBlock} {body : List UInt8}

/-- While the header is incomplete, the buffer holds what was received and has room for a chunk. -/
structure HeadState.Inv (H : HeaderBlock) (body : List UInt8) (s : HeadState) : Prop where
  rest : s.socket.rest = (H.text ++ body).drop s.len
  buf : Holds s.buf ((H.text ++ body).take s.len)
  room : s.len + chunkSize ≤ s.bufSize
  incomplete : s.len < H.text.length

/-- What the next call of `recv` returns. -/
def HeadState.received (d : Delivery) (s : HeadState) : Nat :=
  d.size s.socket.calls chunkSize s.socket.rest.length

theorem HeadState.Inv.received_bounds {s : HeadState} (hs : s.Inv H body) :
    0 < s.received d ∧ s.received d ≤ chunkSize ∧
      s.received d ≤ (H.text ++ body).length - s.len := by
  have hrest : s.socket.rest.length = (H.text ++ body).length - s.len := by
    rw [hs.rest, List.length_drop]
  have hinc := hs.incomplete
  refine ⟨d.size_pos (by decide) ?_, d.size_le_requested, hrest ▸ d.size_le_remaining⟩
  rw [hrest, List.length_append]
  omega

/-- **Step lemma.** A round adds what was received to the buffer, and looks for the empty line in
    it. -/
theorem headRound_eq {s : HeadState} (hs : s.Inv H body) : ∃ socket buf,
    socket.rest = (H.text ++ body).drop (s.len + s.received d) ∧
    Holds buf ((H.text ++ body).take (s.len + s.received d)) ∧
    headRound d s = match strstr headerEnd (string buf) 0 with
      | none => .ok (.inl ⟨socket, buf, s.bufSize + chunkSize, s.len + s.received d⟩)
      | some p => headDone d socket buf s.bufSize (s.len + s.received d) (p + 4) >>= fun result =>
          .ok (.inr result) := by
  obtain ⟨hpos, hchunk, hremaining⟩ := hs.received_bounds (d := d)
  have hroom := hs.room
  have hinc := hs.incomplete
  have htotal : (H.text ++ body).length = H.text.length + body.length := List.length_append
  have hlen : ((H.text ++ body).take s.len).length = s.len := by
    rw [List.length_take]
    omega
  have hbytes : (s.socket.rest.take (s.received d)).length = s.received d := by
    rw [hs.rest, List.length_take, List.length_drop]
    omega
  have hbuf := (hs.buf.append (s.socket.rest.take (s.received d)))
  rw [hlen, hs.rest, ← List.take_add] at hbuf
  have hbuf' := hbuf.zero (i := s.bufSize) (by rw [List.length_take]; omega)
  refine ⟨⟨s.socket.rest.drop (s.received d), s.socket.calls + 1⟩, _, ?_, hbuf', ?_⟩
  · rw [hs.rest, List.drop_drop]
  · have hchunk' : s.received d < 2 ^ 31 := by
      have : chunkSize = 1024 := rfl
      omega
    have hret : toInt32 (s.socket.rest.take (s.received d)).length = s.received d := by
      rw [hbytes]
      exact toInt32_of_lt hchunk'
    have hpos' : (0 : Int) < s.received d := Int.natCast_pos.2 hpos
    have hrecv : s.socket.recv d chunkSize = (s.socket.rest.take (s.received d),
      ⟨s.socket.rest.drop (s.received d), s.socket.calls + 1⟩) := rfl
    have hbuf'' : write s.buf s.len (s.socket.rest.take (s.received d))
        = write s.buf s.len ((List.drop s.len (H.text ++ body)).take (s.received d)) := by
      rw [hs.rest]
    have hround := headRound.eq_1 d s
    simp only [hrecv, hret, if_pos hpos', if_neg (Int.not_le.2 hpos'), Int.toNat_natCast, hbuf'',
      pure_eq_ok] at hround
    exact hround

theorem headRound_next {s : HeadState} (hs : s.Inv H body)
    (hlt : s.len + s.received d < H.text.length) :
    ∃ s' : HeadState, s'.Inv H body ∧ s'.len = s.len + s.received d ∧
      headRound d s = .ok (.inl s') := by
  obtain ⟨-, hchunk, -⟩ := hs.received_bounds (d := d)
  obtain ⟨socket, buf, hrest, hbuf, hround⟩ := headRound_eq (d := d) hs
  have hnone : strstr headerEnd (string buf) 0 = none := by
    rw [hbuf.string_eq, List.take_append_of_le_length (Nat.le_of_lt hlt),
      string_of_notMem (H.nul_notMem_take _)]
    exact H.strstr_end_take hlt
  rw [hnone] at hround
  have hroom := hs.room
  exact ⟨_, ⟨hrest, hbuf, by simp only; omega, hlt⟩, rfl, hround⟩

theorem headRound_done {s : HeadState} (hs : s.Inv H body)
    (hle : H.text.length ≤ s.len + s.received d) :
    ∃ socket result, socket.rest = body.drop (s.len + s.received d - H.text.length) ∧
      Holds result (body.take (s.len + s.received d - H.text.length)) ∧
      headRound d s = (cLoop (bodyRound d H.readLength) (socket.rest.length + 1)
        ⟨socket, result, s.len + s.received d - H.text.length⟩ >>= fun r =>
          .ok (.inr (some (write r H.readLength.toNat [0])))) := by
  obtain ⟨-, hchunk, hremaining⟩ := hs.received_bounds (d := d)
  obtain ⟨socket, buf, hrest, hbuf, hround⟩ := headRound_eq (d := d) hs
  have hroom := hs.room
  have hinc := hs.incomplete
  have hfour := H.four_le
  rw [List.drop_append, List.drop_eq_nil_of_le hle, List.nil_append] at hrest
  rw [List.take_append, List.take_of_length_le hle] at hbuf
  have hfound : strstr headerEnd (string buf) 0 = some (H.text.length - 4) := by
    rw [hbuf.string_eq, string_append H.nul_notMem_text]
    exact H.strstr_end_append _
  have hlen : (body.take (s.len + s.received d - H.text.length)).length
      = s.len + s.received d - H.text.length := by
    rw [List.length_append] at hremaining
    rw [List.length_take]
    omega
  obtain ⟨result, hresult, hdone⟩ := headDone_eq d socket hbuf
    (show s.len + s.received d = H.text.length + _ by omega)
    (show H.text.length ≤ s.bufSize by omega)
  rw [hlen] at hdone
  refine ⟨socket, result, hrest, hresult, ?_⟩
  rw [hround, hfound]
  simp only [Nat.sub_add_cancel hfour, hdone]
  cases cLoop (bodyRound d H.readLength) (socket.rest.length + 1)
      ⟨socket, result, s.len + s.received d - H.text.length⟩ with
  | error e => rfl
  | ok r => rfl

/-- **Run lemma.** The first loop ends with the call that completes the header, and hands what came
    behind it to the second one. -/
theorem headLoop_eq {fuel : Nat} {s : HeadState} (hs : s.Inv H body)
    (hfuel : H.text.length - s.len < fuel) :
    ∃ socket result prev call, prev < H.text.length ∧
      let len := prev + d.size call chunkSize (H.text.length + body.length - prev)
      H.text.length ≤ len ∧ len ≤ H.text.length + body.length ∧
      socket.rest = body.drop (len - H.text.length) ∧
      Holds result (body.take (len - H.text.length)) ∧
      cLoop (headRound d) fuel s = (cLoop (bodyRound d H.readLength) (socket.rest.length + 1)
        ⟨socket, result, len - H.text.length⟩ >>= fun r =>
          .ok (some (write r H.readLength.toNat [0]))) := by
  induction fuel generalizing s with
  | zero => omega
  | succ fuel ih =>
      obtain ⟨hpos, -, hremaining⟩ := hs.received_bounds (d := d)
      have hinc := hs.incomplete
      by_cases hlt : s.len + s.received d < H.text.length
      · obtain ⟨s', hs', hlen, hround⟩ := headRound_next hs hlt
        rw [cLoop_next hround]
        exact ih hs' (by omega)
      · obtain ⟨socket, result, hrest, hresult, hround⟩ := headRound_done hs (Nat.not_lt.1 hlt)
        have hsize : d.size s.socket.calls chunkSize (H.text.length + body.length - s.len)
            = s.received d := by
          rw [HeadState.received, hs.rest, List.length_drop, List.length_append]
        rw [List.length_append] at hremaining
        refine ⟨socket, result, s.len, s.socket.calls, hinc, ?_⟩
        rw [hsize]
        refine ⟨Nat.not_lt.1 hlt, by omega, hrest, hresult, ?_⟩
        rw [cLoop, hround]
        cases cLoop (bodyRound d H.readLength) (socket.rest.length + 1)
            ⟨socket, result, s.len + s.received d - H.text.length⟩ with
        | error e => rfl
        | ok r => rfl

end Rounds

/-! ## Receiving the body -/

section Body

variable {d : Delivery} {body : List UInt8}

/-- The result holds what was received of the body. -/
structure BodyState.Inv (body : List UInt8) (s : BodyState) : Prop where
  index_le : s.index ≤ body.length
  rest : s.socket.rest = body.drop s.index
  result : Holds s.result (body.take s.index)

/-- **Step lemma.** A round writes what was received behind the rest; how it goes on is up to
    `ret`. -/
theorem bodyRound_eq {s : BodyState} (hs : s.Inv body) (contentLen : Int) {size : Nat}
    (hsize : d.size s.socket.calls (sizeSub (toSize contentLen) s.index) (body.length - s.index)
      = size) :
    ∃ result, Holds result (body.take (s.index + size)) ∧ bodyRound d contentLen s =
      if toInt32 size ≤ 0 then .ok (.inr result) else
        .ok (.inl ⟨⟨body.drop (s.index + size), s.socket.calls + 1⟩, result,
          s.index + (toInt32 size).toNat⟩) := by
  have hindex := hs.index_le
  have hle : size ≤ body.length - s.index := hsize ▸ d.size_le_remaining
  have hlen : (body.take s.index).length = s.index := by
    rw [List.length_take]
    omega
  have hbytes : ((body.drop s.index).take size).length = size := by
    rw [List.length_take, List.length_drop]
    omega
  have hrecv : s.socket.recv d (sizeSub (toSize contentLen) s.index)
      = ((body.drop s.index).take size, ⟨body.drop (s.index + size), s.socket.calls + 1⟩) := by
    simp only [Socket.recv, hs.rest, List.length_drop, hsize, List.drop_drop]
  have hresult := hs.result.append ((body.drop s.index).take size)
  rw [hlen, ← List.take_add] at hresult
  refine ⟨_, hresult, ?_⟩
  rw [bodyRound, hrecv]
  simp only [hbytes, pure_eq_ok]

/-- **Run lemma.** As long as no call returns more than an `int` holds, unless it is the last one
    needed, the second loop ends with the whole body. -/
theorem bodyLoop_eq {n : Nat} (hn : body.length = n) (hmax : n ≤ 2 ^ 31) {fuel : Nat}
    {s : BodyState} (hs : s.Inv body) (hfuel : n - s.index < fuel) :
    ∃ result, Holds result body ∧ cLoop (bodyRound d n) fuel s = .ok result := by
  induction fuel generalizing s with
  | zero => omega
  | succ fuel ih =>
      have hindex := hs.index_le
      have hrequest : sizeSub (toSize n) s.index = n - s.index := by
        have hsize : n < sizeMod := Nat.lt_of_le_of_lt hmax (by decide)
        rw [toSize_of_nat hsize, sizeSub_of_le (hn ▸ hindex) hsize]
      obtain ⟨size, hsize⟩ : ∃ size, d.size s.socket.calls (sizeSub (toSize n) s.index)
        (body.length - s.index) = size := ⟨_, rfl⟩
      have hle : size ≤ body.length - s.index := hsize ▸ d.size_le_remaining
      obtain ⟨result, hresult, hround⟩ := bodyRound_eq hs n hsize
      by_cases hret : toInt32 size ≤ 0
      · -- nothing was left to receive, or all of `2 ^ 31` bytes came at once
        have hall : s.index + size = body.length := by
          by_contra hne
          have hpos : 0 < size := by
            rw [← hsize]
            exact d.size_pos (by rw [hrequest]; omega) (by omega)
          have hint : toInt32 size = size := toInt32_of_lt (by omega)
          omega
        rw [hall, List.take_length] at hresult
        rw [if_pos hret] at hround
        exact ⟨result, hresult, cLoop_exit hround fuel⟩
      · have hint : toInt32 size = size := by
          by_cases hlt : size < 2 ^ 31
          · exact toInt32_of_lt hlt
          · have heq : size = 2147483648 := by omega
            exact absurd (by rw [heq]; decide) hret
        have hpos : 0 < size := by omega
        rw [if_neg hret, hint, Int.toNat_natCast] at hround
        rw [cLoop_next hround]
        exact ih ⟨by simp only; omega, rfl, hresult⟩ (by simp only; omega)

end Body

/-! ## Every delivery -/

section Deliveries

variable {d : Delivery} {H : HeaderBlock} {body : List UInt8}

/-- `http_get` returns the body and a NUL. -/
def Receives (d : Delivery) (H : HeaderBlock) (body : List UInt8) : Prop :=
  ∃ result, httpGetReceive d (H.text ++ body) = .ok (some result) ∧
    read result 0 (body.length + 1) = body ++ [0]

/-- The first loop from the start. -/
theorem httpGetReceive_eq (d : Delivery) (H : HeaderBlock) (body : List UInt8) :
    ∃ socket result prev call, prev < H.text.length ∧
      let len := prev + d.size call chunkSize (H.text.length + body.length - prev)
      H.text.length ≤ len ∧ len ≤ H.text.length + body.length ∧
      socket.rest = body.drop (len - H.text.length) ∧
      Holds result (body.take (len - H.text.length)) ∧
      httpGetReceive d (H.text ++ body) = (cLoop (bodyRound d H.readLength)
        (socket.rest.length + 1) ⟨socket, result, len - H.text.length⟩ >>= fun r =>
          .ok (some (write r H.readLength.toNat [0]))) := by
  have hfour := H.four_le
  have hstart : HeadState.Inv H body ⟨⟨H.text ++ body, 0⟩, [], chunkSize, 0⟩ :=
    ⟨rfl, holds_nil, Nat.le_of_eq (Nat.zero_add _), by simp only; omega⟩
  refine headLoop_eq hstart ?_
  simp only [List.length_append]
  omega

theorem readLength_eq (h : H.contentLength ≤ 2 ^ 31) : H.readLength = H.contentLength := by
  unfold HeaderBlock.readLength longMax
  omega

/-- A body of at most `2 ^ 31` bytes is returned whole, however it arrives. -/
theorem receives_of_le (hbody : body.length = H.contentLength) (hmax : H.contentLength ≤ 2 ^ 31)
    (d : Delivery) : Receives d H body := by
  obtain ⟨socket, result, prev, call, -, hge, hle, hrest, hresult, hrun⟩ :=
    httpGetReceive_eq d H body
  have hinv : BodyState.Inv body ⟨socket, result, prev + d.size call chunkSize
      (H.text.length + body.length - prev) - H.text.length⟩ := ⟨by simp only; omega, hrest, hresult⟩
  have hfuel : H.contentLength - (prev + d.size call chunkSize
      (H.text.length + body.length - prev) - H.text.length) < socket.rest.length + 1 := by
    rw [hrest, List.length_drop]
    omega
  obtain ⟨r, hr, hloop⟩ := bodyLoop_eq (d := d) hbody hmax hinv hfuel
  rw [readLength_eq hmax, hloop, ok_bind] at hrun
  refine ⟨_, hrun, (hr.zero ?_).read_end⟩
  rw [Int.toNat_natCast]
  omega

/-- The server sends the header byte by byte and the body of `n` bytes in pieces of up to
    `2 ^ 31`. -/
def bulkDelivery (n : Nat) : Delivery where
  size _ requested remaining :=
    if n < remaining then min 1 requested else min (2 ^ 31) (min requested remaining)
  size_pos := by
    intro _ requested remaining hrequested hremaining
    split
    · omega
    · omega
  size_le_requested := by
    intro _ requested remaining
    split
    · omega
    · omega
  size_le_remaining := by
    intro _ requested remaining
    split
    · omega
    · omega

/-- Of a longer body, `http_get` keeps the first `2 ^ 31` bytes if they come at once: their number is
    negative as an `int`. -/
theorem not_receives_bulk (hmax : 2 ^ 31 < H.contentLength) :
    ¬ Receives (bulkDelivery H.contentLength) H (List.replicate H.contentLength 1) := by
  rintro ⟨result, hok, hread⟩
  obtain ⟨n, hn⟩ : ∃ n, H.contentLength = n := ⟨_, rfl⟩
  obtain ⟨body, hbody⟩ : ∃ body : List UInt8, List.replicate n 1 = body := ⟨_, rfl⟩
  have hlength : body.length = n := by rw [← hbody, List.length_replicate]
  rw [hn] at hmax
  rw [hn, hbody] at hok hread
  obtain ⟨socket, start, prev, call, hprev, hge, -, hrest, hstart, hrun⟩ :=
    httpGetReceive_eq (bulkDelivery n) H body
  have hone : (bulkDelivery n).size call chunkSize (H.text.length + body.length - prev) = 1 := by
    simp only [bulkDelivery]
    rw [if_pos (by omega)]
    rfl
  rw [hone] at hge hrest hstart hrun
  rw [show prev + 1 - H.text.length = 0 by omega] at hrest hstart hrun
  have hreadLength : (2 : Int) ^ 31 < H.readLength ∧ H.readLength ≤ longMax := by
    unfold HeaderBlock.readLength longMax
    rw [hn]
    omega
  have hsize : (bulkDelivery n).size socket.calls (sizeSub (toSize H.readLength) 0) (body.length - 0)
      = 2147483648 := by
    have hrequest : sizeSub (toSize H.readLength) 0 = H.readLength.toNat := by
      unfold sizeSub toSize sizeMod
      unfold longMax at hreadLength
      omega
    simp only [bulkDelivery]
    rw [if_neg (by omega), hrequest]
    omega
  have hinv : BodyState.Inv body ⟨socket, start, 0⟩ := ⟨Nat.zero_le _, hrest, hstart⟩
  obtain ⟨r, hr, hround⟩ := bodyRound_eq hinv H.readLength hsize
  rw [if_pos (by decide)] at hround
  simp only [Nat.zero_add] at hr
  rw [cLoop_exit hround, ok_bind, hok, Except.ok.injEq, Option.some.injEq] at hrun
  have hlen : (body.take 2147483648).length = 2147483648 := by
    rw [List.length_take]
    omega
  have hfinal : Holds result (body.take 2147483648) := by
    rw [hrun]
    exact hr.zero (by rw [hlen]; omega)
  -- the byte behind the ones received is a NUL in the block and none in the body
  have hget : (read result 0 (body.length + 1))[2147483648]? = some 0 := by
    rw [read_getElem? _ (by omega), Nat.zero_add, hfinal.getD, List.getD_eq_default _ _ (by omega)]
  have hone' : (body ++ [0])[2147483648]? = some 1 := by
    rw [List.getElem?_append_left (by omega), ← hbody, List.getElem?_replicate_of_lt (by omega)]
  rw [hread, hone'] at hget
  exact absurd hget (by decide)

/-- **Fragmentation.** The body of a response is returned whole from every delivery exactly when it
    has at most `2 ^ 31` bytes. -/
theorem receives_iff (H : HeaderBlock) :
    (∀ body, body.length = H.contentLength → ∀ d, Receives d H body) ↔
      H.contentLength ≤ 2 ^ 31 := by
  constructor
  · intro h
    by_contra hmax
    exact not_receives_bulk (Nat.lt_of_not_le hmax) (h _ List.length_replicate _)
  · intro hmax body hbody d
    exact receives_of_le hbody hmax d

/-- `Content-Length: 2147483649` and an empty line. -/
def bulkHeader : HeaderBlock where
  before := []
  digits := [50, 49, 52, 55, 52, 56, 51, 54, 52, 57]
  after := [CR, LF]
  digits_ne := by decide
  digits_digit := List.all_eq_true.1 (by decide)
  nul := by decide
  ends := by decide
  ends_once := by
    have hsmall : ∀ i < 30, headerEnd <+: (headerText [] [50, 49, 52, 55, 52, 56, 51, 54, 52, 57]
        [CR, LF]).drop i → i + 4 = 30 := by decide +kernel
    intro i h
    by_cases hi : i < 30
    · exact hsmall i hi h
    · rw [List.drop_eq_nil_of_le (Nat.not_lt.1 hi)] at h
      exact absurd (List.prefix_nil.1 h) (by decide)
  length_once := by
    have hsmall : ∀ i < 30, lengthName <+: (headerText [] [50, 49, 52, 55, 52, 56, 51, 54, 52, 57]
        [CR, LF]).drop i → i = 0 := by decide +kernel
    intro i h
    by_cases hi : i < 30
    · exact hsmall i hi h
    · rw [List.drop_eq_nil_of_le (Nat.not_lt.1 hi)] at h
      exact absurd (List.prefix_nil.1 h) (by decide)

theorem bulkHeader_not_receives : ¬ ∀ body, body.length = bulkHeader.contentLength →
    ∀ d, Receives d bulkHeader body := fun h =>
  not_receives_bulk (by decide) (h _ List.length_replicate _)

end Deliveries

end Ryze
