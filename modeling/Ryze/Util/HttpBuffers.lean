import Ryze.Util.Fragmentation

set_option autoImplicit false

/-! # `http_get`: its two buffers

The second half of `http_get` once more, now with the sizes of its blocks and with what `malloc`
leaves in them. `buf` starts with a byte more than `buf_size`, but `realloc` gives it `buf_size`
bytes, and the terminator goes to `buf[buf_size]`; so the header has to be complete with the first
call of `recv`. The block for the body has the declared size, whatever has come with the header. -/

namespace Ryze

open CLib ZeroMemory

/-! ## Blocks -/

/-- `malloc(n)`, `left` being what stands in the block. A request larger than any object gives the
    null pointer, and its caller writes through it. -/
def mallocLeft (left : Nat → UInt8) (n : Nat) : CRun (List UInt8) :=
  if n ≤ ptrdiffMax then .ok ((List.range n).map left) else .error .write

/-- `realloc(m, n)` -/
def reallocLeft (left : Nat → UInt8) (m : List UInt8) (n : Nat) : CRun (List UInt8) :=
  if n ≤ ptrdiffMax then .ok (m.take n ++ ((List.range n).map left).drop m.length)
  else .error .write

/-- The bytes are written to the block from `off` on. -/
def storeBytes (m : List UInt8) (off : Nat) (bs : List UInt8) : CRun (List UInt8) :=
  if off + bs.length ≤ m.length then .ok (write m off bs) else .error .write

/-- The `n` bytes of the block from `off` on. -/
def loadBytes (m : List UInt8) (off n : Nat) : CRun (List UInt8) :=
  if off + n ≤ m.length then .ok ((m.drop off).take n) else .error .read

/-- The string at a pointer, the block from the pointer on being given. -/
def loadString (m : List UInt8) : CRun (List UInt8) :=
  if 0 ∈ m then .ok (string m) else .error .read

/-! ## The response -/

/-- The `for` loop behind `Content-Length: `, with `left` bytes to go. -/
def cutNumber (buf : List UInt8) : (left i : Nat) → CRun (List UInt8)
  | 0, _ => .ok buf
  | left + 1, i => do
    let c ← load buf i
    if c = CR then
      let c' ← load buf (i + 1)
      if c' = LF then storeBytes buf i [0] else cutNumber buf left (i + 1)
    else cutNumber buf left (i + 1)

/-- The variables of the second loop. -/
structure BodyBlock where
  socket : Socket
  result : List UInt8
  index : Nat

/-- One round of the second `while(1)`. -/
def bodyBlockRound (d : Delivery) (contentLen : Int) (s : BodyBlock) :
    CRun (BodyBlock ⊕ List UInt8) := do
  let (bs, socket) := s.socket.recv d (sizeSub (toSize contentLen) s.index)
  let result ← storeBytes s.result s.index bs
  let ret := toInt32 bs.length
  if ret ≤ 0 then return .inr result
  else return .inl ⟨socket, result, s.index + ret.toNat⟩

/-- The second loop and the terminator, `index` bytes of `result` being written. -/
def receiveRest (d : Delivery) (contentLen : Int) (s : BodyBlock) : CRun (List UInt8) := do
  let result ← cLoop (bodyBlockRound d contentLen) (s.socket.rest.length + 1) s
  if contentLen < 0 then throw .write else storeBytes result contentLen.toNat [0]

/-- `http_get` from `result = malloc(content_len + 1)` on. -/
def fillResult (d : Delivery) (left : Nat → UInt8) (socket : Socket) (buf : List UInt8)
    (len «end» : Nat) (contentLen : Int) : CRun (List UInt8) := do
  let result ← mallocLeft left (toSize (contentLen + 1))
  if len > «end» then
    let bs ← loadBytes buf «end» (len - «end»)
    let result ← storeBytes result 0 bs
    receiveRest d contentLen ⟨socket, result, len - «end»⟩
  else receiveRest d contentLen ⟨socket, result, 0⟩

/-- The variables of the first loop. -/
structure HeadBlock where
  socket : Socket
  buf : List UInt8
  bufSize : Nat
  len : Nat

/-- What the first loop does with a complete header that ends at `end`. -/
def headBlockDone (d : Delivery) (left : Nat → UInt8) (s : HeadBlock) («end» : Nat) :
    CRun (Option (List UInt8)) := do
  let text ← loadString s.buf
  match strstr lengthName text 0 with
  | some p =>
    let start := p + 16
    let buf ← cutNumber s.buf (s.bufSize - 1 - start) start
    let number ← loadString (buf.drop start)
    let result ← fillResult d left s.socket buf s.len «end» (atol number)
    return some result
  -- TODO: Transfer-Encoding: chunked
  | none => return none

/-- One round of the first `while(1)`. -/
def headBlockRound (d : Delivery) (left : Nat → UInt8) (s : HeadBlock) :
    CRun (HeadBlock ⊕ Option (List UInt8)) := do
  let (bs, socket) := s.socket.recv d chunkSize
  let buf ← storeBytes s.buf s.len bs
  let ret := toInt32 bs.length
  let len := if ret > 0 then s.len + ret.toNat else s.len
  let buf ← storeBytes buf s.bufSize [0]
  let text ← loadString buf
  match strstr headerEnd text 0 with
  | none =>
    if ret ≤ 0 then return .inr none
    else
      let bufSize := s.bufSize + chunkSize
      let buf ← reallocLeft left buf bufSize
      return .inl ⟨socket, buf, bufSize, len⟩
  | some p =>
    let result ← headBlockDone d left ⟨socket, buf, s.bufSize, len⟩ (p + 4)
    return .inr result

/-- `http_get` from the first `malloc` on, when the server sends `stream`. -/
def httpGetBlocks (d : Delivery) (left : Nat → UInt8) (stream : List UInt8) :
    CRun (Option (List UInt8)) := do
  let buf ← mallocLeft left (chunkSize + 1)
  cLoop (headBlockRound d left) (stream.length + 2) ⟨⟨stream, 0⟩, buf, chunkSize, 0⟩

/-! ## What fits -/

/-- The text up to the first CR LF. -/
def line : List UInt8 → List UInt8
  | [] => []
  | c :: s => if c = CR ∧ s.head? = some LF then [] else c :: line s

/-- A body of the declared length `n` fits: of the `k` bytes that came with the header there are no
    more than that, or one more and nothing behind it. -/
def BodyFits (n : Int) (k : Nat) (rest : List UInt8) : Prop :=
  0 ≤ n ∧ n < ptrdiffMax ∧ (k ≤ n.toNat ∨ k = n.toNat + 1 ∧ rest = [])

/-- The bytes of the first call of `recv`. -/
def firstChunk (d : Delivery) (stream : List UInt8) : List UInt8 :=
  stream.take (d.size 0 chunkSize stream.length)

/-- What is in `buf` after the first call: the bytes received, and what stood behind them. -/
def firstBuf (d : Delivery) (left : Nat → UInt8) (stream : List UInt8) : List UInt8 :=
  firstChunk d stream ++ ((List.range chunkSize).map left).drop (firstChunk d stream).length

/-- The string in `buf` after the first call. -/
def firstText (d : Delivery) (left : Nat → UInt8) (stream : List UInt8) : List UInt8 :=
  string (firstBuf d left stream)

/-- After the first call the text has the end of the header, unless nothing was sent at all; and if
    it declares a length, the body fits. -/
def ResponseFits (d : Delivery) (left : Nat → UInt8) (stream : List UInt8) : Prop :=
  match strstr headerEnd (firstText d left stream) 0 with
  | none => stream = []
  | some p =>
    match strstr lengthName (firstText d left stream) 0 with
    | none => True
    | some q =>
      BodyFits (atol (line ((firstText d left stream).drop (q + 16))))
        ((firstChunk d stream).length - (p + 4)) (stream.drop (firstChunk d stream).length)

/-! ## Writing to a block -/

section Blocks

variable {m bs : List UInt8} {off : Nat}

theorem storeBytes_ok (h : off + bs.length ≤ m.length) :
    storeBytes m off bs = .ok (m.take off ++ bs ++ m.drop (off + bs.length)) := by
  have hpad : off - m.length = 0 := by omega
  rw [storeBytes, if_pos h, write, hpad, List.replicate_zero, List.append_nil]

theorem storeBytes_length (h : off + bs.length ≤ m.length) :
    ∃ m', storeBytes m off bs = .ok m' ∧ m'.length = m.length := by
  refine ⟨_, storeBytes_ok h, ?_⟩
  simp only [List.length_append, List.length_take, List.length_drop]
  omega

theorem storeBytes_error (h : m.length < off + bs.length) :
    storeBytes m off bs = .error .write := by
  rw [storeBytes, if_neg (by omega)]

theorem loadString_nul (s t : List UInt8) : loadString (s ++ 0 :: t) = .ok (string s) := by
  rw [loadString, if_pos (by simp)]
  congr 1
  induction s with
  | nil => simp [string]
  | cons c s ih =>
      rw [List.cons_append, string, string, List.takeWhile_cons, List.takeWhile_cons]
      rw [string, string] at ih
      rw [ih]

end Blocks

/-! ## The declared length -/

/-- The bytes behind the field name after the loop. -/
def cutLine : List UInt8 → List UInt8
  | [] => []
  | c :: s => if c = CR ∧ s.head? = some LF then 0 :: s else c :: cutLine s

theorem cutNumber_eq (pre l : List UInt8) :
    cutNumber (pre ++ l ++ [0]) (l.length - 1) pre.length = .ok (pre ++ cutLine l ++ [0]) := by
  induction l generalizing pre with
  | nil => rfl
  | cons c l ih =>
      cases l with
      | nil =>
          rw [cutLine, if_neg (by simp)]
          rfl
      | cons c' l =>
          have hc : load (pre ++ c :: c' :: l ++ [0]) pre.length = .ok c := by
            rw [load, List.append_assoc, List.getElem?_append_right (Nat.le_refl _), Nat.sub_self]
            rfl
          have hc' : load (pre ++ c :: c' :: l ++ [0]) (pre.length + 1) = .ok c' := by
            rw [load, List.append_assoc, List.getElem?_append_right (by omega),
              Nat.add_sub_cancel_left]
            rfl
          have hnext : cutNumber (pre ++ c :: c' :: l ++ [0]) l.length (pre.length + 1)
              = .ok (pre ++ c :: cutLine (c' :: l) ++ [0]) := by
            have hih := ih (pre ++ [c])
            rwa [List.length_append, List.length_singleton, List.append_assoc pre,
              List.append_assoc pre [c] (cutLine _)] at hih
          rw [show (c :: c' :: l).length - 1 = l.length + 1 from rfl, cutNumber, hc, ok_bind, cutLine]
          by_cases hcr : c = CR
          · rw [if_pos hcr, hc', ok_bind]
            by_cases hlf : c' = LF
            · have hroom : pre.length + [(0 : UInt8)].length ≤ (pre ++ c :: c' :: l ++ [0]).length := by
                simp only [List.length_append, List.length_cons]
                omega
              rw [if_pos hlf, if_pos ⟨hcr, by rw [hlf]; rfl⟩, storeBytes_ok hroom, List.append_assoc pre,
                List.take_left, ← List.drop_drop, List.drop_left]
              simp
            · rw [if_neg hlf, if_neg (by simp [hlf])]
              exact hnext
          · rw [if_neg hcr, if_neg fun h => hcr h.1]
            exact hnext

/-- Up to the first CR LF or the NUL. -/
theorem string_cutLine (l : List UInt8) : string (cutLine l) = line (string l) := by
  induction l with
  | nil => rfl
  | cons c l ih =>
      by_cases hcut : c = CR ∧ l.head? = some LF
      · obtain ⟨rfl, hlf⟩ := hcut
        cases l with
        | nil => cases hlf
        | cons c' l =>
            cases hlf
            rfl
      · rw [cutLine, if_neg hcut]
        by_cases hc : c = 0
        · subst hc
          rfl
        · have hstring : ∀ t : List UInt8, string (c :: t) = c :: string t := fun t =>
            List.takeWhile_cons_of_pos (by simp [hc])
          have hhead : ¬ (c = CR ∧ (string l).head? = some LF) := by
            rintro ⟨hcr, hlf⟩
            refine hcut ⟨hcr, ?_⟩
            cases l with
            | nil => cases hlf
            | cons c' l =>
                by_cases hc' : c' = 0
                · subst hc'
                  cases hlf
                · rw [string, List.takeWhile_cons_of_pos (by simp [hc'])] at hlf
                  exact hlf
          rw [hstring, hstring, line, if_neg hhead, ih]

theorem string_drop {s : List UInt8} {i : Nat} (hi : i ≤ (string s).length) :
    string (s.drop i) = (string s).drop i := by
  induction i generalizing s with
  | zero => rfl
  | succ i ih =>
      cases s with
      | nil => rfl
      | cons c s =>
          by_cases hc : c = 0
          · subst hc
            exact absurd hi (Nat.not_succ_le_zero i)
          · have hstring : string (c :: s) = c :: string s :=
              List.takeWhile_cons_of_pos (by simp [hc])
            rw [hstring] at hi ⊢
            exact ih (Nat.le_of_succ_le_succ hi)

theorem cutLine_length (l : List UInt8) : (cutLine l).length = l.length := by
  induction l with
  | nil => rfl
  | cons c l ih =>
      rw [cutLine]
      split
      · rfl
      · rw [List.length_cons, List.length_cons, ih]

/-- The number the loop leaves at `start`. -/
theorem cutNumber_number {head : List UInt8} {start : Nat} (hstart : start ≤ (string head).length) :
    ∃ buf, cutNumber (head ++ [0]) (head.length - 1 - start) start = .ok buf ∧
      buf.length = head.length + 1 ∧
      loadString (buf.drop start) = .ok (line ((string head).drop start)) := by
  have hle : start ≤ head.length := hstart.trans (List.takeWhile_prefix _).length_le
  have hpre : (head.take start).length = start := List.length_take_of_le hle
  have hrest : head.length - 1 - start = (head.drop start).length - 1 := by
    rw [List.length_drop]
    omega
  have hcut := cutNumber_eq (head.take start) (head.drop start)
  rw [List.take_append_drop, hpre, ← hrest] at hcut
  refine ⟨_, hcut, ?_, ?_⟩
  · rw [List.length_append, List.length_append, cutLine_length, hpre, List.length_drop,
      List.length_singleton]
    omega
  · rw [List.append_assoc, List.drop_left' hpre, loadString_nul, string_cutLine, string_drop hstart]

theorem atol_bounds (s : List UInt8) : longMin ≤ atol s ∧ atol s ≤ longMax := by
  have hmin : longMin = -2 ^ 63 := rfl
  have hmax : longMax = 2 ^ 63 - 1 := rfl
  unfold atol strtol
  split
  · decide
  · split
    · omega
    · split
      · omega
      · omega

/-! ## The second loop -/

section Body

variable {d : Delivery}

/-- As long as the block is not full a call is asked for no more than there is room for. -/
theorem bodyLoop_ok {n : Nat} (hn : n < sizeMod) {fuel : Nat} {s : BodyBlock}
    (hlen : s.result.length = n + 1) (hindex : s.index ≤ n) (hfuel : s.socket.rest.length < fuel) :
    ∃ result, cLoop (bodyBlockRound d n) fuel s = .ok result ∧ result.length = n + 1 := by
  induction fuel generalizing s with
  | zero => omega
  | succ fuel ih =>
      have hrequest : sizeSub (toSize n) s.index = n - s.index := by
        rw [toSize_of_nat hn, sizeSub_of_le hindex hn]
      obtain ⟨k, hk⟩ : ∃ k, d.size s.socket.calls (n - s.index) s.socket.rest.length = k := ⟨_, rfl⟩
      have hreq : k ≤ n - s.index := hk ▸ d.size_le_requested
      have hrem : k ≤ s.socket.rest.length := hk ▸ d.size_le_remaining
      have hsum : s.index + k ≤ n := by omega
      have hfewer : 0 < k → s.socket.rest.length - k < fuel := fun _ => by omega
      have hbs : (s.socket.rest.take k).length = k := List.length_take_of_le hrem
      obtain ⟨result, hstore, hresult⟩ := @storeBytes_length s.result (s.socket.rest.take k) s.index
        (by omega)
      have hround : bodyBlockRound d n s = if toInt32 k ≤ 0 then .ok (.inr result) else
          .ok (.inl ⟨⟨s.socket.rest.drop k, s.socket.calls + 1⟩, result,
            s.index + (toInt32 k).toNat⟩) := by
        simp only [bodyBlockRound, Socket.recv, hrequest, hk]
        rw [hstore, ok_bind, hbs]
        rfl
      by_cases hret : toInt32 k ≤ 0
      · rw [if_pos hret] at hround
        exact ⟨_, cLoop_exit hround fuel, by rw [hresult, hlen]⟩
      · rw [if_neg hret] at hround
        rw [cLoop_next hround]
        have hle := toInt32_toNat_le k
        have hpos : 0 < k := by
          by_contra hzero
          have hk0 : k = 0 := by omega
          rw [hk0] at hret
          exact hret (by decide)
        refine ih (hresult.trans hlen) ((Nat.add_le_add_left hle _).trans hsum) ?_
        simp only [List.length_drop]
        exact hfewer hpos

/-- Nothing is left to receive. -/
theorem bodyBlockRound_empty (contentLen : Int) {s : BodyBlock} (hrest : s.socket.rest = [])
    (hindex : s.index ≤ s.result.length) :
    ∃ result, bodyBlockRound d contentLen s = .ok (.inr result) ∧
      result.length = s.result.length := by
  obtain ⟨result, hstore, hresult⟩ := @storeBytes_length s.result [] s.index
    (by rw [List.length_nil]; exact hindex)
  have hint : toInt32 ((([] : List UInt8).length : Nat) : Int) ≤ 0 := by decide
  refine ⟨result, ?_, hresult⟩
  simp only [bodyBlockRound, Socket.recv, hrest, List.take_nil]
  rw [hstore, ok_bind, if_pos hint]
  rfl

/-- Behind the end of the block the next byte that comes is written outside. -/
theorem bodyBlockRound_full (contentLen : Int) {s : BodyBlock} (hrest : s.socket.rest ≠ [])
    (hrequest : 0 < sizeSub (toSize contentLen) s.index) (hfull : s.result.length ≤ s.index) :
    bodyBlockRound d contentLen s = .error .write := by
  obtain ⟨k, hk⟩ : ∃ k, d.size s.socket.calls (sizeSub (toSize contentLen) s.index)
    s.socket.rest.length = k := ⟨_, rfl⟩
  have hpos : 0 < k := hk ▸ d.size_pos hrequest (List.length_pos_of_ne_nil hrest)
  have hrem : k ≤ s.socket.rest.length := hk ▸ d.size_le_remaining
  have hbs : (s.socket.rest.take k).length = k := List.length_take_of_le hrem
  simp only [bodyBlockRound, Socket.recv, hk]
  rw [storeBytes_error (by omega)]
  rfl

/-- The second loop and the terminator stay inside the block exactly if the body fits. -/
theorem receiveRest_iff {n : Nat} (hn : n < ptrdiffMax) {s : BodyBlock}
    (hlen : s.result.length = n + 1) (hindex : s.index ≤ n + 1) :
    (s.index ≤ n ∨ s.socket.rest = [] → ∃ result, receiveRest d n s = .ok result) ∧
    (¬ (s.index ≤ n ∨ s.socket.rest = []) → receiveRest d n s = .error .write) := by
  have hmod : n < sizeMod := hn.trans (by decide)
  have hlast : ∀ result : List UInt8, result.length = n + 1 →
      ∃ last, storeBytes result (n : Int).toNat [0] = .ok last := fun result hresult => by
    obtain ⟨last, hstore, _⟩ := @storeBytes_length result [0] n (by rw [hresult]; exact Nat.le_refl _)
    exact ⟨last, hstore⟩
  have hreturn : ∀ result : List UInt8, result.length = n + 1 →
      cLoop (bodyBlockRound d n) (s.socket.rest.length + 1) s = .ok result →
      ∃ last, receiveRest d n s = .ok last := by
    intro result hresult hloop
    obtain ⟨last, hstore⟩ := hlast result hresult
    exact ⟨last, by rw [receiveRest, hloop, ok_bind, if_neg (by omega), hstore]⟩
  constructor
  · intro hfits
    by_cases hle : s.index ≤ n
    · obtain ⟨result, hloop, hresult⟩ := bodyLoop_ok (d := d) hmod hlen hle (Nat.lt_succ_self _)
      exact hreturn result hresult hloop
    · have hrest := hfits.resolve_left hle
      obtain ⟨result, hround, hresult⟩ :=
        bodyBlockRound_empty (d := d) n hrest (by rw [hlen]; exact hindex)
      exact hreturn result (hresult.trans hlen) (cLoop_exit hround _)
  · intro hnot
    obtain ⟨hgt, hrest⟩ := not_or.1 hnot
    have heq : s.index = n + 1 := by omega
    have hrequest : 0 < sizeSub (toSize n) s.index := by
      rw [toSize_of_nat hmod, heq]
      unfold sizeSub
      unfold sizeMod ptrdiffMax at *
      omega
    have hround := bodyBlockRound_full (d := d) n hrest hrequest (by omega)
    rw [receiveRest, cLoop, hround]
    rfl

/-- A block of no bytes cannot even take the terminator. -/
theorem receiveRest_empty (socket : Socket) : receiveRest d (-1) ⟨socket, [], 0⟩ = .error .write := by
  by_cases hrest : socket.rest = []
  · obtain ⟨result, hround, -⟩ := @bodyBlockRound_empty d (-1) ⟨socket, [], 0⟩ hrest (Nat.le_refl 0)
    rw [receiveRest, cLoop_exit hround, ok_bind, if_pos (by decide)]
    rfl
  · have hround := @bodyBlockRound_full d (-1) ⟨socket, [], 0⟩ hrest
      (show 0 < sizeSub (toSize (-1)) 0 by decide) (Nat.le_refl 0)
    rw [receiveRest, cLoop, hround]
    rfl

/-! ## The block for the body -/

theorem mallocLeft_ok (left : Nat → UInt8) {n : Nat} (hn : n ≤ ptrdiffMax) :
    ∃ m, mallocLeft left n = .ok m ∧ m.length = n :=
  ⟨_, if_pos hn, by rw [List.length_map, List.length_range]⟩

theorem mallocLeft_error (left : Nat → UInt8) {n : Nat} (hn : ptrdiffMax < n) :
    mallocLeft left n = .error .write := if_neg (Nat.not_le.2 hn)

/-- What a block is asked for when the declared length is negative or too large. -/
theorem toSize_large {n : Int} (hlo : longMin ≤ n) (hhi : n ≤ longMax)
    (hn : n < -1 ∨ ptrdiffMax ≤ n) : ptrdiffMax < toSize (n + 1) := by
  unfold toSize
  unfold longMin at hlo
  unfold longMax at hhi
  unfold ptrdiffMax at *
  omega

variable (left : Nat → UInt8) {socket : Socket} {buf : List UInt8} {len «end» : Nat}

/-- A negative length, or one that leaves no room for the terminator: no such block. -/
theorem fillResult_large {n : Int} (hlo : longMin ≤ n) (hhi : n ≤ longMax)
    (hn : n < -1 ∨ ptrdiffMax ≤ n) :
    fillResult d left socket buf len «end» n = .error .write := by
  rw [fillResult, mallocLeft_error left (toSize_large hlo hhi hn)]
  rfl

/-- A block of no bytes is written to in any case. -/
theorem fillResult_noBytes (hlen : len ≤ buf.length) :
    fillResult d left socket buf len «end» (-1) = .error .write := by
  have hmalloc : mallocLeft left (toSize (-1 + 1)) = .ok [] := rfl
  rw [fillResult, hmalloc, ok_bind]
  split
  · have hbs : loadBytes buf «end» (len - «end») = .ok ((buf.drop «end»).take (len - «end»)) :=
      if_pos (by omega)
    rw [hbs, ok_bind, storeBytes_error]
    · rfl
    · rw [List.length_take, List.length_drop, List.length_nil]
      omega
  · exact receiveRest_empty socket

/-- The block is there: the bytes that came with the header are copied, the rest is received. -/
theorem fillResult_block {n : Nat} (hn : n < ptrdiffMax) (hlen : len ≤ buf.length) :
    ∃ result : List UInt8, result.length = n + 1 ∧
      fillResult d left socket buf len «end» n = if len > «end» then
          storeBytes result 0 ((buf.drop «end»).take (len - «end»)) >>= fun result =>
            receiveRest d n ⟨socket, result, len - «end»⟩
        else receiveRest d n ⟨socket, result, 0⟩ := by
  have hsize : toSize ((n : Int) + 1) = n + 1 :=
    toSize_of_nat (n := n + 1) (Nat.lt_of_le_of_lt hn (by decide))
  obtain ⟨result, hmalloc, hresult⟩ := mallocLeft_ok left (n := n + 1) hn
  refine ⟨result, hresult, ?_⟩
  rw [fillResult, hsize, hmalloc, ok_bind]
  split
  · have hbs : loadBytes buf «end» (len - «end») = .ok ((buf.drop «end»).take (len - «end»)) :=
      if_pos (by omega)
    rw [hbs, ok_bind]
  · rfl

/-- A length that a block can have. -/
theorem fillResult_natural {n : Nat} (hn : n < ptrdiffMax) (hlen : len ≤ buf.length) :
    (len - «end» ≤ n ∨ len - «end» = n + 1 ∧ socket.rest = [] →
      ∃ result, fillResult d left socket buf len «end» n = .ok result) ∧
    (¬ (len - «end» ≤ n ∨ len - «end» = n + 1 ∧ socket.rest = []) →
      fillResult d left socket buf len «end» n = .error .write) := by
  obtain ⟨result, hresult, hrun⟩ := @fillResult_block d left socket buf len «end» n hn hlen
  rw [hrun]
  split
  · have hbs : ((buf.drop «end»).take (len - «end»)).length = len - «end» := by
      rw [List.length_take, List.length_drop]
      omega
    by_cases hroom : len - «end» ≤ n + 1
    · obtain ⟨result', hstore, hresult'⟩ := @storeBytes_length result
        ((buf.drop «end»).take (len - «end»)) 0 (by omega)
      have hrest := @receiveRest_iff d n hn ⟨socket, result', len - «end»⟩
        (hresult'.trans hresult) hroom
      rw [hstore, ok_bind]
      refine ⟨fun h => hrest.1 (h.imp_right And.right), fun h => hrest.2 fun h' => h ?_⟩
      by_cases hle : len - «end» ≤ n
      · exact Or.inl hle
      · exact Or.inr ⟨by omega, h'.resolve_left hle⟩
    · rw [storeBytes_error (by omega)]
      exact ⟨fun h => by omega, fun _ => rfl⟩
  · have hrest := @receiveRest_iff d n hn ⟨socket, result, 0⟩ hresult (Nat.zero_le _)
    exact ⟨fun _ => hrest.1 (Or.inl (Nat.zero_le n)), fun h => absurd (Or.inl (by omega)) h⟩

/-- The second half of `http_get` stays inside its block exactly if the body fits. -/
theorem fillResult_iff (hlen : len ≤ buf.length) {n : Int} (hlo : longMin ≤ n)
    (hhi : n ≤ longMax) :
    (BodyFits n (len - «end») socket.rest →
      ∃ result, fillResult d left socket buf len «end» n = .ok result) ∧
    (¬ BodyFits n (len - «end») socket.rest →
      fillResult d left socket buf len «end» n = .error .write) := by
  by_cases hlarge : n < -1 ∨ ptrdiffMax ≤ n
  · refine ⟨fun hfits => ?_, fun _ => fillResult_large left hlo hhi hlarge⟩
    obtain ⟨hpos, hlt, -⟩ := hfits
    omega
  · obtain ⟨hge, hlt⟩ := not_or.1 hlarge
    by_cases hneg : n = -1
    · subst hneg
      exact ⟨fun hfits => absurd hfits.1 (by decide), fun _ => fillResult_noBytes left hlen⟩
    · obtain ⟨m, rfl⟩ : ∃ m : Nat, n = m := ⟨n.toNat, by omega⟩
      have hm : m < ptrdiffMax := by omega
      have hfits : BodyFits m (len - «end») socket.rest ↔
          len - «end» ≤ m ∨ len - «end» = m + 1 ∧ socket.rest = [] := by
        rw [BodyFits, Int.toNat_natCast]
        exact ⟨fun h => h.2.2, fun h => ⟨by omega, by omega, h⟩⟩
      rw [hfits]
      exact fillResult_natural left hm hlen

end Body

/-! ## The first loop -/

section Head

variable {d : Delivery} {left : Nat → UInt8}

/-- The second call's terminator goes behind the end of the block. -/
theorem headBlockRound_second {socket : Socket} {buf : List UInt8} {len : Nat}
    (hbuf : buf.length = chunkSize + chunkSize) (hlen : len ≤ chunkSize) :
    headBlockRound d left ⟨socket, buf, chunkSize + chunkSize, len⟩ = .error .write := by
  obtain ⟨k, hk⟩ : ∃ k, d.size socket.calls chunkSize socket.rest.length = k := ⟨_, rfl⟩
  have hreq : k ≤ chunkSize := hk ▸ d.size_le_requested
  have hbs : (socket.rest.take k).length ≤ k := List.length_take_le _ _
  obtain ⟨buf', hstore, hbuf'⟩ := @storeBytes_length buf (socket.rest.take k) len (by omega)
  simp only [headBlockRound, Socket.recv, hk]
  rw [hstore, ok_bind, storeBytes_error]
  · rfl
  · rw [hbuf', hbuf]
    exact Nat.lt_succ_self _

variable (d left) (stream : List UInt8)

theorem firstChunk_length_le : (firstChunk d stream).length ≤ chunkSize :=
  (List.length_take_le _ _).trans d.size_le_requested

theorem firstChunk_eq_nil : firstChunk d stream = [] ↔ stream = [] := by
  constructor
  · intro h
    by_contra hne
    have hpos := @Delivery.size_pos d 0 chunkSize stream.length (by decide)
      (List.length_pos_of_ne_nil hne)
    rcases List.take_eq_nil_iff.1 h with hzero | hnil
    · omega
    · exact hne hnil
  · rintro rfl
    exact List.take_nil

theorem firstBuf_length : (firstBuf d left stream).length = chunkSize := by
  have hchunk := firstChunk_length_le d stream
  rw [firstBuf, List.length_append, List.length_drop, List.length_map, List.length_range]
  omega

/-- The first call and its terminator. -/
theorem firstBuf_eq :
    ∃ buf, storeBytes ((List.range (chunkSize + 1)).map left) 0 (firstChunk d stream) = .ok buf ∧
      storeBytes buf chunkSize [0] = .ok (firstBuf d left stream ++ [0]) := by
  have hchunk := firstChunk_length_le d stream
  have hlen := firstBuf_length d left stream
  have hrange : (List.range (chunkSize + 1)).map left
      = (List.range chunkSize).map left ++ [left chunkSize] := by
    rw [List.range_succ, List.map_append]
    rfl
  have hmap : ((List.range chunkSize).map left).length = chunkSize := by
    rw [List.length_map, List.length_range]
  refine ⟨firstBuf d left stream ++ [left chunkSize], ?_, ?_⟩
  · rw [storeBytes_ok (by rw [hrange, List.length_append, hmap]; omega), hrange, List.take_zero,
      List.nil_append, Nat.zero_add, List.drop_append_of_le_length (by omega), ← List.append_assoc]
    rfl
  · rw [storeBytes_ok (by rw [List.length_append, hlen]; rfl), List.take_left' hlen,
      List.drop_eq_nil_of_le (by rw [List.length_append, hlen]; rfl), List.append_nil]

/-- What the first round goes on with. -/
theorem headBlockRound_first : headBlockRound d left
      ⟨⟨stream, 0⟩, (List.range (chunkSize + 1)).map left, chunkSize, 0⟩ =
    match strstr headerEnd (firstText d left stream) 0 with
    | none =>
      if stream = [] then .ok (.inr none) else do
        let buf ← reallocLeft left (firstBuf d left stream ++ [0]) (chunkSize + chunkSize)
        return .inl ⟨⟨stream.drop (firstChunk d stream).length, 1⟩, buf, chunkSize + chunkSize,
          (firstChunk d stream).length⟩
    | some p => do
      let result ← headBlockDone d left ⟨⟨stream.drop (firstChunk d stream).length, 1⟩,
        firstBuf d left stream ++ [0], chunkSize, (firstChunk d stream).length⟩ (p + 4)
      return .inr result := by
  obtain ⟨buf, hrecv, hend⟩ := firstBuf_eq d left stream
  have hchunk := firstChunk_length_le d stream
  have hsize : (firstChunk d stream).length = d.size 0 chunkSize stream.length :=
    List.length_take_of_le d.size_le_remaining
  have hint : toInt32 (firstChunk d stream).length = (firstChunk d stream).length :=
    toInt32_of_lt (Nat.lt_of_le_of_lt hchunk (by decide))
  have hnil : ((firstChunk d stream).length : Int) ≤ 0 ↔ stream = [] := by
    rw [← firstChunk_eq_nil d, ← List.length_eq_zero_iff]
    omega
  have hlen : (if ((firstChunk d stream).length : Int) > 0 then
      0 + ((firstChunk d stream).length : Int).toNat else 0) = (firstChunk d stream).length := by
    split
    · omega
    · omega
  have hcall : Socket.recv ⟨stream, 0⟩ d chunkSize
      = (firstChunk d stream, ⟨stream.drop (firstChunk d stream).length, 1⟩) := by
    rw [hsize]
    rfl
  simp only [headBlockRound, hcall]
  rw [hrecv, ok_bind, hend, ok_bind, hint, hlen, loadString_nul, ok_bind]
  rw [← firstText]
  cases strstr headerEnd (firstText d left stream) 0 with
  | some p => rfl
  | none =>
      simp only [hnil]
      rfl

/-- A complete header. -/
theorem headBlockDone_iff («end» : Nat) :
    let fits := match strstr lengthName (firstText d left stream) 0 with
      | none => True
      | some q => BodyFits (atol (line ((firstText d left stream).drop (q + 16))))
          ((firstChunk d stream).length - «end») (stream.drop (firstChunk d stream).length)
    let run := headBlockDone d left ⟨⟨stream.drop (firstChunk d stream).length, 1⟩,
      firstBuf d left stream ++ [0], chunkSize, (firstChunk d stream).length⟩ «end»
    (fits → ∃ result, run = .ok result) ∧ (¬ fits → run = .error .write) := by
  have hchunk := firstChunk_length_le d stream
  have hlen := firstBuf_length d left stream
  simp only [headBlockDone, loadString_nul, ok_bind]
  rw [← firstText]
  rcases strstr_cases (by decide : lengthName ≠ []) (firstText d left stream) 0 with
    ⟨q, hq, hpre, -⟩ | ⟨hnone, -⟩
  · rw [Nat.zero_add] at hq
    rw [hq]
    have hstart : q + 16 ≤ (firstText d left stream).length := by
      have hle := hpre.length_le
      rw [List.length_drop, HeaderBlock.lengthName_length] at hle
      omega
    obtain ⟨buf, hcut, hbuf, hnumber⟩ := cutNumber_number hstart
    rw [hlen] at hcut hbuf
    rw [← firstText] at hnumber
    obtain ⟨hlo, hhi⟩ := atol_bounds (line ((firstText d left stream).drop (q + 16)))
    have hbody := @fillResult_iff d left ⟨stream.drop (firstChunk d stream).length, 1⟩ buf
      (firstChunk d stream).length «end» (by omega) _ hlo hhi
    simp only [hcut, ok_bind, hnumber]
    refine ⟨fun hfits => ?_, fun hnot => ?_⟩
    · obtain ⟨result, hrun⟩ := hbody.1 hfits
      exact ⟨some result, by rw [hrun]; rfl⟩
    · rw [hbody.2 hnot]
      rfl
  · rw [hnone]
    exact ⟨fun _ => ⟨_, rfl⟩, fun hnot => absurd trivial hnot⟩

/-- The first loop decides in its first round: it is left there, or the second one writes behind the
    block. -/
theorem httpGetBlocks_run :
    (ResponseFits d left stream → ∃ result, httpGetBlocks d left stream = .ok result) ∧
    (¬ ResponseFits d left stream → httpGetBlocks d left stream = .error .write) := by
  have hmalloc : mallocLeft left (chunkSize + 1) = .ok ((List.range (chunkSize + 1)).map left) :=
    if_pos (by decide)
  have hfirst := headBlockRound_first d left stream
  rw [httpGetBlocks, hmalloc, ok_bind, ResponseFits]
  cases hend : strstr headerEnd (firstText d left stream) 0 with
  | none =>
      rw [hend] at hfirst
      simp only at hfirst ⊢
      by_cases hstream : stream = []
      · rw [if_pos hstream] at hfirst
        exact ⟨fun _ => ⟨_, cLoop_exit hfirst _⟩, fun hnot => absurd hstream hnot⟩
      · refine ⟨fun h => absurd h hstream, fun _ => ?_⟩
        obtain ⟨buf, hrealloc, hbuf⟩ : ∃ buf, reallocLeft left (firstBuf d left stream ++ [0])
            (chunkSize + chunkSize) = .ok buf ∧ buf.length = chunkSize + chunkSize := by
          refine ⟨_, if_pos (by decide), ?_⟩
          have hlen := firstBuf_length d left stream
          simp only [List.length_append, List.length_take, List.length_drop, List.length_map,
            List.length_range, List.length_singleton, hlen]
          decide
        rw [if_neg hstream, hrealloc, ok_bind] at hfirst
        have hsecond := @headBlockRound_second d left
          ⟨stream.drop (firstChunk d stream).length, 1⟩ buf (firstChunk d stream).length hbuf
          (firstChunk_length_le d stream)
        rw [cLoop_next hfirst, cLoop, hsecond]
  | some p =>
      rw [hend] at hfirst
      simp only at hfirst ⊢
      have hdone := headBlockDone_iff d left stream (p + 4)
      refine ⟨fun hfits => ?_, fun hnot => ?_⟩
      · obtain ⟨result, hrun⟩ := hdone.1 hfits
        rw [hrun, ok_bind] at hfirst
        exact ⟨result, cLoop_exit hfirst _⟩
      · rw [hdone.2 hnot, error_bind] at hfirst
        rw [cLoop, hfirst]

end Head

/-- Whatever the server sends, however it is cut up and whatever `malloc` leaves in the blocks:
    `http_get` stays inside its buffers exactly if the response fits, and then it returns. -/
theorem httpGet_inside_iff (d : Delivery) (left : Nat → UInt8) (stream : List UInt8) :
    (httpGetBlocks d left stream ≠ .error .write ↔ ResponseFits d left stream) ∧
    (ResponseFits d left stream → ∃ result, httpGetBlocks d left stream = .ok result) := by
  have hrun := httpGetBlocks_run d left stream
  refine ⟨⟨fun hne => ?_, fun hfits => ?_⟩, hrun.1⟩
  · by_contra hnot
    exact hne (hrun.2 hnot)
  · obtain ⟨result, hok⟩ := hrun.1 hfits
    rw [hok]
    exact fun h => nomatch h

/-- A byte that is not a whole header, a body one byte longer than declared with another behind it,
    and a negative length. -/
theorem httpGet_outside :
    httpGetBlocks (bulkDelivery 100) (fun _ => 0) (bytes "H") = .error .write ∧
    httpGetBlocks (bulkDelivery 100) (fun _ => 0) (bytes "Content-Length: 0\r\n\r\nxx")
      = .error .write ∧
    httpGetBlocks (bulkDelivery 100) (fun _ => 0) (bytes "Content-Length: -1\r\n\r\n")
      = .error .write := by
  decide +kernel

end Ryze
