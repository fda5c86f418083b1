import Ryze.Lib.Cutting
import Ryze.Util.Fragmentation

set_option autoImplicit false

/-! # `http_get` of `test.c`: the response

Everything the server sends goes into a block that grows by 1024 bytes at each call of `recv`, and
what stands behind the first empty line is copied. The bound of the search is an unsigned
`nread - 4`: it wraps for less than four bytes, and it leaves out the last place where the empty line
can stand, the one in front of an empty body. -/

namespace Ryze

open CLib Cutting

namespace Test

/-! ## The functions -/

/-- What each call of `recv` asks for, and what the block grows by. -/
def recvSize : Nat := 1024

/-- The variables of the receive loop. -/
structure RecvState where
  socket : Socket
  body : List (Option UInt8)
  len : Nat
  nread : Nat

/-- One round of the receive loop. -/
def recvRound (d : Delivery) (st : RecvState) :
    CRun (RecvState ⊕ (List (Option UInt8) × Nat)) := do
  let (bs, socket) := st.socket.recv d recvSize
  let body ← memcpy st.body st.nread (cells bs) bs.length
  let ret := toInt32 bs.length
  if ret ≤ 0 then return .inr (body, st.nread)
  else
    let nread := sizeAdd st.nread (toSize ret)
    let len := sizeAdd st.len recvSize
    let body ← realloc body len
    return .inl ⟨socket, body, len, nread⟩

/-- `body` and `nread` behind the receive loop, when the server sends `stream`. -/
def receive (d : Delivery) (stream : List UInt8) : CRun (List (Option UInt8) × Nat) := do
  let body ← malloc recvSize
  cLoop (recvRound d) (stream.length + 1) ⟨⟨stream, 0⟩, body, recvSize, 0⟩

/-- `body[i] == … && body[i + 1] == … && …` -/
def bytesAt (body : List (Option UInt8)) : (needle : List UInt8) → (i : Nat) → CRun Bool
  | [], _ => .ok true
  | c :: needle, i => do
    let b ← loadCell body i
    if b = c then bytesAt body needle (i + 1) else return false

/-- One round of `for(size_t i = 0; i < nread - 4; i++)`. -/
def searchRound (body : List (Option UInt8)) (bound i : Nat) : CRun (Nat ⊕ Nat) :=
  if i < bound then do
    let found ← bytesAt body headerEnd i
    if found then return .inr (i + 4) else return .inl (i + 1)
  else return .inr 0

/-- `body_start`. -/
def findBody (body : List (Option UInt8)) (nread : Nat) : CRun Nat :=
  cLoop (searchRound body (sizeSub nread 4)) (body.length + 1) 0

/-- `http_get` from `len = 1024` on: the block it returns. -/
def httpGetBody (d : Delivery) (stream : List UInt8) : CRun (List (Option UInt8)) := do
  let (body, nread) ← receive d stream
  let bodyStart ← findBody body nread
  let n := sizeSub nread bodyStart
  let buf ← malloc (sizeAdd n 1)
  let buf ← memcpy buf 0 (body.drop bodyStart) n
  store buf n 0

/-! ## Receiving -/

section Receive

variable {d : Delivery}

/-- The bytes of a call go behind the ones before, and the block has room for the next call. -/
theorem recvRound_next {w rest : List UInt8} {calls len : Nat} (hrest : rest ≠ [])
    (hroom : w.length + recvSize ≤ len) (hmax : len + recvSize ≤ ptrdiffMax) :
    ∃ n, 0 < n ∧ n ≤ rest.length ∧ n ≤ recvSize ∧
      recvRound d ⟨⟨rest, calls⟩, filled len w, len, w.length⟩
        = .ok (.inl ⟨⟨rest.drop n, calls + 1⟩, filled (len + recvSize) (w ++ rest.take n), len + recvSize,
            (w ++ rest.take n).length⟩) := by
  have hmod : sizeMod = 2 ^ 64 := rfl
  have hptr : ptrdiffMax = 2 ^ 63 - 1 := rfl
  have hsize : recvSize = 1024 := rfl
  obtain ⟨n, hsize'⟩ : ∃ n, d.size calls recvSize rest.length = n := ⟨_, rfl⟩
  have hpos : 0 < n := hsize' ▸ d.size_pos (by decide) (List.length_pos_of_ne_nil hrest)
  have hreq : n ≤ recvSize := hsize' ▸ d.size_le_requested
  have hrem : n ≤ rest.length := hsize' ▸ d.size_le_remaining
  refine ⟨n, hpos, hrem, hreq, ?_⟩
  simp only [recvRound, Socket.recv, hsize']
  have hn : (rest.take n).length = n := by
    rw [List.length_take]
    omega
  have hsum : (w ++ rest.take n).length = w.length + n := by rw [List.length_append, hn]
  rw [memcpy_filled rfl (cells (rest.take n)) (rest.take n)
      (List.take_of_length_le (by rw [cells_length])) rfl (by omega), ok_bind, hn,
    toInt32_of_lt (by omega), if_neg (by omega), toSize_of_nat (by omega),
    sizeAdd_of_lt (by omega), sizeAdd_of_lt (by omega),
    realloc_filled (by omega) (by omega) hmax, hsum]
  rfl

/-- When everything was sent the loop ends. -/
theorem recvRound_last (w : List UInt8) (calls : Nat) {len : Nat} (hroom : w.length ≤ len) :
    recvRound d ⟨⟨[], calls⟩, filled len w, len, w.length⟩ = .ok (.inr (filled len w, w.length)) := by
  simp only [recvRound, Socket.recv, List.take_nil]
  rw [memcpy_filled rfl (cells []) [] rfl rfl (by rw [List.length_nil]; omega), ok_bind,
    List.append_nil, List.length_nil, if_pos (by decide)]
  rfl

/-- Another call has the room that one byte less to come leaves. -/
theorem recv_grow (len : Nat) {m n : Nat} (h : m < n) :
    len + recvSize + 1024 * (m + 1) ≤ len + 1024 * (n + 1) := by
  have hsize : recvSize = 1024 := rfl
  omega

theorem recvLoop_eq {fuel : Nat} {w rest : List UInt8} {calls len : Nat} (hfuel : rest.length < fuel)
    (hroom : w.length + recvSize ≤ len) (hmax : len + 1024 * (rest.length + 1) ≤ ptrdiffMax) :
    ∃ len', (w ++ rest).length < len' ∧
      cLoop (recvRound d) fuel ⟨⟨rest, calls⟩, filled len w, len, w.length⟩
        = .ok (filled len' (w ++ rest), (w ++ rest).length) := by
  have hsize : recvSize = 1024 := rfl
  induction fuel generalizing w rest calls len with
  | zero => omega
  | succ fuel ih =>
      by_cases hrest : rest = []
      · subst hrest
        rw [List.append_nil]
        exact ⟨len, by omega, cLoop_exit (recvRound_last w calls (by omega)) fuel⟩
      · obtain ⟨n, hpos, hrem, hreq, hround⟩ := @recvRound_next d w rest calls len hrest hroom
          (by omega)
        have hdrop : (rest.drop n).length = rest.length - n := List.length_drop
        have hsum : (w ++ rest.take n).length = w.length + n := by
          rw [List.length_append, List.length_take]
          omega
        have hless : (rest.drop n).length < rest.length := by omega
        obtain ⟨len', hlen', hloop⟩ := @ih (w ++ rest.take n) (rest.drop n) (calls + 1)
          (len + recvSize) (by omega) (by omega)
          ((recv_grow len hless).trans hmax)
        rw [List.append_assoc, List.take_append_drop] at hlen' hloop
        exact ⟨len', hlen', by rw [cLoop_next hround, hloop]⟩

/-- However the stream is cut, all of it is received, in a block with room behind it. -/
theorem receive_eq (stream : List UInt8) (hmax : 1024 * (stream.length + 2) ≤ ptrdiffMax) :
    ∃ len, stream.length < len ∧
      receive d stream = .ok (filled len stream, stream.length) := by
  have hsize : recvSize = 1024 := rfl
  have hgrow := recv_grow 0 (Nat.lt_succ_self stream.length)
  rw [Nat.zero_add, Nat.zero_add] at hgrow
  obtain ⟨len, hlen, hloop⟩ := @recvLoop_eq d _ [] stream 0 recvSize (Nat.lt_succ_self _)
    (by decide) (hgrow.trans hmax)
  rw [List.nil_append] at hlen hloop
  refine ⟨len, hlen, ?_⟩
  rw [receive, malloc_eq_filled (by decide), ok_bind]
  exact hloop

end Receive

/-! ## Searching -/

section Search

variable {s : List UInt8} {len : Nat}

theorem bytesAt_inside {needle : List UInt8} {i : Nat} (hin : i + needle.length ≤ s.length) :
    bytesAt (filled len s) needle i = .ok (decide (needle <+: s.drop i)) := by
  induction needle generalizing i with
  | nil => simp [bytesAt]
  | cons c needle ih =>
      rw [List.length_cons] at hin
      obtain ⟨b, hb⟩ : ∃ b, s[i]? = some b := ⟨_, List.getElem?_eq_getElem (by omega)⟩
      have hdrop : s.drop i = b :: s.drop (i + 1) := by
        rw [← List.cons_getElem_drop_succ (h := by omega)]
        congr 1
        exact (List.getElem?_eq_some_iff.1 hb).2
      have hiff : c :: needle <+: s.drop i ↔ c = b ∧ needle <+: s.drop (i + 1) := by
        rw [hdrop, List.cons_prefix_cons]
      rw [bytesAt, loadCell_filled hb, ok_bind]
      by_cases hbc : b = c
      · rw [if_pos hbc, ih (by omega)]
        congr 1
        exact decide_eq_decide.2 ⟨fun h => hiff.2 ⟨hbc.symm, h⟩, fun h => (hiff.1 h).2⟩
      · rw [if_neg hbc]
        have hno : decide (c :: needle <+: s.drop i) = false :=
          decide_eq_false fun h => hbc (hiff.1 h).1.symm
        rw [hno]
        rfl

/-- A comparison that would go over the end fails before it, or reads what was not received. -/
theorem bytesAt_short {needle : List UInt8} {i : Nat} (hi : i ≤ s.length)
    (hout : s.length < i + needle.length) :
    (i < s.length ∧ bytesAt (filled len s) needle i = .ok false) ∨
      bytesAt (filled len s) needle i = .error .read := by
  induction needle generalizing i with
  | nil =>
      rw [List.length_nil] at hout
      omega
  | cons c needle ih =>
      rw [List.length_cons] at hout
      rw [bytesAt]
      by_cases hlt : i < s.length
      · obtain ⟨b, hb⟩ : ∃ b, s[i]? = some b := ⟨_, List.getElem?_eq_getElem hlt⟩
        rw [loadCell_filled hb, ok_bind]
        split
        · rcases ih (show i + 1 ≤ s.length by omega) (by omega) with ⟨-, hrun⟩ | hrun
          · exact Or.inl ⟨hlt, hrun⟩
          · exact Or.inr hrun
        · exact Or.inl ⟨hlt, rfl⟩
      · rw [loadCell_filled_end (by omega)]
        exact Or.inr rfl

theorem headerEnd_size : headerEnd.length = 4 := rfl

/-- Where the empty line stands the search ends. -/
theorem searchRound_found {bound i : Nat} (hi : i < bound) (hin : i + 4 ≤ s.length)
    (hocc : OccursAt headerEnd s i) :
    searchRound (filled len s) bound i = .ok (.inr (i + 4)) := by
  rw [searchRound, if_pos hi, bytesAt_inside (by rw [headerEnd_size]; exact hin), ok_bind,
    decide_eq_true (show headerEnd <+: s.drop i from hocc)]
  rfl

theorem searchRound_next {bound i : Nat} (hi : i < bound) (hin : i + 4 ≤ s.length)
    (hocc : ¬ OccursAt headerEnd s i) :
    searchRound (filled len s) bound i = .ok (.inl (i + 1)) := by
  rw [searchRound, if_pos hi, bytesAt_inside (by rw [headerEnd_size]; exact hin), ok_bind,
    decide_eq_false (show ¬ headerEnd <+: s.drop i from hocc)]
  rfl

theorem searchRound_end (body : List (Option UInt8)) (bound : Nat) :
    searchRound body bound bound = .ok (.inr 0) := by
  rw [searchRound, if_neg (Nat.lt_irrefl _)]
  rfl

/-- From a place in front of the first empty line the search comes to it. -/
theorem searchLoop_found {bound j : Nat} (hj : j < bound) (hin : bound + 4 ≤ s.length)
    (hocc : OccursAt headerEnd s j) (hfirst : ∀ i < j, ¬ OccursAt headerEnd s i) {k i fuel : Nat}
    (hi : i + k = j) (hfuel : k < fuel) :
    cLoop (searchRound (filled len s) bound) fuel i = .ok (j + 4) := by
  obtain ⟨fuel, rfl⟩ : ∃ f, fuel = f + 1 := ⟨fuel - 1, by omega⟩
  induction k generalizing i fuel with
  | zero =>
      obtain rfl : i = j := by omega
      exact cLoop_exit (searchRound_found hj (by omega) hocc) fuel
  | succ k ih =>
      obtain ⟨fuel, rfl⟩ : ∃ f, fuel = f + 1 := ⟨fuel - 1, by omega⟩
      rw [cLoop_next (searchRound_next (by omega) (by omega) (hfirst i (by omega)))]
      exact ih (by omega) fuel (by omega)

/-- Without one in front of the bound it ends there. -/
theorem searchLoop_none {bound : Nat} (hin : bound + 4 ≤ s.length)
    (hnone : ∀ i < bound, ¬ OccursAt headerEnd s i) {k i fuel : Nat} (hi : i + k = bound)
    (hfuel : k < fuel) : cLoop (searchRound (filled len s) bound) fuel i = .ok 0 := by
  obtain ⟨fuel, rfl⟩ : ∃ f, fuel = f + 1 := ⟨fuel - 1, by omega⟩
  induction k generalizing i fuel with
  | zero =>
      obtain rfl : i = bound := by omega
      exact cLoop_exit (searchRound_end _ _) fuel
  | succ k ih =>
      obtain ⟨fuel, rfl⟩ : ∃ f, fuel = f + 1 := ⟨fuel - 1, by omega⟩
      rw [cLoop_next (searchRound_next (by omega) (by omega) (hnone i (by omega)))]
      exact ih (by omega) fuel (by omega)

/-- With a bound behind the end a short stream is searched to its end and then left. -/
theorem searchLoop_short {bound : Nat} (hshort : s.length < 4) (hbound : s.length < bound)
    {k i fuel : Nat} (hi : i + k = s.length) (hfuel : k < fuel) :
    cLoop (searchRound (filled len s) bound) fuel i = .error .read := by
  obtain ⟨fuel, rfl⟩ : ∃ f, fuel = f + 1 := ⟨fuel - 1, by omega⟩
  have hstop : ∀ {i fuel : Nat}, bytesAt (filled len s) headerEnd i = .error .read → i < bound →
      cLoop (searchRound (filled len s) bound) (fuel + 1) i = .error .read := by
    intro i fuel hread hlt
    rw [cLoop, searchRound, if_pos hlt, hread]
    rfl
  induction k generalizing i fuel with
  | zero =>
      have hsize := headerEnd_size
      rcases @bytesAt_short s len headerEnd i (by omega) (by omega) with ⟨hlt, _⟩ | hread
      · omega
      · exact hstop hread (by omega)
  | succ k ih =>
      have hsize := headerEnd_size
      obtain ⟨fuel, rfl⟩ : ∃ f, fuel = f + 1 := ⟨fuel - 1, by omega⟩
      rcases @bytesAt_short s len headerEnd i (by omega) (by omega) with ⟨hlt, hfalse⟩ | hread
      · have hround : searchRound (filled len s) bound i = .ok (.inl (i + 1)) := by
          rw [searchRound, if_pos (by omega), hfalse]
          rfl
        rw [cLoop_next hround]
        exact ih (by omega) fuel (by omega)
      · exact hstop hread (by omega)

theorem findBody_short (hshort : s.length < 4) (hlen : s.length < len) :
    findBody (filled len s) s.length = .error .read := by
  have hbound : s.length < sizeSub s.length 4 := by
    unfold sizeSub sizeMod
    omega
  exact searchLoop_short hshort hbound (Nat.zero_add _)
    (by rw [filled_length (Nat.le_of_lt hlen)]; omega)

/-- The search finds the body behind the first empty line unless this is the end of the stream. -/
theorem findBody_eq (hfour : 4 ≤ s.length) (hsize : s.length < sizeMod) (hlen : s.length < len) :
    (∃ j, strstr headerEnd s 0 = some j ∧ j + 4 < s.length ∧
        findBody (filled len s) s.length = .ok (j + 4)) ∨
      ((∀ j, strstr headerEnd s 0 = some j → j + 4 = s.length) ∧
        findBody (filled len s) s.length = .ok 0) := by
  have hbound : sizeSub s.length 4 = s.length - 4 := sizeSub_of_le hfour hsize
  have hfuel : s.length < (filled len s).length + 1 := by
    rw [filled_length (Nat.le_of_lt hlen)]
    omega
  have hin : s.length - 4 + 4 ≤ s.length := by omega
  rw [findBody, hbound]
  rcases strstr_cases (show headerEnd ≠ [] by decide) s 0 with ⟨j, hj, hocc, hfirst⟩ | ⟨hnone, hall⟩
  · rw [Nat.zero_add] at hj
    have hroom := List.IsPrefix.length_le hocc
    rw [List.length_drop, headerEnd_size] at hroom
    by_cases hlast : j + 4 < s.length
    · exact Or.inl ⟨j, hj, hlast,
        searchLoop_found (by omega) hin hocc hfirst (Nat.zero_add j) (by omega)⟩
    · have hj4 : s.length - 4 = j := by omega
      refine Or.inr ⟨fun i hi => ?_, ?_⟩
      · rw [hj] at hi
        cases hi
        omega
      · exact searchLoop_none hin (fun i hi => hfirst i (by omega)) (Nat.zero_add _) (by omega)
  · refine Or.inr ⟨fun i hi => ?_, searchLoop_none hin (fun i _ => hall i) (Nat.zero_add _)
      (by omega)⟩
    rw [hnone] at hi
    cases hi

end Search

/-! ## The whole response -/

/-- The block `http_get` returns when the search ended with `start`. -/
theorem httpGetBody_eq {d : Delivery} {s : List UInt8} {len start : Nat}
    (hmax : s.length + 1 ≤ ptrdiffMax) (hrecv : receive d s = .ok (filled len s, s.length))
    (hstart : findBody (filled len s) s.length = .ok start) (hle : start ≤ s.length) :
    httpGetBody d s = .ok (cells (s.drop start ++ [0])) := by
  have hmod : sizeMod = 2 ^ 64 := rfl
  have hptr : ptrdiffMax = 2 ^ 63 - 1 := rfl
  have hn : (s.drop start).length = s.length - start := List.length_drop
  have hsrc : ((filled len s).drop start).take (s.length - start) = cells (s.drop start) := by
    rw [filled, List.drop_append_of_le_length (by rw [cells_length]; exact hle),
      List.take_left' (by rw [List.length_drop, cells_length]), cells, cells, List.map_drop]
  have hone : s.length - start + 1 = (s.drop start ++ [0]).length := by
    rw [List.length_append, hn, List.length_singleton]
  simp only [httpGetBody]
  rw [hrecv, ok_bind]
  simp only
  rw [hstart, ok_bind, sizeSub_of_le hle (by omega), sizeAdd_of_lt (by omega),
    malloc_eq_filled (by omega), ok_bind,
    memcpy_filled (show 0 = ([] : List UInt8).length from rfl) _ _ hsrc hn.symm
      (by rw [hn, List.length_nil]; omega), ok_bind,
    List.nil_append, store_filled (by rw [hn]) 0 (by omega), hone, filled_full]

/-- The search reads only bytes that were received, and the block returned holds what stands behind
    the first empty line. -/
def ExtractsBody (d : Delivery) (stream : List UInt8) : Prop :=
  (∃ body nread start, receive d stream = .ok (body, nread) ∧ findBody body nread = .ok start) ∧
    ∀ j, strstr headerEnd stream 0 = some j →
      httpGetBody d stream = .ok (cells (stream.drop (j + 4) ++ [0]))

/-- **When the body is extracted.** However the stream is cut, exactly if it has at least four bytes
    and does not end with its first empty line. -/
theorem httpGetBody_extracts_iff (d : Delivery) (stream : List UInt8)
    (hmax : 1024 * (stream.length + 2) ≤ ptrdiffMax) :
    ExtractsBody d stream ↔
      4 ≤ stream.length ∧ ∀ j, strstr headerEnd stream 0 = some j → j + 4 ≠ stream.length := by
  have hmax' : stream.length + 1 ≤ ptrdiffMax :=
    Nat.le_trans (Nat.le_trans (Nat.le_succ _) (Nat.le_mul_of_pos_left _ (by decide))) hmax
  have hmod : sizeMod = 2 ^ 64 := rfl
  have hptr : ptrdiffMax = 2 ^ 63 - 1 := rfl
  obtain ⟨len, hlen, hrecv⟩ := receive_eq (d := d) stream hmax
  by_cases hfour : 4 ≤ stream.length
  · rcases findBody_eq hfour (by omega) hlen with ⟨j, hj, hin, hfind⟩ | ⟨hlast, hfind⟩
    · have hne : ∀ i, strstr headerEnd stream 0 = some i → i + 4 ≠ stream.length := by
        intro i hi
        rw [hj] at hi
        cases hi
        omega
      refine iff_of_true ⟨⟨_, _, _, hrecv, hfind⟩, fun i hi => ?_⟩ ⟨hfour, hne⟩
      rw [hj] at hi
      cases hi
      exact httpGetBody_eq hmax' hrecv hfind (by omega)
    · have hwhole := httpGetBody_eq hmax' hrecv hfind (Nat.zero_le _)
      constructor
      · rintro ⟨-, hbody⟩
        refine ⟨hfour, fun j hj hend => ?_⟩
        have hempty := hbody j hj
        rw [hwhole, hend, List.drop_length, List.drop_zero] at hempty
        have hlens := congrArg List.length (Except.ok.inj hempty)
        rw [cells_length, cells_length, List.length_append, List.nil_append] at hlens
        omega
      · rintro ⟨-, hne⟩
        exact ⟨⟨_, _, _, hrecv, hfind⟩, fun j hj => absurd (hlast j hj) (hne j hj)⟩
  · refine iff_of_false ?_ fun h => hfour h.1
    rintro ⟨⟨body, nread, start, hrun, hfind⟩, -⟩
    rw [hrecv] at hrun
    cases hrun
    rw [findBody_short (by omega) hlen] at hfind
    cases hfind

/-- Everything that is asked for and there at once. -/
def greedyDelivery : Delivery where
  size _ requested remaining := min requested remaining
  size_pos := by
    intro _ requested remaining hrequested hremaining
    omega
  size_le_requested := by
    intro _ requested remaining
    omega
  size_le_remaining := by
    intro _ requested remaining
    omega

theorem httpGetBody_ok : ExtractsBody greedyDelivery (bytes "HTTP/1.1 200 OK\r\n\r\nhi") := by
  refine (httpGetBody_extracts_iff greedyDelivery _ (by decide)).2 ⟨by decide, fun j hj => ?_⟩
  have hfound : strstr headerEnd (bytes "HTTP/1.1 200 OK\r\n\r\nhi") 0 = some 15 := by decide
  rw [hfound] at hj
  cases hj
  decide

/-- A response without a body. -/
theorem httpGetBody_emptyBody :
    ¬ ∀ (d : Delivery) (stream : List UInt8), 1024 * (stream.length + 2) ≤ ptrdiffMax →
      ExtractsBody d stream := by
  intro h
  have hrun : httpGetBody greedyDelivery (bytes "\r\n\r\n") = .ok (cells (bytes "\r\n\r\n" ++ [0])) := by
    decide +kernel
  have hempty := (h greedyDelivery (bytes "\r\n\r\n") (by decide)).2 0 (by decide)
  rw [hrun] at hempty
  exact absurd (congrArg List.length (Except.ok.inj hempty)) (by decide)

end Test

end Ryze
