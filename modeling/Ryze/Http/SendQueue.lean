import Ryze.Lib.ByteStream
import Ryze.Lib.CBuffer

set_option autoImplicit false

/-! # The send queue of a connection

`http_res_write` puts a buffer at the end of a connection's list, `http_on_write` writes the buffers
of the list until the socket would block, and closes the connection when the list is empty. Its inner
loop runs while `offset < length - 1`, so it stops in front of the last byte. The results here are
about the runs in which this does no harm: no write leaves exactly one byte, and no buffer of one
byte gets to the head of the list. -/

namespace Ryze

open CLib Transition

/-- `struct ev_buffer`; its `length` is that of the data. -/
structure EvBuffer where
  data : List UInt8
  offset : Nat
  /-- `length` is a `size_t` -/
  length_lt : data.length < sizeMod
  offset_le : offset ≤ data.length
deriving DecidableEq, Repr

/-- Where the connection is: outside `http_on_write`, in it, or closed and freed. -/
inductive SendPhase
  | idle
  | writing
  | closed
deriving DecidableEq, Repr

/-- A connection: its list, its phase, and as history the buffers that were queued, the bytes that
    `write` accepted and the buffers that were unlinked. -/
structure EvRequest where
  list : List EvBuffer
  phase : SendPhase
  queued : List (List UInt8)
  accepted : List UInt8
  unlinked : List (List UInt8)
deriving DecidableEq, Repr

/-- A step: a call of one of the two functions, one `write` with its result, or the next turn of the
    outer loop of `http_on_write`. -/
inductive SendAction
  | httpResWrite (data : List UInt8)
  | httpOnWrite
  | write (n : Int)
  | turn
deriving DecidableEq, Repr

/-- `rwbuf->offset < rwbuf->length - 1`, in `size_t`. -/
def EvBuffer.loops (b : EvBuffer) : Prop := b.offset < sizeSub b.data.length 1

instance (b : EvBuffer) : Decidable b.loops := inferInstanceAs (Decidable (_ < _))

def EvRequest.httpResWrite (data : List UInt8) (req : EvRequest) : Option EvRequest :=
  if h : data.length < sizeMod then
    some { req with
      list := req.list ++ [⟨data, 0, h, Nat.zero_le _⟩]
      queued := req.queued ++ [data] }
  else none

/-- `write(fd, data + offset, length - offset)` returns `n`. -/
def EvRequest.write (n : Int) (req : EvRequest) : Option EvRequest :=
  match req.list with
  | [] => none
  | b :: bs =>
    if b.loops then
      if 0 < n then
        if h : b.offset + n.toNat ≤ b.data.length then
          some { req with
            list := ⟨b.data, b.offset + n.toNat, b.length_lt, h⟩ :: bs
            accepted := req.accepted ++ (b.data.drop b.offset).take n.toNat }
        else none
      -- `is_full = 1`: both loops are left, and the list is not empty
      else some { req with phase := .idle }
    else none

/-- The outer loop, where no write is made: a buffer the inner loop is done with is unlinked and
    freed; when there is none left the connection is closed and freed. -/
def EvRequest.turn (req : EvRequest) : Option EvRequest :=
  match req.list with
  | [] => some { req with phase := .closed }
  | b :: bs =>
    if b.loops then none
    else some { req with list := bs, unlinked := req.unlinked ++ [b.data] }

def sendQueue : System EvRequest SendAction where
  init := ⟨[], .idle, [], [], []⟩
  step req
    | .httpResWrite data => if req.phase = .idle then req.httpResWrite data else none
    | .httpOnWrite => if req.phase = .idle then some { req with phase := .writing } else none
    | .write n => if req.phase = .writing then req.write n else none
    | .turn => if req.phase = .writing then req.turn else none

/-- The inner loop does not stop in front of a last byte: the write leaves none or at least two, and
    the buffer that is looked at is not a single byte. -/
def KeepsLastByte (req : EvRequest) : SendAction → Prop
  | .write n => ∀ b ∈ req.list.head?, 0 < n → b.offset + n.toNat + 1 ≠ b.data.length
  | .turn => ∀ b ∈ req.list.head?, b.data.length ≠ 1 ∨ b.offset ≠ 0
  | _ => True

instance (req : EvRequest) : (a : SendAction) → Decidable (KeepsLastByte req a)
  | .write n => inferInstanceAs (Decidable (∀ b ∈ req.list.head?, 0 < n →
      b.offset + n.toNat + 1 ≠ b.data.length))
  | .turn => inferInstanceAs (Decidable (∀ b ∈ req.list.head?, b.data.length ≠ 1 ∨ b.offset ≠ 0))
  | .httpResWrite _ => isTrue trivial
  | .httpOnWrite => isTrue trivial

/-- No byte is lost: those accepted are the beginning of those queued, a buffer is unlinked after all
    its bytes were accepted, and the connection is closed after all bytes were. -/
structure EvRequest.Lossless (req : EvRequest) : Prop where
  accepted_inOrder : req.accepted <+: req.queued.flatten
  unlinked_accepted : req.unlinked.flatten <+: req.accepted
  unlinked_inOrder : req.unlinked <+: req.queued
  closed_accepted : req.phase = .closed → req.accepted = req.queued.flatten

/-! ## What a step can do -/

/-- A step queues a buffer, enters `http_on_write`, writes from the first buffer, leaves
    `http_on_write` at a write that would block, closes the connection, or unlinks a buffer. -/
inductive EvRequest.Steps (req : EvRequest) : SendAction → EvRequest → Prop
  | queue {data : List UInt8} (hphase : req.phase = .idle) (hlt : data.length < sizeMod) :
      Steps req (.httpResWrite data) { req with
        list := req.list ++ [⟨data, 0, hlt, Nat.zero_le _⟩]
        queued := req.queued ++ [data] }
  | enter (hphase : req.phase = .idle) : Steps req .httpOnWrite { req with phase := .writing }
  | accept {n : Int} {b : EvBuffer} {bs : List EvBuffer} (hphase : req.phase = .writing)
      (hlist : req.list = b :: bs) (hpos : 0 < n) (hle : b.offset + n.toNat ≤ b.data.length) :
      Steps req (.write n) { req with
        list := ⟨b.data, b.offset + n.toNat, b.length_lt, hle⟩ :: bs
        accepted := req.accepted ++ (b.data.drop b.offset).take n.toNat }
  | block {n : Int} (hphase : req.phase = .writing) :
      Steps req (.write n) { req with phase := .idle }
  | close (hphase : req.phase = .writing) (hlist : req.list = []) :
      Steps req .turn { req with phase := .closed }
  | unlink {b : EvBuffer} {bs : List EvBuffer} (hphase : req.phase = .writing)
      (hlist : req.list = b :: bs) (hdone : ¬ b.loops) :
      Steps req .turn { req with list := bs, unlinked := req.unlinked ++ [b.data] }

theorem EvRequest.steps_write {req req' : EvRequest} {n : Int} (hphase : req.phase = .writing)
    (h : req.write n = some req') : req.Steps (.write n) req' := by
  unfold EvRequest.write at h
  split at h
  · cases h
  · next b bs hlist =>
      split at h
      · split at h
        · next hpos =>
            split at h
            · next hle =>
                cases h
                exact .accept hphase hlist hpos hle
            · cases h
        · cases h
          exact .block hphase
      · cases h

theorem EvRequest.steps_turn {req req' : EvRequest} (hphase : req.phase = .writing)
    (h : req.turn = some req') : req.Steps .turn req' := by
  unfold EvRequest.turn at h
  split at h
  · next hlist =>
      cases h
      exact .close hphase hlist
  · next b bs hlist =>
      split at h
      · cases h
      · next hdone =>
          cases h
          exact .unlink hphase hlist hdone

theorem sendQueue_steps {req req' : EvRequest} {a : SendAction}
    (h : sendQueue.step req a = some req') : req.Steps a req' := by
  cases a with
  | httpResWrite data =>
      change (if _ then _ else _) = _ at h
      split at h
      · next hphase =>
          unfold EvRequest.httpResWrite at h
          split at h
          · next hlt =>
              cases h
              exact .queue hphase hlt
          · cases h
      · cases h
  | httpOnWrite =>
      change (if _ then _ else _) = _ at h
      split at h
      · next hphase =>
          cases h
          exact .enter hphase
      · cases h
  | write n =>
      change (if _ then _ else _) = _ at h
      split at h
      · next hphase => exact EvRequest.steps_write hphase h
      · cases h
  | turn =>
      change (if _ then _ else _) = _ at h
      split at h
      · next hphase => exact EvRequest.steps_turn hphase h
      · cases h

/-! ## What a step keeps -/

/-- The inner loop is done with a buffer that has at most one byte left, and never with an empty
    one, for which `length - 1` wraps around. -/
theorem EvBuffer.left_of_not_loops {b : EvBuffer} (h : ¬ b.loops) :
    b.offset = b.data.length ∨ b.offset + 1 = b.data.length := by
  unfold EvBuffer.loops at h
  have hlt := b.length_lt
  have hle := b.offset_le
  by_cases hempty : b.data.length = 0
  · left
    omega
  · rw [sizeSub_of_le (by omega) hlt] at h
    omega

/-- The list continues what was unlinked; only its first buffer has been written from, and not up to
    its last byte. -/
structure EvRequest.Inv (req : EvRequest) : Prop where
  queued_eq : req.queued = req.unlinked ++ req.list.map EvBuffer.data
  accepted_eq : req.accepted = req.unlinked.flatten ++ req.list.flatMap fun b => b.data.take b.offset
  tail_offset : ∀ b ∈ req.list.tail, b.offset = 0
  head_offset : ∀ b ∈ req.list.head?, b.offset = 0 ∨ b.offset + 1 ≠ b.data.length
  closed_list : req.phase = .closed → req.list = []

theorem taken_nil {bs : List EvBuffer} (h : ∀ b ∈ bs, b.offset = 0) :
    (bs.flatMap fun b => b.data.take b.offset) = [] := by
  rw [List.flatMap_eq_nil_iff]
  intro b hb
  rw [h b hb, List.take_zero]

theorem EvRequest.Inv.init : sendQueue.init.Inv where
  queued_eq := rfl
  accepted_eq := rfl
  tail_offset := by
    intro b hb
    cases hb
  head_offset := by
    intro b hb
    cases hb
  closed_list := fun _ => rfl

theorem EvRequest.Inv.queue {req : EvRequest} (hinv : req.Inv) (hphase : req.phase = .idle)
    {data : List UInt8} (hlt : data.length < sizeMod) : EvRequest.Inv { req with
      list := req.list ++ [⟨data, 0, hlt, Nat.zero_le _⟩]
      queued := req.queued ++ [data] } where
  queued_eq := by
    simp only [hinv.queued_eq, List.map_append, List.map_singleton, List.append_assoc]
  accepted_eq := by
    simp only [hinv.accepted_eq, List.flatMap_append, List.flatMap_singleton, List.take_zero,
      List.append_nil]
  tail_offset := by
    intro b hb
    cases hlist : req.list with
    | nil => simp [hlist] at hb
    | cons c cs =>
        rw [hlist, List.cons_append, List.tail_cons] at hb
        rcases List.mem_append.1 hb with hb | hb
        · exact hinv.tail_offset b (by rw [hlist]; exact hb)
        · rw [List.mem_singleton.1 hb]
  head_offset := by
    intro b hb
    cases hlist : req.list with
    | nil =>
        simp only [hlist, List.nil_append, List.head?_cons, Option.mem_some_iff] at hb
        left
        rw [← hb]
    | cons c cs =>
        simp only [hlist, List.cons_append, List.head?_cons] at hb
        exact hinv.head_offset b (by rw [hlist]; exact hb)
  closed_list := by
    intro hclosed
    simp only [hphase, reduceCtorEq] at hclosed

theorem EvRequest.Inv.phase {req : EvRequest} (hinv : req.Inv) (p : SendPhase)
    (h : p = .closed → req.list = []) : EvRequest.Inv { req with phase := p } :=
  ⟨hinv.queued_eq, hinv.accepted_eq, hinv.tail_offset, hinv.head_offset, h⟩

/-- Behind the first buffer nothing has been written. -/
theorem EvRequest.Inv.rest_offset {req : EvRequest} (hinv : req.Inv) {b : EvBuffer}
    {bs : List EvBuffer} (hlist : req.list = b :: bs) : ∀ c ∈ bs, c.offset = 0 := by
  have htail := hinv.tail_offset
  rwa [hlist] at htail

theorem EvRequest.Inv.accept {req : EvRequest} (hinv : req.Inv) {n : Int} {b : EvBuffer}
    {bs : List EvBuffer} (hkeep : KeepsLastByte req (.write n)) (hphase : req.phase = .writing)
    (hlist : req.list = b :: bs) (hpos : 0 < n) (hle : b.offset + n.toNat ≤ b.data.length) :
    EvRequest.Inv { req with
      list := ⟨b.data, b.offset + n.toNat, b.length_lt, hle⟩ :: bs
      accepted := req.accepted ++ (b.data.drop b.offset).take n.toNat } where
  queued_eq := by
    simp only [hinv.queued_eq, hlist, List.map_cons]
  accepted_eq := by
    have htaken := taken_nil (hinv.rest_offset hlist)
    have haccepted := hinv.accepted_eq
    rw [hlist, List.flatMap_cons, htaken, List.append_nil] at haccepted
    -- the bytes behind the old offset come behind those before it
    simp only [haccepted, List.flatMap_cons, htaken, List.append_nil, List.append_assoc,
      List.append_cancel_left_eq]
    rw [List.take_add]
  tail_offset := hinv.rest_offset hlist
  head_offset := by
    intro c hc
    rw [← Option.mem_some_iff.1 hc]
    exact Or.inr (hkeep b (by rw [hlist]; rfl) hpos)
  closed_list := by
    intro hclosed
    simp only [hphase, reduceCtorEq] at hclosed

/-- A buffer is unlinked when all of it was written. -/
theorem EvRequest.Inv.unlinked_full {req : EvRequest} (hinv : req.Inv)
    (hkeep : KeepsLastByte req .turn) {b : EvBuffer} {bs : List EvBuffer} (hlist : req.list = b :: bs)
    (hdone : ¬ b.loops) : b.offset = b.data.length := by
  have hhead := hinv.head_offset b (by rw [hlist]; rfl)
  have hone := hkeep b (by rw [hlist]; rfl)
  rcases EvBuffer.left_of_not_loops hdone with hfull | hlast
  · exact hfull
  · omega

theorem EvRequest.Inv.unlink {req : EvRequest} (hinv : req.Inv) {b : EvBuffer}
    {bs : List EvBuffer} (hkeep : KeepsLastByte req .turn) (hphase : req.phase = .writing)
    (hlist : req.list = b :: bs) (hdone : ¬ b.loops) :
    EvRequest.Inv { req with list := bs, unlinked := req.unlinked ++ [b.data] } where
  queued_eq := by
    simp only [hinv.queued_eq, hlist, List.map_cons, List.append_assoc, List.singleton_append]
  accepted_eq := by
    have hfull := hinv.unlinked_full hkeep hlist hdone
    simp only [hinv.accepted_eq, hlist, List.flatMap_cons, taken_nil (hinv.rest_offset hlist), hfull,
      List.take_length, List.flatten_append, List.flatten_singleton, List.append_nil]
  tail_offset := fun c hc => hinv.rest_offset hlist c (List.mem_of_mem_tail hc)
  head_offset := fun c hc => Or.inl (hinv.rest_offset hlist c (List.mem_of_mem_head? hc))
  closed_list := by
    intro hclosed
    simp only [hphase, reduceCtorEq] at hclosed

theorem EvRequest.Inv.step {req req' : EvRequest} {a : SendAction} (hinv : req.Inv)
    (hkeep : KeepsLastByte req a) (h : sendQueue.step req a = some req') : req'.Inv := by
  cases sendQueue_steps h with
  | queue hphase hlt => exact hinv.queue hphase hlt
  | enter hphase => exact hinv.phase _ (fun hclosed => nomatch hclosed)
  | accept hphase hlist hpos hle => exact hinv.accept hkeep hphase hlist hpos hle
  | block hphase => exact hinv.phase _ (fun hclosed => nomatch hclosed)
  | close hphase hlist => exact hinv.phase _ (fun _ => hlist)
  | unlink hphase hlist hdone => exact hinv.unlink hkeep hphase hlist hdone

theorem EvRequest.Inv.of_reachable {req : EvRequest}
    (hreq : Reachable (sendQueue.restrict KeepsLastByte) req) : req.Inv := by
  refine hreq.invariant EvRequest.Inv
    (show EvRequest.Inv (sendQueue.restrict KeepsLastByte).init from EvRequest.Inv.init) ?_
  intro req a req' hinv hstep
  obtain ⟨hkeep, hstep⟩ := System.restrict_step.1 hstep
  exact hinv.step hkeep hstep

/-! ## The queue as a stream -/

/-- The bytes queued, accepted and still in the list. -/
def EvRequest.stream (req : EvRequest) : Stream UInt8 where
  put := req.queued.flatten
  sent := req.accepted
  pending := req.list.flatMap fun b => b.data.drop b.offset
  closed := decide (req.phase = .closed)

theorem EvRequest.stream_open {req : EvRequest} (h : req.phase ≠ .closed) :
    req.stream.closed = false := by
  simp [EvRequest.stream, h]

/-- A write sends the beginning of what is pending. -/
theorem EvRequest.stream_accept {req : EvRequest} {n : Int} {b : EvBuffer} {bs : List EvBuffer}
    (hphase : req.phase = .writing) (hlist : req.list = b :: bs)
    (hle : b.offset + n.toNat ≤ b.data.length) :
    (Transition.stream UInt8).step req.stream (.send n.toNat) = some (EvRequest.stream { req with
      list := ⟨b.data, b.offset + n.toNat, b.length_lt, hle⟩ :: bs
      accepted := req.accepted ++ (b.data.drop b.offset).take n.toNat }) := by
  have hroom : n.toNat ≤ (b.data.drop b.offset).length := by
    rw [List.length_drop]
    omega
  have hpending : req.stream.pending = b.data.drop b.offset
      ++ bs.flatMap fun b => b.data.drop b.offset := by
    simp [EvRequest.stream, hlist]
  have hlen : n.toNat ≤ req.stream.pending.length := by
    rw [hpending, List.length_append]
    omega
  rw [stream_step_of_open (EvRequest.stream_open (by rw [hphase]; decide))]
  simp only
  rw [if_pos hlen, hpending, List.take_append_of_le_length hroom,
    List.drop_append_of_le_length hroom, List.drop_drop]
  simp [EvRequest.stream]

/-- As long as no last byte is left behind, the queue is a stream: appending puts, a write sends, and
    unlinking a buffer changes nothing. -/
theorem sendQueue_refines :
    Refines (sendQueue.restrict KeepsLastByte) (Transition.stream UInt8) EvRequest.stream where
  init := rfl
  step := by
    intro req a req' hreq hstep
    obtain ⟨hkeep, hstep⟩ := System.restrict_step.1 hstep
    have hinv := EvRequest.Inv.of_reachable hreq
    cases sendQueue_steps hstep with
    | @queue data hphase hlt =>
        right
        refine ⟨.put data, ?_⟩
        rw [stream_step_of_open (EvRequest.stream_open (by rw [hphase]; decide))]
        simp [EvRequest.stream]
    | enter hphase =>
        left
        simp [EvRequest.stream, hphase]
    | @accept n b bs hphase hlist hpos hle =>
        right
        exact ⟨.send n.toNat, EvRequest.stream_accept hphase hlist hle⟩
    | block hphase =>
        left
        simp [EvRequest.stream, hphase]
    | close hphase hlist =>
        right
        refine ⟨.close, ?_⟩
        rw [stream_step_of_open (EvRequest.stream_open (by rw [hphase]; decide))]
        simp [EvRequest.stream, hlist]
    | unlink hphase hlist hdone =>
        left
        have hfull := hinv.unlinked_full hkeep hlist hdone
        simp [EvRequest.stream, hlist, hfull]

/-- In every run in which no write leaves exactly one byte of a buffer and no buffer of one byte comes
    to the head of the list, no byte is lost. -/
theorem sendQueue_lossless (req : EvRequest)
    (hreq : Reachable (sendQueue.restrict KeepsLastByte) req) : req.Lossless := by
  have hinv := EvRequest.Inv.of_reachable hreq
  have hstream : Reachable (Transition.stream UInt8) req.stream := sendQueue_refines.reachable hreq
  constructor
  · exact Stream.sent_inOrder hstream
  · rw [hinv.accepted_eq]
    exact List.prefix_append _ _
  · rw [hinv.queued_eq]
    exact List.prefix_append _ _
  · intro hclosed
    exact Stream.sent_eq_put hstream (by simp [EvRequest.stream, hclosed])

theorem sendQueue_lossless_run :
    ∃ req, Reachable (sendQueue.restrict KeepsLastByte) req ∧ req.phase = .closed ∧
      req.accepted = bytes "abcde" ∧ req.Lossless := by
  have hrun : ((sendQueue.restrict KeepsLastByte).run sendQueue.init
      [.httpResWrite (bytes "abc"), .httpResWrite (bytes "de"), .httpOnWrite, .write 1, .write (-1),
        .httpOnWrite, .write 2, .turn, .write 2, .turn, .turn])
      = some ⟨[], .closed, [bytes "abc", bytes "de"], bytes "abcde", [bytes "abc", bytes "de"]⟩ := by
    decide +kernel
  have hreq := Reachable.init.run hrun
  exact ⟨_, hreq, rfl, rfl, sendQueue_lossless _ hreq⟩

/-- A buffer with one byte left: no write is made for it, it is unlinked. -/
theorem lastByte_unlinked {req : EvRequest} {b : EvBuffer} {bs : List EvBuffer}
    (hlist : req.list = b :: bs) (hlast : b.offset + 1 = b.data.length) :
    (∀ n, req.write n = none) ∧
      req.turn = some { req with list := bs, unlinked := req.unlinked ++ [b.data] } := by
  have hdone : ¬ b.loops := by
    unfold EvBuffer.loops
    rw [sizeSub_of_le (by omega) b.length_lt]
    omega
  constructor
  · intro n
    unfold EvRequest.write
    simp only [hlist, if_neg hdone]
  · unfold EvRequest.turn
    simp only [hlist, if_neg hdone]

/-- After a write of one of two bytes the other one is lost, and a single byte is lost at once: the
    connection is closed without it. -/
theorem sendQueue_losesLastByte :
    (¬ ∀ req, Reachable sendQueue req → req.Lossless) ∧
    (∃ req, Reachable sendQueue req ∧ req.phase = .closed ∧ req.queued = [bytes "ab"] ∧
      req.accepted = bytes "a") ∧
    ∃ req, Reachable sendQueue req ∧ req.phase = .closed ∧ req.queued = [bytes "a"] ∧
      req.accepted = [] := by
  have hrun : sendQueue.run sendQueue.init
      [.httpResWrite (bytes "ab"), .httpOnWrite, .write 1, .turn, .turn]
      = some ⟨[], .closed, [bytes "ab"], bytes "a", [bytes "ab"]⟩ := by decide +kernel
  have hone : sendQueue.run sendQueue.init
      [.httpResWrite (bytes "a"), .httpOnWrite, .turn, .turn]
      = some ⟨[], .closed, [bytes "a"], [], [bytes "a"]⟩ := by decide +kernel
  refine ⟨?_, ⟨_, Reachable.init.run hrun, rfl, rfl, rfl⟩, ⟨_, Reachable.init.run hone, rfl, rfl, rfl⟩⟩
  intro h
  have hall := (h _ (Reachable.init.run hrun)).closed_accepted rfl
  exact absurd hall (by decide)

end Ryze
