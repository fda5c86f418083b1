import Ryze.Lib.CText
import Ryze.Lib.ZeroMemory
import Mathlib.Data.UInt

set_option autoImplicit false

/-! # `http_get`: the response

The second half of `http_get` (`util.c`): receive into a growing buffer until the header is complete,
then into a block of `Content-Length` bytes. What `recv` returns for a request is up to a `Delivery`.
The blocks are taken as large enough, with zeros where nothing was written. -/

namespace Ryze

open CLib ZeroMemory

/-! ## The connection -/

/-- How many bytes each call of `recv` returns, from the number of the call, the bytes requested and
    the bytes the server has still to send. -/
structure Delivery where
  size : Nat → Nat → Nat → Nat
  size_pos : ∀ {call requested remaining}, 0 < requested → 0 < remaining →
    0 < size call requested remaining
  size_le_requested : ∀ {call requested remaining}, size call requested remaining ≤ requested
  size_le_remaining : ∀ {call requested remaining}, size call requested remaining ≤ remaining

/-- What the server has still to send, and the number of calls so far. -/
structure Socket where
  rest : List UInt8
  calls : Nat
deriving DecidableEq, Repr

/-- `recv(sockfd, …, requested, 0)`: the bytes it writes; their number is what it returns. -/
def Socket.recv (s : Socket) (d : Delivery) (requested : Nat) : List UInt8 × Socket :=
  let size := d.size s.calls requested s.rest.length
  (s.rest.take size, ⟨s.rest.drop size, s.calls + 1⟩)

/-! ## The two loops -/

/-- The `for` loop behind `Content-Length: `, with `left` bytes to go: the first CR in front of LF
    becomes the end of the string. -/
def endNumber (buf : List UInt8) : (left i : Nat) → List UInt8
  | 0, _ => buf
  | left + 1, i =>
    if buf.getD i 0 = CR ∧ buf.getD (i + 1) 0 = LF then write buf i [0]
    else endNumber buf left (i + 1)

/-- The variables of the second loop. -/
structure BodyState where
  socket : Socket
  result : List UInt8
  index : Nat
deriving DecidableEq, Repr

/-- One round of the second `while(1)`. `ret` is an `int`, and `recv` has written its bytes whatever
    `ret` is. -/
def bodyRound (d : Delivery) (contentLen : Int) (s : BodyState) :
    CRun (BodyState ⊕ List UInt8) :=
  let (bs, socket) := s.socket.recv d (sizeSub (toSize contentLen) s.index)
  let result := write s.result s.index bs
  let ret := toInt32 bs.length
  if ret ≤ 0 then return .inr result
  else return .inl ⟨socket, result, s.index + ret.toNat⟩

/-- `http_get` from `result = malloc(content_len + 1)` on, `buf` being a buffer of `len` received
    bytes whose header ends at `end`. -/
def receiveBody (d : Delivery) (socket : Socket) (buf : List UInt8) (len «end» : Nat)
    (contentLen : Int) : CRun (List UInt8) := do
  let (result, index) :=
    if len > «end» then (write [] 0 (read buf «end» (len - «end»)), len - «end»)
    else ([], 0)
  let result ← cLoop (bodyRound d contentLen) (socket.rest.length + 1) ⟨socket, result, index⟩
  if contentLen < 0 then throw .write else return write result contentLen.toNat [0]

/-- The variables of the first loop. -/
structure HeadState where
  socket : Socket
  buf : List UInt8
  bufSize : Nat
  len : Nat
deriving DecidableEq, Repr

/-- `chunk_size`. -/
def chunkSize : Nat := 1024

/-- What the first loop does with a complete header that ends at `end`. -/
def headDone (d : Delivery) (socket : Socket) (buf : List UInt8) (bufSize len «end» : Nat) :
    CRun (Option (List UInt8)) :=
  match strstr (bytes "Content-Length: ") (string buf) 0 with
  | some p => do
    let start := p + 16
    let buf := endNumber buf (bufSize - 1 - start) start
    let contentLen := atol (string (buf.drop start))
    let result ← receiveBody d socket buf len «end» contentLen
    return some result
  -- TODO: Transfer-Encoding: chunked
  | none => return none

/-- One round of the first `while(1)`. -/
def headRound (d : Delivery) (s : HeadState) : CRun (HeadState ⊕ Option (List UInt8)) :=
  let (bs, socket) := s.socket.recv d chunkSize
  let buf := write s.buf s.len bs
  let ret := toInt32 bs.length
  let len := if ret > 0 then s.len + ret.toNat else s.len
  let buf := write buf s.bufSize [0]
  match strstr (bytes "\r\n\r\n") (string buf) 0 with
  | none =>
    if ret ≤ 0 then return .inr none
    else return .inl ⟨socket, buf, s.bufSize + chunkSize, len⟩
  | some p => do
    let result ← headDone d socket buf s.bufSize len (p + 4)
    return .inr result

/-- `http_get` from the first `malloc` on, when the server sends `stream`: the block it returns, or
    `none` for NULL. -/
def httpGetReceive (d : Delivery) (stream : List UInt8) : CRun (Option (List UInt8)) :=
  cLoop (headRound d) (stream.length + 2) ⟨⟨stream, 0⟩, [], chunkSize, 0⟩

end Ryze
