import Ryze.HttpParser.HeaderWire

set_option autoImplicit false

/-! # `http_parse_request`: the request round trip

`http_parse_request` (`server/test.c`, `server/bench.c`) runs the two parsers one behind the other. A
`Request` carries the proofs that its parts may stand on the wire; parsing its wire form gives the
parts back (`httpParseRequest_roundTrip`). -/

namespace Ryze

open CLib

/-- What `http_parse_request` stores. The header offsets count from the end of the request line. -/
structure RequestResult where
  line : RequestLineResult
  header : HeaderResult
  body : Option Nat
  bodyLen : Nat
  readLen : Nat
deriving DecidableEq, Repr

/-- `http_parse_request(data, data_len, …)`. -/
def httpParseRequest (data : List UInt8) (maxHeader : Int) : CRun RequestResult := do
  let line ← httpParseRequestLine data
  -- assert(ret == 0)
  if line.ret ≠ 0 then throw .abort
  else do
    let header ← httpParseHeader (data.drop line.readLen) maxHeader
    if header.ret ≠ 0 then throw .abort
    else
      let readLen := line.readLen + header.readLen
      return {
        line := line
        header := header
        body := if readLen < data.length then some readLen else none
        bodyLen := if readLen < data.length then data.length - readLen else 0
        readLen := readLen }

/-- A request head a client may send. -/
structure Request where
  method : List UInt8
  path : List UInt8
  minor : Nat
  first : HeaderField
  others : List HeaderField
  method_ne : method ≠ []
  method_line : ∀ c ∈ method, c ≠ SP ∧ c ≠ CR ∧ c ≠ LF
  path_ne : path ≠ []
  path_line : ∀ c ∈ path, c ≠ SP ∧ c ≠ CR ∧ c ≠ LF
  minor_lt : minor < 10

namespace Request

/-- The header lines; there is at least one. -/
def headers (r : Request) : List HeaderField := r.first :: r.others

/-- The bytes of the request head on the wire. -/
def wire (r : Request) : List UInt8 :=
  requestLineWire r.method r.path r.minor ++ fieldsWire r.headers ++ [CR, LF]

theorem wire_length (r : Request) : r.wire.length
    = (requestLineWire r.method r.path r.minor).length + ((fieldsWire r.headers).length + 2) := by
  simp only [wire, List.length_append, List.length_cons, List.length_nil]
  omega

end Request

/-- Both parsers on the wire form of a request and anything behind it. -/
theorem httpParseRequest_wire (r : Request) (body : List UInt8) (maxHeader : Nat) :
    httpParseRequest (r.wire ++ body) maxHeader = .ok {
      line := {
        ret := 0
        line := some {
          method := ⟨0, r.method.length⟩
          path := ⟨r.method.length + 1, r.path.length⟩
          minorVersion := r.minor }
        readLen := (requestLineWire r.method r.path r.minor).length }
      header := {
        ret := 0
        data := fieldsWire r.headers ++ CR :: LF :: body
        headers := (storedFields 0 r.headers).take maxHeader
        readLen := (fieldsWire r.headers).length + 2 }
      body := if r.wire.length < (r.wire ++ body).length then some r.wire.length else none
      bodyLen := body.length
      readLen := r.wire.length } := by
  have hwire : r.wire ++ body
      = requestLineWire r.method r.path r.minor ++ (fieldsWire r.headers ++ CR :: LF :: body) := by
    simp [Request.wire]
  have hline := httpParseRequestLine_wire r.method r.path (fieldsWire r.headers ++ CR :: LF :: body)
    r.minor r.minor_lt (fun c hc => (r.method_line c hc).1) (fun c hc => (r.path_line c hc).1)
  have hheader := httpParseHeader_wire r.first r.others body maxHeader
  rw [← Request.headers] at hheader
  have hbody : (if r.wire.length < (r.wire ++ body).length
      then (r.wire ++ body).length - r.wire.length else 0) = body.length := by
    rw [List.length_append]
    split <;> omega
  rw [← hwire] at hline
  have hdrop : (r.wire ++ body).drop (requestLineWire r.method r.path r.minor).length
      = fieldsWire r.headers ++ CR :: LF :: body := by
    rw [hwire, List.drop_left]
  simp only [httpParseRequest, hline, ok_bind, hdrop, hheader, ← r.wire_length, hbody, pure_eq_ok]
  rfl

/-- **Request round trip.** Whatever body follows, parsing the wire form of a request returns 0 twice
    without leaving the buffer, gives back its method, path and minor version and the names and
    values of its first `max_header` headers, and reads exactly up to the body. -/
theorem httpParseRequest_roundTrip (r : Request) (body : List UInt8) (maxHeader : Nat) :
    ∃ q, httpParseRequest (r.wire ++ body) maxHeader = .ok q ∧
      q.line.ret = 0 ∧ q.header.ret = 0 ∧
      (∃ l, q.line.line = some l ∧ l.method.text (r.wire ++ body) = some r.method ∧
        l.path.text (r.wire ++ body) = some r.path ∧ l.minorVersion = r.minor) ∧
      q.header.data = (r.wire ++ body).drop q.line.readLen ∧
      q.header.headers.map (HttpHeader.text q.header.data)
        = (r.headers.take maxHeader).map (fun f => (some f.name, some f.value)) ∧
      q.header.headers.length = min r.headers.length maxHeader ∧
      q.line.readLen + q.header.readLen = r.wire.length ∧
      (r.wire ++ body).drop (q.line.readLen + q.header.readLen) = body := by
  have hmethod : (r.wire ++ body).drop 0 = r.method ++ (SP :: (r.path ++ SP :: (bytes "HTTP/1." ++
      [UInt8.ofNat (48 + r.minor), CR, LF])) ++ fieldsWire r.headers ++ [CR, LF] ++ body) := by
    simp [Request.wire, requestLineWire]
  have hpath : (r.wire ++ body).drop (r.method.length + 1) = r.path ++ (SP :: (bytes "HTTP/1." ++
      [UInt8.ofNat (48 + r.minor), CR, LF]) ++ fieldsWire r.headers ++ [CR, LF] ++ body) := by
    rw [show r.method.length + 1 = 0 + (r.method ++ [SP]).length by simp]
    refine drop_add_of_drop ?_
    rw [hmethod]
    simp
  have hlen := r.wire_length
  have hpathle : r.method.length + 1 ≤ (r.wire ++ body).length := by
    rw [List.length_append, hlen, requestLineWire_length]
    omega
  refine ⟨_, httpParseRequest_wire r body maxHeader, rfl, rfl, ⟨_, rfl, ?_, ?_, rfl⟩, ?_, ?_, ?_,
    ?_, ?_⟩
  · exact slice_of_drop hmethod (Nat.zero_le _)
  · exact slice_of_drop hpath hpathle
  · rw [Request.wire, List.append_assoc, List.append_assoc, List.append_assoc, List.drop_left]
    rfl
  · rw [List.map_take, storedFields_text _ (CR :: LF :: body) r.headers 0 rfl (by omega),
      List.map_take]
  · rw [List.length_take, storedFields_length, Nat.min_comm]
  · exact hlen.symm
  · rw [← hlen, List.drop_left]

example : (httpParseRequest (bytes "GET /a HTTP/1.1\r\nHost: h\r\nX:\t1 \r\n\r\nb") 1).map
    (fun q => (q.header.headers, q.body, q.readLen)) = .ok ([⟨0, 4, 6, 1⟩], some 35, 35) := by
  decide +kernel

end Ryze
