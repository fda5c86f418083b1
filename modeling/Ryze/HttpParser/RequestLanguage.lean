import Ryze.HttpParser.HeaderLanguage
import Ryze.HttpParser.Request
import Ryze.HttpParser.RequestLineSoundness

set_option autoImplicit false

/-! # The language of `http_parse_request`

What is accepted is a line of two words without spaces and a version, and a block behind it,
whatever follows. No such request is the beginning of another one, so behind the bytes that were
read the next request can be taken. -/

namespace Ryze

open CLib

/-- A request as the two parsers take it. -/
structure RawRequest where
  method : List UInt8
  path : List UInt8
  version : UInt8
  block : RawBlock
  method_sp : ∀ b ∈ method, b ≠ SP
  path_sp : ∀ b ∈ path, b ≠ SP
  version_cr : version ≠ CR

/-- What stands behind the line. -/
theorem TakenForLine.drop {data method path rest : List UInt8} {c : UInt8}
    (h : TakenForLine data method path c rest) :
    data.drop (acceptedLine method path c).readLen = rest := by
  have hlit : (bytes "HTTP/1.").length = 7 := rfl
  have hfront : (method ++ SP :: (path ++ SP :: (bytes "HTTP/1." ++ [c, CR, LF]))).length
      = (acceptedLine method path c).readLen := by
    simp only [acceptedLine, List.length_append, List.length_cons, List.length_nil, hlit]
    omega
  have hsplit : data =
      (method ++ SP :: (path ++ SP :: (bytes "HTTP/1." ++ [c, CR, LF]))) ++ rest := by
    rw [h.data_eq]
    simp
  rw [← hfront, hsplit, List.drop_left]

namespace RawRequest

def wire (q : RawRequest) : List UInt8 :=
  q.method ++ SP :: (q.path ++ SP :: (bytes "HTTP/1." ++ q.version :: CR :: LF :: q.block.wire))

theorem wire_append (q : RawRequest) (body : List UInt8) : q.wire ++ body = q.method ++ SP ::
    (q.path ++ SP :: (bytes "HTTP/1." ++ q.version :: CR :: LF :: (q.block.wire ++ body))) := by
  simp [wire]

theorem wire_length (q : RawRequest) :
    q.wire.length = (q.method.length + q.path.length + 12) + q.block.wire.length := by
  have hlit : (bytes "HTTP/1.").length = 7 := rfl
  simp only [wire, List.length_append, List.length_cons, hlit]
  omega

theorem takenForLine (q : RawRequest) (body : List UInt8) :
    TakenForLine (q.wire ++ body) q.method q.path q.version (q.block.wire ++ body) :=
  ⟨q.method_sp, q.path_sp, q.version_cr, q.wire_append body⟩

/-- **No request begins another one.** -/
theorem wire_unique {q q' : RawRequest} {body body' : List UInt8}
    (h : q.wire ++ body = q'.wire ++ body') : q = q' ∧ body = body' := by
  rw [wire_append, wire_append] at h
  obtain ⟨hmethod, h⟩ := (append_cons_inj (fun hsp => q.method_sp SP hsp rfl)
    fun hsp => q'.method_sp SP hsp rfl).1 h
  obtain ⟨hpath, h⟩ := (append_cons_inj (fun hsp => q.path_sp SP hsp rfl)
    fun hsp => q'.path_sp SP hsp rfl).1 h
  obtain ⟨hversion, h⟩ := List.cons.inj (List.append_cancel_left h)
  obtain ⟨hblock, hbody⟩ := RawBlock.wire_unique (List.cons.inj (List.cons.inj h).2).2
  obtain ⟨method, path, version, block, _, _, _⟩ := q
  obtain ⟨method', path', version', block', _, _, _⟩ := q'
  subst hmethod hpath hversion hblock
  exact ⟨rfl, hbody⟩

end RawRequest

/-- `r` is the request `q` with `body` behind it. -/
structure RequestResult.Accepts (maxHeader : Int) (q : RawRequest) (body : List UInt8)
    (r : RequestResult) : Prop where
  line_eq : r.line = acceptedLine q.method q.path q.version
  header : r.header.Accepts maxHeader q.block body
  readLen_eq : r.readLen = q.wire.length
  body_eq : r.body = if body = [] then none else some q.wire.length
  bodyLen_eq : r.bodyLen = body.length

section Language

variable {data : List UInt8} {maxHeader : Int}

theorem httpParseRequest_accepts (maxHeader : Int) (hmax : data.length ≤ ptrdiffMax)
    {q : RawRequest} {body : List UInt8} (hdata : data = q.wire ++ body) :
    ∃ r, httpParseRequest data maxHeader = .ok r ∧ r.Accepts maxHeader q body := by
  subst hdata
  have htaken := q.takenForLine body
  have hlen := q.wire_length
  have hline := htaken.run
  have hdrop := htaken.drop
  have hmax' : (q.block.wire ++ body).length ≤ ptrdiffMax := by
    rw [List.length_append] at hmax ⊢
    omega
  obtain ⟨h, hh, haccepts⟩ := httpParseHeader_accepts maxHeader hmax' rfl
  have hread : (acceptedLine q.method q.path q.version).readLen + h.readLen = q.wire.length := by
    rw [haccepts.readLen_eq, hlen]
    rfl
  have hrun : httpParseRequest (q.wire ++ body) maxHeader = .ok {
      line := acceptedLine q.method q.path q.version
      header := h
      body := if q.wire.length < (q.wire ++ body).length then some q.wire.length else none
      bodyLen := if q.wire.length < (q.wire ++ body).length
        then (q.wire ++ body).length - q.wire.length else 0
      readLen := q.wire.length } := by
    simp only [httpParseRequest, hline, hdrop, hh, haccepts.ret, ok_bind, hread, pure_eq_ok]
    rfl
  refine ⟨_, hrun, rfl, haccepts, rfl, ?_, ?_⟩
  · cases body with
    | nil => simp
    | cons c body => simp
  · cases body with
    | nil => simp
    | cons c body => simp

/-- **The language of `http_parse_request`.** Its asserts hold exactly on the requests with anything
    behind them, and then it gives their parts. The bytes leave no choice what the request is. -/
theorem httpParseRequest_language (data : List UInt8) (maxHeader : Int)
    (hmax : data.length ≤ ptrdiffMax) :
    ((∃ r, httpParseRequest data maxHeader = .ok r) ↔
      ∃ (q : RawRequest) (body : List UInt8), data = q.wire ++ body) ∧
    (∀ (q : RawRequest) (body : List UInt8), data = q.wire ++ body →
      ∃ r, httpParseRequest data maxHeader = .ok r ∧ r.Accepts maxHeader q body) ∧
    ∀ (q q' : RawRequest) (body body' : List UInt8), data = q.wire ++ body →
      data = q'.wire ++ body' → q = q' ∧ body = body' := by
  refine ⟨⟨?_, ?_⟩, fun q body hdata => httpParseRequest_accepts maxHeader hmax hdata,
    fun q q' body body' hdata hdata' => RawRequest.wire_unique (hdata.symm.trans hdata')⟩
  · rintro ⟨r, hr⟩
    obtain ⟨line, hline, hr⟩ := bind_eq_ok.1 hr
    split at hr
    · cases hr
    · next hret =>
        obtain ⟨method, path, c, rest, htaken, rfl⟩ :=
          httpParseRequestLine_accepts hline (by simpa using hret)
        obtain ⟨header, hheader, hr⟩ := bind_eq_ok.1 hr
        split at hr
        · cases hr
        · next hzero =>
            have hle : (data.drop (acceptedLine method path c).readLen).length ≤ ptrdiffMax := by
              rw [List.length_drop]
              omega
            rcases httpParseHeader_ends hle hheader with ⟨-, b, body, hblock⟩ | ⟨hone, -⟩
            · rw [htaken.drop] at hblock
              refine ⟨⟨method, path, c, b, htaken.method_sp, htaken.path_sp, htaken.version_cr⟩,
                body, ?_⟩
              rw [RawRequest.wire_append, ← hblock]
              exact htaken.data_eq
            · exact absurd (by simp [hone]) hzero
  · rintro ⟨q, body, hdata⟩
    obtain ⟨r, hr, -⟩ := httpParseRequest_accepts maxHeader hmax hdata
    exact ⟨r, hr⟩

end Language

/-- A request whose method is empty and whose version is no digit. -/
theorem httpParseRequest_language_lax :
    ∃ (q : RawRequest) (body : List UInt8),
      bytes " /a HTTP/1.x\r\nA:b\r\n\r\nGET" = q.wire ++ body := by
  refine (httpParseRequest_language (bytes " /a HTTP/1.x\r\nA:b\r\n\r\nGET") 4 (by decide)).1.1 ?_
  have hrun : (httpParseRequest (bytes " /a HTTP/1.x\r\nA:b\r\n\r\nGET") 4).toOption.isSome
      = true := by decide +kernel
  cases hr : httpParseRequest (bytes " /a HTTP/1.x\r\nA:b\r\n\r\nGET") 4 with
  | error e =>
      rw [hr] at hrun
      cases hrun
  | ok r => exact ⟨r, rfl⟩

end Ryze
