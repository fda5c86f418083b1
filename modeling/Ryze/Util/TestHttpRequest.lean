import Ryze.HttpParser.RequestLanguage
import Ryze.Util.HttpGet
import Ryze.Util.UrlSplit

set_option autoImplicit false

/-! # `http_get` of `test.c`: the request

The URL goes through `url_parse`, its path and its host into a request whose last lines are the
caller's, and the server's parsers read it back. The text of the caller stands in front of the CR LF
that is to be the empty line; where it does not end its own last line, this CR LF does, and the server
goes on waiting. -/

namespace Ryze

open CLib

/-- Nothing of the URL ends a word or a line of the request. -/
structure Url.Plain (u : Url) : Prop where
  host_text : ∀ c ∈ u.host, c ≠ SP ∧ c ≠ HT ∧ c ≠ CR ∧ c ≠ LF
  path_text : ∀ c ∈ u.path ++ u.search, c ≠ SP ∧ c ≠ CR ∧ c ≠ LF

namespace Test

/-! ## The function -/

/-- `fmt` -/
def requestFormat : List UInt8 :=
  bytes "GET %s HTTP/1.1\r\n" ++
  bytes "Host: %s\r\n" ++
  bytes "Connection: close\r\n" ++
  bytes "%s\r\n"

/-- What `http_get` asks `gethostbyname` for, connects to and sends. -/
structure HttpGetRequest where
  hostname : List UInt8
  /-- what `htons` takes -/
  port : UInt16
  headers : List UInt8
deriving DecidableEq, Repr

/-- `http_get(url, header)` up to `send`; `header` is `none` for the null pointer. -/
def httpGetRequest (url : List UInt8) (header : Option (List UInt8)) : CRun HttpGetRequest := do
  let urlS ← urlParse url
  let headers ← malloc (requestFormat.length + urlS.path.length + urlS.host.length +
    (header.map List.length).getD 0 + 1)
  let text := sprintf requestFormat [urlS.path, urlS.host, header.getD []]
  let headers ← memcpy headers 0 (cells (text ++ [0])) (text.length + 1)
  let headers ← cstr headers
  return {
    hostname := urlS.hostname
    port := UInt16.ofInt urlS.port
    headers := headers }

/-! ## The text -/

/-- What `sprintf` writes. -/
theorem sprintf_requestFormat (path host header : List UInt8) :
    sprintf requestFormat [path, host, header] = bytes "GET " ++ (path ++
      (bytes " HTTP/1.1\r\nHost: " ++ (host ++
        (bytes "\r\nConnection: close\r\n" ++ (header ++ bytes "\r\n"))))) := by
  have hformat : requestFormat = bytes "GET " ++ (bytes "%s" ++ (bytes " HTTP/1.1\r\nHost: " ++
      (bytes "%s" ++ (bytes "\r\nConnection: close\r\n" ++ (bytes "%s" ++ bytes "\r\n"))))) := by
    decide +kernel
  have hget : percent ∉ bytes "GET " := by decide +kernel
  have hversion : percent ∉ bytes " HTTP/1.1\r\nHost: " := by decide +kernel
  have hclose : percent ∉ bytes "\r\nConnection: close\r\n" := by decide +kernel
  have hend := sprintf_literal (show percent ∉ bytes "\r\n" by decide +kernel) [] []
  rw [List.append_nil] at hend
  rw [hformat, sprintf_literal hget, sprintf_string, sprintf_literal hversion, sprintf_string,
    sprintf_literal hclose, sprintf_string, hend]
  simp only [sprintf, List.append_nil]

theorem sprintf_requestFormat_length (path host header : List UInt8) :
    (sprintf requestFormat [path, host, header]).length + 6
      = requestFormat.length + path.length + host.length + header.length := by
  have hformat : requestFormat.length = 50 := by decide +kernel
  have hget : (bytes "GET ").length = 4 := by decide +kernel
  have hversion : (bytes " HTTP/1.1\r\nHost: ").length = 17 := by decide +kernel
  have hclose : (bytes "\r\nConnection: close\r\n").length = 21 := by decide +kernel
  have hend : (bytes "\r\n").length = 2 := by decide +kernel
  simp only [sprintf_requestFormat, List.length_append, hformat, hget, hversion, hclose, hend]
  omega

/-- The block has room for the text, and what is sent is the text. -/
theorem httpGetRequest_eq {url : List UInt8} {urlS : UrlStruct} (hurl : urlParse url = .ok urlS)
    {header : Option (List UInt8)} (hpath : 0 ∉ urlS.path) (hhost : 0 ∉ urlS.host)
    (hheader : 0 ∉ header.getD [])
    (hmax : urlS.path.length + urlS.host.length + (header.getD []).length + 51 ≤ ptrdiffMax) :
    httpGetRequest url header = .ok {
      hostname := urlS.hostname
      port := UInt16.ofInt urlS.port
      headers := sprintf requestFormat [urlS.path, urlS.host, header.getD []] } := by
  have hlen := sprintf_requestFormat_length urlS.path urlS.host (header.getD [])
  have hformat : requestFormat.length = 50 := by decide +kernel
  have hsize : (header.map List.length).getD 0 = (header.getD []).length := by
    cases header <;> rfl
  have hnul : 0 ∉ sprintf requestFormat [urlS.path, urlS.host, header.getD []] := by
    simp only [sprintf_requestFormat, List.mem_append, not_or]
    exact ⟨by decide +kernel, hpath, by decide +kernel, hhost, by decide +kernel, hheader,
      by decide +kernel⟩
  obtain ⟨text, htext⟩ : ∃ text, sprintf requestFormat [urlS.path, urlS.host, header.getD []]
      = text := ⟨_, rfl⟩
  rw [htext] at hlen hnul
  have hcopied : (cells (text ++ [0])).take (text.length + 1) = cells (text ++ [0]) :=
    List.take_of_length_le (by simp)
  have hread : ∀ n, cstr (filled n (text ++ [0])) = .ok text := by
    intro n
    rw [filled, cells_append, List.append_assoc]
    exact cstr_cells text hnul _
  simp only [httpGetRequest, hurl, ok_bind, hsize, htext]
  rw [malloc_eq_filled (by omega), ok_bind, memcpy_filled (rfl : 0 = ([] : List UInt8).length) _ _
    hcopied (by simp) (by rw [List.length_nil, List.length_append, List.length_singleton]; omega),
    ok_bind, List.nil_append, hread]
  rfl

end Test

/-! ## URLs and their requests -/

namespace Url

variable {u : Url}

theorem Plain.authority_text (h : u.Plain) {c : UInt8} (hc : c ∈ u.authority) :
    c ≠ SP ∧ c ≠ HT ∧ c ≠ CR ∧ c ≠ LF := by
  rcases List.mem_append.1 hc with hhost | hport
  · exact h.host_text c hhost
  · obtain ⟨ds, hp, rfl | hds⟩ := mem_part.1 hport
    · decide
    · have hdigit := u.port_digit ds hp c hds
      refine ⟨?_, ?_, ?_, ?_⟩
      all_goals
        rintro rfl
        exact absurd hdigit (by decide)

theorem hostName_ne : bytes "Host" ≠ [] := by decide

theorem hostName_token : ∀ c ∈ bytes "Host", isTokenChar c = true := List.all_eq_true.1 (by decide)

theorem blank_of_SP : ∀ c ∈ [SP], isBlank c = true := List.all_eq_true.1 (by decide)

theorem blank_of_nil : ∀ c ∈ ([] : List UInt8), isBlank c = true :=
  fun _ hc => absurd hc List.not_mem_nil

/-- The Host line. -/
def Plain.hostField (h : u.Plain) : HeaderField where
  name := bytes "Host"
  pre := [SP]
  value := u.authority
  post := []
  name_ne := hostName_ne
  name_token := hostName_token
  pre_blank := blank_of_SP
  post_blank := blank_of_nil
  value_ne := u.authority_ne
  value_line c hc := (h.authority_text hc).2.2
  value_first c hc := by
    obtain ⟨hsp, hht, -⟩ := h.authority_text (List.mem_of_mem_head? hc)
    simp [isBlank, hsp, hht]
  value_last c hc := by
    obtain ⟨hsp, hht, -⟩ := h.authority_text (List.mem_of_mem_getLast? hc)
    simp [isBlank, hsp, hht]

theorem close_isFieldText : isFieldText (bytes "Connection") (bytes "close") = true := by
  decide +kernel

def closeField : HeaderField := fixedField (bytes "Connection") (bytes "close") close_isFieldText

/-- What the URL and the lines of the caller are to the server. -/
def Plain.request (h : u.Plain) (fs : List HeaderField) : Request where
  method := bytes "GET"
  path := u.pathname ++ u.search
  minor := 1
  first := h.hostField
  others := closeField :: fs
  method_ne := by decide
  method_line c hc := by
    have htext := List.all_eq_true.1 (by decide : (bytes "GET").all
      (fun c => c != SP && c != CR && c != LF) = true) c hc
    simpa [and_assoc] using htext
  path_ne hnil := by
    have hpathname := (List.append_eq_nil_iff.1 hnil).1
    rw [pathname] at hpathname
    split at hpathname
    · cases hpathname
    · next hpath => exact hpath hpathname
  path_line c hc := by
    rcases List.mem_append.1 hc with hc | hc
    · rw [pathname] at hc
      split at hc
      · rw [List.mem_singleton.1 hc]
        decide
      · exact h.path_text c (List.mem_append_left _ hc)
    · exact h.path_text c (List.mem_append_right _ hc)
  minor_lt := by decide

/-- What `http_get` sends ends with the text of the caller and a CR LF. -/
theorem Plain.sprintf_eq (h : u.Plain) (header : List UInt8) :
    sprintf Test.requestFormat [u.pathname ++ u.search, u.authority, header]
      = requestLineWire (bytes "GET") (u.pathname ++ u.search) 1 ++
        (fieldsWire [h.hostField, closeField] ++ (header ++ [CR, LF])) := by
  have hget : bytes "GET " = bytes "GET" ++ [SP] := by decide +kernel
  have hline : bytes " HTTP/1.1\r\nHost: "
      = SP :: (bytes "HTTP/1." ++ [UInt8.ofNat (48 + 1), CR, LF]) ++
        (bytes "Host" ++ [colon, SP]) := by
    decide +kernel
  have hclose : bytes "\r\nConnection: close\r\n" = [CR, LF] ++ closeField.wire := by
    decide +kernel
  have hend : bytes "\r\n" = [CR, LF] := by decide +kernel
  have hhost : h.hostField.wire = bytes "Host" ++ [colon, SP] ++ u.authority ++ [CR, LF] := by
    simp [HeaderField.wire, HeaderField.line, hostField]
  rw [Test.sprintf_requestFormat, hget, hline, hclose, hend]
  simp only [requestLineWire, fieldsWire, List.flatMap_cons, List.flatMap_nil, hhost,
    List.append_assoc, List.cons_append, List.nil_append, List.append_nil]

theorem fieldsWire_append (fs gs : List HeaderField) :
    fieldsWire (fs ++ gs) = fieldsWire fs ++ fieldsWire gs := List.flatMap_append

/-- Lines of the caller that end make a request. -/
theorem Plain.sprintf_fields (h : u.Plain) (fs : List HeaderField) :
    sprintf Test.requestFormat [u.pathname ++ u.search, u.authority, fieldsWire fs]
      = (h.request fs).wire := by
  rw [h.sprintf_eq, Request.wire, List.append_assoc, Request.headers, ← List.append_assoc
    (fieldsWire _), ← fieldsWire_append]
  rfl

/-- A last line that does not end makes lines without the empty one. -/
theorem Plain.sprintf_unended (h : u.Plain) (fs : List HeaderField) (f : HeaderField) :
    sprintf Test.requestFormat [u.pathname ++ u.search, u.authority, fieldsWire fs ++ f.line]
      = requestLineWire (bytes "GET") (u.pathname ++ u.search) 1 ++
        fieldsWire (h.hostField :: closeField :: (fs ++ [f])) := by
  have hlast : fieldsWire [f] = f.line ++ [CR, LF] := by
    simp [fieldsWire, HeaderField.wire]
  rw [h.sprintf_eq, List.append_assoc (fieldsWire fs), ← hlast, ← fieldsWire_append,
    ← fieldsWire_append]
  rfl

end Url

/-! ## The server -/

/-- Lines alone are no block: the parser asks for more. -/
theorem httpParseHeader_fields (f : HeaderField) (fs : List HeaderField) (maxHeader : Nat)
    (hmax : (fieldsWire (f :: fs)).length + 2 ≤ ptrdiffMax) :
    ∃ r, httpParseHeader (fieldsWire (f :: fs)) maxHeader = .ok r ∧ r.ret = 1 := by
  have hwire := httpParseHeader_wire f fs [] maxHeader
  have hlen : (fieldsWire (f :: fs) ++ [CR, LF]).length ≤ ptrdiffMax := by
    simpa using hmax
  rcases httpParseHeader_ends hlen hwire with ⟨-, b, body, hblock⟩ | ⟨hone, -⟩
  · obtain ⟨r, hr, haccepts⟩ := httpParseHeader_accepts maxHeader hlen hblock
    cases hwire.symm.trans hr
    have hsize := congrArg List.length hblock
    have hread := haccepts.readLen_eq
    simp only [List.length_append, List.length_cons, List.length_nil] at hsize hread
    obtain rfl : body = [] := List.eq_nil_of_length_eq_zero (by omega)
    have hlines : fieldsWire (f :: fs) = linesWire b.lines :=
      List.append_cancel_right (hblock.trans (List.append_nil _))
    exact httpParseHeader_asks (by omega) (hlines.trans (List.append_nil _).symm) (Or.inl rfl)
  · cases hone

/-- The parts of a request that is all there is. -/
theorem httpParseRequest_alone (r : Request) (maxHeader : Nat) :
    ∃ q, httpParseRequest r.wire maxHeader = .ok q ∧
      (∃ l, q.line.line = some l ∧ l.method.text r.wire = some r.method ∧
        l.path.text r.wire = some r.path ∧ l.minorVersion = r.minor) ∧
      q.header.headers.map (HttpHeader.text q.header.data)
        = (r.headers.map fun f => (some f.name, some f.value)).take maxHeader ∧ q.body = none := by
  have hparsed := httpParseRequest_wire r [] maxHeader
  rw [List.append_nil] at hparsed
  have hmethod : r.wire.drop 0 = r.method ++ (SP :: (r.path ++ SP :: (bytes "HTTP/1." ++
      [UInt8.ofNat (48 + r.minor), CR, LF])) ++ fieldsWire r.headers ++ [CR, LF]) := by
    simp [Request.wire, requestLineWire]
  have hpath : r.wire.drop (r.method.length + 1) = r.path ++ (SP :: (bytes "HTTP/1." ++
      [UInt8.ofNat (48 + r.minor), CR, LF]) ++ fieldsWire r.headers ++ [CR, LF]) := by
    rw [show r.method.length + 1 = 0 + (r.method ++ [SP]).length by simp]
    refine drop_add_of_drop ?_
    rw [hmethod]
    simp
  have hle : r.method.length + 1 ≤ r.wire.length := by
    rw [r.wire_length, requestLineWire_length]
    omega
  refine ⟨_, hparsed, ⟨_, rfl, slice_of_drop hmethod (Nat.zero_le _), slice_of_drop hpath hle, rfl⟩,
    ?_, by simp⟩
  rw [List.map_take, storedFields_text _ [CR, LF] r.headers 0 rfl (by omega)]

theorem Url.nul_notMem_path (u : Url) : 0 ∉ u.parts.path := by
  have hnul := u.nul_notMem_text
  simp only [Url.text, Url.tail, List.mem_append, not_or] at hnul
  simp only [Url.parts, List.mem_append, not_or]
  refine ⟨?_, hnul.2.1.2⟩
  rw [Url.pathname]
  split
  · decide
  · exact hnul.2.1.1

theorem Url.nul_notMem_host (u : Url) : 0 ∉ u.parts.host := by
  have hnul := u.nul_notMem_text
  simp only [Url.text, Url.front, List.mem_append, not_or] at hnul
  exact hnul.1.2.2

/-- What is put into the request is not longer than the URL, but for the `/` of an empty path. -/
theorem Url.parts_length_le (u : Url) :
    u.parts.path.length + u.parts.host.length ≤ u.text.length + 1 := by
  have hfront := u.front_length
  have htext := u.text_length
  have htail := u.tail_length
  simp only [Url.parts, Url.pathname, List.length_append] at htail ⊢
  split
  · rw [List.length_singleton]
    omega
  · omega

/-- **From the URL to the server.** What `http_get` sends for a URL is to the server a GET of its path
    and its query, with its host, `Connection: close` and the caller's lines as headers. If the
    caller's last line does not end, the server asks for more. -/
theorem Test.httpGetRequest_received (u : Url) (hsplits : u.Splits) (hplain : u.Plain)
    (header : Option (List UInt8)) (hnul : 0 ∉ header.getD [])
    (hmax : (header.getD []).length < 2 ^ 62) (maxHeader : Nat) :
    ∃ req, Test.httpGetRequest u.text header = .ok req ∧ req.hostname = u.host ∧
      (∀ fs, header.getD [] = fieldsWire fs → ∃ q,
        httpParseRequest req.headers maxHeader = .ok q ∧
        (∃ l, q.line.line = some l ∧ l.method.text req.headers = some (bytes "GET") ∧
          l.path.text req.headers = some (u.pathname ++ u.search) ∧ l.minorVersion = 1) ∧
        q.header.headers.map (HttpHeader.text q.header.data)
          = ((some (bytes "Host"), some u.authority) ::
              (some (bytes "Connection"), some (bytes "close")) ::
              fs.map fun f => (some f.name, some f.value)).take maxHeader ∧
        q.body = none) ∧
      ∀ fs (f : HeaderField), header.getD [] = fieldsWire fs ++ f.line → ∃ line hdr,
        httpParseRequestLine req.headers = .ok line ∧ line.ret = 0 ∧
        httpParseHeader (req.headers.drop line.readLen) maxHeader = .ok hdr ∧ hdr.ret = 1 := by
  have hptr : ptrdiffMax = 2 ^ 63 - 1 := rfl
  have hlen : u.text.length ≤ 2 ^ 31 := by
    rcases hsplits.length_lt with hlt | ⟨heq, -⟩ <;> omega
  have hsize := u.parts_length_le
  refine ⟨_, Test.httpGetRequest_eq hsplits.urlParse_text u.nul_notMem_path u.nul_notMem_host hnul
    (by omega), rfl, fun fs hfs => ?_, fun fs f hf => ?_⟩
  · simp only [hfs]
    rw [show sprintf Test.requestFormat [u.parts.path, u.parts.host, fieldsWire fs]
      = (hplain.request fs).wire from hplain.sprintf_fields fs]
    exact httpParseRequest_alone (hplain.request fs) maxHeader
  · have hget : ∀ c ∈ bytes "GET", c ≠ SP := fun c hc =>
      bne_iff_ne.1 (List.all_eq_true.1 (by decide : (bytes "GET").all (· != SP) = true) c hc)
    have hline := httpParseRequestLine_wire (bytes "GET") (u.pathname ++ u.search)
      (fieldsWire (hplain.hostField :: Url.closeField :: (fs ++ [f]))) 1 (by omega) hget
      fun c hc => ((hplain.request fs).path_line c hc).1
    have hfields := hplain.sprintf_unended fs f
    have hfit : (fieldsWire (hplain.hostField :: Url.closeField :: (fs ++ [f]))).length + 2
        ≤ ptrdiffMax := by
      have htotal := Test.sprintf_requestFormat_length (u.pathname ++ u.search) u.authority
        (fieldsWire fs ++ f.line)
      have hformat : Test.requestFormat.length = 50 := by decide +kernel
      rw [hfields, List.length_append, ← hf] at htotal
      simp only [Url.parts] at hsize
      omega
    obtain ⟨hdr, hhdr, hret⟩ := httpParseHeader_fields hplain.hostField
      (Url.closeField :: (fs ++ [f])) maxHeader hfit
    simp only [hf]
    rw [show sprintf Test.requestFormat [u.parts.path, u.parts.host, fieldsWire fs ++ f.line]
      = _ from hfields]
    exact ⟨_, hdr, hline, rfl, (congrArg (fun data => httpParseHeader data maxHeader)
      List.drop_left).trans hhdr, hret⟩

/-- `https://k:85/p?q` -/
def portUrl : Url where
  proto := bytes "https:"
  host := [107]
  port := some [56, 53]
  path := [47, 112]
  query := some [113]
  hash := none
  proto_slash := by decide
  host_ne := by decide
  host_text := by decide +kernel
  port_ne := by decide
  port_digit := by
    rintro ds ⟨⟩
    decide +kernel
  path_slash := by
    rintro c ⟨⟩
    rfl
  path_text := by decide +kernel
  query_text := by
    rintro q ⟨⟩
    decide +kernel
  nul := by decide

theorem portUrl_splits : portUrl.Splits where
  proto_question := by decide
  proto_hash := by decide
  hash_question := nofun
  tail_slash := nofun
  port_lt := by
    rintro ds ⟨⟩
    decide
  length_lt := Or.inl (by decide)

theorem portUrl_plain : portUrl.Plain := ⟨by decide +kernel, by decide +kernel⟩

theorem Test.httpGetRequest_received_port :
    ∃ req q, Test.httpGetRequest portUrl.text (some (fieldsWire [Url.closeField])) = .ok req ∧
      req.hostname = [107] ∧ httpParseRequest req.headers 4 = .ok q ∧
      q.header.headers.map (HttpHeader.text q.header.data) =
        [(some (bytes "Host"), some [107, 58, 56, 53]),
          (some (bytes "Connection"), some (bytes "close")),
          (some (bytes "Connection"), some (bytes "close"))] := by
  obtain ⟨req, hreq, hname, hfields, -⟩ := Test.httpGetRequest_received portUrl portUrl_splits
    portUrl_plain (some (fieldsWire [Url.closeField])) (by decide +kernel) (by decide +kernel) 4
  obtain ⟨q, hq, -, hheaders, -⟩ := hfields [Url.closeField] rfl
  exact ⟨req, q, hreq, hname, hq, hheaders⟩

end Ryze
