import Ryze.HttpParser.HeaderWire
import Ryze.Lib.CText
import Ryze.Util.Path

set_option autoImplicit false

/-! # `http_get`: the request

The first half of `http_get` (`util.c`) cuts the URL at the first `/` behind the scheme and formats a
request with fixed headers; the server's parsers read it back. Strings are the lists of their bytes
in front of the NUL, and every copy here is exactly as long as its block. -/

namespace Ryze

open CLib

/-- `str`, the format of the request. -/
def requestFormat : List UInt8 :=
  bytes "GET %s HTTP/1.1\r\n" ++
  bytes "Host: %s\r\n" ++
  bytes "Accept: */*\r\n" ++
  bytes "Cache-Control: no-cache\r\n" ++
  bytes "Pragma: no-cache\r\n" ++
  bytes "Connection: close\r\n" ++
  bytes "User-Agent: Mozilla/5.0 (Windows NT 10.0; Win64; x64) " ++
  bytes "AppleWebKit/537.36 (KHTML, like Gecko) " ++
  bytes "Chrome/99.0.4844.82 Safari/537.36\r\n" ++
  bytes "\r\n"

/-- `for(size_t i = start; i < len; i++)`: the first `/`, or the end of the URL. -/
def slashLoop : List UInt8 → (i : Nat) → Nat
  | [], i => i
  | c :: url, i => if c = slash then i else slashLoop url (i + 1)

/-- `for(size_t i = 0; i < len; i++)`: the number behind the first `:` of the host, if there is
    one. -/
def portLoop : List UInt8 → (port : Int) → Int
  | [], port => port
  | c :: host, port => if c = colon then atoi host else portLoop host port

/-- What `http_get` connects to and sends. -/
structure HttpGetRequest where
  host : List UInt8
  port : Int
  header : List UInt8
deriving DecidableEq, Repr

/-- `start` and the default `port`, by the scheme. -/
def urlScheme (url : List UInt8) : Option (Nat × Int) :=
  if strstr (bytes "https://") url 0 = some 0 then some (8, 443)
  else if strstr (bytes "http://") url 0 = some 0 then some (7, 80)
  else none

/-- `http_get(url)` up to `gethostbyname`; `none` is its `return NULL`. -/
def httpGetRequest (url : List UInt8) : Option HttpGetRequest := do
  let (start, port) ← urlScheme url
  let «end» := slashLoop (url.drop start) start
  let suffix := url.drop «end»
  let host := (url.drop start).take («end» - start)
  return {
    host := host
    port := portLoop host port
    header := sprintf requestFormat [suffix, host] }

theorem slashLoop_host {host : List UInt8} (hhost : slash ∉ host) {suffix : List UInt8}
    (hsuffix : ∀ c ∈ suffix.head?, c = slash) (i : Nat) :
    slashLoop (host ++ suffix) i = i + host.length := by
  induction host generalizing i with
  | nil =>
      cases suffix with
      | nil => rfl
      | cons c suffix =>
          have hc : c = slash := hsuffix c rfl
          rw [List.nil_append, slashLoop, if_pos hc, List.length_nil, Nat.add_zero]
  | cons c host ih =>
      obtain ⟨hc, hrest⟩ := not_or.1 (List.mem_cons.not.1 hhost)
      rw [List.cons_append, slashLoop, if_neg (Ne.symm hc), ih hrest, List.length_cons]
      omega

/-! ## URLs and their requests -/

/-- A URL `http_get` takes: the scheme, a host, and a suffix that is empty or starts with `/`. -/
structure HttpUrl where
  secure : Bool
  host : List UInt8
  suffix : List UInt8
  host_ne : host ≠ []
  host_text : ∀ c ∈ host, c ≠ SP ∧ c ≠ HT ∧ c ≠ CR ∧ c ≠ LF ∧ c ≠ 0
  host_slash : slash ∉ host
  suffix_slash : ∀ c ∈ suffix.head?, c = slash
  suffix_text : ∀ c ∈ suffix, c ≠ SP ∧ c ≠ CR ∧ c ≠ LF ∧ c ≠ 0

namespace HttpUrl

def scheme (u : HttpUrl) : List UInt8 := if u.secure then bytes "https://" else bytes "http://"

def text (u : HttpUrl) : List UInt8 := u.scheme ++ (u.host ++ u.suffix)

theorem not_blank (u : HttpUrl) {c : UInt8} (hc : c ∈ u.host) : isBlank c = false := by
  obtain ⟨hsp, hht, -⟩ := u.host_text c hc
  simp [isBlank, hsp, hht]

/-- The Host line. -/
def hostField (u : HttpUrl) : HeaderField where
  name := bytes "Host"
  pre := [SP]
  value := u.host
  post := []
  name_ne := by decide
  name_token := List.all_eq_true.1 (by decide)
  pre_blank := List.all_eq_true.1 (by decide)
  post_blank := nofun
  value_ne := u.host_ne
  value_line c hc := ⟨(u.host_text c hc).2.2.1, (u.host_text c hc).2.2.2.1⟩
  value_first c hc := u.not_blank (List.mem_of_mem_head? hc)
  value_last c hc := u.not_blank (List.mem_of_mem_getLast? hc)

end HttpUrl

/-- Texts that may stand in a line `name: value`. -/
def isFieldText (name value : List UInt8) : Bool :=
  !name.isEmpty && name.all isTokenChar && !value.isEmpty &&
    value.all (fun c => c != CR && c != LF) && value.head?.all (!isBlank ·) &&
    value.getLast?.all (!isBlank ·)

/-- A line with fixed texts. -/
def fixedField (name value : List UInt8) (h : isFieldText name value = true) : HeaderField :=
  have htext : (((((!name.isEmpty) ∧ name.all isTokenChar) ∧ !value.isEmpty) ∧
      value.all (fun c => c != CR && c != LF)) ∧ value.head?.all (!isBlank ·)) ∧
      value.getLast?.all (!isBlank ·) := by
    simpa only [isFieldText, Bool.and_eq_true] using h
  { name := name
    pre := [SP]
    value := value
    post := []
    name_ne := by
      rintro rfl
      exact absurd htext.1.1.1.1.1 (by decide)
    name_token := List.all_eq_true.1 htext.1.1.1.1.2
    pre_blank := List.all_eq_true.1 (by decide)
    post_blank := nofun
    value_ne := by
      rintro rfl
      exact absurd htext.1.1.1.2 (by decide)
    value_line := fun c hc => by simpa using List.all_eq_true.1 htext.1.1.2 c hc
    value_first := fun c hc => by simpa [Option.mem_def.1 hc] using htext.1.2
    value_last := fun c hc => by simpa [Option.mem_def.1 hc] using htext.2 }

def userAgent : List UInt8 :=
  bytes "Mozilla/5.0 (Windows NT 10.0; Win64; x64) " ++
  bytes "AppleWebKit/537.36 (KHTML, like Gecko) " ++
  bytes "Chrome/99.0.4844.82 Safari/537.36"

/-- The five lines behind the Host line. -/
def fixedFields : List HeaderField := [
  fixedField (bytes "Accept") (bytes "*/*") (by decide +kernel),
  fixedField (bytes "Cache-Control") (bytes "no-cache") (by decide +kernel),
  fixedField (bytes "Pragma") (bytes "no-cache") (by decide +kernel),
  fixedField (bytes "Connection") (bytes "close") (by decide +kernel),
  fixedField (bytes "User-Agent") userAgent (by decide +kernel)]

/-! ## The text and the parsers -/

/-- The format without its two arguments. -/
theorem requestFormat_eq : requestFormat = bytes "GET " ++ (bytes "%s" ++
    (bytes " HTTP/1.1\r\nHost: " ++ (bytes "%s" ++ (bytes "\r\n" ++
      (fieldsWire fixedFields ++ bytes "\r\n"))))) := by
  decide +kernel

theorem percent_notMem_fixed : percent ∉ bytes "\r\n" ++ (fieldsWire fixedFields ++ bytes "\r\n") := by
  decide +kernel

namespace HttpUrl

/-- What `http_get` sends is a request line and header lines as the parsers' wire form has them. -/
theorem sprintf_request (u : HttpUrl) : sprintf requestFormat [u.suffix, u.host]
    = requestLineWire (bytes "GET") u.suffix 1 ++
      (fieldsWire (u.hostField :: fixedFields) ++ CR :: LF :: []) := by
  have hget : percent ∉ bytes "GET " := by decide +kernel
  have hversion : percent ∉ bytes " HTTP/1.1\r\nHost: " := by decide +kernel
  have hline : bytes " HTTP/1.1\r\nHost: "
      = SP :: (bytes "HTTP/1." ++ [UInt8.ofNat (48 + 1), CR, LF]) ++ (bytes "Host" ++ [colon, SP]) := by
    decide +kernel
  have hend := sprintf_literal percent_notMem_fixed [] []
  rw [List.append_nil] at hend
  rw [requestFormat_eq, sprintf_literal hget, sprintf_string, sprintf_literal hversion,
    sprintf_string, hend, hline, show bytes "GET " = bytes "GET" ++ [SP] by decide +kernel,
    show bytes "\r\n" = [CR, LF] by decide +kernel]
  simp only [requestLineWire, fieldsWire, List.flatMap_cons, HeaderField.wire, HeaderField.line,
    hostField, sprintf, List.append_assoc, List.cons_append, List.nil_append, List.append_nil]

theorem urlScheme_text (u : HttpUrl) :
    urlScheme u.text = some (u.scheme.length, if u.secure then 443 else 80) := by
  simp only [urlScheme, strstr_eq_zero_iff, text, scheme]
  cases u.secure with
  | true => rw [if_pos (by simp)]; rfl
  | false =>
      have hnot : ¬ bytes "https://" <+: bytes "http://" ++ (u.host ++ u.suffix) := by
        rintro ⟨t, ht⟩
        have hfifth : some (115 : UInt8) = some 58 := congrArg (fun l => l[4]?) ht
        exact absurd hfifth (by decide)
      rw [if_neg (by simpa using hnot), if_pos (by simp)]
      rfl

/-- `http_get` cuts a URL into its parts. -/
theorem httpGetRequest_text (u : HttpUrl) : httpGetRequest u.text = some {
    host := u.host
    port := portLoop u.host (if u.secure then 443 else 80)
    header := sprintf requestFormat [u.suffix, u.host] } := by
  have hdrop : u.text.drop u.scheme.length = u.host ++ u.suffix := List.drop_left
  have hsuffix : u.text.drop (u.scheme.length + u.host.length) = u.suffix :=
    drop_add_of_drop hdrop
  simp only [httpGetRequest, u.urlScheme_text, Option.bind_eq_bind, Option.bind_some, hdrop,
    slashLoop_host u.host_slash u.suffix_slash, hsuffix, Nat.add_sub_cancel_left, List.take_left]
  rfl

end HttpUrl

/-- **Client and server agree.** What `http_get` sends for a URL is parsed, in the buffer and without
    an error, as a GET of its suffix with minor version 1 and six headers, the first one the host. -/
theorem httpGetRequest_parsed (u : HttpUrl) (maxHeader : Int) (hmax : 6 ≤ maxHeader) :
    ∃ req line hdr, httpGetRequest u.text = some req ∧
      httpParseRequestLine req.header = .ok line ∧ line.ret = 0 ∧
      httpParseHeader (req.header.drop line.readLen) maxHeader = .ok hdr ∧ hdr.ret = 0 ∧
      (∃ l, line.line = some l ∧ l.method.text req.header = some (bytes "GET") ∧
        l.path.text req.header = some u.suffix ∧ l.minorVersion = 1) ∧
      hdr.headers.length = 6 ∧
      (∃ h, hdr.headers.head? = some h ∧ h.text hdr.data = (some (bytes "Host"), some u.host)) ∧
      line.readLen + hdr.readLen = req.header.length := by
  obtain ⟨n, rfl⟩ : ∃ n : Nat, maxHeader = n := ⟨maxHeader.toNat, by omega⟩
  have hn : 6 ≤ n := by omega
  have hreq := u.httpGetRequest_text
  rw [u.sprintf_request] at hreq
  have hget : ∀ c ∈ bytes "GET", c ≠ SP := fun c hc =>
    bne_iff_ne.1 (List.all_eq_true.1 (by decide : (bytes "GET").all (· != SP) = true) c hc)
  have hline := httpParseRequestLine_wire (bytes "GET") u.suffix
    (fieldsWire (u.hostField :: fixedFields) ++ CR :: LF :: []) 1 (by omega) hget
    fun c hc => (u.suffix_text c hc).1
  have hheader := httpParseHeader_wire u.hostField fixedFields [] n
  rw [List.take_of_length_le ((storedFields_length ..).trans_le hn)] at hheader
  have hmethod : (requestLineWire (bytes "GET") u.suffix 1 ++
      (fieldsWire (u.hostField :: fixedFields) ++ CR :: LF :: [])).drop 0 = bytes "GET" ++
        (SP :: (u.suffix ++ SP :: (bytes "HTTP/1." ++ [UInt8.ofNat (48 + 1), CR, LF])) ++
          (fieldsWire (u.hostField :: fixedFields) ++ CR :: LF :: [])) := by
    rw [List.drop_zero, requestLineWire, List.append_assoc]
  have hpath : (requestLineWire (bytes "GET") u.suffix 1 ++
      (fieldsWire (u.hostField :: fixedFields) ++ CR :: LF :: [])).drop ((bytes "GET").length + 1)
        = u.suffix ++ (SP :: (bytes "HTTP/1." ++ [UInt8.ofNat (48 + 1), CR, LF]) ++
          (fieldsWire (u.hostField :: fixedFields) ++ CR :: LF :: [])) := by
    have hlen : (bytes "GET").length + 1 = 0 + (bytes "GET" ++ [SP]).length := by
      simp
    rw [hlen]
    refine drop_add_of_drop ?_
    rw [hmethod]
    simp
  have htexts := storedFields_text _ (CR :: LF :: []) (u.hostField :: fixedFields) 0
    (List.drop_zero) (Nat.zero_le _)
  refine ⟨_, _, _, hreq, hline, rfl,
    (congrArg (fun data => httpParseHeader data n) List.drop_left).trans hheader, rfl,
    ⟨_, rfl, slice_of_drop hmethod (Nat.zero_le _), slice_of_drop hpath ?_, rfl⟩, ?_, ?_, ?_⟩
  · simp [requestLineWire]
  · exact storedFields_length ..
  · exact ⟨_, rfl, (List.cons.inj htexts).1⟩
  · simp only [List.length_append, List.length_cons, List.length_nil]

/-- `http://h:81/a`. -/
def exampleUrl : HttpUrl where
  secure := false
  host := [104, 58, 56, 49]
  suffix := [47, 97]
  host_ne := by decide
  host_text := by
    simp only [List.forall_mem_cons, List.not_mem_nil, false_implies, implies_true]
    decide
  host_slash := by decide
  suffix_slash := by
    rintro c ⟨⟩
    rfl
  suffix_text := by
    simp only [List.forall_mem_cons, List.not_mem_nil, false_implies, implies_true]
    decide

theorem httpGetRequest_parsed_example :
    ∃ req line hdr, httpGetRequest exampleUrl.text = some req ∧
      httpParseRequestLine req.header = .ok line ∧ line.ret = 0 ∧
      httpParseHeader (req.header.drop line.readLen) 6 = .ok hdr ∧ hdr.ret = 0 ∧
      (∃ l, line.line = some l ∧ l.method.text req.header = some (bytes "GET") ∧
        l.path.text req.header = some [47, 97] ∧ l.minorVersion = 1) ∧
      hdr.headers.length = 6 ∧
      (∃ h, hdr.headers.head? = some h ∧
        h.text hdr.data = (some (bytes "Host"), some [104, 58, 56, 49])) ∧
      line.readLen + hdr.readLen = req.header.length :=
  httpGetRequest_parsed exampleUrl 6 (by decide)

end Ryze
