import FbBroker.Http.Tables
import FbBroker.Lib.Script
import Mathlib.Logic.Function.Basic

/-!
Contract: `http_parser_execute` of `http_parser.c`, for requests.

Owns the parser record, the iteration of the loop over a buffer with the two inner loops
over the bytes of a header name and of a header value, the marks and the callbacks, and
the loop itself. A pointer into the buffer is what is left of the buffer from there on.

The compile-time options are those of the build: strict parsing, and asserts that abort.
Does not own what the callbacks do. A callback that the settings leave out is one that
returns 0.
-/

set_option autoImplicit false

namespace FbBroker.Http

open FbBroker.Lib

/-- `HTTP_MAX_HEADER_SIZE`. -/
def maxHeaderSize : Nat := 80 * 1024

/-- `ULLONG_MAX`. -/
def ullongMax : Nat := 2 ^ 64 - 1

/-! ### The parser -/

/-- The kinds of data callbacks. -/
inductive TextKind where
  | url
  | headerField
  | headerValue
  | body
deriving DecidableEq, Repr

/-- The kinds of notifications. -/
inductive NoticeKind where
  | messageBegin
  | headersComplete
  | messageComplete
  | chunkHeader
  | chunkComplete
deriving DecidableEq, Repr

inductive HttpCall where
  | text (kind : TextKind) (data : List Byte)
  /-- with `parser->upgrade` -/
  | notice (kind : NoticeKind) (upgrade : Bool)
deriving DecidableEq, Repr

/-- The values of `http_errno` behind `HPE_OK` that are set here. -/
inductive HttpErrno where
  | cbText (kind : TextKind)
  | cbNotice (kind : NoticeKind)
  | invalidEofState
  | headerOverflow
  | closedConnection
  | invalidVersion
  | invalidMethod
  | invalidUrl
  | lfExpected
  | invalidHeaderToken
  | invalidContentLength
  | unexpectedContentLength
  | invalidChunkSize
  | invalidConstant
  | strict
  | invalidTransferEncoding
deriving DecidableEq, Repr

/-- The bits of `flags`, and `F_TRANSFER_ENCODING` of `extra_flags`. -/
structure HttpFlags where
  chunked : Bool
  connectionKeepAlive : Bool
  connectionClose : Bool
  connectionUpgrade : Bool
  trailing : Bool
  upgrade : Bool
  skipbody : Bool
  contentlength : Bool
  transferEncoding : Bool
deriving DecidableEq, Repr

def HttpFlags.none : HttpFlags :=
  ⟨false, false, false, false, false, false, false, false, false⟩

structure HttpParser where
  flags : HttpFlags
  state : HttpState
  headerState : HeaderState
  /-- five bits -/
  index : Nat
  /-- `uint32_t` -/
  nread : Nat
  /-- `uint64_t` -/
  contentLength : Nat
  httpMajor : Nat
  httpMinor : Nat
  method : HttpMethod
  httpErrno : Option HttpErrno
  upgrade : Bool
deriving DecidableEq, Repr

/-- `http_parser_init(parser, HTTP_REQUEST)`. -/
def httpParserInit : HttpParser where
  flags := .none
  state := .startReq
  headerState := .general
  index := 0
  nread := 0
  contentLength := 0
  httpMajor := 0
  httpMinor := 0
  method := .delete
  httpErrno := none
  upgrade := false

/-- `++parser->index`. -/
def HttpParser.bump (parser : HttpParser) : HttpParser :=
  { parser with index := (parser.index + 1) % 32 }

/-- The marks: for each kind of text the pointer to its first byte, if it is set. -/
abbrev Marks := TextKind → Option (List Byte)

def noMarks : Marks := fun _ => none

/-- `MARK(FOR)`. -/
def mark (marks : Marks) (kind : TextKind) (p : List Byte) : Marks :=
  if (marks kind).isSome then marks else Function.update marks kind (some p)

/-- The bytes from one pointer up to another. -/
def upTo (start p : List Byte) : List Byte :=
  start.take (start.length - p.length)

/-! ### Leaving the loop -/

/-- What becomes of an iteration. -/
inductive Exit where
  /-- the loop goes on at this pointer -/
  | next (parser : HttpParser) (marks : Marks) (p : List Byte)
  /-- the function returns the number of bytes in front of this pointer -/
  | stop (parser : HttpParser) (p : List Byte)
  /-- a failed `assert`, a read outside of an array, or a length that wraps around -/
  | abort

abbrev HttpCode := Script HttpCall Int Exit

/-- `SET_ERRNO(e); goto error`, or a return with an error. -/
def fail (parser : HttpParser) (errno : HttpErrno) (p : List Byte) : HttpCode :=
  .done (.stop { parser with httpErrno := some errno } p)

def assert (holds : Bool) (code : HttpCode) : HttpCode :=
  if holds then code else .done .abort

/-- `CALLBACK_NOTIFY_`: a callback that fails ends the call at `onFail`. -/
def callbackNotify (parser : HttpParser) (kind : NoticeKind) (onFail : List Byte) (code : HttpCode) : HttpCode :=
  assert parser.httpErrno.isNone
    (.call (.notice kind parser.upgrade) fun rv =>
      if rv ≠ 0 then fail parser (.cbNotice kind) onFail else code)

/-- `CALLBACK_DATA_`: the text from its mark, if there is one, up to `last`. The length is
unsigned: it would wrap around for a mark behind `last`. -/
def callbackData (parser : HttpParser) (marks : Marks) (kind : TextKind) (last onFail : List Byte)
    (code : Marks → HttpCode) : HttpCode :=
  assert parser.httpErrno.isNone
    (match marks kind with
    | none => code marks
    | some start =>
        if start.length < last.length then .done .abort
        else
          .call (.text kind (upTo start last)) fun rv =>
            if rv ≠ 0 then fail parser (.cbText kind) onFail
            else code (Function.update marks kind none))

/-- `COUNT_HEADER_SIZE(V)`. -/
def countHeaderSize (parser : HttpParser) (count : Nat) (p : List Byte) (code : HttpParser → HttpCode) : HttpCode :=
  let parser := { parser with nread := (parser.nread + count % 2 ^ 32) % 2 ^ 32 }
  if parser.nread > maxHeaderSize then fail parser .headerOverflow p else code parser

/-- `http_should_keep_alive` for a request, which never needs the end of the stream. -/
def httpShouldKeepAlive (parser : HttpParser) : Bool :=
  if parser.httpMajor > 0 && parser.httpMinor > 0 then !parser.flags.connectionClose
  else parser.flags.connectionKeepAlive

/-- `NEW_MESSAGE()`. -/
def newMessage (parser : HttpParser) : HttpState :=
  if httpShouldKeepAlive parser then .startReq else .dead

/-! ### The request line -/

def caseDead (parser : HttpParser) (marks : Marks) (ch : Byte) (rest : List Byte) : HttpCode :=
  if ch = cr || ch = lf then .done (.next parser marks rest)
  else fail parser .closedConnection (ch :: rest)

def caseStartReq (parser : HttpParser) (marks : Marks) (ch : Byte) (rest : List Byte) : HttpCode :=
  if ch = cr || ch = lf then .done (.next parser marks rest)
  else
    let parser := { parser with flags := .none, contentLength := ullongMax }
    if !isAlpha ch then fail parser .invalidMethod (ch :: rest)
    else
      match HttpMethod.ofFirst ch with
      | none => fail { parser with method := .delete, index := 1 } .invalidMethod (ch :: rest)
      | some method =>
          let parser := { parser with method, index := 1, state := .reqMethod }
          callbackNotify parser .messageBegin rest (.done (.next parser marks rest))

def caseReqMethod (parser : HttpParser) (marks : Marks) (ch : Byte) (rest : List Byte) : HttpCode :=
  if ch = 0 then fail parser .invalidMethod (ch :: rest)
  else
    let matcher := parser.method.text
    -- behind the terminator of the text
    if matcher.length < parser.index then .done .abort
    else if ch = space && matcher.getD parser.index 0 = 0 then
      .done (.next { parser with state := .reqSpacesBeforeUrl }.bump marks rest)
    else if ch = matcher.getD parser.index 0 then .done (.next parser.bump marks rest)
    else if isUpper ch || ch = '-'.toUInt8 then
      match parser.method.turns parser.index (Char.ofNat ch.toNat) with
      | some method => .done (.next { parser with method }.bump marks rest)
      | none => fail parser .invalidMethod (ch :: rest)
    else fail parser .invalidMethod (ch :: rest)

/-- `UPDATE_STATE(parse_url_char(…))`, and what follows. -/
def urlChar (parser : HttpParser) (marks : Marks) (ch : Byte) (rest : List Byte) : HttpCode :=
  let parser := { parser with state := parseUrlChar parser.state ch }
  if parser.state = .dead then fail parser .invalidUrl (ch :: rest) else .done (.next parser marks rest)

def caseReqSpacesBeforeUrl (parser : HttpParser) (marks : Marks) (ch : Byte) (rest : List Byte) : HttpCode :=
  if ch = space then .done (.next parser marks rest)
  else
    let marks := mark marks .url (ch :: rest)
    let parser := if parser.method = .connect then { parser with state := .reqServerStart } else parser
    urlChar parser marks ch rest

/-- `s_req_schema` to `s_req_server_start`. -/
def caseReqSchema (parser : HttpParser) (marks : Marks) (ch : Byte) (rest : List Byte) : HttpCode :=
  if ch = space || ch = cr || ch = lf then fail parser .invalidUrl (ch :: rest)
  else urlChar parser marks ch rest

/-- `s_req_server` to `s_req_fragment`. -/
def caseReqUrl (parser : HttpParser) (marks : Marks) (ch : Byte) (rest : List Byte) : HttpCode :=
  if ch = space then
    let parser := { parser with state := .reqHttpStart }
    callbackData parser marks .url (ch :: rest) rest fun marks => .done (.next parser marks rest)
  else if ch = cr || ch = lf then
    let parser := { parser with
      httpMajor := 0
      httpMinor := 9
      state := if ch = cr then .reqLineAlmostDone else .headerFieldStart }
    callbackData parser marks .url (ch :: rest) rest fun marks => .done (.next parser marks rest)
  else urlChar parser marks ch rest

def caseReqHttpStart (parser : HttpParser) (marks : Marks) (ch : Byte) (rest : List Byte) : HttpCode :=
  if ch = space then .done (.next parser marks rest)
  else if ch = 'H'.toUInt8 then .done (.next { parser with state := .reqHttpH } marks rest)
  else if ch = 'I'.toUInt8 && parser.method = .source then
    .done (.next { parser with state := .reqHttpI } marks rest)
  else fail parser .invalidConstant (ch :: rest)

/-- The states that take one letter only: `STRICT_CHECK(ch != …)`. -/
def caseLetter (expected : Byte) (state : HttpState) (parser : HttpParser) (marks : Marks) (ch : Byte)
    (rest : List Byte) : HttpCode :=
  if ch ≠ expected then fail parser .strict (ch :: rest)
  else .done (.next { parser with state } marks rest)

def caseReqHttpMajor (parser : HttpParser) (marks : Marks) (ch : Byte) (rest : List Byte) : HttpCode :=
  if !isNum ch then fail parser .invalidVersion (ch :: rest)
  else .done (.next { parser with httpMajor := ch.toNat - 48, state := .reqHttpDot } marks rest)

def caseReqHttpDot (parser : HttpParser) (marks : Marks) (ch : Byte) (rest : List Byte) : HttpCode :=
  if ch ≠ '.'.toUInt8 then fail parser .invalidVersion (ch :: rest)
  else .done (.next { parser with state := .reqHttpMinor } marks rest)

def caseReqHttpMinor (parser : HttpParser) (marks : Marks) (ch : Byte) (rest : List Byte) : HttpCode :=
  if !isNum ch then fail parser .invalidVersion (ch :: rest)
  else .done (.next { parser with httpMinor := ch.toNat - 48, state := .reqHttpEnd } marks rest)

def caseReqHttpEnd (parser : HttpParser) (marks : Marks) (ch : Byte) (rest : List Byte) : HttpCode :=
  if ch = cr then .done (.next { parser with state := .reqLineAlmostDone } marks rest)
  else if ch = lf then .done (.next { parser with state := .headerFieldStart } marks rest)
  else fail parser .invalidVersion (ch :: rest)

/-- `s_req_line_almost_done` and `s_header_almost_done`. -/
def caseLf (state : HttpState) (parser : HttpParser) (marks : Marks) (ch : Byte) (rest : List Byte) : HttpCode :=
  if ch ≠ lf then fail parser .lfExpected (ch :: rest)
  else .done (.next { parser with state } marks rest)

/-! ### The end of the headers -/

def caseMessageDone (parser : HttpParser) (marks : Marks) (rest : List Byte) : HttpCode :=
  let parser := { parser with state := newMessage parser }
  callbackNotify parser .messageComplete rest
    (if parser.upgrade then .done (.stop parser rest) else .done (.next parser marks rest))

/-- The end of a message without a body. -/
def messageWithoutBody (parser : HttpParser) (marks : Marks) (rest : List Byte) : HttpCode :=
  let parser := { parser with state := newMessage parser }
  callbackNotify parser .messageComplete rest (.done (.next parser marks rest))

def caseHeadersDone (parser : HttpParser) (marks : Marks) (ch : Byte) (rest : List Byte) : HttpCode :=
  if ch ≠ lf then fail parser .strict (ch :: rest)
  else
    let parser := { parser with nread := 0 }
    let hasBody := parser.flags.chunked || (parser.contentLength > 0 && parser.contentLength ≠ ullongMax)
    if parser.upgrade && (parser.method = .connect || parser.flags.skipbody || !hasBody) then
      let parser := { parser with state := newMessage parser }
      callbackNotify parser .messageComplete rest (.done (.stop parser rest))
    else if parser.flags.skipbody then messageWithoutBody parser marks rest
    else if parser.flags.chunked then .done (.next { parser with state := .chunkSizeStart } marks rest)
    else if parser.flags.transferEncoding then fail parser .invalidTransferEncoding (ch :: rest)
    else if parser.contentLength = 0 then messageWithoutBody parser marks rest
    else if parser.contentLength ≠ ullongMax then .done (.next { parser with state := .bodyIdentity } marks rest)
    else messageWithoutBody parser marks rest

/-- The answer of `on_headers_complete`. -/
def headersCompleted (parser : HttpParser) (p : List Byte) (rv : Int) (code : HttpParser → HttpCode) : HttpCode :=
  if rv = 0 then code parser
  else if rv = 2 then code { parser with upgrade := true, flags := { parser.flags with skipbody := true } }
  else if rv = 1 then code { parser with flags := { parser.flags with skipbody := true } }
  else fail parser (.cbNotice .headersComplete) p

def caseHeadersAlmostDone (parser : HttpParser) (marks : Marks) (ch : Byte) (rest : List Byte) : HttpCode :=
  if ch ≠ lf then fail parser .strict (ch :: rest)
  else if parser.flags.trailing then
    let parser := { parser with state := .messageDone }
    callbackNotify parser .chunkComplete (ch :: rest) (caseMessageDone parser marks rest)
  else if parser.flags.transferEncoding && parser.flags.contentlength then
    fail parser .unexpectedContentLength (ch :: rest)
  else
    let parser := { parser with
      state := .headersDone
      upgrade := if parser.flags.upgrade && parser.flags.connectionUpgrade then true
        else parser.method = .connect }
    .call (.notice .headersComplete parser.upgrade) fun rv =>
      headersCompleted parser (ch :: rest) rv fun parser => caseHeadersDone parser marks ch rest

/-! ### Header names -/

/-- What the first character of a name makes of `header_state`. -/
def headerStateOf (c : Byte) : HeaderState :=
  if c = 'c'.toUInt8 then .c
  else if c = 'p'.toUInt8 then .matchingProxyConnection
  else if c = 't'.toUInt8 then .matchingTransferEncoding
  else if c = 'u'.toUInt8 then .matchingUpgrade
  else .general

def caseHeaderFieldStart (parser : HttpParser) (marks : Marks) (ch : Byte) (rest : List Byte) : HttpCode :=
  if ch = cr then .done (.next { parser with state := .headersAlmostDone } marks rest)
  else if ch = lf then caseHeadersAlmostDone { parser with state := .headersAlmostDone } marks ch rest
  else if token ch = 0 then fail parser .invalidHeaderToken (ch :: rest)
  else
    let marks := mark marks .headerField (ch :: rest)
    .done (.next { parser with index := 0, state := .headerField, headerState := headerStateOf (token ch) }
      marks rest)

/-- One of the names that are looked for: the next character of it, and the state behind
the last one. -/
def matchName (name : List Byte) (found : HeaderState) (parser : HttpParser) (c : Byte) : HttpParser :=
  let parser := parser.bump
  if parser.index > name.length || c ≠ name.getD parser.index 0 then { parser with headerState := .general }
  else if parser.index = name.length - 1 then { parser with headerState := found }
  else parser

def connectionName : List Byte := lit "connection"
def proxyConnectionName : List Byte := lit "proxy-connection"
def contentLengthName : List Byte := lit "content-length"
def transferEncodingName : List Byte := lit "transfer-encoding"
def upgradeName : List Byte := lit "upgrade"
def chunkedName : List Byte := lit "chunked"
def keepAliveName : List Byte := lit "keep-alive"
def closeName : List Byte := lit "close"

/-- The `switch` over `header_state` inside a name; `none` is a failed `assert`. -/
def fieldByte (parser : HttpParser) (ch : Byte) : Option HttpParser :=
  let c := token ch
  match parser.headerState with
  | .general => some parser
  | .c => some { parser.bump with headerState := if c = 'o'.toUInt8 then .co else .general }
  | .co => some { parser.bump with headerState := if c = 'n'.toUInt8 then .con else .general }
  | .con =>
      some { parser.bump with
        headerState :=
          if c = 'n'.toUInt8 then .matchingConnection
          else if c = 't'.toUInt8 then .matchingContentLength
          else .general }
  | .matchingConnection => some (matchName connectionName .connection parser c)
  | .matchingProxyConnection => some (matchName proxyConnectionName .connection parser c)
  | .matchingContentLength => some (matchName contentLengthName .contentLength parser c)
  | .matchingTransferEncoding =>
      let parser := matchName transferEncodingName .transferEncoding parser c
      if parser.headerState = .transferEncoding then
        some { parser with flags := { parser.flags with transferEncoding := true } }
      else some parser
  | .matchingUpgrade => some (matchName upgradeName .upgrade parser c)
  | .connection | .contentLength | .transferEncoding | .upgrade =>
      if ch ≠ space then some { parser with headerState := .general } else some parser
  | _ => none

/-- `while (p+1 < pe && TOKEN(p[1])) p++`, where `room` more bytes are in front of `pe`. -/
def skipTokens : Nat → List Byte → List Byte
  | room + 1, ch :: next :: rest => if token next ≠ 0 then skipTokens room (next :: rest) else ch :: next :: rest
  | _, p => p

/-- The loop over the characters of a name, for at most this many iterations. -/
def fieldLoop : Nat → HttpParser → List Byte → Option (HttpParser × List Byte)
  | fuel + 1, parser, ch :: rest =>
      if token ch = 0 then some (parser, ch :: rest)
      else
        match fieldByte parser ch with
        | none => none
        | some next =>
            -- the fast path of names that are not looked for
            if parser.headerState = .general then
              fieldLoop fuel next (skipTokens (min (ch :: rest).length maxHeaderSize - 1) (ch :: rest)).tail
            else fieldLoop fuel next rest
  | _, parser, p => some (parser, p)

def caseHeaderField (parser : HttpParser) (marks : Marks) (ch : Byte) (rest : List Byte) : HttpCode :=
  match fieldLoop (ch :: rest).length parser (ch :: rest) with
  | none => .done .abort
  -- `--p`: the last byte is behind the buffer for the loop, and not for the count
  | some (parser, []) =>
      countHeaderSize parser rest.length ((ch :: rest).drop rest.length) fun parser => .done (.next parser marks [])
  | some (parser, ch' :: rest') =>
      countHeaderSize parser (rest.length - rest'.length) (ch' :: rest') fun parser =>
        if ch' = ':'.toUInt8 then
          let parser := { parser with state := .headerValueDiscardWs }
          callbackData parser marks .headerField (ch' :: rest') rest' fun marks => .done (.next parser marks rest')
        else fail parser .invalidHeaderToken (ch' :: rest')

/-! ### Header values -/

def caseHeaderValueStart (parser : HttpParser) (marks : Marks) (ch : Byte) (rest : List Byte) : HttpCode :=
  let marks := mark marks .headerValue (ch :: rest)
  let parser := { parser with state := .headerValue, index := 0 }
  let c := lower ch
  match parser.headerState with
  | .upgrade =>
      .done (.next { parser with
        flags := { parser.flags with upgrade := true }, headerState := .general } marks rest)
  | .transferEncoding =>
      .done (.next { parser with
        headerState := if c = 'c'.toUInt8 then .matchingTransferEncodingChunked
          else .matchingTransferEncodingToken } marks rest)
  | .matchingTransferEncodingTokenStart => .done (.next parser marks rest)
  | .contentLength =>
      if !isNum ch then fail parser .invalidContentLength (ch :: rest)
      else if parser.flags.contentlength then fail parser .unexpectedContentLength (ch :: rest)
      else
        .done (.next { parser with
          flags := { parser.flags with contentlength := true }
          contentLength := ch.toNat - 48
          headerState := .contentLengthNum } marks rest)
  | .contentLengthWs => .done (.next parser marks rest)
  | .connection =>
      .done (.next { parser with
        headerState :=
          if c = 'k'.toUInt8 then .matchingConnectionKeepAlive
          else if c = 'c'.toUInt8 then .matchingConnectionClose
          else if c = 'u'.toUInt8 then .matchingConnectionUpgrade
          else .matchingConnectionToken } marks rest)
  | .matchingConnectionTokenStart => .done (.next parser marks rest)
  | _ => .done (.next { parser with headerState := .general } marks rest)

/-- One of the tokens that are looked for in a value. -/
def matchToken (name : List Byte) (found token : HeaderState) (parser : HttpParser) (c : Byte) : HttpParser :=
  let parser := parser.bump
  if parser.index > name.length || c ≠ name.getD parser.index 0 then { parser with headerState := token }
  else if parser.index = name.length - 1 then { parser with headerState := found }
  else parser

/-- A digit of `Content-Length`. -/
def contentLengthDigit (parser : HttpParser) (ch : Byte) : Except HttpParser HttpParser :=
  if ch = space then .ok { parser with headerState := .contentLengthWs }
  else if !isNum ch then .error parser
  else if (ullongMax - 10) / 10 < parser.contentLength then .error parser
  else .ok { parser with contentLength := (parser.contentLength * 10 + (ch.toNat - 48)) % 2 ^ 64 }

/-- The flag of a connection token that is complete. -/
def connectionFlag (flags : HttpFlags) : HeaderState → HttpFlags
  | .connectionKeepAlive => { flags with connectionKeepAlive := true }
  | .connectionClose => { flags with connectionClose := true }
  | .connectionUpgrade => { flags with connectionUpgrade := true }
  | _ => flags

/-- The `switch` over `h_state` inside a value; `none` is a failed `assert`, and the only
error is a bad `Content-Length`. -/
def valueByte (parser : HttpParser) (ch : Byte) : Option (Except HttpParser HttpParser) :=
  let c := lower ch
  match parser.headerState with
  | .general => some (.ok parser)
  | .connection | .transferEncoding => none
  | .contentLength =>
      if ch = space then some (.ok parser)
      else some (contentLengthDigit { parser with headerState := .contentLengthNum } ch)
  | .contentLengthNum => some (contentLengthDigit parser ch)
  | .contentLengthWs => some (if ch = space then .ok parser else .error parser)
  | .matchingTransferEncodingTokenStart =>
      some (.ok { parser with
        headerState :=
          if c = 'c'.toUInt8 then .matchingTransferEncodingChunked
          else if token c ≠ 0 then .matchingTransferEncodingToken
          else if c = space || c = tab then .matchingTransferEncodingTokenStart
          else .general })
  | .matchingTransferEncodingChunked =>
      some (.ok (matchToken chunkedName .transferEncodingChunked .matchingTransferEncodingToken parser c))
  | .matchingTransferEncodingToken =>
      some (.ok (if ch = ','.toUInt8 then
        { parser with headerState := .matchingTransferEncodingTokenStart, index := 0 } else parser))
  | .matchingConnectionTokenStart =>
      some (.ok { parser with
        headerState :=
          if c = 'k'.toUInt8 then .matchingConnectionKeepAlive
          else if c = 'c'.toUInt8 then .matchingConnectionClose
          else if c = 'u'.toUInt8 then .matchingConnectionUpgrade
          else if token c ≠ 0 then .matchingConnectionToken
          else if c = space || c = tab then .matchingConnectionTokenStart
          else .general })
  | .matchingConnectionKeepAlive =>
      some (.ok (matchToken keepAliveName .connectionKeepAlive .matchingConnectionToken parser c))
  | .matchingConnectionClose =>
      some (.ok (matchToken closeName .connectionClose .matchingConnectionToken parser c))
  | .matchingConnectionUpgrade =>
      some (.ok (matchToken upgradeName .connectionUpgrade .matchingConnectionToken parser c))
  | .matchingConnectionToken =>
      some (.ok (if ch = ','.toUInt8 then
        { parser with headerState := .matchingConnectionTokenStart, index := 0 } else parser))
  | .transferEncodingChunked =>
      some (.ok (if ch ≠ space then { parser with headerState := .matchingTransferEncodingToken } else parser))
  | .connectionKeepAlive | .connectionClose | .connectionUpgrade =>
      some (.ok (
        if ch = ','.toUInt8 then
          { parser with
            flags := connectionFlag parser.flags parser.headerState
            headerState := .matchingConnectionTokenStart
            index := 0 }
        else if ch ≠ space then { parser with headerState := .matchingConnectionToken }
        else parser))
  | _ => some (.ok { parser with state := .headerValue, headerState := .general })

/-- How the loop over a value is left. -/
inductive ValueEnd where
  /-- at a CR or LF, or behind the buffer -/
  | at (parser : HttpParser) (p : List Byte)
  | invalidToken (parser : HttpParser) (p : List Byte)
  | invalidLength (parser : HttpParser) (p : List Byte)
  | abort

/-- The fast path of values that are not looked at: `for (; p != pe; p++)` with `room`
bytes in front of `pe`, and the steps back and forth behind it. If the loop ends at `pe`
inside the buffer, the byte there is passed without a look. -/
def generalRun : Nat → List Byte → Except (List Byte) (List Byte)
  | room + 1, ch :: rest =>
      if ch = cr || ch = lf then .ok (ch :: rest)
      else if !isHeaderChar ch then .error (ch :: rest)
      else generalRun room rest
  | _, p => .ok p.tail

/-- The loop over the bytes of a value, for at most this many iterations. The local
`h_state` is the `header_state` of the parser here. -/
def valueLoop : Nat → HttpParser → List Byte → ValueEnd
  | fuel + 1, parser, ch :: rest =>
      if ch = cr || ch = lf then .at parser (ch :: rest)
      else if !isHeaderChar ch then .invalidToken parser (ch :: rest)
      else if parser.headerState = .general then
        match generalRun (min (ch :: rest).length maxHeaderSize) (ch :: rest) with
        | .error p => .invalidToken parser p
        | .ok p => valueLoop fuel parser p
      else
        match valueByte parser ch with
        | none => .abort
        | some (.error parser) => .invalidLength parser (ch :: rest)
        | some (.ok next) => valueLoop fuel next rest
  | _, parser, p => .at parser p

def caseHeaderValue (parser : HttpParser) (marks : Marks) (ch : Byte) (rest : List Byte) : HttpCode :=
  -- where `h_state` is not written back
  let unwritten (after : HttpParser) : HttpParser := { after with headerState := parser.headerState }
  match valueLoop (ch :: rest).length parser (ch :: rest) with
  | .abort => .done .abort
  | .invalidToken after p => fail (unwritten after) .invalidHeaderToken p
  | .invalidLength after p => fail after .invalidContentLength p
  | .at after [] =>
      countHeaderSize after rest.length ((ch :: rest).drop rest.length) fun parser => .done (.next parser marks [])
  | .at after (ch' :: rest') =>
      let after := { after with state := .headerAlmostDone }
      if ch' = cr then
        callbackData after marks .headerValue (ch' :: rest') rest' fun marks =>
          countHeaderSize after (rest.length - rest'.length) (ch' :: rest') fun parser =>
            .done (.next parser marks rest')
      else
        countHeaderSize (unwritten after) (rest.length - rest'.length) (ch' :: rest') fun counted =>
          let after := { counted with headerState := after.headerState }
          callbackData after marks .headerValue (ch' :: rest') (ch' :: rest') fun marks =>
            caseLf .headerValueLws after marks ch' rest'

def caseHeaderValueDiscardWs (parser : HttpParser) (marks : Marks) (ch : Byte) (rest : List Byte) : HttpCode :=
  if ch = space || ch = tab then .done (.next parser marks rest)
  else if ch = cr then .done (.next { parser with state := .headerValueDiscardWsAlmostDone } marks rest)
  else if ch = lf then .done (.next { parser with state := .headerValueDiscardLws } marks rest)
  else caseHeaderValueStart parser marks ch rest

/-- The flag of a header that is complete. -/
def headerFlag (flags : HttpFlags) : HeaderState → HttpFlags
  | .transferEncodingChunked => { flags with chunked := true }
  | state => connectionFlag flags state

def caseHeaderValueLws (parser : HttpParser) (marks : Marks) (ch : Byte) (rest : List Byte) : HttpCode :=
  if ch = space || ch = tab then
    let parser :=
      if parser.headerState = .contentLengthNum then { parser with headerState := .contentLengthWs } else parser
    caseHeaderValueStart { parser with state := .headerValueStart } marks ch rest
  else
    caseHeaderFieldStart { parser with
      flags := headerFlag parser.flags parser.headerState, state := .headerFieldStart } marks ch rest

def caseHeaderValueDiscardLws (parser : HttpParser) (marks : Marks) (ch : Byte) (rest : List Byte) : HttpCode :=
  if ch = space || ch = tab then .done (.next { parser with state := .headerValueDiscardWs } marks rest)
  else if parser.headerState = .contentLength then fail parser .invalidContentLength (ch :: rest)
  else
    let marks := mark marks .headerValue (ch :: rest)
    let parser := { parser with
      flags := headerFlag parser.flags parser.headerState, state := .headerFieldStart }
    callbackData parser marks .headerValue (ch :: rest) (ch :: rest) fun marks =>
      caseHeaderFieldStart parser marks ch rest

/-! ### Bodies -/

def caseBodyIdentity (parser : HttpParser) (marks : Marks) (ch : Byte) (rest : List Byte) : HttpCode :=
  let toRead := min parser.contentLength (ch :: rest).length
  assert (parser.contentLength ≠ 0 && parser.contentLength ≠ ullongMax)
    (let marks := mark marks .body (ch :: rest)
    let parser := { parser with contentLength := parser.contentLength - toRead }
    -- the last byte that is read, and what is behind it
    let last := (ch :: rest).drop (toRead - 1)
    if parser.contentLength = 0 then
      let parser := { parser with state := .messageDone }
      callbackData parser marks .body last.tail last fun marks => caseMessageDone parser marks last.tail
    else .done (.next parser marks last.tail))

def caseChunkSizeStart (parser : HttpParser) (marks : Marks) (ch : Byte) (rest : List Byte) : HttpCode :=
  assert (parser.nread = 1 && parser.flags.chunked)
    (match unhex ch with
    | none => fail parser .invalidChunkSize (ch :: rest)
    | some digit => .done (.next { parser with contentLength := digit, state := .chunkSize } marks rest))

def caseChunkSize (parser : HttpParser) (marks : Marks) (ch : Byte) (rest : List Byte) : HttpCode :=
  assert parser.flags.chunked
    (if ch = cr then .done (.next { parser with state := .chunkSizeAlmostDone } marks rest)
    else
      match unhex ch with
      | none =>
          if ch = ';'.toUInt8 || ch = space then
            .done (.next { parser with state := .chunkParameters } marks rest)
          else fail parser .invalidChunkSize (ch :: rest)
      | some digit =>
          if (ullongMax - 16) / 16 < parser.contentLength then fail parser .invalidContentLength (ch :: rest)
          else
            .done (.next { parser with contentLength := (parser.contentLength * 16 + digit) % 2 ^ 64 }
              marks rest))

def caseChunkParameters (parser : HttpParser) (marks : Marks) (ch : Byte) (rest : List Byte) : HttpCode :=
  assert parser.flags.chunked
    (if ch = cr then .done (.next { parser with state := .chunkSizeAlmostDone } marks rest)
    else .done (.next parser marks rest))

def caseChunkSizeAlmostDone (parser : HttpParser) (marks : Marks) (ch : Byte) (rest : List Byte) : HttpCode :=
  assert parser.flags.chunked
    (if ch ≠ lf then fail parser .strict (ch :: rest)
    else
      let parser := { parser with nread := 0 }
      let parser :=
        if parser.contentLength = 0 then
          { parser with flags := { parser.flags with trailing := true }, state := .headerFieldStart }
        else { parser with state := .chunkData }
      callbackNotify parser .chunkHeader rest (.done (.next parser marks rest)))

def caseChunkData (parser : HttpParser) (marks : Marks) (ch : Byte) (rest : List Byte) : HttpCode :=
  let toRead := min parser.contentLength (ch :: rest).length
  assert (parser.flags.chunked && parser.contentLength ≠ 0 && parser.contentLength ≠ ullongMax)
    (let marks := mark marks .body (ch :: rest)
    let parser := { parser with contentLength := parser.contentLength - toRead }
    let parser := if parser.contentLength = 0 then { parser with state := .chunkDataAlmostDone } else parser
    .done (.next parser marks ((ch :: rest).drop toRead)))

def caseChunkDataAlmostDone (parser : HttpParser) (marks : Marks) (ch : Byte) (rest : List Byte) : HttpCode :=
  assert (parser.flags.chunked && parser.contentLength = 0)
    (if ch ≠ cr then fail parser .strict (ch :: rest)
    else
      let parser := { parser with state := .chunkDataDone }
      callbackData parser marks .body (ch :: rest) rest fun marks => .done (.next parser marks rest))

def caseChunkDataDone (parser : HttpParser) (marks : Marks) (ch : Byte) (rest : List Byte) : HttpCode :=
  assert parser.flags.chunked
    (if ch ≠ lf then fail parser .strict (ch :: rest)
    else
      let parser := { parser with nread := 0, state := .chunkSizeStart }
      callbackNotify parser .chunkComplete rest (.done (.next parser marks rest)))

/-! ### The loop -/

/-- `switch (CURRENT_STATE())`; `goto reexecute` is a call of the case it leads to. -/
def switch (parser : HttpParser) (marks : Marks) (ch : Byte) (rest : List Byte) : HttpCode :=
  match parser.state with
  | .dead => caseDead parser marks ch rest
  | .startReq => caseStartReq parser marks ch rest
  | .reqMethod => caseReqMethod parser marks ch rest
  | .reqSpacesBeforeUrl => caseReqSpacesBeforeUrl parser marks ch rest
  | .reqSchema | .reqSchemaSlash | .reqSchemaSlashSlash | .reqServerStart =>
      caseReqSchema parser marks ch rest
  | .reqServer | .reqServerWithAt | .reqPath | .reqQueryStringStart | .reqQueryString
  | .reqFragmentStart | .reqFragment => caseReqUrl parser marks ch rest
  | .reqHttpStart => caseReqHttpStart parser marks ch rest
  | .reqHttpH => caseLetter 'T'.toUInt8 .reqHttpHT parser marks ch rest
  | .reqHttpHT => caseLetter 'T'.toUInt8 .reqHttpHTT parser marks ch rest
  | .reqHttpHTT => caseLetter 'P'.toUInt8 .reqHttpHTTP parser marks ch rest
  | .reqHttpI => caseLetter 'C'.toUInt8 .reqHttpIC parser marks ch rest
  | .reqHttpIC => caseLetter 'E'.toUInt8 .reqHttpHTTP parser marks ch rest
  | .reqHttpHTTP => caseLetter '/'.toUInt8 .reqHttpMajor parser marks ch rest
  | .reqHttpMajor => caseReqHttpMajor parser marks ch rest
  | .reqHttpDot => caseReqHttpDot parser marks ch rest
  | .reqHttpMinor => caseReqHttpMinor parser marks ch rest
  | .reqHttpEnd => caseReqHttpEnd parser marks ch rest
  | .reqLineAlmostDone => caseLf .headerFieldStart parser marks ch rest
  | .headerFieldStart => caseHeaderFieldStart parser marks ch rest
  | .headerField => caseHeaderField parser marks ch rest
  | .headerValueDiscardWs => caseHeaderValueDiscardWs parser marks ch rest
  | .headerValueStart => caseHeaderValueStart parser marks ch rest
  | .headerValue => caseHeaderValue parser marks ch rest
  | .headerAlmostDone => caseLf .headerValueLws parser marks ch rest
  | .headerValueLws => caseHeaderValueLws parser marks ch rest
  | .headerValueDiscardWsAlmostDone => caseLetter lf .headerValueDiscardLws parser marks ch rest
  | .headerValueDiscardLws => caseHeaderValueDiscardLws parser marks ch rest
  | .headersAlmostDone => caseHeadersAlmostDone parser marks ch rest
  | .headersDone => caseHeadersDone parser marks ch rest
  | .bodyIdentity => caseBodyIdentity parser marks ch rest
  | .messageDone => caseMessageDone parser marks rest
  | .chunkSizeStart => caseChunkSizeStart parser marks ch rest
  | .chunkSize => caseChunkSize parser marks ch rest
  | .chunkParameters => caseChunkParameters parser marks ch rest
  | .chunkSizeAlmostDone => caseChunkSizeAlmostDone parser marks ch rest
  | .chunkData => caseChunkData parser marks ch rest
  | .chunkDataAlmostDone => caseChunkDataAlmostDone parser marks ch rest
  | .chunkDataDone => caseChunkDataDone parser marks ch rest

/-- An iteration. -/
def iteration (parser : HttpParser) (marks : Marks) (ch : Byte) (rest : List Byte) : HttpCode :=
  if parser.state.parsingHeader then
    countHeaderSize parser 1 (ch :: rest) fun parser => switch parser marks ch rest
  else switch parser marks ch rest

/-- `for (p = data; p != data + len; p++)`, for at most this many iterations. -/
def loop : Nat → HttpParser → Marks → List Byte → HttpCode
  | fuel + 1, parser, marks, ch :: rest =>
      (iteration parser marks ch rest).andThen fun exit =>
        match exit with
        | .next parser marks p => loop fuel parser marks p
        | .stop parser p => .done (.stop parser p)
        | .abort => .done .abort
  | _, parser, marks, p => .done (.next parser marks p)

/-- The marks that are set before the loop. -/
def marksAt (parser : HttpParser) (data : List Byte) : Marks
  | .headerField => if parser.state = .headerField then some data else none
  | .headerValue => if parser.state = .headerValue then some data else none
  | .url => if parser.state.inUrl then some data else none
  | .body => none

/-- The number of marks that are set. -/
def marksSet (marks : Marks) : Nat :=
  ([TextKind.headerField, .headerValue, .url, .body].filter fun kind => (marks kind).isSome).length

/-- The callbacks for marks that are left over behind the loop. -/
def leftOver (parser : HttpParser) (marks : Marks) : HttpCode :=
  assert (marksSet marks ≤ 1)
    (callbackData parser marks .headerField [] [] fun marks =>
      callbackData parser marks .headerValue [] [] fun marks =>
        callbackData parser marks .url [] [] fun marks =>
          callbackData parser marks .body [] [] fun _ => .done (.stop parser []))

/-- The code behind the loop. -/
def finish : Exit → HttpCode
  | .next parser marks _ => leftOver parser marks
  | .stop parser p => .done (.stop parser p)
  | .abort => .done .abort

/-- What a call leaves: the parser and the number that is returned; or it aborts. -/
abbrev Executed := Option (HttpParser × Nat)

/-- `RETURN(p - data)`. -/
def returned (data : List Byte) : Exit → Executed
  | .stop parser p => some (parser, data.length - p.length)
  | _ => none

/-- The function on a buffer of at least one byte. -/
def executeBuffer (parser : HttpParser) (data : List Byte) : Script HttpCall Int Executed :=
  ((loop data.length parser (marksAt parser data) data).andThen finish).andThen fun exit =>
    .done (returned data exit)

/-- `http_parser_execute`. An empty buffer stands for the end of the stream. -/
def httpParserExecute (parser : HttpParser) (data : List Byte) : Script HttpCall Int Executed :=
  if parser.httpErrno.isSome then .done (some (parser, 0))
  else if data = [] then
    if parser.state = .dead || parser.state = .startReq then .done (some (parser, 0))
    else .done (some ({ parser with httpErrno := some .invalidEofState }, 1))
  else executeBuffer parser data

end FbBroker.Http
