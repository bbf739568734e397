import FbBroker.Core.Bytes

/-!
Contract: the alphabets, methods and states of `http_parser.c`.

Owns the character classes in their strict form, the methods with their texts and the
table by which one method turns into another, the states of a parser of requests, and
`parse_url_char`.

Does not own the states of responses: the parser is only ever initialised with
`HTTP_REQUEST`.
-/

set_option autoImplicit false

namespace FbBroker.Http

/-! ### Characters -/

def cr : Byte := 13
def lf : Byte := 10
def space : Byte := 32
def tab : Byte := 9

/-- `LOWER`. -/
def lower (ch : Byte) : Byte := ch ||| 0x20

def isAlpha (ch : Byte) : Bool := 'a'.toUInt8 ≤ lower ch && lower ch ≤ 'z'.toUInt8

def isNum (ch : Byte) : Bool := '0'.toUInt8 ≤ ch && ch ≤ '9'.toUInt8

def isUpper (ch : Byte) : Bool := 'A'.toUInt8 ≤ ch && ch ≤ 'Z'.toUInt8

def isMark (ch : Byte) : Bool := ch ∈ lit "-_.!~*'()"

def isUserinfoChar (ch : Byte) : Bool :=
  isAlpha ch || isNum ch || isMark ch || ch ∈ lit "%;:&=+$,"

/-- `tokens` behind `STRICT_TOKEN`: letters in lower case, the other characters of a token
as they are, and 0 for the rest. -/
def token (ch : Byte) : Byte :=
  if isUpper ch then ch + 0x20
  else if isNum ch || ('a'.toUInt8 ≤ ch && ch ≤ 'z'.toUInt8) || ch ∈ lit "!#$%&'*+-.^_`|~" then ch
  else 0

/-- `normal_url_char`. -/
def isUrlChar (ch : Byte) : Bool :=
  33 ≤ ch && ch ≤ 126 && ch ≠ '#'.toUInt8 && ch ≠ '?'.toUInt8

def isHeaderChar (ch : Byte) : Bool :=
  ch = cr || ch = lf || ch = tab || (31 < ch && ch ≠ 127)

/-- `unhex`: the table has 128 initialisers, so the bytes behind them are zeros. -/
def unhex (ch : Byte) : Option Nat :=
  if 128 ≤ ch then some 0
  else if isNum ch then some (ch.toNat - 48)
  else if 'A'.toUInt8 ≤ ch && ch ≤ 'F'.toUInt8 then some (ch.toNat - 55)
  else if 'a'.toUInt8 ≤ ch && ch ≤ 'f'.toUInt8 then some (ch.toNat - 87)
  else none

/-! ### Methods -/

/-- `enum http_method`. -/
inductive HttpMethod where
  | delete | get | head | post | put | connect | options | trace
  | copy | lock | mkcol | move | propfind | proppatch | search | unlock | bind | rebind | unbind | acl
  | report | mkactivity | checkout | merge
  | msearch | notify | subscribe | unsubscribe
  | patch | purge | mkcalendar | link | unlink | source
deriving DecidableEq, Repr

namespace HttpMethod

/-- `method_strings`. -/
def text : HttpMethod → List Byte
  | delete => lit "DELETE"
  | get => lit "GET"
  | head => lit "HEAD"
  | post => lit "POST"
  | put => lit "PUT"
  | connect => lit "CONNECT"
  | options => lit "OPTIONS"
  | trace => lit "TRACE"
  | copy => lit "COPY"
  | lock => lit "LOCK"
  | mkcol => lit "MKCOL"
  | move => lit "MOVE"
  | propfind => lit "PROPFIND"
  | proppatch => lit "PROPPATCH"
  | search => lit "SEARCH"
  | unlock => lit "UNLOCK"
  | bind => lit "BIND"
  | rebind => lit "REBIND"
  | unbind => lit "UNBIND"
  | acl => lit "ACL"
  | report => lit "REPORT"
  | mkactivity => lit "MKACTIVITY"
  | checkout => lit "CHECKOUT"
  | merge => lit "MERGE"
  | msearch => lit "M-SEARCH"
  | notify => lit "NOTIFY"
  | subscribe => lit "SUBSCRIBE"
  | unsubscribe => lit "UNSUBSCRIBE"
  | patch => lit "PATCH"
  | purge => lit "PURGE"
  | mkcalendar => lit "MKCALENDAR"
  | link => lit "LINK"
  | unlink => lit "UNLINK"
  | source => lit "SOURCE"

/-- The method the first letter stands for until a later one says otherwise. -/
def ofFirst (ch : Byte) : Option HttpMethod :=
  if ch = 'A'.toUInt8 then some acl
  else if ch = 'B'.toUInt8 then some bind
  else if ch = 'C'.toUInt8 then some connect
  else if ch = 'D'.toUInt8 then some delete
  else if ch = 'G'.toUInt8 then some get
  else if ch = 'H'.toUInt8 then some head
  else if ch = 'L'.toUInt8 then some lock
  else if ch = 'M'.toUInt8 then some mkcol
  else if ch = 'N'.toUInt8 then some notify
  else if ch = 'O'.toUInt8 then some options
  else if ch = 'P'.toUInt8 then some post
  else if ch = 'R'.toUInt8 then some report
  else if ch = 'S'.toUInt8 then some subscribe
  else if ch = 'T'.toUInt8 then some trace
  else if ch = 'U'.toUInt8 then some unlock
  else none

/-- The `switch` over method, position and letter. -/
def turns : HttpMethod → Nat → Char → Option HttpMethod
  | post, 1, 'U' => some put
  | post, 1, 'A' => some patch
  | post, 1, 'R' => some propfind
  | put, 2, 'R' => some purge
  | connect, 1, 'H' => some checkout
  | connect, 2, 'P' => some copy
  | mkcol, 1, 'O' => some move
  | mkcol, 1, 'E' => some merge
  | mkcol, 1, '-' => some msearch
  | mkcol, 2, 'A' => some mkactivity
  | mkcol, 3, 'A' => some mkcalendar
  | subscribe, 1, 'E' => some search
  | subscribe, 1, 'O' => some source
  | report, 2, 'B' => some rebind
  | propfind, 4, 'P' => some proppatch
  | lock, 1, 'I' => some link
  | unlock, 2, 'S' => some unsubscribe
  | unlock, 2, 'B' => some unbind
  | unlock, 3, 'I' => some unlink
  | _, _, _ => none

end HttpMethod

/-! ### States -/

/-- The states of `enum state` that a parser of requests can be in. -/
inductive HttpState where
  | dead
  | startReq
  | reqMethod
  | reqSpacesBeforeUrl
  | reqSchema
  | reqSchemaSlash
  | reqSchemaSlashSlash
  | reqServerStart
  | reqServer
  | reqServerWithAt
  | reqPath
  | reqQueryStringStart
  | reqQueryString
  | reqFragmentStart
  | reqFragment
  | reqHttpStart
  | reqHttpH
  | reqHttpHT
  | reqHttpHTT
  | reqHttpHTTP
  | reqHttpI
  | reqHttpIC
  | reqHttpMajor
  | reqHttpDot
  | reqHttpMinor
  | reqHttpEnd
  | reqLineAlmostDone
  | headerFieldStart
  | headerField
  | headerValueDiscardWs
  | headerValueDiscardWsAlmostDone
  | headerValueDiscardLws
  | headerValueStart
  | headerValue
  | headerValueLws
  | headerAlmostDone
  | chunkSizeStart
  | chunkSize
  | chunkParameters
  | chunkSizeAlmostDone
  | headersAlmostDone
  | headersDone
  | chunkData
  | chunkDataAlmostDone
  | chunkDataDone
  | bodyIdentity
  | messageDone
deriving DecidableEq, Repr

/-- `PARSING_HEADER`: the states up to `s_headers_done`. -/
def HttpState.parsingHeader : HttpState → Bool
  | chunkData | chunkDataAlmostDone | chunkDataDone | bodyIdentity | messageDone => false
  | _ => true

/-- The states in which `http_parser_execute` finds itself inside a URL. -/
def HttpState.inUrl : HttpState → Bool
  | reqPath | reqSchema | reqSchemaSlash | reqSchemaSlashSlash | reqServerStart | reqServer
  | reqServerWithAt | reqQueryStringStart | reqQueryString | reqFragmentStart | reqFragment => true
  | _ => false

/-- `enum header_states`. -/
inductive HeaderState where
  | general
  | c
  | co
  | con
  | matchingConnection
  | matchingProxyConnection
  | matchingContentLength
  | matchingTransferEncoding
  | matchingUpgrade
  | connection
  | contentLength
  | contentLengthNum
  | contentLengthWs
  | transferEncoding
  | upgrade
  | matchingTransferEncodingTokenStart
  | matchingTransferEncodingChunked
  | matchingTransferEncodingToken
  | matchingConnectionTokenStart
  | matchingConnectionKeepAlive
  | matchingConnectionClose
  | matchingConnectionUpgrade
  | matchingConnectionToken
  | transferEncodingChunked
  | connectionKeepAlive
  | connectionClose
  | connectionUpgrade
deriving DecidableEq, Repr

/-- The part of `parse_url_char` for the server. -/
def parseServerChar (ch : Byte) : HttpState :=
  if ch = '/'.toUInt8 then .reqPath
  else if ch = '?'.toUInt8 then .reqQueryStringStart
  else if ch = '@'.toUInt8 then .reqServerWithAt
  else if isUserinfoChar ch || ch = '['.toUInt8 || ch = ']'.toUInt8 then .reqServer
  else .dead

def parseUrlChar (state : HttpState) (ch : Byte) : HttpState :=
  if ch = space || ch = cr || ch = lf then .dead
  else if ch = tab || ch = 12 then .dead
  else
    match state with
    | .reqSpacesBeforeUrl =>
        if ch = '/'.toUInt8 || ch = '*'.toUInt8 then .reqPath
        else if isAlpha ch then .reqSchema
        else .dead
    | .reqSchema =>
        if isAlpha ch then .reqSchema
        else if ch = ':'.toUInt8 then .reqSchemaSlash
        else .dead
    | .reqSchemaSlash => if ch = '/'.toUInt8 then .reqSchemaSlashSlash else .dead
    | .reqSchemaSlashSlash => if ch = '/'.toUInt8 then .reqServerStart else .dead
    | .reqServerWithAt => if ch = '@'.toUInt8 then .dead else parseServerChar ch
    | .reqServerStart => parseServerChar ch
    | .reqServer => parseServerChar ch
    | .reqPath =>
        if isUrlChar ch then .reqPath
        else if ch = '?'.toUInt8 then .reqQueryStringStart
        else if ch = '#'.toUInt8 then .reqFragmentStart
        else .dead
    | .reqQueryStringStart | .reqQueryString =>
        if isUrlChar ch then .reqQueryString
        else if ch = '?'.toUInt8 then .reqQueryString
        else if ch = '#'.toUInt8 then .reqFragmentStart
        else .dead
    | .reqFragmentStart =>
        if isUrlChar ch then .reqFragment
        else if ch = '?'.toUInt8 then .reqFragment
        else if ch = '#'.toUInt8 then .reqFragmentStart
        else .dead
    | .reqFragment =>
        if isUrlChar ch then .reqFragment
        else if ch = '?'.toUInt8 || ch = '#'.toUInt8 then .reqFragment
        else .dead
    | _ => .dead

end FbBroker.Http
