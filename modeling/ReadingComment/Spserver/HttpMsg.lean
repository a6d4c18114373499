import ReadingComment.Lib.CString

/-!
# The HTTP message parser (`spserver/sphttpmsg.cpp`, `spserver/sphttp.cpp`)

`SP_HttpMsgParser::append` is handed everything that was read and not consumed yet,
goes on from its status and says how many bytes it consumed. A line is parsed when
its newline is there, a body of known length when all of it is there, a chunk when
its data and the line end after it are there.

A `NULL` from `strtok` that is dereferenced or printed, and a length that leaves the
range of `int`, are faults.
-/

namespace Spserver

open Lib

/-- What goes wrong on malformed or oversized input. -/
inductive HttpFault where
  /-- a `NULL` string is dereferenced or printed -/
  | nullString
  /-- a sum of lengths overflows an `int` -/
  | lengthOverflow
  deriving DecidableEq, Repr

/-- What `SP_HttpRequest` and `SP_HttpResponse` add to an `SP_HttpMessage`. -/
inductive HttpKind where
  | request (method : List Char) (url uri : Option (List Char))
      (params : List (List Char × List Char))
  | response (statusCode : ℤ) (reasonPhrase : List Char)
  deriving DecidableEq, Repr

def headerValue (headers : List (List Char × List Char)) (name : List Char) :
    Option (List Char) :=
  (headers.find? fun header => caseEq name header.1).map Prod.snd

/-- An `SP_HttpMessage`; the header names and values are kept as pairs. -/
structure HttpMessage where
  kind : HttpKind
  version : List Char
  headers : List (List Char × List Char)
  content : List Char
  deriving DecidableEq, Repr

namespace HttpMessage

/-- `addHeader`. -/
def addHeader (message : HttpMessage) (name value : List Char) : HttpMessage :=
  { message with headers := message.headers ++ [(name, value)] }

/-- `getHeaderValue (name)`. -/
def getHeaderValue (message : HttpMessage) (name : List Char) : Option (List Char) :=
  headerValue message.headers name

/-- `appendContent` with a positive length; the content and its NUL are sized by an `int`. -/
def appendContent (message : HttpMessage) (content : List Char) : Except HttpFault HttpMessage :=
  if message.content.length + content.length + 1 < 2 ^ 31 then
    .ok { message with content := message.content ++ content }
  else .error .lengthOverflow

/-- `eResponse == getType ()`. -/
def isResponse (message : HttpMessage) : Bool :=
  match message.kind with
  | .request .. => false
  | .response .. => true

end HttpMessage

/-- The loop over `name=value&...`; each round takes at least one character. -/
def addParams : ℕ → Option (List Char) → List (List Char × List Char)
  | 0, _ => []
  | _ + 1, none => []
  | _ + 1, some [] => []
  | fuel + 1, some (c :: cs) =>
    let (value, params) := strsep '&' (some (c :: cs))
    let (name, value) := strsep '=' value
    (name.getD [], value.getD []) :: addParams fuel params

def paramsOf (params : Option (List Char)) : List (List Char × List Char) :=
  addParams ((params.getD []).length + 1) params

/-- `strtok (pos, "\r\n")`, passed to a setter if `pos` is not `NULL`. -/
def lineRest (pos : Option (List Char)) : Except HttpFault (Option (List Char)) :=
  match pos with
  | none => .ok none
  | some pos =>
    match strtok pos with
    | none => .error .nullString
    | some text => .ok (some text)

def startMessage (line : List Char) : Except HttpFault HttpMessage :=
  let (first, pos) := strsep ' ' (some line)
  let (second, pos) := strsep ' ' pos
  let first := first.getD []
  if caseEq (first.take 4) "HTTP".toList then do
    let reason ← lineRest pos
    .ok { kind := .response (second.elim 200 atoi) ((reason.getD "OK".toList).take 127)
          version := first.take 15
          headers := []
          content := [] }
  else do
    let version ← lineRest pos
    let (uri, query) := strsep '?' second
    .ok { kind := .request (first.take 15) second uri (paramsOf query)
          version := (version.getD "HTTP/1.0".toList).take 15
          headers := []
          content := [] }

namespace HttpMsgParser

/-- The states of the parser. -/
inductive Status where
  | startLine
  | header
  | content
  | completed
  deriving DecidableEq, Repr

/-- `parseStartLine`: the message, if the line is there, and the bytes consumed. -/
def parseStartLine (buffer : List Char) : Except HttpFault (Option HttpMessage × ℕ) :=
  if lineLen buffer = 0 then .ok (none, 0)
  else do
    let message ← startMessage (cstr (buffer.take (lineLen buffer)))
    .ok (some message, lineLen buffer)

def addHeaderLine (message : HttpMessage) (line : List Char) : Except HttpFault HttpMessage :=
  match strsep ':' (some line) with
  | (some name, some pos) =>
    match strtok pos with
    | none => .error .nullString
    | some value => .ok (message.addHeader name (value.dropWhile (· == ' ')))
  | _ => .ok message

/-- `parseHeader`. -/
def parseHeader (message : HttpMessage) (buffer : List Char) :
    Except HttpFault (HttpMessage × ℕ) :=
  if lineLen buffer = 0 then .ok (message, 0)
  else do
    let message ← addHeaderLine message (cstr (buffer.take (lineLen buffer)))
    .ok (message, lineLen buffer)

/-- The loop of `append` over the header lines. Each round but the last takes a line;
the first character of the line decides on the end, also when the line is not complete. -/
def parseHeaders : ℕ → HttpMessage → List Char → Except HttpFault (HttpMessage × Status × ℕ)
  | 0, message, _ => .ok (message, .header, 0)
  | _ + 1, message, [] => .ok (message, .header, 0)
  | fuel + 1, message, ch :: cs => do
    let (message, headerLen) ← parseHeader message (ch :: cs)
    if isBreak ch then .ok (message, .content, headerLen)
    else if headerLen = 0 then .ok (message, .header, 0)
    else do
      let (message, status, n) ← parseHeaders fuel message ((ch :: cs).drop headerLen)
      .ok (message, status, headerLen + n)

/-- What `strtok (line, "\r\n")` leaves in `line`. -/
def cutLine (line : List Char) : List Char :=
  line.takeWhile isBreak ++ (line.dropWhile isBreak).takeWhile (! isBreak ·)

/-- `getLine` into an array of 32 bytes: the length of the line and the text. -/
def getLine (buffer : List Char) : ℕ × List Char :=
  (lineLen buffer, cutLine (cstr ((buffer.take (lineLen buffer)).take 31)))

/-- `parseChunked`. -/
def parseChunked : ℕ → HttpMessage → List Char → Except HttpFault (HttpMessage × Status × ℕ)
  | 0, message, _ => .ok (message, .content, 0)
  | fuel + 1, message, buffer =>
    let (lineLen, chunkSize) := getLine buffer
    let contentLen := toInt (strtol 16 chunkSize)
    if 0 < contentLen then
      let size := lineLen + contentLen.toNat
      if 2 ^ 31 ≤ size then .error .lengthOverflow
      else if size < buffer.length ∧ 0 < (getLine (buffer.drop size)).1 then do
        let message ← message.appendContent ((buffer.drop lineLen).take contentLen.toNat)
        let parsedLen := size + (getLine (buffer.drop size)).1
        let (message, status, n) ← parseChunked fuel message (buffer.drop parsedLen)
        .ok (message, status, parsedLen + n)
      else .ok (message, .content, 0)
    else if contentLen = 0 ∧ 0 < lineLen then .ok (message, .completed, lineLen)
    else .ok (message, .content, 0)

/-- The length that `parseContent` reads off the headers. -/
def contentLength (message : HttpMessage) : ℤ :=
  atoi ((message.getHeaderValue "Content-Length".toList).getD "0".toList)

/-- `parseContent`. -/
def parseContent (message : HttpMessage) (buffer : List Char) :
    Except HttpFault (HttpMessage × Status × ℕ) := do
  let contentLen := contentLength message
  let parsedLen := if 0 < contentLen ∧ contentLen ≤ buffer.length then contentLen.toNat else 0
  let message ← if 0 < parsedLen then message.appendContent (buffer.take parsedLen)
    else .ok message
  .ok (message, if contentLen = message.content.length then .completed else .content, parsedLen)

/-- The test for a chunked body in `append`. -/
def isChunked (message : HttpMessage) : Bool :=
  (message.getHeaderValue "Transfer-Encoding".toList).any (caseEq · "chunked".toList)

/-- `postProcess`: the parameters of a posted form. -/
def postProcess (message : HttpMessage) : HttpMessage :=
  match message.kind with
  | .request method url uri params =>
    match message.getHeaderValue "Content-Type".toList with
    | some contentType =>
      if message.content ≠ [] ∧ caseEq contentType "application/x-www-form-urlencoded".toList then
        { message with
          kind := .request method url uri (params ++ paramsOf (some (cstr message.content))) }
      else message
    | none => message
  | .response .. => message

end HttpMsgParser

/-- An `SP_HttpMsgParser`. -/
structure HttpMsgParser where
  message : Option HttpMessage
  status : HttpMsgParser.Status
  ignoreContent : Bool
  deriving DecidableEq, Repr

namespace HttpMsgParser

/-- `SP_HttpMsgParser::SP_HttpMsgParser()`. -/
def new : HttpMsgParser := ⟨none, .startLine, false⟩

/-- The part of `append` after the header lines: the body, and the form in it. -/
def parseBody (ignoreContent : Bool) (message : HttpMessage) (status : Status)
    (buffer : List Char) : Except HttpFault (HttpMessage × Status × ℕ) := do
  let status := if message.isResponse ∧ status = .content ∧ ignoreContent then .completed
    else status
  let (message, status, n) ←
    if status = .content then
      if isChunked message then parseChunked (buffer.length + 1) message buffer
      else parseContent message buffer
    else .ok (message, status, 0)
  .ok (if status = .completed then postProcess message else message, status, n)

/-- The part of `append` after the start line. -/
def parseRest (parser : HttpMsgParser) (message : HttpMessage) (buffer : List Char) :
    Except HttpFault (HttpMsgParser × ℕ) := do
  let (message, status, headerLen) ←
    if parser.status = .header then parseHeaders (buffer.length + 1) message buffer
    else .ok (message, parser.status, 0)
  let (message, status, n) ←
    parseBody parser.ignoreContent message status (buffer.drop headerLen)
  .ok ({ parser with message := some message, status := status }, headerLen + n)

/-- `append`: the parser afterwards and the number of bytes consumed. -/
def append (parser : HttpMsgParser) (buffer : List Char) :
    Except HttpFault (HttpMsgParser × ℕ) :=
  if parser.status = .completed then .ok (parser, 0)
  else
    match parser.message with
    | some message => parseRest parser message buffer
    | none => do
      let (message, lineLen) ← parseStartLine buffer
      match message with
      | none => .ok (parser, 0)
      | some message => do
        let (parser, n) ← parseRest { parser with status := .header } message
          (buffer.drop lineLen)
        .ok (parser, lineLen + n)

/-- `isCompleted`. -/
def isCompleted (parser : HttpMsgParser) : Bool := parser.status = .completed

end HttpMsgParser

/-- What `decode` returns. -/
inductive DecodeResult where
  | eOK
  | eMoreData
  deriving DecidableEq, Repr

/-- `SP_HttpRequestDecoder::decode`: the parser, what is left in `inBuffer` and the result. -/
def decode (parser : HttpMsgParser) (inBuffer : List Char) :
    Except HttpFault (HttpMsgParser × List Char × DecodeResult) :=
  if inBuffer = [] then .ok (parser, inBuffer, .eMoreData)
  else do
    let (parser, len) ← parser.append inBuffer
    .ok (parser, inBuffer.drop len, if parser.isCompleted then .eOK else .eMoreData)

/-- Reads arriving one after the other, each put behind what `decode` left, until a
message is complete: the parser and the bytes left for the next message. -/
def feed : HttpMsgParser → List Char → List (List Char) →
    Except HttpFault (HttpMsgParser × List Char)
  | parser, inBuffer, [] => .ok (parser, inBuffer)
  | parser, inBuffer, read :: reads => do
    let (parser, inBuffer, ret) ← decode parser (inBuffer ++ read)
    if ret = .eOK then .ok (parser, inBuffer ++ reads.flatten)
    else feed parser inBuffer reads

end Spserver
