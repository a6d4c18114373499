import ReadingComment.Lib.CString

/-!
# Clients of the benchmarking tool (`weighttp/src/client.c`)

A client sends one request after the other and takes the responses apart as they come in:
`client_parse` is called with what one `read` has put behind the bytes that are already in the
buffer.

The buffer is the list of the bytes below `buffer_offset`; the NUL behind them is what is read at
its end. `content_length` is the 64 bits of an `int64_t`, `-1` being the largest number.
-/

namespace Weighttp

open Lib

/-! ## Strings -/

/-- `strchr(s, c)`: how far away the character is. -/
def strchr (c : Char) : List Char → Option ℕ
  | [] => none
  | x :: s => if x = c then some 0 else if x = '\x00' then none else (strchr c s).map (· + 1)

/-- `strstr(s, "\r\n")`. -/
def strCrLf : List Char → Option ℕ
  | [] => none
  | x :: s =>
    if x = '\r' ∧ s.head? = some '\n' then some 0
    else if x = '\x00' then none
    else (strCrLf s).map (· + 1)

/-- `*(s + i)` in a string that a NUL ends. -/
def charAt (s : List Char) (i : ℕ) : Char := s.getD i '\x00'

/-- `strncasecmp(s, t, sizeof(t) - 1) == 0`. -/
def hasPrefix (t : String) (s : List Char) : Bool := caseEq (s.take t.toList.length) t.toList

/-- `UINT64_MAX`, and the `content_length` of -1. -/
def unknown : ℕ := 2 ^ 64 - 1

/-- `str_to_uint64(str)`. -/
def strToUint64 : List Char → ℕ → ℕ
  | [], i => i
  | c :: s, i =>
    if c < '0' ∨ '9' < c then unknown
    else strToUint64 s ((i * 10 + (c.toNat - '0'.toNat)) % 2 ^ 64)

/-! ## Data -/

/-- The states of a client. -/
inductive ClientState where
  | start
  | connecting
  | writing
  | reading
  | error
  | atEnd
  deriving DecidableEq, Repr

/-- The states of its parser. -/
inductive ParserState where
  | start
  | header
  | body
  deriving DecidableEq, Repr

/-- What `client_parse` can do that it must not. -/
inductive Fault where
  /-- `buffer` is read outside -/
  | outside
  /-- it does not return -/
  | endless
  deriving DecidableEq, Repr

structure Config where
  keepAlive : Bool
  requestSize : ℕ

structure Stats where
  reqTodo : ℕ
  reqStarted : ℕ
  reqDone : ℕ
  reqSuccess : ℕ
  reqFailed : ℕ
  reqError : ℕ
  bytesTotal : ℕ
  bytesBody : ℕ
  req2xx : ℕ
  req3xx : ℕ
  req4xx : ℕ
  req5xx : ℕ

structure Client where
  state : ClientState
  parserState : ParserState
  /-- `sock_watcher.fd` is not -1, and the watcher is active -/
  watched : Bool
  /-- the bytes below `buffer_offset` -/
  buffer : List Char
  parserOffset : ℕ
  requestOffset : ℕ
  keepalive : Bool
  success : Bool
  statusSuccess : Bool
  chunked : Bool
  chunkSize : ℤ
  chunkReceived : ℤ
  contentLength : ℕ
  bytesReceived : ℕ
  headerSize : ℕ

/-- `sizeof(client->buffer)`. -/
def bufferSize : ℕ := 32 * 1024

/-- `client_new(worker)`. -/
def clientNew (cfg : Config) : Client where
  state := .start
  parserState := .start
  watched := false
  buffer := []
  parserOffset := 0
  requestOffset := 0
  keepalive := cfg.keepAlive
  success := false
  statusSuccess := false
  chunked := false
  chunkSize := -1
  chunkReceived := 0
  contentLength := unknown
  bytesReceived := 0
  headerSize := 0

/-- A client and the counters of its worker. -/
structure Conn where
  stats : Stats
  client : Client

/-! ## Parsing -/

def statusCode : List Char → ℕ → Option ℕ
  | [], n => some n
  | c :: s, n =>
    if c < '0' ∨ '9' < c then none else statusCode s (n * 10 + (c.toNat - '0'.toNat))

/-- The status code is counted; `none` when it is not valid. -/
def countStatus (code : ℕ) (c : Conn) : Option Conn :=
  if 200 ≤ code ∧ code < 300 then
    some ⟨{ c.stats with req2xx := c.stats.req2xx + 1 }, { c.client with statusSuccess := true }⟩
  else if code < 400 then
    some ⟨{ c.stats with req3xx := c.stats.req3xx + 1 }, { c.client with statusSuccess := true }⟩
  else if code < 500 then
    some { c with stats := { c.stats with req4xx := c.stats.req4xx + 1 } }
  else if code < 600 then
    some { c with stats := { c.stats with req5xx := c.stats.req5xx + 1 } }
  else none

/-- The state `PARSER_START` with enough bytes. -/
def parseStart (c : Conn) : Conn × Bool :=
  let buffer := c.client.buffer
  if buffer.take 9 ≠ "HTTP/1.1 ".toList then (c, false)
  else
    match (statusCode ((buffer.drop 9).take 3) 0).bind (countStatus · c) with
    | none => (c, false)
    | some c =>
      match strchr '\r' (buffer.drop 12) with
      | none => (c, false)
      | some k =>
        if charAt buffer (12 + k + 1) ≠ '\n' then (c, false)
        else
          ({ c with client := { c.client with
              parserOffset := 12 + k + 2, parserState := .header } }, true)

/-- The checks of a header line; `none` when it makes the parser fail. -/
def headerLine (cfg : Config) (line : List Char) (c : Client) : Option Client :=
  if hasPrefix "Content-Length: " line then
    some { c with contentLength := strToUint64 (line.drop 16) 0 }
  else if hasPrefix "Connection: " line then
    if hasPrefix "close" (line.drop 12) then some { c with keepalive := false }
    else if hasPrefix "keep-alive" (line.drop 12) then some { c with keepalive := cfg.keepAlive }
    else none
  else if hasPrefix "Transfer-Encoding: " line then
    if hasPrefix "chunked" (line.drop 19) then some { c with chunked := true } else none
  else some c

def sizeDigit (c : Char) : Option ℤ :=
  if '0' ≤ c ∧ c ≤ '9' then some (c.toNat - '0'.toNat)
  else if 'A' ≤ c ∧ c ≤ 'Z' then some (10 + c.toNat - 'A'.toNat)
  else if 'a' ≤ c ∧ c ≤ 'z' then some (10 + c.toNat - 'a'.toNat)
  else none

/-- The loop that reads a chunk size from at most `n` characters: the size and how many characters
it has. -/
def readSize : ℕ → ℤ → List Char → Option (ℤ × ℕ)
  | 0, v, _ => some (v, 0)
  | _ + 1, _, [] => none
  | n + 1, v, c :: s =>
    if c = ';' ∨ c = '\r' then some (v, 0)
    else
      match sizeDigit c with
      | none => none
      | some d =>
        (readSize n ((v * 16 + d).bmod (2 ^ 64)) s).map fun r => (r.1, r.2 + 1)

/-- The chunk that is consumed, with `size` bytes left of the last read: the client, and how much of
these was consumed. -/
def consume (size : ℤ) (c : Client) : Client × ℤ :=
  let consumeMax := (c.chunkSize - c.chunkReceived).bmod (2 ^ 32)
  let consumeMax := if size < consumeMax then size else consumeMax
  ({ c with
      chunkReceived := c.chunkReceived + consumeMax
      parserOffset := ((c.parserOffset + consumeMax) % 2 ^ 32).toNat }, consumeMax)

def Client.emptied (c : Client) : Client := { c with parserOffset := 0, buffer := [] }

def Client.completed (c : Client) : Client := { c with state := .atEnd, success := c.statusSuccess }

/-- The end of a chunk; what remains of the last read when there is a next chunk to parse. -/
def endChunk (size consumed : ℤ) (c : Client) : Except Fault (Client × Bool × Option ℤ) :=
  if c.chunkReceived = c.chunkSize then
    if bufferSize ≤ c.parserOffset then .error .outside
    else if charAt c.buffer c.parserOffset ≠ '\r' ∨ charAt c.buffer (c.parserOffset + 1) ≠ '\n' then
      .ok (c, false, none)
    else
      let c := { c with chunkSize := -1, chunkReceived := 0, parserOffset := c.parserOffset + 2 }
      if 0 < size - (consumed + 2) then .ok (c, true, some (size - (consumed + 2)))
      else .ok (c.emptied, true, none)
  else .ok (c.emptied, true, none)

/-- The line with the size of a chunk: the client, and how long the line is; `none` when the parser
fails. -/
def sizeLine (size : ℤ) (c : Client) : Option (Client × ℕ) :=
  let str := c.buffer.drop c.parserOffset
  match readSize size.toNat 0 str with
  | none => none
  | some (v, n) =>
    match strCrLf (str.drop n) with
    | none => none
    | some k => some ({ c with chunkSize := v, chunkReceived := 0 }, n + k + 2)

/-- The state `PARSER_BODY` of a chunked response. A negative chunk size makes the parser go back;
with as many calls as there are places in the buffer it comes to the same place twice. -/
def parseChunks : ℕ → ℤ → Client → Except Fault (Client × Bool)
  | 0, _, _ => .error .endless
  | fuel + 1, size, c =>
    let inChunk (size : ℤ) (c : Client) : Except Fault (Client × Bool) := do
      let (c, consumed) := consume size c
      let (c, ok, rest) ← endChunk size consumed c
      match rest with
      | some size => parseChunks fuel size c
      | none => return (c, ok)
    if c.chunkSize = -1 then
      match sizeLine size c with
      | none => .ok (c, false)
      | some (c, n) =>
        if c.chunkSize = 0 then .ok (c.completed, true)
        else inChunk (size - n) { c with parserOffset := c.parserOffset + n }
    else inChunk size c

/-- The state `PARSER_BODY`. -/
def parseBody (size : ℤ) (c : Client) : Except Fault (Client × Bool) :=
  if c.chunked then parseChunks (c.buffer.length + 2) size c
  else
    -- the bytes are only counted
    let c := { c with buffer := [] }
    if c.contentLength = unknown then .ok (c, false)
    else if c.bytesReceived = (c.headerSize + c.contentLength) % 2 ^ 64 then .ok (c.completed, true)
    else .ok (c, true)

/-- `*end = '\0'` at the CR of a header line; it stays in the buffer. -/
def Client.endLine (cr : ℕ) (c : Client) : Client := { c with buffer := c.buffer.set cr '\x00' }

/-- The state `PARSER_HEADER`. -/
def parseHeader (cfg : Config) (size : ℤ) : ℕ → Client → Except Fault (Client × Bool)
  | 0, _ => .error .endless
  | fuel + 1, c =>
    match strchr '\r' (c.buffer.drop c.parserOffset) with
    | none => .ok (c, true)
    | some k =>
      let cr := c.parserOffset + k
      if charAt c.buffer (cr + 1) ≠ '\n' then .ok (c, false)
      else if k = 0 then
        -- the blank line, in another read than the line before it; `parser_offset` stays here
        parseBody (size - (cr + 2)) { c with parserState := .body, headerSize := cr + 2 }
      else
        match headerLine cfg ((c.buffer.drop c.parserOffset).take k) (c.endLine cr) with
        | none => .ok (c.endLine cr, false)
        | some c =>
          if charAt c.buffer (cr + 2) = '\r' ∧ charAt c.buffer (cr + 3) = '\n' then
            parseBody (size - (cr + 4))
              { c with parserState := .body, headerSize := cr + 4, parserOffset := cr + 4 }
          else parseHeader cfg size fuel { c with parserOffset := cr + 2 }

/-- `client_parse(client, size)`. -/
def clientParse (cfg : Config) (size : ℤ) (c : Conn) : Except Fault (Conn × Bool) :=
  let inHeader (c : Conn) : Except Fault (Conn × Bool) :=
    (fun r => ({ c with client := r.1 }, r.2)) <$>
      parseHeader cfg size (c.client.buffer.length + 1) c.client
  match c.client.parserState with
  | .start =>
    if c.client.buffer.length < 15 then .ok (c, true)
    else
      match parseStart c with
      | (c, false) => .ok (c, false)
      | (c, true) => inHeader c
  | .header => inHeader c
  | .body => (fun r => ({ c with client := r.1 }, r.2)) <$> parseBody size c.client

def Conn.failed (c : Conn) : Conn := { c with client := { c.client with state := .error } }

/-- A `read` that has brought bytes; the result says whether they could be parsed. -/
def received (cfg : Config) (bytes : List Char) (c : Conn) : Except Fault (Conn × Bool) :=
  let c : Conn := ⟨{ c.stats with bytesTotal := c.stats.bytesTotal + bytes.length },
    { c.client with
      bytesReceived := c.client.bytesReceived + bytes.length
      buffer := c.client.buffer ++ bytes }⟩
  -- too big response header
  if bufferSize ≤ c.client.buffer.length then .ok (c.failed, false)
  else do
    let (c, ok) ← clientParse cfg bytes.length c
    return if ok then (c, true) else (c.failed, false)

/-- A `read` that has brought nothing. -/
def disconnected (c : Client) : Client :=
  if c.parserState = .body ∧ ¬ c.keepalive ∧ c.statusSuccess ∧ ¬ c.chunked ∧
      c.contentLength = unknown then
    { c with success := true, state := .atEnd }
  else { c with state := .error }

/-! ## The end of a request -/

/-- The case `CLIENT_ERROR`, which goes on with `CLIENT_END`. -/
def clientError (c : Conn) : Conn where
  stats := { c.stats with reqError := c.stats.reqError + 1 }
  client := { c.client with keepalive := false, success := false, state := .atEnd }

/-- The counters of the worker at `CLIENT_END`. -/
def countDone (c : Conn) : Stats :=
  if c.client.success then
    { c.stats with
      reqDone := c.stats.reqDone + 1
      reqSuccess := c.stats.reqSuccess + 1
      bytesBody := c.stats.bytesBody + (c.client.bytesReceived - c.client.headerSize) }
  else
    { c.stats with reqDone := c.stats.reqDone + 1, reqFailed := c.stats.reqFailed + 1 }

/-- `client_reset(client)`; the connection is used again when it is kept alive. -/
def clientReset (cfg : Config) (c : Conn) : Conn where
  stats :=
    if c.client.keepalive then { c.stats with reqStarted := c.stats.reqStarted + 1 } else c.stats
  client :=
    { clientNew cfg with
      state := if c.client.keepalive then .writing else .start
      watched := if c.client.keepalive then c.client.watched else false }

end Weighttp
