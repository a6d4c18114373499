import ReadingComment.Lib.Run
import ReadingComment.Weighttp.Reads

/-!
# The points of the parser in a chunked body (`weighttp/src/client.c`)

`client_parse` in the order in which it goes through a chunked body: it is called with what is left
of the last read, has read the line with a chunk size, has consumed what there is of the chunk, and
calls itself or returns. A run of a client from its first read on is a run from point to point;
`received` is such a run.
-/

namespace Weighttp

open Lib

/-- Where `client_parse` is in the body. -/
inductive Point where
  /-- it has returned -/
  | idle
  /-- it is called with so many bytes left -/
  | call (size : ℤ)
  /-- it is in a chunk, with so many bytes left -/
  | data (size : ℤ)
  /-- some of the bytes that were left were consumed -/
  | behind (size consumed : ℤ)
  deriving DecidableEq, Repr

/-- A client, the counters of its worker, and where its parser is. -/
structure Moment where
  conn : Conn
  point : Point

def Moment.move (m : Moment) (c : Client) (point : Point) : Moment :=
  ⟨{ m.conn with client := c }, point⟩

def Moment.returned (c : Conn) (ok : Bool) : Moment := ⟨if ok then c else c.failed, .idle⟩

/-- The state `PARSER_HEADER`, up to the call for the body: the size that it is called with. -/
def parseHeaderTo (cfg : Config) (size : ℤ) : ℕ → Client → Except Fault (Client × Bool × Option ℤ)
  | 0, _ => .error .endless
  | fuel + 1, c =>
    match strchr '\r' (c.buffer.drop c.parserOffset) with
    | none => .ok (c, true, none)
    | some k =>
      let cr := c.parserOffset + k
      if charAt c.buffer (cr + 1) ≠ '\n' then .ok (c, false, none)
      else if k = 0 then
        .ok ({ c with parserState := .body, headerSize := cr + 2 }, true,
          some (size - (cr + 2 : ℕ)))
      else
        match headerLine cfg ((c.buffer.drop c.parserOffset).take k) (c.endLine cr) with
        | none => .ok (c.endLine cr, false, none)
        | some c =>
          if charAt c.buffer (cr + 2) = '\r' ∧ charAt c.buffer (cr + 3) = '\n' then
            .ok ({ c with parserState := .body, headerSize := cr + 4, parserOffset := cr + 4 },
              true,
              some (size - (cr + 4 : ℕ)))
          else parseHeaderTo cfg size fuel { c with parserOffset := cr + 2 }

def Moment.header (cfg : Config) (size : ℤ) (c : Conn) : Except Fault Moment := do
  let (client, ok, body) ← parseHeaderTo cfg size (c.client.buffer.length + 1) c.client
  match body with
  | some size => return ⟨{ c with client := client }, .call size⟩
  | none => return .returned { c with client := client } ok

def Moment.read (cfg : Config) (bytes : List Char) (m : Moment) : Except Fault Moment :=
  let c := m.conn.taking bytes
  if bufferSize ≤ c.client.buffer.length then .ok ⟨c.failed, .idle⟩
  else
    match c.client.parserState with
    | .start =>
      if c.client.buffer.length < 15 then .ok ⟨c, .idle⟩
      else
        match parseStart c with
        | (c, false) => .ok (.returned c false)
        | (c, true) => Moment.header cfg bytes.length c
    | .header => Moment.header cfg bytes.length c
    | .body => .ok ⟨c, .call bytes.length⟩

def Moment.go (m : Moment) : Except Fault Moment :=
  let c := m.conn.client
  match m.point with
  | .idle => .ok m
  | .call size =>
    if c.chunked then
      if c.chunkSize = -1 then
        match sizeLine size c with
        | none => .ok (.returned { m.conn with client := c } false)
        | some (c, n) =>
          if c.chunkSize = 0 then .ok (m.move c.completed .idle)
          else .ok (m.move { c with parserOffset := c.parserOffset + n } (.data (size - n)))
      else .ok (m.move c (.data size))
    else (fun r => .returned { m.conn with client := r.1 } r.2) <$> parseBody size c
  | .data size => .ok (m.move (consume size c).1 (.behind size (consume size c).2))
  | .behind size consumed => do
    let (c, ok, rest) ← endChunk size consumed c
    match rest with
    | some size => return m.move c (.call size)
    | none => return .returned { m.conn with client := c } ok

/-- A read, or the parser goes on. -/
inductive ParserAct where
  | read (bytes : List Char)
  | go

/-- A client that has sent its request. A read comes when the parser has returned, and brings no
more than there is room for. -/
def parsing (cfg : Config) (stats : Stats) : System Moment ParserAct Fault where
  init := ⟨⟨stats, { clientNew cfg with state := .reading, watched := true }⟩, .idle⟩
  Allowed m
    | .read bytes => m.point = .idle ∧ m.conn.client.state = .reading ∧ bytes ≠ [] ∧
        m.conn.client.buffer.length + bytes.length < bufferSize
    | .go => m.point ≠ .idle
  step m
    | .read bytes => m.read cfg bytes
    | .go => m.go

/-! ## The points are those of the parser -/

/-- What the end of a chunk comes to. -/
inductive EndsChunk (size consumed : ℤ) (c : Client) : Client → Bool → Option ℤ → Prop where
  | within : c.chunkReceived ≠ c.chunkSize → EndsChunk size consumed c c.emptied true none
  | refused : c.chunkReceived = c.chunkSize → EndsChunk size consumed c c false none
  | next : c.chunkReceived = c.chunkSize → charAt c.buffer c.parserOffset = '\r' →
      charAt c.buffer (c.parserOffset + 1) = '\n' → 0 < size - (consumed + 2) →
      EndsChunk size consumed c
        { c with chunkSize := -1, chunkReceived := 0, parserOffset := c.parserOffset + 2 } true
        (some (size - (consumed + 2)))
  | last : c.chunkReceived = c.chunkSize →
      EndsChunk size consumed c
        ({ c with
          chunkSize := -1
          chunkReceived := 0
          parserOffset := c.parserOffset + 2 } : Client).emptied
        true none

variable {rest : Option ℤ}

theorem endsChunk {size consumed : ℤ} {c c' : Client} {ok : Bool}
    (h : endChunk size consumed c = .ok (c', ok, rest)) : EndsChunk size consumed c c' ok rest := by
  rw [endChunk] at h
  split at h
  case isFalse hne =>
    obtain ⟨rfl, rfl, rfl⟩ : c.emptied = c' ∧ true = ok ∧ none = rest := by simpa using h
    exact .within hne
  case isTrue hdone =>
    split at h
    · cases h
    · split at h
      · obtain ⟨rfl, rfl, rfl⟩ : c = c' ∧ false = ok ∧ none = rest := by simpa using h
        exact .refused hdone
      · rename_i hcrlf
        obtain ⟨hcr, hlf⟩ := not_or.mp hcrlf
        dsimp only at h
        split at h
        · rename_i hmore
          obtain ⟨rfl, hok⟩ := Prod.mk.inj (Except.ok.inj h)
          cases hok
          exact .next hdone (not_ne_iff.mp hcr) (not_ne_iff.mp hlf) hmore
        · obtain ⟨rfl, hok⟩ := Prod.mk.inj (Except.ok.inj h)
          cases hok
          exact .last hdone

theorem EndsChunk.chunked {size consumed : ℤ} {c c' : Client} {ok : Bool}
    (h : EndsChunk size consumed c c' ok rest) : c'.chunked = c.chunked := by
  cases h <;> rfl

theorem go_behind {m : Moment} {size consumed : ℤ} {c' : Client} {ok : Bool}
    (hpoint : m.point = .behind size consumed)
    (hend : endChunk size consumed m.conn.client = .ok (c', ok, rest)) :
    m.go = .ok (rest.elim (.returned { m.conn with client := c' } ok) (m.move c' <| .call ·)) := by
  rw [Moment.go, hpoint]
  dsimp only
  rw [hend]
  cases rest with
  | none => rfl
  | some size => rfl

section settles

variable {conn : Conn} {c c' : Client} {size : ℤ} {ok : Bool}

end settles

end Weighttp
