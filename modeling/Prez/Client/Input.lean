import Prez.Server

/-!
# `Prez.Client.Input` — from the socket of a client to its requests

The input side of `networking.c`. What `read` returns is appended to the query buffer; `processInputBuffer`
takes requests out of it as long as there are whole ones, in the inline or the multi-bulk format. A request
that is not complete leaves its state in the client: how many arguments are missing, whether the length of
the next one is known, the arguments read so far.

`processInputBuffer` is given what `processCommand` does, as a function on some state, so that the parser can be
run alone as well as inside a server. A failed assertion has no result (`none`).
-/

namespace Prez

open Lib

/-! ## Constants and strings -/

/-- `PREZ_INLINE_MAX_SIZE`. -/
def inlineMaxSize : Nat := 1024 * 64

/-- `PREZ_MBULK_BIG_ARG`. -/
def mbulkBigArg : Nat := 1024 * 32

/-- `PREZ_IOBUF_LEN`. -/
def iobufLen : Nat := 1024 * 16

/-- `PREZ_MAX_QUERYBUF_LEN`, the value of `server.client_max_querybuf_len`. -/
def maxQuerybufLen : Nat := 1024 * 1024 * 1024

/-- `strchr(s, c) - s` on the contents of a buffer: the terminator, or a NUL before it, ends the search. -/
def strchr (c : UInt8) : Bytes → Option Nat
  | [] => none
  | b :: s => if b = c then some 0 else if b = 0 then none else (strchr c s).map (· + 1)

/-! ## The parser -/

/-- The fields of `prezClient` that the parser uses; `errors` collects the protocol errors. -/
structure Parser where
  querybuf : Bytes
  reqtype : Option ReqType
  argv : List Bytes
  multibulklen : Nat
  bulklen : Int
  closeAfterReply : Bool
  errors : List Bytes

/-- A new client. -/
def Parser.new : Parser := ⟨[], none, [], 0, -1, false, []⟩

/-- `resetClient(c)`. -/
def Parser.reset (p : Parser) : Parser := { p with argv := [], reqtype := none, multibulklen := 0, bulklen := -1 }

/-- `addReplyError(c, message); setProtocolError(c, pos)`. -/
def protocolError (p : Parser) (message : Bytes) (pos : Nat) : Parser :=
  { p with errors := p.errors ++ [message], closeAfterReply := true, querybuf := sdsrange p.querybuf pos (-1) }

/-- `processInlineBuffer(c)`: the parser and whether `PREZ_OK` was returned. -/
def processInlineBuffer (p : Parser) : Parser × Bool :=
  match strchr 10 p.querybuf with
  | none =>
    if p.querybuf.length > inlineMaxSize then (protocolError p (ascii "Protocol error: too big inline request") 0, false)
    else (p, false)
  | some newline =>
    let querylen := if newline ≠ 0 ∧ p.querybuf[newline - 1]? = some 13 then newline - 1 else newline
    match sdssplitargs (p.querybuf.take querylen) with
    | none => (protocolError p (ascii "Protocol error: unbalanced quotes in request") 0, false)
    | some argv =>
      -- two bytes are skipped behind the line, whether it ends in CRLF or in LF
      ({ p with querybuf := sdsrange p.querybuf (querylen + 2 : Nat) (-1), argv := argv.filter (· ≠ []) }, true)

/-- What becomes of the loop of `processMultibulkBuffer`: it ends at a position in the buffer, or it returns
    after a protocol error. -/
inductive BulkEnd where
  | stop (p : Parser) (pos : Nat)
  | error (p : Parser)

/-- The outcome of reading a length line. -/
inductive BulkLen where
  | known (p : Parser) (pos : Nat)
  | wait
  | error (p : Parser)

/-- The part of the loop that reads the length of the next argument, if it is unknown. -/
def readBulkLen (p : Parser) (pos : Nat) : BulkLen :=
  if p.bulklen ≠ -1 then .known p pos
  else
    match strchr 13 (p.querybuf.drop pos) with
    | none =>
      if p.querybuf.length > inlineMaxSize then
        .error (protocolError p (ascii "Protocol error: too big bulk count string") 0)
      else .wait
    | some newline =>
      if (pos + newline : Int) > p.querybuf.length - 2 then .wait
      else if p.querybuf[pos]? ≠ some 36 then
        .error (protocolError p
          (ascii "Protocol error: expected '$', got '" ++ (p.querybuf[pos]?).toList ++ ascii "'") pos)
      else
        match string2ll ((p.querybuf.drop (pos + 1)).take (newline - 1)) with
        | none => .error (protocolError p (ascii "Protocol error: invalid bulk length") pos)
        | some ll =>
          if ll < 0 ∨ ll > 512 * 1024 * 1024 then
            .error (protocolError p (ascii "Protocol error: invalid bulk length") pos)
          else if ll ≥ mbulkBigArg then
            -- a large argument is moved to the start of the buffer
            .known { p with querybuf := sdsrange p.querybuf (pos + newline + 2 : Nat) (-1), bulklen := ll } 0
          else .known { p with bulklen := ll } (pos + newline + 2)

/-- Take the argument at `pos` out of the buffer, with `todo` more to come. -/
def takeBulk (todo : Nat) (p : Parser) (pos : Nat) : Parser × Nat :=
  let next := { p with bulklen := -1, multibulklen := todo }
  -- the buffer holds just this argument: it becomes the object, without a copy
  if pos = 0 ∧ p.bulklen ≥ mbulkBigArg ∧ (p.querybuf.length : Int) = p.bulklen + 2 then
    ({ next with argv := p.argv ++ [p.querybuf.take (p.querybuf.length - 2)], querybuf := [] }, 0)
  else
    ({ next with argv := p.argv ++ [(p.querybuf.drop pos).take p.bulklen.toNat] }, pos + p.bulklen.toNat + 2)

/-- `while(c->multibulklen)`: one argument per turn. -/
def readBulks : Nat → Parser → Nat → BulkEnd
  | 0, p, pos => .stop p pos
  | todo + 1, p, pos =>
    match readBulkLen p pos with
    | .wait => .stop p pos
    | .error p => .error p
    | .known p pos =>
      if ((p.querybuf.length - pos : Nat) : Int) < p.bulklen + 2 then .stop p pos
      else readBulks todo (takeBulk todo p pos).1 (takeBulk todo p pos).2

/-- The end of `processMultibulkBuffer`: trim the buffer; done when no argument is missing. -/
def finishBulks : BulkEnd → Parser × Bool
  | .error p => (p, false)
  | .stop p pos =>
    ({ p with querybuf := if pos ≠ 0 then sdsrange p.querybuf pos (-1) else p.querybuf }, p.multibulklen == 0)

/-- `processMultibulkBuffer(c)`: the parser and whether `PREZ_OK` was returned. -/
def processMultibulkBuffer (p : Parser) : Option (Parser × Bool) :=
  if p.multibulklen ≠ 0 then some (finishBulks (readBulks p.multibulklen p 0))
  else if p.argv ≠ [] then none
  else
    match strchr 13 p.querybuf with
    | none =>
      if p.querybuf.length > inlineMaxSize then
        some (protocolError p (ascii "Protocol error: too big mbulk count string") 0, false)
      else some (p, false)
    | some newline =>
      if (newline : Int) > p.querybuf.length - 2 then some (p, false)
      else if p.querybuf.head? ≠ some 42 then none
      else
        match string2ll ((p.querybuf.drop 1).take (newline - 1)) with
        | none => some (protocolError p (ascii "Protocol error: invalid multibulk length") 0, false)
        | some ll =>
          if ll > 1024 * 1024 then some (protocolError p (ascii "Protocol error: invalid multibulk length") 0, false)
          else if ll ≤ 0 then some ({ p with querybuf := sdsrange p.querybuf (newline + 2 : Nat) (-1) }, true)
          else some (finishBulks (readBulks ll.toNat { p with multibulklen := ll.toNat } (newline + 2)))

/-- One turn of `processInputBuffer` up to the request: the type of a new request is taken from its first byte. -/
def parseTurn (p : Parser) : Option (Parser × Bool) :=
  if p.closeAfterReply then some (p, false)
  else
    match p.reqtype with
    | some .inline => some (processInlineBuffer p)
    | some .multibulk => processMultibulkBuffer p
    | none =>
      if p.querybuf.head? = some 42 then processMultibulkBuffer { p with reqtype := some .multibulk }
      else some (processInlineBuffer { p with reqtype := some .inline })

section

variable {σ : Type}

/-- `processInputBuffer(c)`. `processCommand` is true when it returns `PREZ_OK`; only then, or after an empty
    request, is the client reset. Every turn takes a byte at least, which bounds the loop. -/
def processInputBuffer (processCommand : σ → List Bytes → Option (σ × Bool)) : Nat → σ → Parser → Option (σ × Parser)
  | 0, _, _ => none
  | fuel + 1, s, p =>
    if p.querybuf = [] then some (s, p)
    else
      (parseTurn p).bind fun (p, ok) =>
      if !ok then some (s, p)
      else if p.argv = [] then processInputBuffer processCommand fuel s p.reset
      else
        (processCommand s p.argv).bind fun (s, done) =>
        processInputBuffer processCommand fuel s (if done then p.reset else p)

/-- The number of bytes that `readQueryFromClient` asks for: inside a large argument no more than the rest of it. -/
def readLen (p : Parser) : Int :=
  if p.reqtype = some .multibulk ∧ p.multibulklen ≠ 0 ∧ p.bulklen ≠ -1 ∧ p.bulklen ≥ mbulkBigArg then
    min (toInt32 (p.bulklen + 2 - p.querybuf.length)) iobufLen
  else iobufLen

/-- A connection: the parser with the state its commands work on, and whether the client was freed because its
    query buffer had become too long. -/
structure Conn (σ : Type) where
  state : σ
  parser : Parser
  freed : Bool

/-- `readQueryFromClient` with the bytes that `read` returned, at least one and no more than asked for. -/
def readQueryFromClient (processCommand : σ → List Bytes → Option (σ × Bool)) (c : Conn σ) (chunk : Bytes) :
    Option (Conn σ) :=
  if chunk = [] ∨ readLen c.parser < chunk.length then none
  else
    let p := { c.parser with querybuf := c.parser.querybuf ++ chunk }
    if p.querybuf.length > maxQuerybufLen then some { c with parser := p, freed := true }
    else (processInputBuffer processCommand (p.querybuf.length + 1) c.state p).map fun r => { c with state := r.1, parser := r.2 }

end

end Prez
