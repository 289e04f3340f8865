import Prez.Sds
import Prez.Util

/-!
# `Prez.Client.Reply` — the output side of a client

The reply functions of `networking.c`. Output is kept in a fixed buffer and, once that is full, in a list of
string objects. Objects are counted references into a heap that the rest of the server shares: a reply puts
the object it is given into the list, or appends its text to the last object there. `sendReplyToClient`
writes first the buffer and then the list, with one offset for both.

A node of the reply list is its object: a node that `setDeferredMultiBulkLength` is given holds an object of
its own. What the output limits count (`reply_bytes`) does not change what is sent; it is added in
`Prez.Client.Account`. A step without result is a NULL dereference, a failed assertion or a string whose length is no `int`.
-/

namespace Prez

open Lib

/-! ## Objects -/

/-- Encoding and pointer of a string object: `null` is `createObject(PREZ_STRING, NULL)`. -/
inductive ObjValue where
  | null
  | raw (s : Bytes)
  | embstr (s : Bytes)
  | int (v : Int)
deriving DecidableEq

/-- `o->ptr` where it is an sds string (`sdsEncodedObject`). -/
def ObjValue.text : ObjValue → Option Bytes
  | .raw s | .embstr s => some s
  | .null | .int _ => none

structure Robj where
  value : ObjValue
  refcount : Nat

/-- The objects of the server. A freed object is no longer there, and addresses are not used again. -/
structure Heap where
  objs : Nat → Option Robj
  nextObj : Nat

namespace Heap

def value (h : Heap) (id : Nat) : Option ObjValue := (h.objs id).map (·.value)

def text (h : Heap) (id : Nat) : Option Bytes := (h.value id).bind ObjValue.text

def set (h : Heap) (id : Nat) (r : Option Robj) : Heap := { h with objs := Function.update h.objs id r }

/-- `createObject(PREZ_STRING, ptr)`. -/
def createObject (h : Heap) (value : ObjValue) : Heap × Nat :=
  ({ h.set h.nextObj (some ⟨value, 1⟩) with nextObj := h.nextObj + 1 }, h.nextObj)

/-- `createStringObject(ptr, len)`: up to `PREZ_ENCODING_EMBSTR_SIZE_LIMIT` bytes are stored with the object. -/
def createStringObject (h : Heap) (s : Bytes) : Option (Heap × Nat) :=
  if s.length < 2 ^ 31 then some (h.createObject (if s.length ≤ 39 then .embstr s else .raw s)) else none

def incrRefCount (h : Heap) (id : Nat) : Option Heap :=
  (h.objs id).map fun r => h.set id (some { r with refcount := r.refcount + 1 })

def decrRefCount (h : Heap) (id : Nat) : Option Heap :=
  (h.objs id).bind fun r =>
  if r.refcount = 0 then none
  else if r.refcount = 1 then some (h.set id none)
  else some (h.set id (some { r with refcount := r.refcount - 1 }))

/-- `o->ptr = ...` with encoding RAW. -/
def setRaw (h : Heap) (id : Nat) (s : Bytes) : Option Heap :=
  (h.objs id).map fun r => h.set id (some { r with value := .raw s })

end Heap

/-! ## The buffer and the list -/

/-- `PREZ_REPLY_CHUNK_BYTES`, which is also `sizeof(c->buf)`. -/
def replyChunkBytes : Nat := 16 * 1024

/-- `PREZ_MAX_WRITE_PER_EVENT`. -/
def maxWritePerEvent : Nat := 1024 * 64

/-- The output of a client: the first `bufpos` bytes of `c->buf`, the offset `c->sentlen`, the objects of
    `c->reply`, the flag `PREZ_CLOSE_AFTER_REPLY`, whether the client was freed, and what was written. -/
structure Output where
  heap : Heap
  buf : Bytes
  sentlen : Nat
  reply : List Nat
  closeAfterReply : Bool
  freed : Bool
  socket : Bytes

namespace Output

/-- `_addReplyToBuffer(c, s, len)`: the output and whether `PREZ_OK` was returned. -/
def addReplyToBuffer (o : Output) (s : Bytes) : Output × Bool :=
  if o.closeAfterReply then (o, true)
  else if o.reply ≠ [] then (o, false)
  else if s.length > replyChunkBytes - o.buf.length then (o, false)
  else ({ o with buf := o.buf ++ s }, true)

/-- `dupLastObjectIfNeeded(reply)`: the last object, after it was replaced by a copy if others hold it too. -/
def dupLastObjectIfNeeded (o : Output) : Option (Output × Nat) :=
  o.reply.getLast?.bind fun cur =>
  (o.heap.objs cur).bind fun r =>
  if r.refcount > 1 then
    let (heap, new) := o.heap.createObject r.value
    (heap.decrRefCount cur).map fun heap => ({ o with heap, reply := o.reply.dropLast ++ [new] }, new)
  else some (o, cur)

/-- The three functions that add to the list: append to the last object when possible, or add the object that
    `node` makes. -/
def addToList (o : Output) (s : Bytes) (node : Heap → Option (Heap × Nat)) : Option Output :=
  let add := (node o.heap).map fun (heap, id) => { o with heap, reply := o.reply ++ [id] }
  if o.closeAfterReply then some o
  else
    match o.reply.getLast? with
    | none => add
    | some tail =>
      match o.heap.value tail with
      | some (.raw t) =>
        if t.length + s.length ≤ replyChunkBytes then
          (dupLastObjectIfNeeded o).bind fun (o, id) => (o.heap.setRaw id (t ++ s)).map fun heap => { o with heap }
        else add
      | some _ => add
      | none => none

/-- `_addReplyObjectToList(c, o)`, on an object with the text `s`. -/
def addReplyObjectToList (o : Output) (id : Nat) (s : Bytes) : Option Output :=
  addToList o s fun heap => (heap.incrRefCount id).map (·, id)

/-- `_addReplySdsToList(c, s)`. -/
def addReplySdsToList (o : Output) (s : Bytes) : Option Output :=
  addToList o s fun heap => some (heap.createObject (.raw s))

/-- `_addReplyStringToList(c, s, len)`. -/
def addReplyStringToList (o : Output) (s : Bytes) : Option Output :=
  addToList o s fun heap => heap.createStringObject s

/-! ## Reply functions -/

/-- `if (_addReplyToBuffer(c, s, len) != PREZ_OK) ...`. -/
def bufferOr (o : Output) (s : Bytes) (list : Output → Option Output) : Option Output :=
  match addReplyToBuffer o s with
  | (o, true) => some o
  | (o, false) => list o

/-- `addReply(c, obj)` for a connected client. -/
def addReply (o : Output) (id : Nat) : Option Output :=
  match o.heap.value id with
  | none | some .null => none
  | some (.raw s) | some (.embstr s) => bufferOr o s fun o => addReplyObjectToList o id s
  | some (.int v) =>
    if o.reply = [] ∧ replyChunkBytes - o.buf.length ≥ 32 ∧ (addReplyToBuffer o (ll2string 32 v)).2 = true then
      some (addReplyToBuffer o (ll2string 32 v)).1
    else
      -- `getDecodedObject`
      (o.heap.createStringObject (cstr (ll2string 32 v))).bind fun (heap, dec) =>
      (bufferOr { o with heap } (cstr (ll2string 32 v)) fun o =>
        addReplyObjectToList o dec (cstr (ll2string 32 v))).bind fun o =>
      (o.heap.decrRefCount dec).map fun heap => { o with heap }

/-- `addReplySds(c, s)`. -/
def addReplySds (o : Output) (s : Bytes) : Option Output := bufferOr o s (addReplySdsToList · s)

/-- `addReplyString(c, s, len)`. -/
def addReplyString (o : Output) (s : Bytes) : Option Output := bufferOr o s (addReplyStringToList · s)

/-! ### Bulk replies

`shared.crlf`, `shared.nullbulk`, `shared.mbulkhdr[]` and `shared.bulkhdr[]` are the first objects of the heap. -/

/-- `PREZ_SHARED_BULKHDR_LEN`. -/
def sharedBulkhdrLen : Nat := 32

/-- A line of the protocol: a type byte, a number and the line end. -/
def numLine (kind : UInt8) (v : Int) : Bytes := kind :: llText v ++ [13, 10]

/-- `createSharedObjects`, by address. -/
def sharedText : Nat → Bytes
  | 0 => [13, 10]
  | 1 => numLine 36 (-1)
  | k + 2 => if k < sharedBulkhdrLen then numLine 42 k else numLine 36 (k - sharedBulkhdrLen : Nat)

def sharedCount : Nat := 2 + 2 * sharedBulkhdrLen

/-- The heap after `createSharedObjects`. -/
def sharedHeap : Heap where
  objs k := if k < sharedCount then some ⟨.raw (sharedText k), 1⟩ else none
  nextObj := sharedCount

def crlfObj : Nat := 0

def nullbulkObj : Nat := 1

/-- `shared.mbulkhdr[k]` and `shared.bulkhdr[k]`; there is nothing outside the arrays. -/
def mbulkhdrObj (k : Int) : Option Nat := if 0 ≤ k ∧ k < sharedBulkhdrLen then some (2 + k.toNat) else none

def bulkhdrObj (k : Int) : Option Nat :=
  if 0 ≤ k ∧ k < sharedBulkhdrLen then some (2 + sharedBulkhdrLen + k.toNat) else none

/-- `addReplyLongLongWithPrefix(c, ll, prefix)`. -/
def addReplyLongLongWithPrefix (o : Output) (ll : Int) (kind : UInt8) : Option Output :=
  if kind = 42 ∧ ll < sharedBulkhdrLen then (mbulkhdrObj ll).bind o.addReply
  else if kind = 36 ∧ ll < sharedBulkhdrLen then (bulkhdrObj ll).bind o.addReply
  else o.addReplyString (kind :: ll2string 127 ll ++ [13, 10])

/-- `addReplyMultiBulkLen(c, length)`. -/
def addReplyMultiBulkLen (o : Output) (length : Int) : Option Output :=
  if length < sharedBulkhdrLen then (mbulkhdrObj length).bind o.addReply
  else o.addReplyLongLongWithPrefix length 42

/-- `while((n = n/10) != 0) len++`, with `len` one at first. -/
def radixLen (n : Nat) : Nat := if n / 10 = 0 then 1 else radixLen (n / 10) + 1
termination_by n
decreasing_by omega

/-- The length that `addReplyBulkLen` computes. The least `long` has no negative, `-n` leaves it as it is, and
    the loop counts the same digits. -/
def bulkLen (heap : Heap) (id : Nat) : Option Nat :=
  match heap.value id with
  | none | some .null => none
  | some (.raw s) | some (.embstr s) => some s.length
  | some (.int v) => some (radixLen v.natAbs + if v < 0 then 1 else 0)

/-- `addReplyBulkLen(c, obj)`. -/
def addReplyBulkLen (o : Output) (id : Nat) : Option Output :=
  (bulkLen o.heap id).bind fun len =>
  if len < sharedBulkhdrLen then (bulkhdrObj len).bind o.addReply else o.addReplyLongLongWithPrefix len 36

/-- `addReplyBulk(c, obj)`. -/
def addReplyBulk (o : Output) (id : Nat) : Option Output := do
  let o ← o.addReplyBulkLen id
  let o ← o.addReply id
  o.addReply crlfObj

/-- `addReplyBulkCBuffer(c, p, len)`. -/
def addReplyBulkCBuffer (o : Output) (s : Bytes) : Option Output := do
  let o ← o.addReplyLongLongWithPrefix s.length 36
  let o ← o.addReplyString s
  o.addReply crlfObj

/-- `addReplyBulkCString(c, s)`; `none` is NULL. -/
def addReplyBulkCString (o : Output) : Option Bytes → Option Output
  | none => o.addReply nullbulkObj
  | some s => o.addReplyBulkCBuffer (cstr s)

/-- `addReplyBulkLongLong(c, ll)`. -/
def addReplyBulkLongLong (o : Output) (ll : Int) : Option Output := o.addReplyBulkCBuffer (ll2string 64 ll)

/-! ### Deferred lengths -/

/-- `addDeferredMultiBulkLength(c)`: the output and the node. -/
def addDeferredMultiBulkLength (o : Output) : Output × Nat :=
  let (heap, id) := o.heap.createObject .null
  ({ o with heap, reply := o.reply ++ [id] }, id)

/-- The part of `setDeferredMultiBulkLength` that glues the node to the next one, if that is an sds. -/
def glueNext (o : Output) (id : Nat) (header : Bytes) : Option Output :=
  match o.reply.dropWhile (· ≠ id) with
  | _ :: next :: after =>
    match o.heap.value next with
    | none => none
    | some v =>
      match v.text with
      | none => some o
      | some s =>
        (sdsAppend header s).bind fun glued =>
        (o.heap.setRaw id glued).bind fun heap =>
        (heap.decrRefCount next).map fun heap =>
          { o with heap, reply := o.reply.takeWhile (· ≠ id) ++ id :: after }
  | _ => some o

/-- `setDeferredMultiBulkLength(c, node, length)`. -/
def setDeferredMultiBulkLength (o : Output) (id : Nat) (length : Int) : Option Output :=
  (o.heap.setRaw id (numLine 42 length)).bind fun heap => glueNext { o with heap } id (numLine 42 length)

/-! ### Sending -/

/-- `listDelNode(c->reply, listFirst(c->reply))`. -/
def delFirst (o : Output) : Option Output :=
  match o.reply with
  | [] => none
  | id :: rest => (o.heap.decrRefCount id).map fun heap => { o with heap, reply := rest }

/-- The turns of the loop that find an empty object at the head of the list. -/
def delEmpty : Nat → Output → Option Output
  | 0, o => some o
  | count + 1, o =>
    match o.reply with
    | [] => some o
    | id :: _ => (o.heap.text id).bind fun s => if s = [] then o.delFirst.bind (delEmpty count) else some o

/-- One `write` that takes `room` bytes at most: the output and the number of bytes written. -/
def writeOnce (o : Output) (room : Nat) : Option (Output × Nat) :=
  if o.buf ≠ [] then
    let nwritten := min room (o.buf.length - o.sentlen)
    let socket := o.socket ++ (o.buf.drop o.sentlen).take nwritten
    if o.sentlen + nwritten = o.buf.length then some ({ o with socket, buf := [], sentlen := 0 }, nwritten)
    else some ({ o with socket, sentlen := o.sentlen + nwritten }, nwritten)
  else
    o.reply.head?.bind fun id =>
    (o.heap.text id).bind fun s =>
    let nwritten := min room (s.length - o.sentlen)
    let socket := o.socket ++ (s.drop o.sentlen).take nwritten
    if o.sentlen + nwritten = s.length then ({ o with socket, sentlen := 0 }).delFirst.map (·, nwritten)
    else some ({ o with socket, sentlen := o.sentlen + nwritten }, nwritten)

/-- The loop of `sendReplyToClient`. `writes` has, for each call of `write`, what the socket can take and whether
    the memory limit allows to stop then, after `PREZ_MAX_WRITE_PER_EVENT` bytes. The call after the last of
    them has no room. -/
def sendLoop : List (Nat × Bool) → Int → Output → Option Output
  | writes, totwritten, o =>
    (if o.buf = [] then delEmpty o.reply.length o else some o).bind fun o =>
    if o.buf = [] ∧ o.reply = [] then some o
    else
      match writes with
      | [] => some o
      | (room, below) :: writes =>
        (o.writeOnce room).bind fun (o, nwritten) =>
        if nwritten = 0 then some o
        else
          -- `totwritten` is an `int`
          let totwritten := (totwritten + nwritten).bmod (2 ^ 32)
          if totwritten > maxWritePerEvent ∧ below = true then some o else sendLoop writes totwritten o

/-- `sendReplyToClient`. -/
def sendReplyToClient (o : Output) (writes : List (Nat × Bool)) : Option Output :=
  (sendLoop writes 0 o).map fun o =>
    if o.buf = [] ∧ o.reply = [] then { o with sentlen := 0, freed := o.closeAfterReply } else o

end Output

end Prez
