import Prez.Client.Bulk
import Prez.Config.Params

/-!
# `Prez.Client.Account` — the output memory that a client is charged for

`reply_bytes` counts the memory of the objects in the reply list. It is adjusted by hand around every change of the list:
what an object used is subtracted before it is duplicated or grows, and what it uses then is added. An object is shared
with the rest of the server, a string may move when it grows, and what a block of memory really takes is up to the
allocator. So each RAW object has a block here, and the size of a block is any function of the allocation.

The account is kept beside the output of `Prez.Client.Reply`: the functions have the same branches, and say what happens
to the counter. After an append the limits are checked (`asyncCloseClientOnOutputBufferLimitReached`), which starts with
an assertion; one that fails stops the server, in the state it is in (`aborted`).
-/

namespace Prez

open Lib

/-! ## Limits -/

/-- The sizes of the allocations, and the limits of normal clients. -/
structure MemoryEnv where
  zmallocSize : Nat → UInt64
  limits : BufferLimits

/-- `c->reply_bytes`, `c->obuf_soft_limit_reached_time`, the flag `PREZ_CLOSE_ASAP`, and whether an assertion failed. -/
structure Meter where
  replyBytes : UInt64
  softLimitReachedTime : Nat
  closeAsap : Bool
  aborted : Bool
deriving DecidableEq

namespace Meter

/-- `sizeof(listNode)+sizeof(robj)`. -/
def listItemSize : UInt64 := 40

/-- `getClientOutputBufferMemoryUsage(c)`, for a list of `len` nodes. -/
def usage (a : Meter) (len : Nat) : UInt64 := a.replyBytes + listItemSize * UInt64.ofNat len

/-- `checkClientOutputBufferLimits(c)`: the flags `soft` and `hard` at its end. -/
def checkClientOutputBufferLimits (limits : BufferLimits) (unixtime len : Nat) (a : Meter) : Meter × Bool × Bool :=
  let used := a.usage len
  let hard := limits.hardLimitBytes ≠ 0 ∧ used ≥ limits.hardLimitBytes
  if limits.softLimitBytes ≠ 0 ∧ used ≥ limits.softLimitBytes then
    if a.softLimitReachedTime = 0 then ({ a with softLimitReachedTime := unixtime }, false, hard)
    else if (unixtime : Int) - a.softLimitReachedTime ≤ limits.softLimitSeconds then (a, false, hard)
    else (a, true, hard)
  else ({ a with softLimitReachedTime := 0 }, false, hard)

/-- `ULONG_MAX-(1024*64)`. -/
def maxReplyBytes : Nat := 2 ^ 64 - 1 - 1024 * 64

/-- `asyncCloseClientOnOutputBufferLimitReached(c)`. -/
def asyncCloseClientOnOutputBufferLimitReached (limits : BufferLimits) (unixtime len : Nat) (a : Meter) : Meter :=
  if ¬ a.replyBytes.toNat < maxReplyBytes then { a with aborted := true }
  else if a.replyBytes = 0 ∨ a.closeAsap then a
  else
    let (a, soft, hard) := a.checkClientOutputBufferLimits limits unixtime len
    if soft || hard then { a with closeAsap := true } else a

end Meter

/-! ## The account -/

/-- The block of an sds: which allocation it is, and the free bytes in it. -/
structure Block where
  alloc : Nat
  free : Nat

/-- What is known of the memory of a client's output: the counter, and the blocks of the RAW objects. -/
structure Account extends Meter where
  block : Nat → Block
  nextAlloc : Nat

namespace Account

/-- The object `id` gets a string in a new block. -/
def sdsnew (a : Account) (id free : Nat) : Account :=
  { a with block := Function.update a.block id ⟨a.nextAlloc, free⟩, nextAlloc := a.nextAlloc + 1 }

/-- `sdscatlen` on the string `s` of the object `id`: a string without room moves to another block. -/
def sdscatlen (a : Account) (id : Nat) (s t : Bytes) : Account :=
  let free := (Prez.sdscatlen ⟨s, (a.block id).free⟩ t).free
  if t.length ≤ (a.block id).free then { a with block := Function.update a.block id ⟨(a.block id).alloc, free⟩ }
  else a.sdsnew id free

/-- `c->reply_bytes += n`. -/
def add (a : Account) (n : UInt64) : Account := { a with replyBytes := a.replyBytes + n }

/-- `c->reply_bytes -= n`. -/
def sub (a : Account) (n : UInt64) : Account := { a with replyBytes := a.replyBytes - n }

section

variable (env : MemoryEnv)

/-- The check at the end of a function that adds to the list. -/
def asyncClose (unixtime len : Nat) (a : Account) : Account :=
  { a with toMeter := a.toMeter.asyncCloseClientOnOutputBufferLimitReached env.limits unixtime len }

/-- `zmalloc_size_sds(o->ptr)`. -/
def zmallocSizeSds (a : Account) (id : Nat) : UInt64 := env.zmallocSize (a.block id).alloc

/-- `getStringObjectSdsUsedMemory(o)`; an open place has no string. -/
def getStringObjectSdsUsedMemory (h : Heap) (a : Account) (id : Nat) : UInt64 :=
  match h.value id with
  | some (.raw _) => a.zmallocSizeSds env id
  | some (.embstr s) => UInt64.ofNat s.length
  | _ => 0

/-! ### Replies -/

/-- `dupLastObjectIfNeeded(reply)`, on the RAW object `tail`: the object afterwards. -/
def dupLastObjectIfNeeded (o : Output) (tail : Nat) (a : Account) : Account × Nat :=
  match o.heap.objs tail with
  | some r => if r.refcount > 1 then (a.sdsnew o.heap.nextObj 0, o.heap.nextObj) else (a, tail)
  | none => (a, tail)

/-- The three functions that add to the list. `node` says which block a new object has, and what is added for it. -/
def addToList (o : Output) (s : Bytes) (node : Account → Account × UInt64) (a : Account) : Account :=
  let add := (node a).1.add (node a).2
  if o.closeAfterReply then a
  else
    match o.reply.getLast? with
    | none => add
    | some tail =>
      match o.heap.value tail with
      | some (.raw t) =>
        if t.length + s.length ≤ replyChunkBytes then
          let a := a.sub (a.zmallocSizeSds env tail)
          let (a, id) := a.dupLastObjectIfNeeded o tail
          let a := a.sdscatlen id t s
          a.add (a.zmallocSizeSds env id)
        else add
      | _ => add

/-- `_addReplyObjectToList(c, o)`. -/
def addReplyObjectToList (o : Output) (id : Nat) (s : Bytes) : Account → Account :=
  addToList env o s fun a => (a, a.getStringObjectSdsUsedMemory env o.heap id)

/-- `_addReplySdsToList(c, s)`, with a string that has `free` bytes behind it. -/
def addReplySdsToList (o : Output) (s : Bytes) (free : Nat) : Account → Account :=
  addToList env o s fun a =>
    let a := a.sdsnew o.heap.nextObj free
    (a, a.zmallocSizeSds env o.heap.nextObj)

/-- `_addReplyStringToList(c, s, len)`: `createStringObject` makes an embedded string of a short one. -/
def addReplyStringToList (o : Output) (s : Bytes) : Account → Account :=
  addToList env o s fun a =>
    if s.length ≤ 39 then (a, UInt64.ofNat s.length)
    else
      let a := a.sdsnew o.heap.nextObj 0
      (a, a.zmallocSizeSds env o.heap.nextObj)

/-- `if (_addReplyToBuffer(c, s, len) != PREZ_OK) ...`, with the check at the end of the functions for the list; `len` is
    the length of the list then. -/
def bufferOr (o : Output) (s : Bytes) (unixtime len : Nat) (list : Account → Account) (a : Account) : Account :=
  if (o.addReplyToBuffer s).2 then a else (list a).asyncClose env unixtime len

/-- `addReply(c, obj)`. -/
def addReply (o : Output) (id unixtime len : Nat) (a : Account) : Account :=
  match o.heap.value id with
  | some (.raw s) | some (.embstr s) => a.bufferOr env o s unixtime len (addReplyObjectToList env o id s)
  | some (.int v) =>
    let s := cstr (ll2string 32 v)
    if o.reply = [] ∧ replyChunkBytes - o.buf.length ≥ 32 ∧ (o.addReplyToBuffer (ll2string 32 v)).2 = true then a
    else
      match o.heap.createStringObject s with
      | some (heap, dec) => a.bufferOr env { o with heap } s unixtime len (addReplyObjectToList env { o with heap } dec s)
      | none => a
  | _ => a

/-- The three functions that the other reply functions are made of. -/
def reply (o : Output) (free unixtime len : Nat) (a : Account) : ReplyCall → Account
  | .reply id => a.addReply env o id unixtime len
  | .sds s => a.bufferOr env o s unixtime len (addReplySdsToList env o s free)
  | .string s => a.bufferOr env o s unixtime len (addReplyStringToList env o s)
  | _ => a

/-- The object of a deferred length gets its string. -/
def fillPlace (id : Nat) (header : Bytes) (a : Account) : Account :=
  let a := a.sdsnew id (Prez.sdscatlen ⟨[], 0⟩ header).free
  a.add (a.zmallocSizeSds env id)

/-- The string takes in that of the next node. -/
def glueNext (h : Heap) (id next : Nat) (header s : Bytes) (a : Account) : Account :=
  let a := a.sub (a.zmallocSizeSds env id)
  let a := a.sub (a.getStringObjectSdsUsedMemory env h next)
  let a := a.sdscatlen id header s
  a.add (a.zmallocSizeSds env id)

/-- `setDeferredMultiBulkLength(c, node, length)`, up to the check. -/
def setDeferred (o : Output) (id : Nat) (length : Int) (a : Account) : Account :=
  let header := Output.numLine 42 length
  let a := a.fillPlace env id header
  match o.reply.dropWhile (· ≠ id) with
  | _ :: next :: _ =>
    match o.heap.text next with
    | some s => a.glueNext env o.heap id next header s
    | none => a
  | _ => a

/-! ### Sending -/

/-- `listDelNode(c->reply,listFirst(c->reply)); c->reply_bytes -= objmem`. -/
def delFirst (o : Output) (a : Account) : Option (Output × Account) :=
  o.reply.head?.bind fun id => o.delFirst.map (·, a.sub (a.getStringObjectSdsUsedMemory env o.heap id))

/-- The turns of the loop that find an empty object at the head of the list. -/
def delEmpty : Nat → Output × Account → Option (Output × Account)
  | 0, r => some r
  | count + 1, r =>
    match r.1.reply with
    | [] => some r
    | id :: _ => (r.1.heap.text id).bind fun s => if s = [] then (delFirst env r.1 r.2).bind (delEmpty count) else some r

/-- One `write`. -/
def writeOnce (r : Output × Account) (room : Nat) : Option ((Output × Account) × Nat) :=
  let (o, a) := r
  if o.buf ≠ [] then (o.writeOnce room).map fun (o, nwritten) => ((o, a), nwritten)
  else
    o.reply.head?.bind fun id =>
    (o.heap.text id).bind fun s =>
    let nwritten := min room (s.length - o.sentlen)
    let socket := o.socket ++ (s.drop o.sentlen).take nwritten
    if o.sentlen + nwritten = s.length then (delFirst env { o with socket, sentlen := 0 } a).map (·, nwritten)
    else some (({ o with socket, sentlen := o.sentlen + nwritten }, a), nwritten)

/-- The loop of `sendReplyToClient`. -/
def sendLoop : List (Nat × Bool) → Int → Output × Account → Option (Output × Account)
  | writes, totwritten, r =>
    (if r.1.buf = [] then delEmpty env r.1.reply.length r else some r).bind fun r =>
    if r.1.buf = [] ∧ r.1.reply = [] then some r
    else
      match writes with
      | [] => some r
      | (room, below) :: writes =>
        (writeOnce env r room).bind fun (r, nwritten) =>
        if nwritten = 0 then some r
        else
          let totwritten := (totwritten + nwritten).bmod (2 ^ 32)
          if totwritten > maxWritePerEvent ∧ below = true then some r else sendLoop writes totwritten r

/-- `sendReplyToClient`. -/
def sendReplyToClient (writes : List (Nat × Bool)) (o : Output) (a : Account) : Option (Output × Account) :=
  (sendLoop env writes 0 (o, a)).map fun (o, a) =>
    (if o.buf = [] ∧ o.reply = [] then { o with sentlen := 0, freed := o.closeAfterReply } else o, a)

end

end Account

/-! ## Runs -/

namespace ReplyCall

/-- `addReplyLongLongWithPrefix`, by the functions it calls. -/
def numberParts (ll : Int) (kind : UInt8) : Option (List ReplyCall) :=
  if kind = 42 ∧ ll < Output.sharedBulkhdrLen then (Output.mbulkhdrObj ll).map fun id => [.reply id]
  else if kind = 36 ∧ ll < Output.sharedBulkhdrLen then (Output.bulkhdrObj ll).map fun id => [.reply id]
  else some [.string (kind :: ll2string 127 ll ++ [13, 10])]

def bulkLenParts (h : Heap) (id : Nat) : Option (List ReplyCall) :=
  (Output.bulkLen h id).bind fun len =>
    if len < Output.sharedBulkhdrLen then (Output.bulkhdrObj len).map fun id => [.reply id] else numberParts len 36

def bulkCBufferParts (s : Bytes) : Option (List ReplyCall) :=
  (numberParts s.length 36).map fun parts => parts ++ [.string s, .reply Output.crlfObj]

/-- The calls of `addReply`, `addReplySds` and `addReplyString` that a reply function makes. -/
def parts (h : Heap) : ReplyCall → Option (List ReplyCall)
  | reply id => some [.reply id]
  | sds s => some [.sds s]
  | string s => some [.string s]
  | longLongWithPrefix ll kind => numberParts ll kind
  | multiBulkLen length =>
    if length < Output.sharedBulkhdrLen then (Output.mbulkhdrObj length).map fun id => [.reply id]
    else numberParts length 42
  | bulkLen id => bulkLenParts h id
  | bulk id => (bulkLenParts h id).map fun parts => parts ++ [.reply id, .reply Output.crlfObj]
  | bulkCBuffer s => bulkCBufferParts s
  | bulkCString none => some [.reply Output.nullbulkObj]
  | bulkCString (some s) => bulkCBufferParts (cstr s)
  | bulkLongLong ll => bulkCBufferParts (ll2string 64 ll)

/-- A sequence of calls. -/
def execAll (cs : List ReplyCall) (o : Output) : Option Output := cs.foldlM exec o

theorem execAll_append (cs ds : List ReplyCall) (o : Output) :
    execAll (cs ++ ds) o = (execAll cs o).bind (execAll ds) := List.foldlM_append

theorem execAll_singleton (c : ReplyCall) (o : Output) : execAll [c] o = c.exec o := by
  show ((c.exec o).bind fun o => some o) = c.exec o
  cases c.exec o <;> rfl

theorem numberParts_exec (ll : Int) (kind : UInt8) (o : Output) :
    (numberParts ll kind).bind (execAll · o) = o.addReplyLongLongWithPrefix ll kind := by
  unfold numberParts Output.addReplyLongLongWithPrefix
  split
  · rw [Option.bind_map]
    exact Option.bind_congr fun id _ => execAll_singleton _ o
  · split
    · rw [Option.bind_map]
      exact Option.bind_congr fun id _ => execAll_singleton _ o
    · exact execAll_singleton _ o

theorem bulkLenParts_exec (id : Nat) (o : Output) : (bulkLenParts o.heap id).bind (execAll · o) = o.addReplyBulkLen id := by
  unfold bulkLenParts Output.addReplyBulkLen
  rw [Option.bind_assoc]
  refine Option.bind_congr fun len _ => ?_
  split
  · rw [Option.bind_map]
    exact Option.bind_congr fun id _ => execAll_singleton _ o
  · exact numberParts_exec len 36 o

/-- What follows the length line. -/
theorem exec_behind {first : Option (List ReplyCall)} {o : Output} {head : Option Output}
    (hfirst : first.bind (execAll · o) = head) (c : ReplyCall) :
    (first.map fun parts => parts ++ [c, .reply Output.crlfObj]).bind (execAll · o) =
      head.bind fun o => (c.exec o).bind fun o => o.addReply Output.crlfObj := by
  rw [← hfirst, Option.bind_map, Option.bind_assoc]
  refine Option.bind_congr fun parts _ => ?_
  show execAll (parts ++ [c, .reply Output.crlfObj]) o = _
  rw [execAll_append]
  refine Option.bind_congr fun o _ => ?_
  exact (execAll_append [c] [.reply Output.crlfObj] o).trans (by
    rw [execAll_singleton]
    exact Option.bind_congr fun o _ => execAll_singleton _ o)

theorem bulkCBufferParts_exec (s : Bytes) (o : Output) :
    (bulkCBufferParts s).bind (execAll · o) = o.addReplyBulkCBuffer s :=
  exec_behind (numberParts_exec s.length 36 o) (.string s)

/-- **Every reply function is a sequence of calls of the three.** -/
theorem parts_exec (c : ReplyCall) (o : Output) : (c.parts o.heap).bind (execAll · o) = c.exec o := by
  cases c with
  | reply id => exact execAll_singleton _ o
  | sds s => exact execAll_singleton _ o
  | string s => exact execAll_singleton _ o
  | longLongWithPrefix ll kind => exact numberParts_exec ll kind o
  | multiBulkLen length =>
    rw [parts, exec, Output.addReplyMultiBulkLen]
    split
    · rw [Option.bind_map]
      exact Option.bind_congr fun id _ => execAll_singleton _ o
    · exact numberParts_exec length 42 o
  | bulkLen id => exact bulkLenParts_exec id o
  | bulk id => exact exec_behind (bulkLenParts_exec id o) (.reply id)
  | bulkCBuffer s => exact bulkCBufferParts_exec s o
  | bulkCString s =>
    cases s with
    | none => exact execAll_singleton _ o
    | some s => exact bulkCBufferParts_exec (cstr s) o
  | bulkLongLong ll => exact bulkCBufferParts_exec (ll2string 64 ll) o

end ReplyCall

/-- The output of a client with its account, and `server.unixtime`. -/
structure MemoryState where
  st : ReplyState
  acct : Account
  unixtime : Nat

/-- What can happen: the events of the reply queue, `tryObjectEncoding` on an object that somebody holds, and time. The
    strings that others make have any number of free bytes. -/
inductive MemoryEvent where
  | create (v : ObjValue) (free : Nat)
  | retain (id : Nat)
  | release (id : Nat)
  | removeFreeSpace (id : Nat)
  | call (c : ReplyCall) (free : Nat)
  | defer
  | setDeferred (id : Nat) (length : Int)
  | close
  | send (writes : List (Nat × Bool))
  | time (unixtime : Nat)

namespace MemoryState

/-- A client that was just connected. -/
def fresh (unixtime : Nat) : MemoryState where
  st := .fresh
  acct := ⟨⟨0, 0, false, false⟩, fun k => ⟨k, 0⟩, Output.sharedCount⟩
  unixtime := unixtime

variable (env : MemoryEnv)

/-- One of the three functions that other reply functions are made of. -/
def callPart (free : Nat) (m : MemoryState) (c : ReplyCall) : Option MemoryState :=
  if m.acct.aborted then some m
  else
    (m.st.step (.call c)).map fun st =>
      { m with st, acct := m.acct.reply env m.st.out free m.unixtime st.out.reply.length c }

/-- `sdsRemoveFreeSpace` in `tryObjectEncoding`, which leaves objects with more than one reference alone. -/
def removeFreeSpace (m : MemoryState) (id : Nat) : Option MemoryState :=
  (m.st.out.heap.objs id).map fun r =>
    if r.refcount > 1 then m
    else
      match r.value with
      | .raw _ => { m with acct := m.acct.sdsnew id 0 }
      | _ => m

/-- Nothing happens after an assertion has failed. -/
def step (m : MemoryState) (e : MemoryEvent) : Option MemoryState :=
  if m.acct.aborted then some m
  else
    match e with
    | .create v free =>
      (m.st.step (.create v)).map fun st =>
        match v with
        | .raw _ => { m with st, acct := m.acct.sdsnew m.st.out.heap.nextObj free }
        | _ => { m with st }
    | .retain id => (m.st.step (.retain id)).map fun st => { m with st }
    | .release id => (m.st.step (.release id)).map fun st => { m with st }
    | .removeFreeSpace id => m.removeFreeSpace id
    | .call c free => (c.parts m.st.out.heap).bind fun cs => cs.foldlM (callPart env free) m
    | .defer => (m.st.step .defer).map fun st => { m with st }
    | .setDeferred id length =>
      (m.st.step (.setDeferred id length)).map fun st =>
        let acct := m.acct.setDeferred env m.st.out id length
        { m with st, acct := acct.asyncClose env m.unixtime st.out.reply.length }
    | .close => (m.st.step .close).map fun st => { m with st }
    | .send writes =>
      (Account.sendReplyToClient env writes m.st.out m.acct).map fun (out, acct) => { m with st := { m.st with out }, acct }
    | .time unixtime => some { m with unixtime }

/-- How the functions may be used, and that time does not run backwards. -/
def Valid (m : MemoryState) : MemoryEvent → Prop
  | .create v _ => m.st.Valid (.create v)
  | .retain id => m.st.Valid (.retain id)
  | .release id => m.st.Valid (.release id)
  | .removeFreeSpace id => 0 < m.st.outer id
  | .call c _ => m.st.Valid (.call c)
  | .defer => m.st.Valid .defer
  | .setDeferred id length => m.st.Valid (.setDeferred id length)
  | .close => m.st.Valid .close
  | .send writes => m.st.Valid (.send writes)
  | .time unixtime => m.unixtime ≤ unixtime

instance (m : MemoryState) : (e : MemoryEvent) → Decidable (m.Valid e)
  | .create v _ => inferInstanceAs (Decidable (m.st.Valid (.create v)))
  | .retain id => inferInstanceAs (Decidable (m.st.Valid (.retain id)))
  | .release id => inferInstanceAs (Decidable (m.st.Valid (.release id)))
  | .removeFreeSpace id => inferInstanceAs (Decidable (0 < m.st.outer id))
  | .call c _ => inferInstanceAs (Decidable (m.st.Valid (.call c)))
  | .defer => inferInstanceAs (Decidable (m.st.Valid .defer))
  | .setDeferred id length => inferInstanceAs (Decidable (m.st.Valid (.setDeferred id length)))
  | .close => inferInstanceAs (Decidable (m.st.Valid .close))
  | .send writes => inferInstanceAs (Decidable (m.st.Valid (.send writes)))
  | .time unixtime => inferInstanceAs (Decidable (m.unixtime ≤ unixtime))

end MemoryState

end Prez
