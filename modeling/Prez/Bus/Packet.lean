import Prez.Bus.Frame
import Prez.Moves

/-!
# `Prez.Bus.Packet` — what `clusterProcessPacket` reads

A frame that the reader hands over has the right signature and the length it says; everything else in it is
up to the peer. `clusterProcessPacket` looks at it through the struct `clusterMsg`, so it can read memory
behind the frame: the count of an `AppendEntries` frame before its length is known, and all fifty entries when
the struct is passed by value. The handler then reads as many entries from its copy as the count says, and a
response is credited to `link->node`, which an accepted link does not have.

`clusterProcessPacket` returns these accesses next to the result. `packet_in_range_iff` says exactly when they are
in range; `clusterProcessPacket_frame` connects the result with the handlers: a message that was sent is
received.
-/

namespace Prez

open Lib

variable {n : Nat}

/-! ## Reading the struct -/

/-- A 16-bit header field. -/
def packetField (off : Nat) (mem : Bytes) : Nat := beNat (slice off 2 mem)

/-- A `long long` of the body. -/
def packetLong (off : Nat) (mem : Bytes) : Int := longLongOf (slice off 8 mem)

/-- `log_entries_count`. -/
def packetCount (mem : Bytes) : Nat := packetField 168 mem

/-- A C string that starts at `off` and has to end before `stop`. -/
def packetString (off stop : Nat) (mem : Bytes) : Option Bytes :=
  if (0 : UInt8) ∈ slice off (stop - off) mem then some (cstr (slice off (stop - off) mem)) else none

/-- One `logEntry`; its strings have to end in their fields. -/
def logEntryOf (b : Bytes) : Option LogEntry :=
  (CStr.ofBytes? 40 (cstr (slice 16 40 b))).bind fun commandName =>
  (CStr.ofBytes? 40 (cstr (slice 56 40 b))).map fun command =>
    ⟨longLongOf (slice 0 8 b), longLongOf (slice 8 8 b), commandName, command⟩

/-- The first `count` entries. -/
def logEntriesOf (count : Nat) (b : Bytes) : Option (List LogEntry) :=
  match count with
  | 0 => some []
  | count + 1 =>
    (logEntryOf (b.take logEntrySize)).bind fun e => (logEntriesOf count (b.drop logEntrySize)).map (e :: ·)

/-- The fields of `AppendEntries` that decide about the entries. -/
def appendHeader (mem : Bytes) : AppendEntries :=
  { term := packetLong 96 mem
    leaderid := []
    prevLogIndex := packetLong 144 mem
    prevLogTerm := packetLong 152 mem
    leaderCommitIndex := packetLong 160 mem
    logEntries := [] }

/-- The message of a type, as the handlers see it. Entries past the fiftieth are not part of the struct. -/
def decodeMessage (type : Nat) (mem : Bytes) : Option Message :=
  if type = 1 then
    (packetString 104 160 mem).map fun candidateid =>
      .requestVote ⟨packetLong 96 mem, candidateid, packetLong 144 mem, packetLong 152 mem⟩
  else if type = 2 then some (.responseVote ⟨packetLong 96 mem, leNat (slice 104 4 mem) != 0⟩)
  else if type = 3 then
    (packetString 104 clusterMsgSize mem).bind fun leaderid =>
    (logEntriesOf (min (packetCount mem) logMaxEntriesPerRequest) (mem.drop logEntriesOffset)).map fun logEntries =>
      .appendEntries { appendHeader mem with leaderid, logEntries }
  else
    some (.responseAppendEntries
      ⟨packetLong 96 mem, packetLong 104 mem, packetLong 112 mem, leNat (slice 120 4 mem) == 0⟩)

/-! ## `clusterProcessPacket` -/

/-- The accesses that can be out of range: the count, an entry of the frame when the struct is copied, an
    entry of the copy, and `link->node`. -/
inductive Access where
  | count
  | copied (i : Nat)
  | entry (i : Nat)
  | node
deriving DecidableEq

/-- What the range of an access is. -/
def Access.InRange (link : Option (Fin n)) (f : Frame) : Access → Prop
  | .count => 170 ≤ f.bytes.length
  | .copied i | .entry i =>
    i < logMaxEntriesPerRequest ∧ logEntriesOffset + logEntrySize * (i + 1) ≤ f.bytes.length
  | .node => link.isSome = true

/-- The handlers on a link; one without a node cannot take a response. -/
def Server.receiveOn (s : Server n) (link : Option (Fin n)) (msg : Message) (fsync : Bool) :
    Option (Server n × Option Message) :=
  match msg with
  | .requestVote vote =>
    let (cluster, response) := clusterProcessRequestVote s.cluster vote
    some ({ s with cluster }, some (.responseVote response))
  | .responseVote vote => some ({ s with cluster := clusterProcessResponseVote s.cluster vote }, none)
  | .appendEntries entries =>
    (clusterProcessAppendEntries s.cluster entries fsync).map fun (cluster, response) =>
      ({ s with cluster }, some (.responseAppendEntries response))
  | .responseAppendEntries entries =>
    link.map fun j => ({ s with cluster := clusterProcessResponseAppendEntries s.cluster j entries }, none)

theorem Server.receiveOn_some (s : Server n) (j : Fin n) (msg : Message) (fsync : Bool) :
    s.receiveOn (some j) msg fsync = s.receive j msg fsync := by
  cases msg <;> rfl

/-- The accesses of a call and its result; `none` where it has none that the source defines. -/
structure PacketRun (n : Nat) where
  accesses : List Access
  result : Option (Server n × Option Message)

/-- The entries that `clusterProcessAppendEntries` reads: all of them, once both tests have passed. -/
def entryAccesses (x : ClusterState n) (mem : Bytes) : List Access :=
  if Accepts x (appendHeader mem) then (List.range (packetCount mem)).map .entry else []

/-- `clusterProcessPacket(link)`, with `frame` in the receive buffer and `beyond` in the memory behind it. -/
def clusterProcessPacket (link : Option (Fin n)) (frame : Frame) (beyond : Bytes) (s : Server n) (fsync : Bool) :
    PacketRun n :=
  let mem := frame.bytes ++ beyond
  let totlen := frame.bytes.length
  let type := packetField 12 mem
  let result := (decodeMessage type mem).bind fun msg => s.receiveOn link msg fsync
  let ignored := some (s, none)
  if packetField 8 mem ≠ 0 then ⟨[], ignored⟩
  else if type = 1 then if totlen ≠ 160 then ⟨[], ignored⟩ else ⟨[], result⟩
  else if type = 3 then
    -- `explen` needs the count
    if totlen ≠ logEntriesOffset + logEntrySize * packetCount mem then ⟨[.count], ignored⟩
    else
      let reads := .count :: (List.range logMaxEntriesPerRequest).map .copied ++ entryAccesses s.cluster mem
      if logMaxEntriesPerRequest < packetCount mem ∧ Accepts s.cluster (appendHeader mem) then ⟨reads, none⟩
      else ⟨reads, result⟩
  else if type = 2 then if totlen ≠ 112 then ⟨[], ignored⟩ else ⟨[], result⟩
  else if type = 4 then if totlen ≠ 128 then ⟨[], ignored⟩ else ⟨[.node], result⟩
  else ⟨[], ignored⟩

/-! ## A message that was sent is received -/

/-- The numbers of a message are `long long`s. -/
def Message.Longs : Message → Prop
  | .requestVote v => LongLong v.term ∧ LongLong v.lastLogIndex ∧ LongLong v.lastLogTerm
  | .responseVote v => LongLong v.term
  | .appendEntries a =>
    LongLong a.term ∧ LongLong a.prevLogIndex ∧ LongLong a.prevLogTerm ∧ LongLong a.leaderCommitIndex ∧
      ∀ e ∈ a.logEntries, LongLong e.index ∧ LongLong e.term
  | .responseAppendEntries a => LongLong a.term ∧ LongLong a.index ∧ LongLong a.commitIndex

section

variable (behind : Nat → UInt8) (sender : CStr 40) (port : Nat) {m : Message} (beyond : Bytes)

/-- The body stands behind the header. -/
theorem drop_body {off : Nat} (h : 96 ≤ off) :
    (m.bytes behind sender port ++ beyond).drop off = (m.body behind ++ beyond).drop (off - 96) := by
  have hlen := clusterBuildMessageHdr_length behind sender port m.type (clusterMsgMinLen + (m.body behind).length)
  rw [Message.bytes, List.append_assoc, List.drop_append, List.drop_eq_nil_of_le (by rw [hlen]; exact h), hlen]
  rfl

theorem slice_body {off : Nat} (len : Nat) (h : 96 ≤ off) :
    slice off len (m.bytes behind sender port ++ beyond) = slice (off - 96) len (m.body behind ++ beyond) := by
  rw [slice, drop_body behind sender port beyond h, slice]

theorem packetField_ver : packetField 8 (m.bytes behind sender port ++ beyond) = 0 := by
  simp only [packetField, Message.bytes, clusterBuildMessageHdr, List.append_assoc]
  rw [slice_skip 4 _ (by rfl), slice_skip 0 _ (by rw [beBytes_length])]
  rfl

theorem packetField_type : packetField 12 (m.bytes behind sender port ++ beyond) = m.type := by
  simp only [packetField, Message.bytes, clusterBuildMessageHdr, List.append_assoc]
  rw [slice_skip 8 _ (by rfl), slice_skip 4 _ (by rw [beBytes_length]), slice_skip 2 _ (by rfl), slice_skip 0 _ (by rfl),
    slice_first _ (beBytes_length 2 _)]
  refine beNat_beBytes ?_
  cases m <;> simp [Message.type]

/-- A `long long` of the body, at an offset of the struct. -/
theorem packetLong_eq (off : Nat) (h : 96 ≤ off) {x : Int} (hx : LongLong x)
    (hs : slice (off - 96) 8 (m.body behind ++ beyond) = longLongBytes x) :
    packetLong off (m.bytes behind sender port ++ beyond) = x := by
  rw [packetLong, slice_body behind sender port beyond 8 h, hs, longLongOf_longLongBytes hx]

/-- A string field of the body that leaves room for the terminator. -/
theorem packetString_eq (off stop : Nat) (h : 96 ≤ off) (hstop : off + 40 ≤ stop) {str rest : Bytes}
    (hnul : (0 : UInt8) ∉ str) (hlen : str.length < 40)
    (hd : (m.body behind ++ beyond).drop (off - 96) = window 40 behind str ++ rest) :
    packetString off stop (m.bytes behind sender port ++ beyond) = some str := by
  obtain ⟨junk, hjunk⟩ := window_eq behind hlen
  have hslice : slice off (stop - off) (m.bytes behind sender port ++ beyond) =
      str ++ 0 :: (junk ++ rest.take (stop - off - 40)) := by
    rw [slice, drop_body behind sender port beyond h, hd, List.take_append, window_length,
      List.take_of_length_le (by rw [window_length]; omega), hjunk, List.append_assoc, List.cons_append]
  rw [packetString, hslice, if_pos (by simp), cstr_append_nul hnul]

theorem logEntryOf_bytes {e : LogEntry} (hi : LongLong e.index) (ht : LongLong e.term) : logEntryOf e.bytes = some e := by
  have hname : slice 16 40 e.bytes = field 40 e.commandName.bytes := by
    simp only [LogEntry.bytes, List.append_assoc]
    rw [slice_skip 8 _ (by simp), slice_skip 0 _ (by simp), slice_first _ (field_length e.commandName.fits.le)]
  have hcommand : slice 56 40 e.bytes = field 40 e.command.bytes := by
    rw [LogEntry.bytes, slice_skip 0 _ (by simp [field_length e.commandName.fits.le]), slice, List.drop_zero,
      List.take_of_length_le (field_length e.command.fits.le).le]
  have hindex : slice 0 8 e.bytes = longLongBytes e.index := by
    simp only [LogEntry.bytes, List.append_assoc]
    exact slice_first _ (longLongBytes_length _)
  have hterm : slice 8 8 e.bytes = longLongBytes e.term := by
    simp only [LogEntry.bytes, List.append_assoc]
    rw [slice_skip 0 _ (by simp), slice_first _ (longLongBytes_length _)]
  have hcstr : ∀ s : CStr 40, CStr.ofBytes? 40 (cstr (field 40 s.bytes)) = some s := by
    intro s
    have := cstr_field_append s []
    rw [List.append_nil] at this
    rw [this]
    exact CStr.ofBytes?_eq_some.mpr rfl
  rw [logEntryOf, hname, hcommand, hindex, hterm, hcstr, hcstr, longLongOf_longLongBytes hi, longLongOf_longLongBytes ht]
  rfl

theorem logEntriesOf_bytes (rest : Bytes) :
    ∀ {es : List LogEntry}, (∀ e ∈ es, LongLong e.index ∧ LongLong e.term) →
      logEntriesOf es.length (es.flatMap LogEntry.bytes ++ rest) = some es := by
  intro es
  induction es with
  | nil => exact fun _ => rfl
  | cons e es ih =>
    intro h
    obtain ⟨he, hes⟩ := List.forall_mem_cons.mp h
    rw [List.length_cons, logEntriesOf, List.flatMap_cons, List.append_assoc, List.take_left' e.bytes_length,
      List.drop_left' e.bytes_length, logEntryOf_bytes he.1 he.2, ih hes]
    rfl

theorem packetCount_bytes {a : AppendEntries} (hs : (Message.appendEntries a).Sendable) :
    packetCount ((Message.appendEntries a).bytes behind sender port ++ beyond) = a.logEntries.length := by
  have hle := hs.2.2
  simp only [logMaxEntriesPerRequest] at hle
  rw [packetCount, packetField, slice_body behind sender port beyond 2 (by omega)]
  simp only [Message.body, List.append_assoc]
  rw [slice_skip 64 _ (by simp), slice_skip 24 _ (by simp), slice_skip 16 _ (by simp), slice_skip 8 _ (by simp),
    slice_skip 0 _ (by simp), slice_first _ (beBytes_length 2 _)]
  exact beNat_beBytes (by omega)

/-- The start of both requests: the term, the name of the sender, an index and a term of its log. -/
theorem request_bytes {term index last : Int} {name rest : Bytes} (hnul : (0 : UInt8) ∉ name) (hlen : name.length < 40)
    (h1 : LongLong term) (h2 : LongLong index) (h3 : LongLong last)
    (hbody : m.body behind ++ beyond =
      longLongBytes term ++ (window 40 behind name ++ (longLongBytes index ++ (longLongBytes last ++ rest)))) :
    let mem := m.bytes behind sender port ++ beyond
    (∀ stop, 144 ≤ stop → packetString 104 stop mem = some name) ∧ packetLong 96 mem = term ∧ packetLong 144 mem = index ∧
      packetLong 152 mem = last := by
  refine ⟨fun stop hstop => ?_, ?_, ?_, ?_⟩
  · have hdrop := congrArg (List.drop 8) hbody
    rw [List.drop_left' (longLongBytes_length _)] at hdrop
    exact packetString_eq behind sender port beyond 104 stop (by omega) hstop hnul hlen hdrop
  · refine packetLong_eq behind sender port beyond 96 (by omega) h1 ?_
    rw [hbody]
    exact slice_first _ (longLongBytes_length _)
  · refine packetLong_eq behind sender port beyond 144 (by omega) h2 ?_
    rw [hbody, slice_skip 40 _ (by simp), slice_skip 0 _ (by simp), slice_first _ (longLongBytes_length _)]
  · refine packetLong_eq behind sender port beyond 152 (by omega) h3 ?_
    rw [hbody, slice_skip 48 _ (by simp), slice_skip 8 _ (by simp), slice_skip 0 _ (by simp),
      slice_first _ (longLongBytes_length _)]

theorem decodeAppend_bytes {a : AppendEntries} (hs : (Message.appendEntries a).Sendable)
    (hl : (Message.appendEntries a).Longs) :
    decodeMessage 3 ((Message.appendEntries a).bytes behind sender port ++ beyond) = some (.appendEntries a) := by
  obtain ⟨h1, h2, h3, h4, h5⟩ := hl
  obtain ⟨hid, hterm, hindex, hlast⟩ := request_bytes behind sender port beyond (m := .appendEntries a) hs.1 hs.2.1
    h1 h2 h3 (by simp only [Message.body, List.append_assoc]; rfl)
  have hcommit := packetLong_eq behind sender port beyond (m := .appendEntries a) 160 (by omega) h4 (by
    simp only [Message.body, List.append_assoc]
    rw [slice_skip 56 _ (by simp), slice_skip 16 _ (by simp), slice_skip 8 _ (by simp), slice_skip 0 _ (by simp),
      slice_first _ (longLongBytes_length _)])
  have hcount := packetCount_bytes behind sender port beyond hs
  have hentries : ((Message.appendEntries a).bytes behind sender port ++ beyond).drop logEntriesOffset =
      a.logEntries.flatMap LogEntry.bytes ++ beyond := by
    rw [drop_body behind sender port beyond (by decide), Message.body, List.append_assoc]
    exact List.drop_left' (by simp [logEntriesOffset])
  have hmin : min a.logEntries.length logMaxEntriesPerRequest = a.logEntries.length := Nat.min_eq_left hs.2.2
  simp only [decodeMessage, hid clusterMsgSize (by decide), appendHeader, hterm, hindex, hlast, hcommit, hcount, hentries,
    hmin, logEntriesOf_bytes beyond h5]
  rfl

/-- **What was sent is what is decoded**, whatever stands behind the frame. -/
theorem decodeMessage_bytes (hs : m.Sendable) (hl : m.Longs) :
    decodeMessage m.type (m.bytes behind sender port ++ beyond) = some m := by
  cases m with
  | requestVote v =>
    obtain ⟨h1, h2, h3⟩ := hl
    obtain ⟨hid, hterm, hindex, hlast⟩ := request_bytes behind sender port beyond (m := .requestVote v) hs.1 hs.2
      h1 h2 h3 (by simp only [Message.body, List.append_assoc]; rfl)
    simp only [decodeMessage, Message.type, if_true, hid 160 (by omega), hterm, hindex, hlast, Option.map_some]
  | responseVote v =>
    have hbody : (Message.responseVote v).body behind ++ beyond = longLongBytes v.term ++ (leBytes 4 v.voteGranted.toNat ++
        (List.replicate 4 0 ++ beyond)) := by
      simp only [Message.body, List.append_assoc]
    have hterm := packetLong_eq behind sender port beyond 96 (by omega) hl
      (by rw [hbody]; exact slice_first _ (longLongBytes_length _))
    have hgranted : leNat (slice 104 4 ((Message.responseVote v).bytes behind sender port ++ beyond)) =
        v.voteGranted.toNat := by
      rw [slice_body behind sender port beyond 4 (by omega), hbody, slice_skip 0 _ (by simp),
        slice_first _ (leBytes_length 4 _), leNat_leBytes]
      cases v.voteGranted <;> rfl
    simp only [decodeMessage, Message.type, hterm, hgranted]
    obtain ⟨term, _ | _⟩ := v <;> rfl
  | appendEntries a => exact decodeAppend_bytes behind sender port beyond hs hl
  | responseAppendEntries a =>
    obtain ⟨h1, h2, h3⟩ := hl
    have hbody : (Message.responseAppendEntries a).body behind ++ beyond = longLongBytes a.term ++ (longLongBytes a.index ++
        (longLongBytes a.commitIndex ++ (leBytes 4 (if a.ok then 0 else 2 ^ 32 - 1) ++ (List.replicate 4 0 ++ beyond)))) := by
      simp only [Message.body, List.append_assoc]
    have hterm := packetLong_eq behind sender port beyond 96 (by omega) h1
      (by rw [hbody]; exact slice_first _ (longLongBytes_length _))
    have hindex := packetLong_eq behind sender port beyond 104 (by omega) h2
      (by rw [hbody, slice_skip 0 _ (by simp)]; exact slice_first _ (longLongBytes_length _))
    have hcommit := packetLong_eq behind sender port beyond 112 (by omega) h3
      (by rw [hbody, slice_skip 8 _ (by simp), slice_skip 0 _ (by simp)]; exact slice_first _ (longLongBytes_length _))
    have hok : (leNat (slice 120 4 ((Message.responseAppendEntries a).bytes behind sender port ++ beyond)) == 0) = a.ok := by
      rw [slice_body behind sender port beyond 4 (by omega), hbody, slice_skip 16 _ (by simp), slice_skip 8 _ (by simp),
        slice_skip 0 _ (by simp), slice_first _ (leBytes_length 4 _), leNat_leBytes]
      cases a.ok <;> rfl
    simp only [decodeMessage, Message.type, hterm, hindex, hcommit, hok]
    rfl

/-- **A message that was sent is received**: the call ends in the handler of the message. -/
theorem clusterProcessPacket_sent (link : Option (Fin n)) (hs : m.Sendable) (hl : m.Longs) (s : Server n) (fsync : Bool) :
    (clusterProcessPacket link (m.frame behind sender port hs) beyond s fsync).result = s.receiveOn link m fsync := by
  have hbytes : (m.frame behind sender port hs).bytes = m.bytes behind sender port := rfl
  have hver := packetField_ver behind sender port (m := m) beyond
  have htype := packetField_type behind sender port (m := m) beyond
  have hmsg := decodeMessage_bytes behind sender port beyond hs hl
  have hlen := (Message.length_le behind sender port hs).1
  simp only [clusterProcessPacket, hbytes, hver, htype, hmsg, hlen, Option.bind_some]
  cases m with
  | requestVote v => rfl
  | responseVote v => rfl
  | appendEntries a =>
    have hcount := packetCount_bytes behind sender port beyond hs
    have hle : ¬ logMaxEntriesPerRequest < a.logEntries.length := Nat.not_lt.mpr hs.2.2
    have hfit : clusterMsgMinLen + (Message.appendEntries a).bodyLength =
        logEntriesOffset + logEntrySize * a.logEntries.length := by
      simp only [Message.bodyLength, clusterMsgMinLen, logEntriesOffset]
      omega
    rw [hcount, hfit]
    simp [Message.type, hle]
  | responseAppendEntries a => rfl

/-- On a link with a node, the handlers are those of `Prez.Server`. -/
theorem clusterProcessPacket_frame (j : Fin n) (hs : m.Sendable) (hl : m.Longs) (s : Server n) (fsync : Bool) :
    (clusterProcessPacket (some j) (m.frame behind sender port hs) beyond s fsync).result = s.receive j m fsync := by
  rw [clusterProcessPacket_sent behind sender port beyond (some j) hs hl, Server.receiveOn_some]

end

/-! ## When every access is in range -/

/-- The frame is taken for an `AppendEntries` message. -/
def IsAppend (frame : Frame) (beyond : Bytes) : Prop :=
  packetField 8 (frame.bytes ++ beyond) = 0 ∧ packetField 12 (frame.bytes ++ beyond) = 3
deriving Decidable

/-- The frame is taken for a response that the sender's node record is needed for. -/
def IsAppendResponse (frame : Frame) (beyond : Bytes) : Prop :=
  packetField 8 (frame.bytes ++ beyond) = 0 ∧ packetField 12 (frame.bytes ++ beyond) = 4 ∧ frame.bytes.length = 128
deriving Decidable

/-- The length of the frame is the one that its count asks for. -/
def CountFits (frame : Frame) (beyond : Bytes) : Prop :=
  frame.bytes.length = logEntriesOffset + logEntrySize * packetCount (frame.bytes ++ beyond)
deriving Decidable

/-- The accesses of a call by the kind of the frame. -/
theorem clusterProcessPacket_accesses (link : Option (Fin n)) (frame : Frame) (beyond : Bytes) (s : Server n)
    (fsync : Bool) :
    (clusterProcessPacket link frame beyond s fsync).accesses =
      if IsAppend frame beyond then
        if CountFits frame beyond then
          .count :: (List.range logMaxEntriesPerRequest).map .copied ++ entryAccesses s.cluster (frame.bytes ++ beyond)
        else [.count]
      else if IsAppendResponse frame beyond then [.node] else [] := by
  simp only [clusterProcessPacket, IsAppend, IsAppendResponse, CountFits]
  split_ifs <;> simp_all

/-- The copy of the struct stays in the frame exactly if the frame has room for fifty entries. -/
theorem copied_in_range_iff (link : Option (Fin n)) {frame : Frame} {beyond : Bytes} (hfit : CountFits frame beyond) :
    (∀ a ∈ (List.range logMaxEntriesPerRequest).map Access.copied, a.InRange link frame) ↔
      logMaxEntriesPerRequest ≤ packetCount (frame.bytes ++ beyond) := by
  simp only [CountFits, logEntriesOffset, logEntrySize] at hfit
  simp only [List.forall_mem_map, List.mem_range, Access.InRange, logMaxEntriesPerRequest, logEntriesOffset,
    logEntrySize]
  constructor
  · intro h
    have := (h 49 (by omega)).2
    omega
  · intro h i hi
    omega

/-- The entries read by the handler are in range exactly if there are at most fifty, or none is read. -/
theorem entryAccesses_in_range_iff (link : Option (Fin n)) {frame : Frame} {beyond : Bytes} (x : ClusterState n)
    (hfit : CountFits frame beyond) :
    (∀ a ∈ entryAccesses x (frame.bytes ++ beyond), a.InRange link frame) ↔
      (Accepts x (appendHeader (frame.bytes ++ beyond)) →
        packetCount (frame.bytes ++ beyond) ≤ logMaxEntriesPerRequest) := by
  simp only [CountFits, logEntriesOffset, logEntrySize] at hfit
  rw [entryAccesses]
  split
  · rename_i hacc
    simp only [List.forall_mem_map, List.mem_range, Access.InRange, logMaxEntriesPerRequest, logEntriesOffset,
      logEntrySize, hacc, true_imp_iff]
    constructor
    · intro h
      by_contra hgt
      have := (h 50 (by omega)).1
      omega
    · intro h i hi
      omega
  · rename_i hacc
    simp [hacc]

theorem entryAccesses_isEntry {x : ClusterState n} {mem : Bytes} {a : Access} (h : a ∈ entryAccesses x mem) :
    ∃ i, a = .entry i := by
  rw [entryAccesses] at h
  split at h
  · obtain ⟨i, -, rfl⟩ := List.mem_map.mp h
    exact ⟨i, rfl⟩
  · cases h

/-- **Packet processing, access by access.** Every access is in range exactly if an `AppendEntries` frame reaches up
    to its count and, when its length fits the count, carries fifty entries, or more that the handler does not
    accept; and a response comes on a link with a node. Without the copy of the struct and the count, what
    remains is that no more than fifty entries are accepted. -/
theorem packet_in_range_iff (link : Option (Fin n)) (frame : Frame) (beyond : Bytes) (s : Server n) (fsync : Bool) :
    ((∀ a ∈ (clusterProcessPacket link frame beyond s fsync).accesses, a.InRange link frame) ↔
      (IsAppend frame beyond →
        170 ≤ frame.bytes.length ∧
        (CountFits frame beyond →
          packetCount (frame.bytes ++ beyond) = logMaxEntriesPerRequest ∨
          logMaxEntriesPerRequest < packetCount (frame.bytes ++ beyond) ∧
            ¬ Accepts s.cluster (appendHeader (frame.bytes ++ beyond)))) ∧
      (IsAppendResponse frame beyond → link.isSome = true)) ∧
    ((∀ a ∈ (clusterProcessPacket link frame beyond s fsync).accesses, (a = .node ∨ ∃ i, a = .entry i) →
        a.InRange link frame) ↔
      (IsAppend frame beyond → CountFits frame beyond →
        Accepts s.cluster (appendHeader (frame.bytes ++ beyond)) →
        packetCount (frame.bytes ++ beyond) ≤ logMaxEntriesPerRequest) ∧
      (IsAppendResponse frame beyond → link.isSome = true)) := by
  rw [clusterProcessPacket_accesses]
  by_cases happ : IsAppend frame beyond
  · have hresp : ¬ IsAppendResponse frame beyond := fun h => by
      have h4 := h.2.1
      rw [happ.2] at h4
      cases h4
    rw [if_pos happ]
    simp only [happ, hresp, true_imp_iff, false_imp_iff, and_true]
    by_cases hfit : CountFits frame beyond
    · have hcopied := copied_in_range_iff link hfit
      have hentries := entryAccesses_in_range_iff link s.cluster hfit
      have hlen : 170 ≤ frame.bytes.length := by
        simp only [CountFits, logEntriesOffset] at hfit
        omega
      rw [if_pos hfit]
      simp only [hfit, true_imp_iff]
      constructor
      · rw [List.cons_append, List.forall_mem_cons, List.forall_mem_append, hcopied, hentries]
        simp only [Access.InRange, hlen, true_and]
        by_cases hacc : Accepts s.cluster (appendHeader (frame.bytes ++ beyond))
        · simp only [hacc, true_imp_iff, not_true_eq_false, and_false, or_false]
          omega
        · simp only [hacc, false_imp_iff, not_false_eq_true, and_true]
          omega
      · rw [← hentries]
        constructor
        · intro h a ha
          exact h a (by simp [ha]) (.inr (entryAccesses_isEntry ha))
        · rintro h a ha hkind
          rw [List.cons_append, List.mem_cons, List.mem_append] at ha
          rcases ha with rfl | ha | ha
          · rcases hkind with hk | ⟨i, hk⟩ <;> cases hk
          · obtain ⟨i, -, rfl⟩ := List.mem_map.mp ha
            rcases hkind with hk | ⟨i, hk⟩ <;> cases hk
          · exact h a ha
    · simp [hfit, Access.InRange]
  · simp only [happ, false_imp_iff, true_and]
    by_cases hresp : IsAppendResponse frame beyond
    · simp [hresp, Access.InRange]
    · simp [hresp]

/-- A follower that has just started. -/
def freshServer : Server 3 := Server.boot (clusterInit (fun _ => ⟨none, 0, 0⟩) LogState.empty)

/-- `AppendEntries` of term 1 with `count` copies of one entry. -/
def floodBytes (count : Nat) : Bytes :=
  Message.bytes (fun _ => 0) (letter 0) 8000
    (.appendEntries ⟨1, [97], 0, 0, 0, List.replicate count ⟨1, 1, letter 0, letter 0⟩⟩)

/-- A heartbeat: the length fits the count. -/
def heartbeatFrame : Frame where
  bytes := floodBytes 0
  sig := by decide +kernel
  totlen := by decide +kernel
  min_le := by decide +kernel
  fits := by decide +kernel

/-- Fifty-one entries: again the length fits the count. -/
def floodFrame : Frame where
  bytes := floodBytes 51
  sig := by decide +kernel
  totlen := by decide +kernel
  min_le := by decide +kernel
  fits := by decide +kernel

/-- A response to entries that this node has not sent. -/
def strayResponse : Frame :=
  Message.frame (fun _ => 0) (letter 0) 8000 (.responseAppendEntries ⟨1, 0, 0, true⟩) trivial

/-- Three frames that pass every check of the reader. A heartbeat is copied together with fifty entries that are
    not in it; of fifty-one entries the last one is read behind the array; and a response on an accepted link
    dereferences a node that is not there. -/
theorem packet_out_of_range :
    (.copied 0 ∈ (clusterProcessPacket (some 1) heartbeatFrame [] freshServer true).accesses ∧
      ¬ (Access.copied 0).InRange (some (1 : Fin 3)) heartbeatFrame) ∧
    (.entry 50 ∈ (clusterProcessPacket (some 1) floodFrame [] freshServer true).accesses ∧
      ¬ (Access.entry 50).InRange (some (1 : Fin 3)) floodFrame) ∧
    (.node ∈ (clusterProcessPacket none strayResponse [] freshServer true).accesses ∧
      ¬ Access.node.InRange (none : Option (Fin 3)) strayResponse) := by
  refine ⟨⟨by decide +kernel, ?_⟩, ⟨by decide +kernel, ?_⟩, ⟨by decide +kernel, ?_⟩⟩
  · rintro ⟨-, hlen⟩
    exact absurd hlen (by decide +kernel)
  · rintro ⟨hlt, -⟩
    exact absurd hlt (by decide)
  · intro h
    cases h

end Prez
