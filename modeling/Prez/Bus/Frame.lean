import Prez.Lib.Words
import Prez.Cluster.State

/-!
# `Prez.Bus.Frame` — the messages of the cluster bus as bytes

A `clusterMsg` is a header of 96 bytes and one of four bodies, laid out as the structs of `cluster.h` are on
a 64-bit little-endian machine; lengths, types and counts are in network byte order. What goes over a link
is a `Frame`: the signature, and a length field that says how long it is. `Message.bytes` is what the send
functions hand to `clusterSendMessage`, `decodeMessage` what the receiving side takes the bytes for.
-/

namespace Prez

open Lib

/-! ## Layout -/

/-- `"RCmb"`. -/
def busSignature : Bytes := [82, 67, 109, 98]

/-- `CLUSTERMSG_MIN_LEN`, the offset of `data`. -/
def clusterMsgMinLen : Nat := 96

/-- `sizeof(logEntry)`. -/
def logEntrySize : Nat := 96

/-- The offset of `log_entries` in an `AppendEntries` frame. -/
def logEntriesOffset : Nat := 176

/-- `sizeof(clusterMsg)`. -/
def clusterMsgSize : Nat := 4976

/-- A frame as `clusterReadHandler` expects it. -/
structure Frame where
  bytes : Bytes
  sig : bytes.take 4 = busSignature
  totlen : beNat (slice 4 4 bytes) = bytes.length
  min_le : clusterMsgMinLen ≤ bytes.length
  fits : bytes.length < 2 ^ 31

/-- `CLUSTERMSG_TYPE_*`. -/
def Message.type : Message → Nat
  | .requestVote _ => 1
  | .responseVote _ => 2
  | .appendEntries _ => 3
  | .responseAppendEntries _ => 4

/-- `clusterBuildMessageHdr(hdr, type)` with the final `totlen`: signature, length, version, type, count,
    sender, reserved bytes, port, padding. All 40 bytes of `myself->name` are copied, with whatever stands `behind` the
    name in them. -/
def clusterBuildMessageHdr (behind : Nat → UInt8) (sender : CStr 40) (port : Nat) (type totlen : Nat) : Bytes :=
  busSignature ++ beBytes 4 totlen ++ [0, 0] ++ [0, 0] ++ beBytes 2 type ++ [0, 0] ++ window 40 behind sender.bytes ++
    List.replicate 32 0 ++ beBytes 2 port ++ List.replicate 6 0

/-- One `logEntry`, whose strings are copied up to their ends into zeroed fields. -/
def LogEntry.bytes (e : LogEntry) : Bytes :=
  longLongBytes e.index ++ longLongBytes e.term ++ field 40 e.commandName.bytes ++ field 40 e.command.bytes

/-- The body of a message, up to the last entry. -/
def Message.body (behind : Nat → UInt8) : Message → Bytes
  | .requestVote v =>
    longLongBytes v.term ++ window 40 behind v.candidateid ++ longLongBytes v.lastLogIndex ++ longLongBytes v.lastLogTerm
  | .responseVote v => longLongBytes v.term ++ leBytes 4 v.voteGranted.toNat ++ List.replicate 4 0
  | .appendEntries a =>
    longLongBytes a.term ++ window 40 behind a.leaderid ++ longLongBytes a.prevLogIndex ++ longLongBytes a.prevLogTerm ++
      longLongBytes a.leaderCommitIndex ++ beBytes 2 a.logEntries.length ++ List.replicate 6 0 ++
      a.logEntries.flatMap LogEntry.bytes
  | .responseAppendEntries a =>
    -- `PREZ_OK` is 0, `PREZ_ERR` is -1
    longLongBytes a.term ++ longLongBytes a.index ++ longLongBytes a.commitIndex ++
      leBytes 4 (if a.ok then 0 else 2 ^ 32 - 1) ++ List.replicate 4 0

/-- What `clusterSendMessage` gets. -/
def Message.bytes (behind : Nat → UInt8) (sender : CStr 40) (port : Nat) (m : Message) : Bytes :=
  clusterBuildMessageHdr behind sender port m.type (clusterMsgMinLen + (m.body behind).length) ++ m.body behind

/-- A message that a node can have built: its name fits the field, the log entries fit the struct. -/
def Message.Sendable : Message → Prop
  | .requestVote v => (0 : UInt8) ∉ v.candidateid ∧ v.candidateid.length < 40
  | .appendEntries a =>
    (0 : UInt8) ∉ a.leaderid ∧ a.leaderid.length < 40 ∧ a.logEntries.length ≤ logMaxEntriesPerRequest
  | _ => True

/-! ## Sent messages are frames -/

@[simp] theorem LogEntry.bytes_length (e : LogEntry) : e.bytes.length = logEntrySize := by
  simp only [LogEntry.bytes, List.length_append, longLongBytes_length, field_length e.commandName.fits.le,
    field_length e.command.fits.le]
  rfl

theorem flatMap_bytes_length (es : List LogEntry) : (es.flatMap LogEntry.bytes).length = logEntrySize * es.length := by
  induction es with
  | nil => rfl
  | cons e es ih =>
    rw [List.flatMap_cons, List.length_append, e.bytes_length, ih, List.length_cons]
    ring

variable (behind : Nat → UInt8) (sender : CStr 40) (port : Nat)

theorem clusterBuildMessageHdr_length (type totlen : Nat) :
    (clusterBuildMessageHdr behind sender port type totlen).length = clusterMsgMinLen := by
  simp only [clusterBuildMessageHdr, List.length_append, beBytes_length, window_length, List.length_replicate]
  rfl

/-- The size of the body struct, for `AppendEntries` up to the last entry. -/
def Message.bodyLength : Message → Nat
  | .requestVote _ => 64
  | .responseVote _ => 16
  | .appendEntries a => 80 + logEntrySize * a.logEntries.length
  | .responseAppendEntries _ => 32

/-- The length that the header tells. -/
theorem Message.body_length (m : Message) : (m.body behind).length = m.bodyLength := by
  cases m with
  | requestVote v => simp [Message.body, Message.bodyLength]
  | responseVote v => simp [Message.body, Message.bodyLength]
  | appendEntries a =>
    simp only [Message.body, List.length_append, longLongBytes_length, window_length, beBytes_length,
      List.length_replicate, flatMap_bytes_length, Message.bodyLength]
  | responseAppendEntries a => simp [Message.body, Message.bodyLength]

/-- **A sent message is a frame**, no longer than a `clusterMsg`. -/
theorem Message.length_le {m : Message} (h : m.Sendable) :
    (m.bytes behind sender port).length = clusterMsgMinLen + m.bodyLength ∧
      (m.bytes behind sender port).length ≤ clusterMsgSize := by
  have hlen : (m.bytes behind sender port).length = clusterMsgMinLen + m.bodyLength := by
    rw [Message.bytes, List.length_append, clusterBuildMessageHdr_length, Message.body_length]
  refine ⟨hlen, ?_⟩
  rw [hlen]
  cases m with
  | appendEntries a =>
    have := h.2.2
    simp only [logMaxEntriesPerRequest, Message.bodyLength, clusterMsgMinLen, logEntrySize, clusterMsgSize] at this ⊢
    omega
  | requestVote v => exact (by decide : 96 + 64 ≤ 4976)
  | responseVote v => exact (by decide : 96 + 16 ≤ 4976)
  | responseAppendEntries a => exact (by decide : 96 + 32 ≤ 4976)

def Message.frame (m : Message) (h : m.Sendable) : Frame where
  bytes := m.bytes behind sender port
  sig := rfl
  totlen := by
    obtain ⟨hlen, hle⟩ := Message.length_le behind sender port h
    have hslice : slice 4 4 (m.bytes behind sender port) = beBytes 4 (clusterMsgMinLen + m.bodyLength) := by
      simp only [Message.bytes, clusterBuildMessageHdr, List.append_assoc, Message.body_length]
      rw [slice_skip 0 _ (by rfl), slice_first _ (beBytes_length 4 _)]
    rw [hslice, ← hlen]
    refine beNat_beBytes ?_
    simp only [clusterMsgSize] at hle
    omega
  min_le := by
    rw [(Message.length_le behind sender port h).1]
    exact Nat.le_add_right _ _
  fits := by
    have := (Message.length_le behind sender port h).2
    simp only [clusterMsgSize] at this
    omega

end Prez
