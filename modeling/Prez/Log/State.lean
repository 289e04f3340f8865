import Prez.Util
import Prez.Adlist

/-!
# `Prez.Log.State` — the log in memory and on disk

The log of `log.c` lives twice: as the list `log_entries`, and as the file behind `log_fd`. `LogState`
holds both, with the byte accounting `log_current_size` that ties them together. Writes and truncations are
taken to complete; everything else is as the source computes it, including the unsigned comparisons and
the positional lookup that wraps round past the end of the list.

A pointer the source dereferences without a check is an `Option`: `none` is the NULL dereference.
-/

namespace Prez

open Lib

/-- `logEntry`: two `long long`s and two 40-byte C strings. -/
structure LogEntry where
  index : Int
  term : Int
  commandName : CStr 40
  command : CStr 40
deriving DecidableEq

/-- `logEntryNode`: an entry and the offset of its record in the file. -/
structure LogEntryNode where
  logEntry : LogEntry
  position : Nat
deriving DecidableEq

/-- The part of `clusterState` that `log.c` owns, with the contents of the file. -/
structure LogState where
  logEntries : List LogEntryNode
  file : Bytes
  logCurrentSize : Nat

/-- The log of a node that has never written. -/
def LogState.empty : LogState := ⟨[], [], 0⟩

/-- The entries in list order. -/
def LogState.list (s : LogState) : List LogEntry := s.logEntries.map (·.logEntry)

/-- The macro `logLength`. -/
def logLength (s : LogState) : Nat := s.logEntries.length

@[simp] theorem LogState.length_list (s : LogState) : s.list.length = logLength s := by
  simp [LogState.list, logLength]

/-! ## Lookup -/

/-- `getLogNode(index)`: the node `index-1-logLength` places from the end, or from the head once that
    difference is no longer negative. -/
def getLogNode (s : LogState) (index : Int) : Option Nat :=
  listIndex (logLength s) (index - 1 - logLength s)

/-- `getLogEntry(index)`. -/
def getLogEntry (s : LogState) (index : Int) : Option LogEntryNode :=
  (getLogNode s index).bind fun pos => s.logEntries[pos]?

/-- `logCurrentIndex()`. -/
def logCurrentIndex (s : LogState) : Int :=
  match (listIndex (logLength s) (-1)).bind fun pos => s.logEntries[pos]? with
  | some en => en.logEntry.index
  | none => 0

/-- `logCurrentTerm()`. -/
def logCurrentTerm (s : LogState) : Int :=
  match (listIndex (logLength s) (-1)).bind fun pos => s.logEntries[pos]? with
  | some en => en.logEntry.term
  | none => 0

/-- `logGetTerm(index)`. -/
def logGetTerm (s : LogState) (index : Int) : Int :=
  match getLogEntry s index with
  | some en => en.logEntry.term
  | none => 0

/-- `logVerifyAppend(index, term)`: `some true` is `PREZ_OK`, `some false` is `PREZ_ERR`. -/
def logVerifyAppend (s : LogState) (index term : Int) : Option Bool :=
  if index = 0 then some true
  else if toULong index > logLength s then some false
  else
    -- `entry->log_entry.term` with no check for NULL
    (getLogEntry s index).map fun en => en.logEntry.term == term

/-! ## The record format -/

/-- `catLogEntry(dst, argc, argv)`: a count line, then a length line and a payload line per argument. -/
def catLogEntry (dst : Bytes) (argv : List Bytes) : Bytes :=
  argv.foldl
    (fun dst o => dst ++ (36 :: ll2string 31 o.length ++ [13, 10]) ++ o ++ [13, 10])
    (dst ++ (42 :: ll2string 31 argv.length ++ [13, 10]))

/-- The four arguments `logWriteEntry` hands to `catLogEntry`, decoded. -/
def logArgv (e : LogEntry) : List Bytes :=
  [ll2string 32 e.index, ll2string 32 e.term, e.commandName.bytes, e.command.bytes]

/-- The bytes `logWriteEntry` passes to `write()`. -/
def logRecord (e : LogEntry) : Bytes := catLogEntry [] (logArgv e)

/-! ## Update -/

/-- `ftruncate`: a longer length than the file's pads it with zeros. -/
def ftruncate (file : Bytes) (length : Nat) : Bytes :=
  file.take length ++ List.replicate (length - file.length) 0

/-- `logTruncate(index)`. The guard compares a converted `index` with the length, so the entry at the last
    index is never removed. -/
def logTruncate (s : LogState) (index : Int) : Option LogState :=
  if toULong index < logLength s then do
    let entry ← getLogEntry s index
    let pos ← getLogNode s index
    some { logEntries := s.logEntries.take pos
           file := ftruncate s.file entry.position
           logCurrentSize := entry.position }
  else some s

/-- What `logWriteEntry` finds at the index it is about to write. -/
inductive WriteCheck where
  | present
  | conflict
  | absent
deriving DecidableEq

/-- The test at the top of `logWriteEntry`. An entry found at another index than `e.index` counts as
    absent. -/
def logWriteCheck (s : LogState) (e : LogEntry) : WriteCheck :=
  if 0 < logLength s then
    match getLogEntry s e.index with
    | some en =>
      if en.logEntry.index = e.index ∧ en.logEntry.term = e.term then .present
      else if e.term ≠ en.logEntry.term ∧ e.index = en.logEntry.index then .conflict
      else .absent
    | none => .absent
  else .absent

/-- The second half of `logWriteEntry`: the record goes to the end of the file (`O_APPEND`), the node to
    the end of the list. -/
def logAppend (s : LogState) (e : LogEntry) : LogState :=
  { logEntries := s.logEntries ++ [⟨e, s.logCurrentSize⟩]
    file := s.file ++ logRecord e
    logCurrentSize := s.logCurrentSize + (logRecord e).length }

/-- `logWriteEntry(e)`; it returns `PREZ_OK` on every path. -/
def logWriteEntry (s : LogState) (e : LogEntry) : Option LogState :=
  match logWriteCheck s e with
  | .present => some s
  | .conflict => (logTruncate s e.index).map fun s => logAppend s e
  | .absent => some (logAppend s e)

/-- The loop of `logAppendEntries(entries)`; its `fsync` is an input of the caller. -/
def logAppendEntries (s : LogState) (entries : List LogEntry) : Option LogState :=
  entries.foldlM logWriteEntry s

/-! ## Lookup lemmas -/

/-- **Positional lookup.** Indices `1..logLength` hit their own position, the next `logLength` indices
    wrap round to the head of the list, all others miss. -/
theorem getLogNode_eq (s : LogState) (i : Int) :
    getLogNode s i =
      if 1 ≤ i ∧ i ≤ logLength s then some (i - 1).toNat
      else if logLength s < i ∧ i ≤ 2 * logLength s then some (i - 1 - logLength s).toNat
      else none := by
  unfold getLogNode listIndex
  by_cases hneg : i - 1 - (logLength s : Int) < 0
  · rw [if_pos hneg]
    dsimp only
    by_cases h1 : 1 ≤ i
    · rw [if_pos (show (-(i - 1 - (logLength s : Int)) - 1).toNat < logLength s by omega),
        if_pos (show 1 ≤ i ∧ i ≤ (logLength s : Int) by omega)]
      congr 1
      omega
    · rw [if_neg (show ¬(-(i - 1 - (logLength s : Int)) - 1).toNat < logLength s by omega),
        if_neg (show ¬(1 ≤ i ∧ i ≤ (logLength s : Int)) by omega),
        if_neg (show ¬((logLength s : Int) < i ∧ i ≤ 2 * logLength s) by omega)]
  · rw [if_neg hneg, if_neg (show ¬(1 ≤ i ∧ i ≤ (logLength s : Int)) by omega)]
    by_cases h2 : i ≤ 2 * logLength s
    · rw [if_pos (show (i - 1 - (logLength s : Int)).toNat < logLength s by omega),
        if_pos (show (logLength s : Int) < i ∧ i ≤ 2 * logLength s by omega)]
    · rw [if_neg (show ¬(i - 1 - (logLength s : Int)).toNat < logLength s by omega),
        if_neg (show ¬((logLength s : Int) < i ∧ i ≤ 2 * logLength s) by omega)]

/-- Inside the log, `getLogEntry` is list access. -/
theorem getLogEntry_in {s : LogState} {i : Int} (h1 : 1 ≤ i) (h2 : i ≤ logLength s) :
    getLogEntry s i = s.logEntries[(i - 1).toNat]? := by
  rw [getLogEntry, getLogNode_eq, if_pos ⟨h1, h2⟩]
  rfl

/-- Past the end, `getLogEntry` comes back to the head of the list. -/
theorem getLogEntry_wrap {s : LogState} {i : Int} (h1 : logLength s < i) (h2 : i ≤ 2 * logLength s) :
    getLogEntry s i = s.logEntries[(i - 1 - logLength s).toNat]? := by
  rw [getLogEntry, getLogNode_eq, if_neg (by omega), if_pos ⟨h1, h2⟩]
  rfl

theorem logCurrent_eq (s : LogState) :
    ((listIndex (logLength s) (-1)).bind fun pos => s.logEntries[pos]?) = s.logEntries.getLast? := by
  rw [listIndex_last]
  unfold logLength
  split
  · rw [List.getLast?_eq_getElem?]
    rfl
  · have : s.logEntries = [] := List.length_eq_zero_iff.mp (by omega)
    simp [this]

theorem logCurrentIndex_eq (s : LogState) :
    logCurrentIndex s = (s.list.getLast?.map (·.index)).getD 0 := by
  unfold logCurrentIndex LogState.list
  rw [logCurrent_eq, List.getLast?_map]
  cases s.logEntries.getLast? <;> rfl

theorem logCurrentTerm_eq (s : LogState) :
    logCurrentTerm s = (s.list.getLast?.map (·.term)).getD 0 := by
  unfold logCurrentTerm LogState.list
  rw [logCurrent_eq, List.getLast?_map]
  cases s.logEntries.getLast? <;> rfl

end Prez
