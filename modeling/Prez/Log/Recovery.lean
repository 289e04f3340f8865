import Prez.Log.Load

/-!
# `Prez.Log.Recovery` — the file always describes the list

Three pieces of code have to agree on the layout of the log file: `logWriteEntry` (which adds up the
lengths of the buffers it writes), `logTruncate` (which cuts at a remembered offset) and `loadLogFile`
(which adds up the lengths of the lines it reads).

* `LogWf` — the file is the concatenation of the records of the list, every node sits at the offset of its
  record, and `log_current_size` is the size of the file. Every operation keeps it (`LogOp.run_wf`).
* `loadLogFile_records` — loading such a file gives the list back.
* `torn_log_file` — loading a file cut inside a record takes an error exit.
-/

namespace Prez

open Lib

/-! ## The layout invariant -/

/-- The records of a list of entries, one after the other. -/
def records (l : List LogEntry) : Bytes := (l.map logRecord).flatten

@[simp] theorem records_nil : records [] = [] := rfl

@[simp] theorem records_cons (e : LogEntry) (l : List LogEntry) :
    records (e :: l) = logRecord e ++ records l := rfl

@[simp] theorem records_append (l l' : List LogEntry) : records (l ++ l') = records l ++ records l' := by
  simp [records]

/-- The nodes of a list of entries whose first record starts at `offset`. -/
def layout : Nat → List LogEntry → List LogEntryNode
  | _, [] => []
  | offset, e :: l => ⟨e, offset⟩ :: layout (offset + (logRecord e).length) l

theorem layout_append (l l' : List LogEntry) :
    ∀ offset, layout offset (l ++ l') = layout offset l ++ layout (offset + (records l).length) l' := by
  induction l with
  | nil => intro offset; simp [layout]
  | cons e l ih => intro offset; simp [layout, ih, Nat.add_assoc]

theorem layout_take (l : List LogEntry) : ∀ offset k, (layout offset l).take k = layout offset (l.take k) := by
  induction l with
  | nil => intro offset k; simp [layout]
  | cons e l ih =>
    intro offset k
    cases k with
    | zero => simp [layout]
    | succ k => simp [layout, ih]

theorem layout_logEntry (l : List LogEntry) : ∀ offset, (layout offset l).map (·.logEntry) = l := by
  induction l with
  | nil => intro offset; rfl
  | cons e l ih => intro offset; simp [layout, ih]

/-- A node of the layout sits behind the records of the entries before it. -/
theorem layout_position (l : List LogEntry) :
    ∀ {offset k : Nat} {en : LogEntryNode}, (layout offset l)[k]? = some en →
      en.position = offset + (records (l.take k)).length := by
  induction l with
  | nil => intro offset k en h; simp [layout] at h
  | cons e l ih =>
    intro offset k en h
    cases k with
    | zero =>
      simp only [layout, List.getElem?_cons_zero, Option.some.injEq] at h
      subst h
      simp
    | succ k =>
      simp only [layout, List.getElem?_cons_succ] at h
      rw [ih h, List.take_succ_cons, records_cons, List.length_append]
      omega

/-- **The layout invariant**: list, file and byte accounting describe the same entries. -/
structure LogWf (s : LogState) : Prop where
  nodes : s.logEntries = layout 0 s.list
  file : s.file = records s.list
  size : s.logCurrentSize = s.file.length

theorem logWf_empty : LogWf LogState.empty := ⟨rfl, rfl, rfl⟩

@[simp] theorem list_logAppend (s : LogState) (e : LogEntry) : (logAppend s e).list = s.list ++ [e] := by
  simp [LogState.list, logAppend]

theorem logAppend_wf {s : LogState} (h : LogWf s) (e : LogEntry) : LogWf (logAppend s e) where
  nodes := by
    rw [list_logAppend, layout_append, ← h.nodes, Nat.zero_add, ← h.file, ← h.size]
    rfl
  file := by
    rw [list_logAppend, records_append, ← h.file]
    simp [logAppend]
  size := by
    simp [logAppend, h.size]

variable {e : LogEntry} {s s' : LogState} {index : Int}

/-- A truncation that finds its entry keeps the entries before it. -/
theorem logTruncate_cases (h : logTruncate s index = some s') :
    s' = s ∨ ∃ pos en, getLogNode s index = some pos ∧ s.logEntries[pos]? = some en ∧
      s' = ⟨s.logEntries.take pos, ftruncate s.file en.position, en.position⟩ := by
  unfold logTruncate at h
  split at h
  · obtain ⟨en, hen, h⟩ := Option.bind_eq_some_iff.mp h
    obtain ⟨pos, hpos, h⟩ := Option.bind_eq_some_iff.mp h
    rw [getLogEntry, hpos] at hen
    exact .inr ⟨pos, en, hpos, hen, (Option.some.inj h).symm⟩
  · exact .inl (Option.some.inj h).symm

theorem logTruncate_wf (hwf : LogWf s) (h : logTruncate s index = some s') : LogWf s' := by
  rcases logTruncate_cases h with rfl | ⟨pos, en, _, hen, rfl⟩
  · exact hwf
  have hlist : LogState.list ⟨s.logEntries.take pos, ftruncate s.file en.position, en.position⟩
      = s.list.take pos := by simp [LogState.list, List.map_take]
  have hpos : en.position = (records (s.list.take pos)).length := by
    rw [hwf.nodes] at hen
    rw [layout_position _ hen]
    omega
  -- the offset falls on a record boundary, so cutting the file drops whole records
  have hsplit : s.file = records (s.list.take pos) ++ records (s.list.drop pos) := by
    rw [hwf.file, ← records_append, List.take_append_drop]
  have hcut : ftruncate s.file en.position = records (s.list.take pos) := by
    rw [ftruncate, hsplit, hpos, List.take_left]
    simp
  refine ⟨?_, ?_, ?_⟩
  · rw [hlist, ← layout_take, ← hwf.nodes]
  · rw [hlist]; exact hcut
  · show en.position = (ftruncate s.file en.position).length
    rw [hcut, hpos]

/-- The lookup and the truncation of a conflicting write agree, so the truncation never misses. -/
theorem logTruncate_isSome {s : LogState} {en : LogEntryNode} (h : getLogEntry s index = some en) :
    ∃ s', logTruncate s index = some s' := by
  unfold logTruncate
  split
  · obtain ⟨pos, hpos, _⟩ := Option.bind_eq_some_iff.mp h
    simp only [h, hpos, Option.bind_eq_bind, Option.bind_some]
    exact ⟨_, rfl⟩
  · exact ⟨s, rfl⟩

theorem logWriteCheck_conflict {s : LogState} (h : logWriteCheck s e = .conflict) :
    ∃ en, getLogEntry s e.index = some en ∧ en.logEntry.index = e.index ∧ en.logEntry.term ≠ e.term := by
  unfold logWriteCheck at h
  split at h
  · split at h
    · rename_i en hen
      split at h
      · cases h
      · split at h
        · rename_i hc; exact ⟨en, hen, hc.2.symm, fun ht => hc.1 ht.symm⟩
        · cases h
    · cases h
  · cases h

/-- `logWriteEntry` never dereferences a missing node. -/
theorem logWriteEntry_isSome (s : LogState) (e : LogEntry) : ∃ s', logWriteEntry s e = some s' := by
  unfold logWriteEntry
  cases hc : logWriteCheck s e with
  | present => exact ⟨_, rfl⟩
  | absent => exact ⟨_, rfl⟩
  | conflict =>
    obtain ⟨en, hen, _⟩ := logWriteCheck_conflict hc
    obtain ⟨s', hs'⟩ := logTruncate_isSome hen
    exact ⟨logAppend s' e, by simp [hs']⟩

/-- A truncation adds no entries. -/
theorem logTruncate_mem (h : logTruncate s index = some s') {x : LogEntry} (hx : x ∈ s'.list) : x ∈ s.list := by
  rcases logTruncate_cases h with rfl | ⟨pos, en, _, _, rfl⟩
  · exact hx
  · simp only [LogState.list, List.map_take] at hx
    exact List.mem_of_mem_take hx

/-- A write adds its own entry only. -/
theorem logWriteEntry_mem (h : logWriteEntry s e = some s') {x : LogEntry} (hx : x ∈ s'.list) :
    x ∈ s.list ∨ x = e := by
  unfold logWriteEntry at h
  cases hc : logWriteCheck s e with
  | present =>
    rw [hc] at h
    cases h
    exact .inl hx
  | absent =>
    rw [hc] at h
    cases h
    rwa [list_logAppend, List.mem_append, List.mem_singleton] at hx
  | conflict =>
    rw [hc] at h
    obtain ⟨s₁, hs₁, rfl⟩ := Option.map_eq_some_iff.mp h
    rw [list_logAppend, List.mem_append, List.mem_singleton] at hx
    exact hx.imp_left (logTruncate_mem hs₁)

theorem logWriteEntry_wf (hwf : LogWf s) (h : logWriteEntry s e = some s') : LogWf s' := by
  unfold logWriteEntry at h
  cases hc : logWriteCheck s e with
  | present =>
    rw [hc] at h
    cases h
    exact hwf
  | absent =>
    rw [hc] at h
    cases h
    exact logAppend_wf hwf e
  | conflict =>
    rw [hc] at h
    obtain ⟨s₁, hs₁, rfl⟩ := Option.map_eq_some_iff.mp h
    exact logAppend_wf (logTruncate_wf hwf hs₁) e

theorem logAppendEntries_wf (entries : List LogEntry) : ∀ {s s' : LogState}, LogWf s →
    logAppendEntries s entries = some s' → LogWf s' := by
  induction entries with
  | nil =>
    intro s s' hwf h
    cases h
    exact hwf
  | cons e es ih =>
    intro s s' hwf h
    obtain ⟨s₁, hs₁, h⟩ := Option.bind_eq_some_iff.mp h
    exact ih (logWriteEntry_wf hwf hs₁) h

/-! ## Loading what was written -/

/-- An entry as `loadLogFile` rebuilds it. -/
def LogEntry.loaded (e : LogEntry) : LoadedEntry := ⟨e.index, e.term, e.commandName.bytes, e.command.bytes⟩

/-- A node as `loadLogFile` rebuilds it. -/
def LogEntryNode.loaded (en : LogEntryNode) : LoadedNode := ⟨en.logEntry.loaded, en.position⟩

/-- Both integers of the entry are values of type `long long`. -/
def LogEntry.InRange (e : LogEntry) : Prop := LongLong e.index ∧ LongLong e.term
deriving Decidable

theorem fieldText_bytes (f : CStr 40) : fieldText f.bytes = f.bytes := by
  rw [fieldText, List.take_of_length_le (Nat.le_of_lt f.fits), cstr_eq_self f.nulFree]

theorem loadFields_record (he : e.InRange) (m : LoadedEntry) (rest : Bytes) :
    loadFields 4 0 (bulk (llText e.index) ++ (bulk (llText e.term) ++ (bulk e.commandName.bytes ++
      (bulk e.command.bytes ++ rest)))) m countLine.length = .ok (e.loaded, (logRecord e).length, rest) := by
  have hi := llText_length he.1
  have ht := llText_length he.2
  have hn := e.commandName.fits
  have hc := e.command.fits
  -- the four arguments in order; what the entry still has from memory is overwritten one by one
  rw [loadFields_bulk ⟨e.index, m.term, m.commandName, m.command⟩ (by omega)
      (by simp [loadField, string2ll_llText he.1]),
    loadFields_bulk ⟨e.index, e.term, m.commandName, m.command⟩ (by omega)
      (by simp [loadField, string2ll_llText he.2]),
    loadFields_bulk ⟨e.index, e.term, e.commandName.bytes, m.command⟩ (by omega) (by simp [loadField, fieldText_bytes]),
    loadFields_bulk e.loaded (by omega) (by simp [loadField, fieldText_bytes, LogEntry.loaded]),
    loadFields, logRecord_eq he.1 he.2]
  simp only [List.length_append]
  congr 3
  omega

/-- The record loop behind a count line: four arguments follow. -/
theorem loadRecords_countLine (mem : Nat → LoadedEntry) (fuel size : Nat) (inp : Bytes) (nodes : List LoadedNode) :
    loadRecords mem (fuel + 1) (countLine ++ inp) size nodes =
      match loadFields 4 0 inp (mem nodes.length) countLine.length with
      | .error err => .error err
      | .ok (entry, loglen, inp) => loadRecords mem fuel inp (size + loglen) (nodes ++ [⟨entry, size⟩]) := by
  have hline : fgets 128 (countLine ++ inp) = some (countLine, inp) :=
    fgets_line (l := [42, 52, 13]) (by decide) (by decide)
  have hhead : ¬countLine.head? ≠ some 42 := by decide
  have hargc : atoi countLine.tail = 4 := by decide
  have hlen : (cstr countLine).length = countLine.length := by decide
  rw [loadRecords, hline]
  dsimp only
  rw [if_neg hhead, hargc, if_neg (by decide), hlen]
  rfl

/-- One turn of the record loop on a complete record. -/
theorem loadRecords_record (he : e.InRange) (mem : Nat → LoadedEntry) (fuel size : Nat) (rest : Bytes)
    (nodes : List LoadedNode) :
    loadRecords mem (fuel + 1) (logRecord e ++ rest) size nodes
      = loadRecords mem fuel rest (size + (logRecord e).length) (nodes ++ [⟨e.loaded, size⟩]) := by
  have hfields := loadFields_record he (mem nodes.length) rest
  rw [logRecord_eq he.1 he.2] at hfields ⊢
  simp only [List.append_assoc]
  rw [loadRecords_countLine, hfields]

/-- A run of the record loop over complete records, whatever follows them. -/
theorem loadRecords_records (mem : Nat → LoadedEntry) (rest : Bytes) (l : List LogEntry) :
    (∀ e ∈ l, e.InRange) → ∀ (fuel size : Nat) (nodes : List LoadedNode),
      loadRecords mem (fuel + l.length) (records l ++ rest) size nodes
        = loadRecords mem fuel rest (size + (records l).length)
            (nodes ++ (layout size l).map LogEntryNode.loaded) := by
  induction l with
  | nil => intro _ fuel size nodes; simp [layout]
  | cons e l ih =>
    intro hl fuel size nodes
    have he : e.InRange := hl e List.mem_cons_self
    have hl' : ∀ e ∈ l, e.InRange := fun x hx => hl x (List.mem_cons_of_mem _ hx)
    rw [List.length_cons, ← Nat.add_assoc, records_cons, List.append_assoc,
      loadRecords_record he, ih hl', List.length_append, List.append_assoc, Nat.add_assoc]
    rfl

theorem length_le_records (l : List LogEntry) (hl : ∀ e ∈ l, e.InRange) : l.length ≤ (records l).length := by
  induction l with
  | nil => simp
  | cons e l ih =>
    have he : e.InRange := hl e List.mem_cons_self
    have := ih (fun x hx => hl x (List.mem_cons_of_mem _ hx))
    have hr : 4 ≤ (logRecord e).length := by
      rw [logRecord_eq he.1 he.2]
      simp [countLine]
    rw [records_cons, List.length_cons, List.length_append]
    omega

/-- **Loading a file of complete records** gives their entries, in order and at their offsets. -/
theorem loadLogFile_records (mem : Nat → LoadedEntry) {l : List LogEntry} (hl : ∀ e ∈ l, e.InRange) :
    loadLogFile mem (records l) = .ok ((layout 0 l).map LogEntryNode.loaded, (records l).length) := by
  unfold loadLogFile
  split
  · rename_i h0
    have hlen := length_le_records l hl
    rw [h0] at hlen ⊢
    have : l = [] := List.length_eq_zero_iff.mp (Nat.le_zero.mp hlen)
    subst this
    rfl
  · -- every record takes at least one byte, so the fuel lasts for all of them and one more turn
    have hlen := length_le_records l hl
    obtain ⟨k, hk⟩ : ∃ k, (records l).length + 1 = (k + 1) + l.length :=
      ⟨(records l).length - l.length, by omega⟩
    have := loadRecords_records mem [] l hl (k + 1) 0 []
    rw [List.append_nil] at this
    rw [hk, this]
    simp [loadRecords, fgets]

/-- The list of a loaded file, when its fields are terminated. -/
def LoadedNode.toNode? (en : LoadedNode) : Option LogEntryNode := do
  let name ← CStr.ofBytes? 40 en.logEntry.commandName
  let command ← CStr.ofBytes? 40 en.logEntry.command
  some ⟨⟨en.logEntry.index, en.logEntry.term, name, command⟩, en.position⟩

/-- The log of a server that starts on the given file; `none` is the error exit. -/
def reloadLog (mem : Nat → LoadedEntry) (file : Bytes) : Option LogState :=
  match loadLogFile mem file with
  | .ok (nodes, size) => (nodes.mapM LoadedNode.toNode?).map fun nodes => ⟨nodes, file, size⟩
  | .error _ => none

theorem LogEntryNode.toNode?_loaded (en : LogEntryNode) : en.loaded.toNode? = some en := by
  have h1 : CStr.ofBytes? 40 en.logEntry.commandName.bytes = some en.logEntry.commandName :=
    CStr.ofBytes?_eq_some.mpr rfl
  have h2 : CStr.ofBytes? 40 en.logEntry.command.bytes = some en.logEntry.command :=
    CStr.ofBytes?_eq_some.mpr rfl
  simp [LoadedNode.toNode?, LogEntryNode.loaded, LogEntry.loaded, h1, h2]

theorem mapM_toNode?_loaded (l : List LogEntryNode) :
    (l.map LogEntryNode.loaded).mapM LoadedNode.toNode? = some l := by
  induction l with
  | nil => rfl
  | cons en l ih =>
    rw [List.map_cons, List.mapM_cons, LogEntryNode.toNode?_loaded, ih]
    rfl

/-- **A log in good order survives a restart.** -/
theorem reloadLog_eq (mem : Nat → LoadedEntry) {s : LogState} (hwf : LogWf s)
    (hr : ∀ e ∈ s.list, e.InRange) : reloadLog mem s.file = some s := by
  have hload := loadLogFile_records mem hr
  rw [← hwf.file, ← hwf.nodes, ← hwf.size] at hload
  rw [reloadLog, hload]
  simp only [mapM_toNode?_loaded, Option.map_some]

/-! ## Torn files -/

/-- The argument loop on a record cut anywhere behind its count line. -/
theorem loadFields_torn_record (he : e.InRange) (m : LoadedEntry) (loglen : Nat) {t : Bytes}
    (ht : t <+: bulk (llText e.index) ++ (bulk (llText e.term) ++ (bulk e.commandName.bytes ++
      bulk e.command.bytes)))
    (hne : t ≠ bulk (llText e.index) ++ (bulk (llText e.term) ++ (bulk e.commandName.bytes ++
      bulk e.command.bytes))) : ∃ err, loadFields 4 0 t m loglen = .error err := by
  have hi := llText_length he.1
  have ht' := llText_length he.2
  have hn := e.commandName.fits
  have hc := e.command.fits
  -- each complete argument is consumed, the torn one is the error
  rcases prefix_append_cases ht with ⟨h, h'⟩ | ⟨t₁, rfl, ht₁⟩
  · exact loadFields_torn (by omega) h h'
  rw [loadFields_bulk ⟨e.index, m.term, m.commandName, m.command⟩ (by omega)
      (by simp [loadField, string2ll_llText he.1])]
  rcases prefix_append_cases ht₁ with ⟨h, h'⟩ | ⟨t₂, rfl, ht₂⟩
  · exact loadFields_torn (by omega) h h'
  rw [loadFields_bulk ⟨e.index, e.term, m.commandName, m.command⟩ (by omega)
      (by simp [loadField, string2ll_llText he.2])]
  rcases prefix_append_cases ht₂ with ⟨h, h'⟩ | ⟨t₃, rfl, ht₃⟩
  · exact loadFields_torn (by omega) h h'
  rw [loadFields_bulk ⟨e.index, e.term, e.commandName.bytes, m.command⟩ (by omega) (by simp [loadField, fieldText_bytes])]
  exact loadFields_torn (by omega) ht₃ (fun heq => hne (by rw [heq]))

/-- The record loop on a torn record. -/
theorem loadRecords_torn (he : e.InRange) (mem : Nat → LoadedEntry) (fuel size : Nat) (nodes : List LoadedNode)
    {t : Bytes} (ht : t <+: logRecord e) (hne : t ≠ logRecord e) (h0 : t ≠ []) :
    ∃ err, loadRecords mem (fuel + 1) t size nodes = .error err := by
  rw [logRecord_eq he.1 he.2] at ht hne
  rcases prefix_append_cases ht with ⟨h, h'⟩ | ⟨t', rfl, ht'⟩
  · -- cut inside the count line: `*`, `*4` or `*4\r`
    have hlt := length_lt_of_prefix h h'
    have hcases : t = [42] ∨ t = [42, 52] ∨ t = [42, 52, 13] := by
      rw [List.prefix_iff_eq_take] at h
      have hlen : t.length ≠ 0 := fun h1 => h0 (List.length_eq_zero_iff.mp h1)
      have hl : t.length = 1 ∨ t.length = 2 ∨ t.length = 3 := by
        simp only [countLine, List.length_cons, List.length_nil] at hlt
        omega
      rcases hl with hl | hl | hl <;> rw [hl] at h <;> simp [countLine] at h <;> simp [h]
    rcases hcases with rfl | rfl | rfl
    · exact ⟨.fmterr, rfl⟩
    · exact ⟨.readerr, rfl⟩
    · exact ⟨.readerr, rfl⟩
  · -- cut behind it
    obtain ⟨err, herr⟩ := loadFields_torn_record he (mem nodes.length) countLine.length ht'
      (fun heq => hne (by rw [heq]))
    rw [loadRecords_countLine, herr]
    exact ⟨err, rfl⟩

/-- Where a prefix of a sequence of records ends: on a boundary, or inside one record. -/
theorem records_prefix_cases (l : List LogEntry) : ∀ {t : Bytes}, t <+: records l →
    (∃ m, t = records (l.take m)) ∨
    ∃ m e u, l[m]? = some e ∧ t = records (l.take m) ++ u ∧ u <+: logRecord e ∧ u ≠ logRecord e ∧ u ≠ [] := by
  induction l with
  | nil =>
    intro t ht
    exact .inl ⟨0, by simpa using ht⟩
  | cons e l ih =>
    intro t ht
    rw [records_cons] at ht
    rcases prefix_append_cases ht with ⟨h, h'⟩ | ⟨t', rfl, ht'⟩
    · by_cases h0 : t = []
      · exact .inl ⟨0, by simp [h0]⟩
      · exact .inr ⟨0, e, t, rfl, by simp, h, h', h0⟩
    · rcases ih ht' with ⟨m, rfl⟩ | ⟨m, x, u, hx, rfl, h1, h2, h3⟩
      · exact .inl ⟨m + 1, by simp⟩
      · exact .inr ⟨m + 1, x, u, hx, by simp, h1, h2, h3⟩

/-- A file cut inside a record is never loaded. -/
theorem loadLogFile_cut (mem : Nat → LoadedEntry) {l : List LogEntry} (hl : ∀ e ∈ l, e.InRange) {m : Nat} {u : Bytes}
    (hm : l[m]? = some e) (hu : u <+: logRecord e) (hne : u ≠ logRecord e) (h0 : u ≠ []) :
    ∃ err, loadLogFile mem (records (l.take m) ++ u) = .error err := by
  have hl' : ∀ x ∈ l.take m, x.InRange := fun x hx => hl x (List.mem_of_mem_take hx)
  have he : e.InRange := hl e (List.mem_of_getElem? hm)
  have hlen := length_le_records _ hl'
  obtain ⟨k, hk⟩ : ∃ k, (records (l.take m) ++ u).length + 1 = (k + 1) + (l.take m).length :=
    ⟨(records (l.take m) ++ u).length - (l.take m).length, by rw [List.length_append]; omega⟩
  have hne0 : records (l.take m) ++ u ≠ [] := fun h => h0 (List.append_eq_nil_iff.mp h).2
  rw [loadLogFile, if_neg hne0, hk, loadRecords_records mem u _ hl']
  exact loadRecords_torn he mem k _ _ hu hne h0

/-! ## Main results -/

/-- The calls that change the log. -/
inductive LogOp where
  | write (e : LogEntry)
  | truncate (index : Int)

/-- One call. -/
def LogOp.run (s : LogState) : LogOp → Option LogState
  | .write e => logWriteEntry s e
  | .truncate index => logTruncate s index

/-- The arguments are values of their C types, and a truncation names an index of the log's numbering. -/
def LogOp.Legal : LogOp → Prop
  | .write e => e.InRange
  | .truncate index => 1 ≤ index ∧ LongLong index

instance : (op : LogOp) → Decidable op.Legal
  | .write e => inferInstanceAs (Decidable e.InRange)
  | .truncate _ => inferInstanceAs (Decidable (_ ∧ _))

/-- What a call preserves: the layout, and that every entry of the list is in range. -/
theorem LogOp.run_wf {s : LogState} {op : LogOp} (hop : op.Legal) (hwf : LogWf s)
    (hr : ∀ e ∈ s.list, e.InRange) :
    ∃ s', op.run s = some s' ∧ LogWf s' ∧ ∀ e ∈ s'.list, e.InRange := by
  cases op with
  | write e =>
    obtain ⟨s', hs'⟩ := logWriteEntry_isSome s e
    refine ⟨s', hs', logWriteEntry_wf hwf hs', fun x hx => ?_⟩
    rcases logWriteEntry_mem hs' hx with hx | rfl
    · exact hr x hx
    · exact hop
  | truncate index =>
    obtain ⟨s', hs'⟩ : ∃ s', logTruncate s index = some s' := by
      by_cases hin : index ≤ logLength s
      · have hlook := getLogEntry_in hop.1 hin
        rw [List.getElem?_eq_getElem (show (index - 1).toNat < s.logEntries.length by
          have := hop.1; unfold logLength at hin; omega)] at hlook
        exact logTruncate_isSome hlook
      · -- an index behind the end is left alone
        have := hop.1
        exact ⟨s, by rw [logTruncate, toULong, if_neg (by omega)]⟩
    exact ⟨s', hs', logTruncate_wf hwf hs', fun x hx => hr x (logTruncate_mem hs' hx)⟩

/-- A whole sequence of calls. -/
theorem LogOp.runs_wf (ops : List LogOp) : ∀ {s : LogState}, (∀ op ∈ ops, op.Legal) → LogWf s →
    (∀ e ∈ s.list, e.InRange) →
    ∃ s', ops.foldlM LogOp.run s = some s' ∧ LogWf s' ∧ ∀ e ∈ s'.list, e.InRange := by
  induction ops with
  | nil => intro s _ hwf hr; exact ⟨s, rfl, hwf, hr⟩
  | cons op ops ih =>
    intro s hops hwf hr
    obtain ⟨s₁, h₁, hwf₁, hr₁⟩ := LogOp.run_wf (hops op List.mem_cons_self) hwf hr
    obtain ⟨s', h', hwf', hr'⟩ := ih (fun x hx => hops x (List.mem_cons_of_mem _ hx)) hwf₁ hr₁
    exact ⟨s', by rw [List.foldlM_cons, h₁]; exact h', hwf', hr'⟩

/-- **Crash recovery of the log.** After any sequence of writes and truncations from the empty log, the
    file is the concatenation of the records of the list, every node's position is the offset of its
    record, `log_current_size` is the size of the file, and loading the file rebuilds list and size. -/
theorem log_crash_recovery (mem : Nat → LoadedEntry) (ops : List LogOp) (hops : ∀ op ∈ ops, op.Legal) :
    ∃ s, ops.foldlM LogOp.run LogState.empty = some s ∧
      s.file = (s.logEntries.map fun en => logRecord en.logEntry).flatten ∧
      (∀ k en, s.logEntries[k]? = some en →
        en.position = ((s.logEntries.take k).map fun en => logRecord en.logEntry).flatten.length) ∧
      s.logCurrentSize = s.file.length ∧
      loadLogFile mem s.file = .ok (s.logEntries.map LogEntryNode.loaded, s.logCurrentSize) := by
  obtain ⟨s, hrun, hwf, hr⟩ := LogOp.runs_wf ops hops logWf_empty (by simp [LogState.empty, LogState.list])
  have hrec : ∀ l : List LogEntryNode,
      (l.map fun en => logRecord en.logEntry).flatten = records (l.map (·.logEntry)) := by
    intro l; simp [records, Function.comp_def]
  refine ⟨s, hrun, ?_, ?_, hwf.size, ?_⟩
  · rw [hrec]; exact hwf.file
  · intro k en hen
    rw [hrec, List.map_take]
    rw [hwf.nodes] at hen
    rw [layout_position _ hen, Nat.zero_add]
    rfl
  · rw [hwf.size, hwf.file, loadLogFile_records mem hr, ← hwf.nodes]

/-- `set a 1`, as a leader writes it, at the given index and term. -/
def setA (index term : Int) : LogEntry :=
  ⟨index, term, ⟨[115, 101, 116], by decide, by decide⟩, ⟨[115, 101, 116, 32, 97, 32, 49, 10], by decide, by decide⟩⟩

/-- Two writes, a write over the first of them, and a truncation. -/
def overwriteOps : List LogOp :=
  [.write (setA 1 1), .write (setA 2 1), .write (setA 1 2), .truncate 1]

theorem log_crash_recovery_overwrite : (∀ op ∈ overwriteOps, op.Legal) ∧
    ∃ s, overwriteOps.foldlM LogOp.run LogState.empty = some s ∧
      loadLogFile (fun _ => ⟨0, 0, [], []⟩) s.file
        = .ok (s.logEntries.map LogEntryNode.loaded, s.logCurrentSize) := by
  have hlegal : ∀ op ∈ overwriteOps, op.Legal := by decide
  obtain ⟨s, hrun, -, -, -, hload⟩ := log_crash_recovery (fun _ => ⟨0, 0, [], []⟩) overwriteOps hlegal
  exact ⟨hlegal, s, hrun, hload⟩

/-- **Torn log files.** A prefix of a log file that ends on a record boundary is loaded as exactly its
    records; one that ends anywhere else takes an error exit. -/
theorem torn_log_file (mem : Nat → LoadedEntry) (l : List LogEntry) (hl : ∀ e ∈ l, e.InRange)
    (t : Bytes) (ht : t <+: (l.map logRecord).flatten) :
    (∀ m, t = ((l.take m).map logRecord).flatten →
      ∃ nodes, loadLogFile mem t = .ok (nodes, t.length) ∧
        nodes.map (·.logEntry) = (l.take m).map LogEntry.loaded) ∧
    ((∀ m, t ≠ ((l.take m).map logRecord).flatten) → ∃ err, loadLogFile mem t = .error err) := by
  constructor
  · rintro m rfl
    have hl' : ∀ x ∈ l.take m, x.InRange := fun x hx => hl x (List.mem_of_mem_take hx)
    refine ⟨_, loadLogFile_records mem hl', ?_⟩
    conv_rhs => rw [← layout_logEntry (l.take m) 0]
    simp [LogEntryNode.loaded, Function.comp_def]
  · intro hcut
    rcases records_prefix_cases l ht with ⟨m, hm⟩ | ⟨m, e, u, hm, rfl, hu, hne, h0⟩
    · exact absurd hm (hcut m)
    · exact loadLogFile_cut mem hl hm hu hne h0

/-- A file of two records. Cut behind the first it loads as that record; cut 20 bytes further, inside the second, it
    does not load. -/
theorem torn_log_file_two : (∀ e ∈ [setA 1 1, setA 2 1], e.InRange) ∧
    (∃ nodes, loadLogFile (fun _ => ⟨0, 0, [], []⟩) (logRecord (setA 1 1)) = .ok (nodes, 41) ∧
      nodes.map (·.logEntry) = [(setA 1 1).loaded]) ∧
    ∃ err, loadLogFile (fun _ => ⟨0, 0, [], []⟩) (logRecord (setA 1 1) ++ (logRecord (setA 2 1)).take 20) =
      .error err := by
  have hrange : ∀ e ∈ [setA 1 1, setA 2 1], e.InRange := by decide
  have hfirst : (logRecord (setA 1 1)).length = 41 := by decide +kernel
  have hsecond : (logRecord (setA 2 1)).length = 41 := by decide +kernel
  have hfile : ([setA 1 1, setA 2 1].map logRecord).flatten = logRecord (setA 1 1) ++ logRecord (setA 2 1) := by simp
  have hcut : (logRecord (setA 1 1) ++ (logRecord (setA 2 1)).take 20).length = 61 := by
    rw [List.length_append, List.length_take, hfirst, hsecond]
    rfl
  refine ⟨hrange, ?_, ?_⟩
  · have hload := (torn_log_file (fun _ => ⟨0, 0, [], []⟩) _ hrange (logRecord (setA 1 1)) ⟨_, hfile.symm⟩).1 1 (by simp)
    rwa [hfirst] at hload
  · refine (torn_log_file (fun _ => ⟨0, 0, [], []⟩) _ hrange _ ?_).2 fun m hm => ?_
    · rw [hfile, List.prefix_append_right_inj]
      exact List.take_prefix ..
    · -- the boundaries are at 0, 41 and 82 bytes
      have hlen := congrArg List.length hm
      rw [hcut] at hlen
      match m with
      | 0 => simp at hlen
      | 1 => simp [hfirst] at hlen
      | m + 2 => simp [hfirst, hsecond] at hlen

end Prez
