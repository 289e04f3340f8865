import Prez.Network

/-!
# `Prez.ShortWrite` — a log write that does not complete

`logWriteEntry` compares what `write()` returned with the length of the record, prints a line if they differ, and
goes on: the entry is appended to the list, `log_current_size` grows by the whole length, and the result is
`PREZ_OK`. Here the outcome of `write()` is an input. `failed_writes` says when a failed write leaves no trace and
when list and file still agree, and that neither `clusterProcessAppendEntries` nor `clusterProcessCommand` can tell
a failed write from a complete one: their results differ in the file only (`forget`).

With complete writes the functions are those of `Prez.Log.State` (`logWriteEntryWith_complete`).
-/

namespace Prez

open Lib

variable {n : Nat}

/-! ## Writing with an outcome -/

/-- The result of a call that writes: the log, whether it is `PREZ_OK`, and whether a `write()` of it returned
    something else than the length of its record. -/
structure LogWrite where
  log : LogState
  ok : Bool
  short : Bool

/-- The second half of `logWriteEntry`; `write()` returns the number of bytes written, or -1 for `none`. -/
def logAppendWith (s : LogState) (e : LogEntry) (nwritten : Option Nat) : LogWrite :=
  { log :=
      { logEntries := s.logEntries ++ [⟨e, s.logCurrentSize⟩]
        file := s.file ++ (logRecord e).take (nwritten.getD 0)
        logCurrentSize := s.logCurrentSize + (logRecord e).length }
    ok := true
    short := nwritten != some (logRecord e).length }

/-- `logWriteEntry(e)`. -/
def logWriteEntryWith (s : LogState) (e : LogEntry) (nwritten : Option Nat) : Option LogWrite :=
  match logWriteCheck s e with
  | .present => some ⟨s, true, false⟩
  | .conflict => (logTruncate s e.index).map fun s => logAppendWith s e nwritten
  | .absent => some (logAppendWith s e nwritten)

/-- The loop of `logAppendEntries(entries)`, with an outcome for each entry. -/
def logAppendEntriesWith (s : LogState) (nwritten : Nat → Option Nat) : List LogEntry → Option LogWrite
  | [] => some ⟨s, true, false⟩
  | e :: es =>
    (logWriteEntryWith s e (nwritten 0)).bind fun r =>
      if r.ok then
        (logAppendEntriesWith r.log (fun k => nwritten (k + 1)) es).map fun r' =>
          { r' with short := r.short || r'.short }
      else some r

/-- `clusterProcessAppendEntries(link, entries)`. -/
def clusterProcessAppendEntriesWith (s : ClusterState n) (entries : AppendEntries) (nwritten : Nat → Option Nat)
    (fsync : Bool) : Option (ClusterState n × ResponseAppendEntries) :=
  if entries.term < s.currentTerm then some (s, clusterSendResponseAppendEntries s false)
  else
    let s := followLeader s entries
    match logVerifyAppend s.log entries.prevLogIndex entries.prevLogTerm with
    | none => none
    | some false => some (s, clusterSendResponseAppendEntries s false)
    | some true =>
      match logAppendEntriesWith s.log nwritten entries.logEntries with
      | none => none
      | some r =>
        let s := { s with log := r.log }
        if r.ok ∧ fsync then
          let s := logCommitIndex s entries.leaderCommitIndex
          some (s, clusterSendResponseAppendEntries s true)
        else some (s, clusterSendResponseAppendEntries s false)

/-- `clusterProcessCommand(c)`; it does not look at the result of `logWriteEntry`. -/
def clusterProcessCommandWith (s : Server n) (id : Nat) (cmd : PrezCommand) (argv : List Bytes)
    (nwritten : Option Nat) : Option (Server n) := do
  let name ← commandName cmd
  let command ← commandField argv
  let entry : LogEntry := ⟨logCurrentIndex s.cluster.log + 1, s.cluster.currentTerm, name, command⟩
  let r ← logWriteEntryWith s.cluster.log entry nwritten
  let s := { s with cluster := { s.cluster with log := r.log } }
  if n = 1 then
    some { s with cluster := logCommitIndex s.cluster (logCurrentIndex s.cluster.log) }
  else some (addProcClient s entry.index id)

theorem logRecord_ne_nil (e : LogEntry) : logRecord e ≠ [] := by
  intro h
  have hlen := congrArg List.length h
  unfold logRecord catLogEntry logArgv at hlen
  simp only [List.foldl_cons, List.foldl_nil, List.length_append, List.length_cons, List.length_nil] at hlen
  omega

/-- A complete write is the write of `Prez.Log.State`. -/
theorem logAppendWith_complete (s : LogState) (e : LogEntry) :
    logAppendWith s e (some (logRecord e).length) = ⟨logAppend s e, true, false⟩ := by
  unfold logAppendWith logAppend
  rw [Option.getD_some, List.take_length, bne_self_eq_false]

theorem logWriteEntryWith_complete (s : LogState) (e : LogEntry) :
    logWriteEntryWith s e (some (logRecord e).length) = (logWriteEntry s e).map fun log => ⟨log, true, false⟩ := by
  unfold logWriteEntryWith logWriteEntry
  simp only [logAppendWith_complete]
  cases logWriteCheck s e with
  | present => rfl
  | absent => rfl
  | conflict =>
    dsimp only
    rw [Option.map_map]
    rfl

/-! ## What the file has no part in -/

/-- The log without its file. -/
def LogState.forget (s : LogState) : LogState := { s with file := [] }

def ClusterState.forget (x : ClusterState n) : ClusterState n := { x with log := x.log.forget }

def Server.forget (s : Server n) : Server n := { s with cluster := s.cluster.forget }

theorem logTruncate_forget (s : LogState) (index : Int) :
    (logTruncate s index).map LogState.forget = (logTruncate s.forget index).map LogState.forget := by
  unfold logTruncate
  show Option.map _ (if _ then _ else _) = Option.map _ (if toULong index < logLength s then _ else _)
  split
  · show Option.map _ ((getLogEntry s index).bind fun en => (getLogNode s index).bind fun pos => some _) =
      Option.map _ ((getLogEntry s index).bind fun en => (getLogNode s index).bind fun pos => some _)
    cases getLogEntry s index with
    | none => rfl
    | some en =>
      cases getLogNode s index with
      | none => rfl
      | some pos => rfl
  · rfl

/-- A write looks at the list and the size, whatever is on disk. -/
theorem logWriteEntry_forget {a b : LogState} (h : a.forget = b.forget) (e : LogEntry) :
    (logWriteEntry a e).map LogState.forget = (logWriteEntry b e).map LogState.forget := by
  have hone : ∀ s : LogState, (logWriteEntry s e).map LogState.forget =
      (logWriteEntry s.forget e).map LogState.forget := by
    intro s
    unfold logWriteEntry
    show Option.map _ (match logWriteCheck s e with | .present => _ | .conflict => _ | .absent => _) =
      Option.map _ (match logWriteCheck s e with | .present => _ | .conflict => _ | .absent => _)
    cases logWriteCheck s e with
    | present => rfl
    | absent => rfl
    | conflict =>
      have happend : LogState.forget ∘ (fun s => logAppend s e) =
          (fun s => (logAppend s e).forget) ∘ LogState.forget := rfl
      dsimp only
      rw [Option.map_map, Option.map_map, happend, ← Option.map_map, ← Option.map_map, logTruncate_forget]
  rw [hone a, hone b, h]

theorem logAppendEntries_forget (es : List LogEntry) : ∀ {a b : LogState}, a.forget = b.forget →
    (logAppendEntries a es).map LogState.forget = (logAppendEntries b es).map LogState.forget := by
  induction es with
  | nil =>
    intro a b h
    show some a.forget = some b.forget
    rw [h]
  | cons e es ih =>
    intro a b h
    have hwrite := logWriteEntry_forget h e
    show ((logWriteEntry a e).bind fun s => logAppendEntries s es).map _ =
      ((logWriteEntry b e).bind fun s => logAppendEntries s es).map _
    obtain ⟨a', ha'⟩ := logWriteEntry_isSome a e
    obtain ⟨b', hb'⟩ := logWriteEntry_isSome b e
    rw [ha', hb'] at hwrite ⊢
    exact ih (Option.some.inj hwrite)

/-- **A failed write is reported as a complete one**, and leaves the same list and size. -/
theorem logWriteEntryWith_forget (s : LogState) (e : LogEntry) (nwritten : Option Nat) :
    (logWriteEntryWith s e nwritten).map (fun r => (r.log.forget, r.ok)) =
      (logWriteEntry s e).map fun log => (log.forget, true) := by
  unfold logWriteEntryWith logWriteEntry
  cases logWriteCheck s e with
  | present => rfl
  | absent => rfl
  | conflict =>
    dsimp only
    rw [Option.map_map, Option.map_map]
    rfl

theorem logAppendEntriesWith_forget (es : List LogEntry) : ∀ (s : LogState) (nwritten : Nat → Option Nat),
    (logAppendEntriesWith s nwritten es).map (fun r => (r.log.forget, r.ok)) =
      (logAppendEntries s es).map fun log => (log.forget, true) := by
  induction es with
  | nil => exact fun _ _ => rfl
  | cons e es ih =>
    intro s nwritten
    obtain ⟨log, hlog⟩ := logWriteEntry_isSome s e
    have hwrite := logWriteEntryWith_forget s e (nwritten 0)
    rw [hlog] at hwrite
    obtain ⟨r, hr, hreq⟩ := Option.map_eq_some_iff.mp hwrite
    obtain ⟨hforget, hok⟩ := Prod.mk.inj hreq
    show ((logWriteEntryWith s e (nwritten 0)).bind _).map _ = ((logWriteEntry s e).bind _).map _
    rw [hr, hlog, Option.bind_some, Option.bind_some, if_pos hok, Option.map_map]
    have hrest := ih r.log fun k => nwritten (k + 1)
    have hsame := logAppendEntries_forget es hforget
    have hpair : ∀ a : Option LogState, (a.map fun log => (log.forget, true)) =
        (a.map LogState.forget).map fun log => (log, true) := by
      intro a
      rw [Option.map_map]
      rfl
    rw [hpair, hsame, ← hpair] at hrest
    exact hrest

/-! ## The handlers -/

theorem logCommitIndex_forget (x : ClusterState n) (index : Int) :
    (logCommitIndex x index).forget = logCommitIndex x.forget index := by
  unfold logCommitIndex
  show (if index > x.commitIndex then _ else _ : ClusterState n).forget = if index > x.commitIndex then _ else _
  split <;> rfl

/-- **Acknowledgement.** The answer to an append request, and the state behind it but for the file, are those of
    complete writes. -/
theorem clusterProcessAppendEntriesWith_forget (x : ClusterState n) (entries : AppendEntries)
    (nwritten : Nat → Option Nat) (fsync : Bool) :
    (clusterProcessAppendEntriesWith x entries nwritten fsync).map (fun r => (r.1.forget, r.2)) =
      (clusterProcessAppendEntries x entries fsync).map fun r => (r.1.forget, r.2) := by
  unfold clusterProcessAppendEntriesWith clusterProcessAppendEntries
  split
  · rfl
  dsimp only
  rcases logVerifyAppend (followLeader x entries).log entries.prevLogIndex entries.prevLogTerm with _ | _ | _
  · rfl
  · rfl
  dsimp only
  have hwrite := logAppendEntriesWith_forget entries.logEntries (followLeader x entries).log nwritten
  cases hlog : logAppendEntries (followLeader x entries).log entries.logEntries with
  | none =>
    rw [hlog] at hwrite
    rw [Option.map_eq_none_iff.mp hwrite]
  | some log =>
    rw [hlog] at hwrite
    obtain ⟨r, hr, hreq⟩ := Option.map_eq_some_iff.mp hwrite
    obtain ⟨hforget, hok⟩ := Prod.mk.inj hreq
    rw [hr]
    dsimp only
    -- the two states agree once the file is left out
    have hstate : ∀ x : ClusterState n, ({ x with log := r.log } : ClusterState n).forget =
        ({ x with log } : ClusterState n).forget := by
      intro x
      show { x with log := r.log.forget } = { x with log := log.forget }
      rw [hforget]
    have hresponse : ∀ {a b : ClusterState n} (ok : Bool), a.forget = b.forget →
        clusterSendResponseAppendEntries a ok = clusterSendResponseAppendEntries b ok := by
      intro a b ok hab
      show clusterSendResponseAppendEntries a.forget ok = clusterSendResponseAppendEntries b.forget ok
      rw [hab]
    by_cases hsync : fsync = true
    · rw [if_pos ⟨hok, hsync⟩, if_pos hsync]
      have hcommit : (logCommitIndex { followLeader x entries with log := r.log } entries.leaderCommitIndex).forget =
          (logCommitIndex { followLeader x entries with log } entries.leaderCommitIndex).forget := by
        rw [logCommitIndex_forget, logCommitIndex_forget, hstate]
      show some (_, _) = some (_, _)
      rw [hcommit, hresponse true hcommit]
    · rw [if_neg fun h => hsync h.2, if_neg hsync]
      show some (_, _) = some (_, _)
      rw [hstate, hresponse false (hstate (followLeader x entries))]

/-- **Commands.** A client's write is counted, and committed in a cluster of one, as if it were on disk. -/
theorem clusterProcessCommandWith_forget (s : Server n) (id : Nat) (cmd : PrezCommand) (argv : List Bytes)
    (nwritten : Option Nat) : (clusterProcessCommandWith s id cmd argv nwritten).map Server.forget =
      (clusterProcessCommand s id cmd argv).map Server.forget := by
  unfold clusterProcessCommandWith clusterProcessCommand
  cases commandName cmd with
  | none => rfl
  | some name =>
    cases commandField argv with
    | none => rfl
    | some command =>
      show ((logWriteEntryWith s.cluster.log _ nwritten).bind _).map _ =
        ((logWriteEntry s.cluster.log _).bind _).map _
      generalize (⟨logCurrentIndex s.cluster.log + 1, s.cluster.currentTerm, name, command⟩ : LogEntry) = entry
      have hwrite := logWriteEntryWith_forget s.cluster.log entry nwritten
      obtain ⟨log, hlog⟩ := logWriteEntry_isSome s.cluster.log entry
      rw [hlog] at hwrite
      obtain ⟨r, hr, hreq⟩ := Option.map_eq_some_iff.mp hwrite
      obtain ⟨hforget, -⟩ := Prod.mk.inj hreq
      rw [hr, hlog, Option.bind_some, Option.bind_some]
      have hstate : ({ s.cluster with log := r.log } : ClusterState n).forget =
          ({ s.cluster with log } : ClusterState n).forget := by
        show { s.cluster with log := r.log.forget } = { s.cluster with log := log.forget }
        rw [hforget]
      have hindex : logCurrentIndex r.log = logCurrentIndex log := by
        show logCurrentIndex r.log.forget = logCurrentIndex log.forget
        rw [hforget]
      by_cases hn : n = 1
      · rw [if_pos hn, if_pos hn]
        show some { s with cluster := (logCommitIndex { s.cluster with log := r.log } (logCurrentIndex r.log)).forget } =
          some { s with cluster := (logCommitIndex { s.cluster with log } (logCurrentIndex log)).forget }
        rw [logCommitIndex_forget, logCommitIndex_forget, hstate, hindex]
      · rw [if_neg hn, if_neg hn]
        unfold addProcClient
        show some (if s.procClients.lookup entry.index = none then _ else _ : Server n).forget =
          some (if s.procClients.lookup entry.index = none then _ else _ : Server n).forget
        split
        · show some { s with cluster := ClusterState.forget _, procClients := _ } =
            some { s with cluster := ClusterState.forget _, procClients := _ }
          rw [hstate]
        · show some { s with cluster := ClusterState.forget _ } = some { s with cluster := ClusterState.forget _ }
          rw [hstate]

/-! ## Failed writes -/

/-- If `write()` falls short, the call fails, and list and size are as they were, or as the truncation of a
    conflict left them. -/
def NoTrace (s : LogState) (e : LogEntry) (nwritten : Option Nat) : Prop :=
  ∀ r, logWriteEntryWith s e nwritten = some r → r.short = true →
    r.ok = false ∧ ∃ base, (base = s ∨ logTruncate s e.index = some base) ∧ r.log.forget = base.forget

/-- What a call that reaches `write()` does. -/
theorem logWriteEntryWith_cases {s : LogState} {e : LogEntry} {nwritten : Option Nat} {r : LogWrite}
    (h : logWriteEntryWith s e nwritten = some r) :
    logWriteCheck s e = .present ∧ r = ⟨s, true, false⟩ ∨
      logWriteCheck s e ≠ .present ∧ ∃ base, (base = s ∨ logTruncate s e.index = some base) ∧
        r = logAppendWith base e nwritten := by
  unfold logWriteEntryWith at h
  cases hcheck : logWriteCheck s e with
  | present =>
    rw [hcheck] at h
    cases h
    exact .inl ⟨rfl, rfl⟩
  | absent =>
    rw [hcheck] at h
    cases h
    exact .inr ⟨nofun, s, .inl rfl, rfl⟩
  | conflict =>
    rw [hcheck] at h
    obtain ⟨base, hbase, rfl⟩ := Option.map_eq_some_iff.mp h
    exact .inr ⟨nofun, base, .inr hbase, rfl⟩

theorem logWriteEntryWith_isSome (s : LogState) (e : LogEntry) (nwritten : Option Nat) :
    ∃ r, logWriteEntryWith s e nwritten = some r := by
  have hwrite := logWriteEntryWith_forget s e nwritten
  obtain ⟨log, hlog⟩ := logWriteEntry_isSome s e
  rw [hlog] at hwrite
  obtain ⟨r, hr, -⟩ := Option.map_eq_some_iff.mp hwrite
  exact ⟨r, hr⟩

theorem noTrace_iff (s : LogState) (e : LogEntry) (nwritten : Option Nat) :
    NoTrace s e nwritten ↔ logWriteCheck s e = .present ∨ nwritten = some (logRecord e).length := by
  constructor
  · intro h
    obtain ⟨r, hr⟩ := logWriteEntryWith_isSome s e nwritten
    rcases logWriteEntryWith_cases hr with ⟨hpresent, -⟩ | ⟨-, base, -, rfl⟩
    · exact .inl hpresent
    · -- the call has returned `PREZ_OK`
      by_contra hnot
      rw [not_or] at hnot
      have hshort : (logAppendWith base e nwritten).short = true := bne_iff_ne.mpr hnot.2
      exact nomatch (h _ hr hshort).1
  · rintro h r hr hshort
    rcases logWriteEntryWith_cases hr with ⟨-, rfl⟩ | ⟨hne, base, -, rfl⟩
    · cases hshort
    · exact absurd (h.resolve_left hne) (bne_iff_ne.mp hshort)

/-- List, size and file agree after a write exactly if it was complete. -/
theorem logWf_logAppendWith {s : LogState} (hwf : LogWf s) {e : LogEntry} {nwritten : Option Nat}
    (hle : ∀ k, nwritten = some k → k ≤ (logRecord e).length) :
    LogWf (logAppendWith s e nwritten).log ↔ nwritten = some (logRecord e).length := by
  constructor
  · intro h
    have hsize := h.size
    change s.logCurrentSize + (logRecord e).length = (s.file ++ (logRecord e).take (nwritten.getD 0)).length at hsize
    rw [hwf.size, List.length_append, List.length_take] at hsize
    cases nwritten with
    | none =>
      rw [Option.getD_none, Nat.zero_min] at hsize
      have := List.length_pos_iff_ne_nil.mpr (logRecord_ne_nil e)
      omega
    | some k =>
      rw [Option.getD_some] at hsize
      have := hle k rfl
      congr 1
      omega
  · rintro rfl
    rw [logAppendWith_complete]
    exact logAppend_wf hwf e

/-- **Failed log writes.** A write that fails leaves no trace exactly if it is not reached, because the entry is there
    already, or does not fail; and the list still describes the file exactly then. Neither the answer to an append
    request nor a client's command depends on it. -/
theorem failed_writes (s : LogState) (e : LogEntry) (nwritten : Option Nat)
    (hle : ∀ k, nwritten = some k → k ≤ (logRecord e).length) :
    (NoTrace s e nwritten ↔ logWriteCheck s e = .present ∨ nwritten = some (logRecord e).length) ∧
    (LogWf s → ∀ r, logWriteEntryWith s e nwritten = some r →
      (LogWf r.log ↔ logWriteCheck s e = .present ∨ nwritten = some (logRecord e).length)) ∧
    (∀ {n : Nat} (x : ClusterState n) (entries : AppendEntries) (outcomes : Nat → Option Nat) (fsync : Bool),
      (clusterProcessAppendEntriesWith x entries outcomes fsync).map (fun r => (r.1.forget, r.2)) =
        (clusterProcessAppendEntries x entries fsync).map fun r => (r.1.forget, r.2)) ∧
    (∀ {n : Nat} (server : Server n) (id : Nat) (cmd : PrezCommand) (argv : List Bytes),
      (clusterProcessCommandWith server id cmd argv nwritten).map Server.forget =
        (clusterProcessCommand server id cmd argv).map Server.forget) := by
  refine ⟨noTrace_iff s e nwritten, fun hwf r hr => ?_, clusterProcessAppendEntriesWith_forget,
    fun server id cmd argv => clusterProcessCommandWith_forget server id cmd argv nwritten⟩
  rcases logWriteEntryWith_cases hr with ⟨hpresent, rfl⟩ | ⟨hne, base, hbase, rfl⟩
  · exact iff_of_true hwf (.inl hpresent)
  · rw [or_iff_right hne]
    refine logWf_logAppendWith ?_ hle
    rcases hbase with rfl | hbase
    · exact hwf
    · exact logTruncate_wf hwf hbase

/-- The first entry of a log is written in full. -/
theorem failed_writes_complete : (logWriteEntryWith LogState.empty (setA 1 1) (some (logRecord (setA 1 1)).length)).isSome
    = true ∧ NoTrace LogState.empty (setA 1 1) (some (logRecord (setA 1 1)).length) :=
  ⟨by decide +kernel, (failed_writes _ _ _ fun _ hk => (Option.some.inj hk).ge).1.mpr (.inr rfl)⟩

/-- A request with one entry, to a follower without entries. -/
def firstEntry : AppendEntries := ⟨1, (threeServers.name 0).bytes, 0, 0, 0, [setA 1 1]⟩

/-- No byte of the first entry reaches the disk: the call succeeds, the entry is in the list and the size has grown;
    the follower acknowledges it, with an empty file. -/
theorem failed_write_acknowledged :
    (logWriteEntryWith LogState.empty (setA 1 1) none).map
        (fun r => (r.ok, r.log.list, r.log.logCurrentSize, r.log.file)) =
      some (true, [setA 1 1], (logRecord (setA 1 1)).length, []) ∧
    ¬ NoTrace LogState.empty (setA 1 1) none ∧
    (clusterProcessAppendEntriesWith (clusterInit (fun _ : Fin 3 => ⟨none, 0, 0⟩) LogState.empty) firstEntry
        (fun _ => none) true).map (fun r => (r.2.ok, r.1.log.list, r.1.log.file)) = some (true, [setA 1 1], []) := by
  refine ⟨by decide +kernel, fun h => ?_, by decide +kernel⟩
  rcases (noTrace_iff ..).mp h with hpresent | hfull
  · cases hpresent
  · cases hfull

end Prez
