import Prez.Cluster.State
import Mathlib.Data.List.Sort

/-!
# `Prez.Cluster.Protocol` — the message handlers and the timer

`cluster.c`, function by function: the four message handlers, the functions that build messages, and the
phases of `clusterCron` behind the apply loop. Clocks and links are inputs (`CronInput`), `fsync` is an input
of the handler that calls it, and a handler that dereferences a missing log entry has no result.
-/

namespace Prez

open Lib

variable {n : Nat}

/-! ## Votes -/

/-- What every handler does with a higher term, the leader's name apart. -/
def ClusterState.enterTerm (s : ClusterState n) (term : Int) : ClusterState n :=
  { s with state := .follower, currentTerm := term, leader := [], votedFor := [] }

/-- `clusterSendResponseVote(link, vote_granted)`. -/
def clusterSendResponseVote (s : ClusterState n) (voteGranted : Bool) : ResponseVote :=
  ⟨s.currentTerm, voteGranted⟩

/-- The part of `clusterProcessRequestVote` behind the term tests. -/
def voteOnLog (s : ClusterState n) (vote : RequestVote) : ClusterState n × ResponseVote :=
  -- index and term are compared one by one: a longer log of an older term is enough to deny the vote
  if logCurrentIndex s.log > vote.lastLogIndex ∨ logCurrentTerm s.log > vote.lastLogTerm then
    (s, clusterSendResponseVote s false)
  else
    let s := { s with votedFor := vote.candidateid }
    (s, clusterSendResponseVote s true)

/-- Index and term of the last entry are compared one by one, not in the order of terms first. -/
theorem voteOnLog_granted (x : ClusterState n) (vote : RequestVote) :
    (voteOnLog x vote).2.voteGranted = true ↔
      logCurrentIndex x.log ≤ vote.lastLogIndex ∧ logCurrentTerm x.log ≤ vote.lastLogTerm := by
  unfold voteOnLog
  split
  · rename_i hdeny
    constructor
    · exact nofun
    · intro h
      omega
  · rename_i hgrant
    constructor
    · intro _
      omega
    · exact fun _ => rfl

/-- `clusterProcessRequestVote(link, vote)`. -/
def clusterProcessRequestVote (s : ClusterState n) (vote : RequestVote) : ClusterState n × ResponseVote :=
  if vote.term < s.currentTerm then (s, clusterSendResponseVote s false)
  else if vote.term > s.currentTerm then voteOnLog (s.enterTerm vote.term) vote
  else if s.votedFor ≠ [] ∧ s.votedFor ≠ vote.candidateid then (s, clusterSendResponseVote s false)
  else voteOnLog s vote

/-- `clusterProcessResponseVote(link, vote)`. -/
def clusterProcessResponseVote (s : ClusterState n) (vote : ResponseVote) : ClusterState n :=
  -- a counter: neither the sender nor the role of the receiver is looked at
  if vote.voteGranted ∧ vote.term = s.currentTerm then { s with votesGranted := s.votesGranted + 1 }
  else if vote.term > s.currentTerm then s.enterTerm vote.term
  else s

/-- `clusterSendRequestVote()`: the log is read before the term is raised. -/
def clusterSendRequestVote (cfg : NodeTable n) (i : Fin n) (s : ClusterState n) : ClusterState n × RequestVote :=
  ({ s with currentTerm := s.currentTerm + 1 },
   { term := s.currentTerm + 1
     candidateid := (cfg.name i).bytes
     lastLogIndex := logCurrentIndex s.log
     lastLogTerm := logCurrentTerm s.log })

/-! ## Log replication -/

/-- `logCommitIndex(leader_commit_index)`. -/
def logCommitIndex (s : ClusterState n) (leaderCommitIndex : Int) : ClusterState n :=
  if leaderCommitIndex > s.commitIndex then
    { s with
      commitIndex :=
        if leaderCommitIndex < logCurrentIndex s.log then leaderCommitIndex else logCurrentIndex s.log }
  else s

section

variable (x : ClusterState n)

/-- `logCommitIndex` changes the commit index alone. -/
theorem logCommitIndex_frame (index : Int) :
    ∃ commitIndex, logCommitIndex x index = { x with commitIndex } := by
  unfold logCommitIndex
  split
  · exact ⟨_, rfl⟩
  · exact ⟨x.commitIndex, rfl⟩

theorem logCommitIndex_log (index : Int) : (logCommitIndex x index).log = x.log := by
  unfold logCommitIndex
  split <;> rfl

theorem logCommitIndex_nodes (index : Int) : (logCommitIndex x index).nodes = x.nodes := by
  unfold logCommitIndex
  split <;> rfl

theorem logCommitIndex_state (index : Int) : (logCommitIndex x index).state = x.state := by
  unfold logCommitIndex
  split <;> rfl

/-- `clusterSendResponseAppendEntries(link, ok)`. -/
def clusterSendResponseAppendEntries (s : ClusterState n) (ok : Bool) : ResponseAppendEntries :=
  ⟨s.currentTerm, logCurrentIndex s.log, s.commitIndex, ok⟩

/-- The first half of `clusterProcessAppendEntries`: the sender is the leader of its term. A leader that
    receives its own term stays leader. -/
def followLeader (s : ClusterState n) (entries : AppendEntries) : ClusterState n :=
  if entries.term = s.currentTerm then
    { s with
      state := if s.state = .candidate then .follower else s.state
      leader := entries.leaderid }
  else
    { s with state := .follower, currentTerm := entries.term, leader := entries.leaderid, votedFor := [] }

theorem followLeader_log (entries : AppendEntries) : (followLeader x entries).log = x.log := by
  unfold followLeader
  split <;> rfl

theorem followLeader_nodes (entries : AppendEntries) :
    (followLeader x entries).nodes = x.nodes := by
  unfold followLeader
  split <;> rfl

theorem followLeader_commitIndex (entries : AppendEntries) :
    (followLeader x entries).commitIndex = x.commitIndex := by
  unfold followLeader
  split <;> rfl

theorem followLeader_lastApplied (entries : AppendEntries) :
    (followLeader x entries).lastApplied = x.lastApplied := by
  unfold followLeader
  split <;> rfl

end

/-- A candidate that hears from a leader follows it. -/
theorem followLeader_state_ne {x : ClusterState n} {entries : AppendEntries} :
    (followLeader x entries).state ≠ .candidate := by
  unfold followLeader
  split
  · dsimp only
    split
    · exact nofun
    · assumption
  · exact nofun

/-- Who leads afterwards has led before. -/
theorem followLeader_leader {x : ClusterState n} {entries : AppendEntries}
    (hs : (followLeader x entries).state = .leader) : x.state = .leader := by
  unfold followLeader at hs
  split at hs
  · dsimp only at hs
    split at hs
    · cases hs
    · exact hs
  · cases hs

/-- `clusterProcessAppendEntries(link, entries)`; `fsync` is the outcome of the `fsync` call at the end of
    `logAppendEntries`. -/
def clusterProcessAppendEntries (s : ClusterState n) (entries : AppendEntries) (fsync : Bool) :
    Option (ClusterState n × ResponseAppendEntries) :=
  if entries.term < s.currentTerm then some (s, clusterSendResponseAppendEntries s false)
  else
    let s := followLeader s entries
    match logVerifyAppend s.log entries.prevLogIndex entries.prevLogTerm with
    | none => none
    | some false => some (s, clusterSendResponseAppendEntries s false)
    | some true =>
      match logAppendEntries s.log entries.logEntries with
      | none => none
      | some log =>
        let s := { s with log := log }
        if fsync then
          let s := logCommitIndex s entries.leaderCommitIndex
          some (s, clusterSendResponseAppendEntries s true)
        else some (s, clusterSendResponseAppendEntries s false)

section

variable {x y : ClusterState n} {entries : AppendEntries} {fsync : Bool} {response : ResponseAppendEntries}

/-- **What an append request does**: its term is old, or the log refuses it, or its entries are written, and the
    commit index moves if they reach the disk. -/
theorem clusterProcessAppendEntries_cases (h : clusterProcessAppendEntries x entries fsync = some (y, response)) :
    response = clusterSendResponseAppendEntries y response.ok ∧
    (entries.term < x.currentTerm ∧ y = x ∧ response.ok = false ∨
      x.currentTerm ≤ entries.term ∧
        (logVerifyAppend x.log entries.prevLogIndex entries.prevLogTerm = some false ∧
            y = followLeader x entries ∧ response.ok = false ∨
          logVerifyAppend x.log entries.prevLogIndex entries.prevLogTerm = some true ∧
            ∃ log, logAppendEntries x.log entries.logEntries = some log ∧ response.ok = fsync ∧
              y = if fsync then logCommitIndex { followLeader x entries with log } entries.leaderCommitIndex
                else { followLeader x entries with log })) := by
  unfold clusterProcessAppendEntries at h
  split at h
  · rename_i hterm
    cases h
    exact ⟨rfl, .inl ⟨hterm, rfl, rfl⟩⟩
  rename_i hterm
  dsimp only at h
  rw [followLeader_log] at h
  split at h
  · cases h
  · rename_i hverify
    cases h
    exact ⟨rfl, .inr ⟨not_lt.mp hterm, .inl ⟨hverify, rfl, rfl⟩⟩⟩
  rename_i hverify
  split at h
  · cases h
  rename_i log hlog
  cases fsync with
  | false =>
    cases h
    exact ⟨rfl, .inr ⟨not_lt.mp hterm, .inr ⟨hverify, log, hlog, rfl, rfl⟩⟩⟩
  | true =>
    cases h
    exact ⟨rfl, .inr ⟨not_lt.mp hterm, .inr ⟨hverify, log, hlog, rfl, rfl⟩⟩⟩

/-- Once the sender is taken for the leader, only the log and the commit index change. -/
theorem clusterProcessAppendEntries_frame (h : clusterProcessAppendEntries x entries fsync = some (y, response)) :
    entries.term < x.currentTerm ∧ y = x ∨
      x.currentTerm ≤ entries.term ∧ ∃ log commitIndex, y = { followLeader x entries with log, commitIndex } := by
  obtain ⟨-, ⟨hlt, rfl, -⟩ | ⟨hle, ⟨-, rfl, -⟩ | ⟨-, log, -, -, rfl⟩⟩⟩ := clusterProcessAppendEntries_cases h
  · exact .inl ⟨hlt, rfl⟩
  · exact .inr ⟨hle, _, _, rfl⟩
  · refine .inr ⟨hle, log, ?_⟩
    split
    · exact logCommitIndex_frame ..
    · exact ⟨_, rfl⟩

end

/-- The record of one peer, changed. -/
def ClusterState.setNode (s : ClusterState n) (j : Fin n) (node : ClusterNode) : ClusterState n :=
  { s with nodes := Function.update s.nodes j node }

/-- `clusterProcessResponseAppendEntries(link, entries)` on the link of peer `j`. -/
def clusterProcessResponseAppendEntries (s : ClusterState n) (j : Fin n) (entries : ResponseAppendEntries) :
    ClusterState n :=
  if entries.ok then
    -- whichever request is answered, the peer is credited with what was sent last
    match (s.nodes j).lastSentEntry with
    | some index => s.setNode j { s.nodes j with nextIndex := index + 1, matchIndex := index }
    | none => s
  else if entries.term > s.currentTerm then s.enterTerm entries.term
  else s.setNode j { s.nodes j with nextIndex := (s.nodes j).nextIndex - 1 }

/-- The loop of `clusterSendAppendEntries`: the entries from `next_index` on, at most
    `log_max_entries_per_request` of them. -/
def entriesFrom (log : LogState) (nextIndex : Int) : List LogEntry :=
  if logCurrentIndex log ≥ nextIndex then
    match getLogNode log nextIndex with
    | some pos => (log.list.drop pos).take logMaxEntriesPerRequest
    | none => []
  else []

/-- `clusterSendAppendEntries(link)` on the link of peer `j`. -/
def clusterSendAppendEntries (cfg : NodeTable n) (i j : Fin n) (s : ClusterState n) :
    ClusterState n × AppendEntries :=
  let node := s.nodes j
  let logEntries := entriesFrom s.log node.nextIndex
  (s.setNode j { node with lastSentEntry := logEntries.getLast?.map (·.index) },
   { term := s.currentTerm
     leaderid := (cfg.name i).bytes
     prevLogIndex := node.nextIndex - 1
     prevLogTerm := logGetTerm s.log (node.nextIndex - 1)
     leaderCommitIndex := s.commitIndex
     logEntries := logEntries })

/-- `compareIndices(a, b)`: a difference of two `long long`s returned as an `int`. -/
def compareIndices (a b : Int) : Int := toInt32 (a - b)

/-- `qsort` with `compareIndices`. -/
def sortIndices (indices : List Int) : List Int := indices.insertionSort fun a b => compareIndices a b ≤ 0

/-- `clusterUpdateCommitIndex()`. -/
def clusterUpdateCommitIndex (s : ClusterState n) : ClusterState n :=
  -- the leader's own node takes part, and nothing ever sets its match index
  let logIndices := (sortIndices (List.ofFn fun j => (s.nodes j).matchIndex)).reverse
  match logIndices[quorumSize n - 1]? with
  | some commitIndex =>
    if commitIndex > s.commitIndex ∧ s.currentTerm = logGetTerm s.log commitIndex then { s with commitIndex }
    else s
  | none => s

/-- The new commit index is the old one or a match index. -/
theorem clusterUpdateCommitIndex_cases (x : ClusterState n) :
    clusterUpdateCommitIndex x = x ∨ ∃ j, x.commitIndex < (x.nodes j).matchIndex ∧
      clusterUpdateCommitIndex x = { x with commitIndex := (x.nodes j).matchIndex } := by
  unfold clusterUpdateCommitIndex
  dsimp only
  split
  · rename_i k hk
    split
    · rename_i hgo
      have hmem : k ∈ sortIndices (List.ofFn fun j => (x.nodes j).matchIndex) :=
        List.mem_reverse.mp (List.mem_of_getElem? hk)
      rw [sortIndices, List.mem_insertionSort, List.mem_ofFn] at hmem
      obtain ⟨j, rfl⟩ := hmem
      exact .inr ⟨j, hgo.1, rfl⟩
    · exact .inl rfl
  · exact .inl rfl

theorem clusterUpdateCommitIndex_log (x : ClusterState n) : (clusterUpdateCommitIndex x).log = x.log := by
  rcases clusterUpdateCommitIndex_cases x with heq | ⟨j, -, heq⟩ <;> rw [heq]

theorem clusterUpdateCommitIndex_nodes (x : ClusterState n) : (clusterUpdateCommitIndex x).nodes = x.nodes := by
  rcases clusterUpdateCommitIndex_cases x with heq | ⟨j, -, heq⟩ <;> rw [heq]

theorem clusterUpdateCommitIndex_state (x : ClusterState n) : (clusterUpdateCommitIndex x).state = x.state := by
  rcases clusterUpdateCommitIndex_cases x with heq | ⟨j, -, heq⟩ <;> rw [heq]

/-! ## The timer -/

/-- What a call of `clusterCron` finds outside: whether the election timeout has passed, which peers have a
    link, and for which of them a heartbeat is due. -/
structure CronInput (n : Nat) where
  timeout : Bool
  linked : Fin n → Bool
  due : Fin n → Bool

/-- The election timeout: vote for oneself and ask the linked peers. -/
def startElection (cfg : NodeTable n) (i : Fin n) (inp : CronInput n) (s : ClusterState n) :
    ClusterState n × List (Fin n × Message) :=
  if s.state ≠ .leader ∧ inp.timeout then
    let s := { s with state := .candidate, leader := [], votedFor := cstr (cfg.serverName i), votesGranted := 1 }
    let (s, vote) := clusterSendRequestVote cfg i s
    (s, ((List.finRange n).filter fun j => inp.linked j && j != i).map fun j => (j, .requestVote vote))
  else (s, [])

/-- A candidate with enough votes becomes leader. The pointers `last_sent_entry` stay as they are. -/
def becomeLeader (cfg : NodeTable n) (i : Fin n) (s : ClusterState n) : ClusterState n :=
  if s.state = .candidate ∧ quorumSize n ≤ s.votesGranted then
    { s with
      state := .leader
      leader := cstr (cfg.serverName i)
      nodes := fun j =>
        if j = i then s.nodes j
        else { s.nodes j with nextIndex := logCurrentIndex s.log + 1, matchIndex := 0 } }
  else s

/-- The heartbeats to the given peers, in order. -/
def sendHeartbeats (cfg : NodeTable n) (i : Fin n) :
    List (Fin n) → ClusterState n → ClusterState n × List (Fin n × Message)
  | [], s => (s, [])
  | j :: js, s =>
    let (s, entries) := clusterSendAppendEntries cfg i j s
    let (s, out) := sendHeartbeats cfg i js s
    (s, (j, .appendEntries entries) :: out)

/-- The last part of `clusterCron`. -/
def leaderTick (cfg : NodeTable n) (i : Fin n) (inp : CronInput n) (s : ClusterState n) :
    ClusterState n × List (Fin n × Message) :=
  if s.state = .leader then
    sendHeartbeats cfg i ((List.finRange n).filter fun j => j != i && inp.linked j && inp.due j)
      (clusterUpdateCommitIndex s)
  else (s, [])

/-- `clusterCron()` behind its apply loop. -/
def clusterCronTail (cfg : NodeTable n) (i : Fin n) (inp : CronInput n) (s : ClusterState n) :
    ClusterState n × List (Fin n × Message) :=
  let (s, requests) := startElection cfg i inp s
  let (s, heartbeats) := leaderTick cfg i inp (becomeLeader cfg i s)
  (s, requests ++ heartbeats)

end Prez
