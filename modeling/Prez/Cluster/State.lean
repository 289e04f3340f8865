import Prez.Log.State

/-!
# `Prez.Cluster.State` — nodes, messages and the state of one server

The data of `cluster.h`. A cluster has `n` nodes; every server holds the same node table, and `Fin n` names
its entries. Strings that the source keeps in 40-byte fields are `CStr 40`; the `sds` strings `leader` and
`voted_for` are compared by content, so they are byte strings here, with the empty string for "none".
-/

namespace Prez

open Lib

/-! ## The node table -/

/-- What every server goes by: the name in the line of `nodes.conf` that it takes for its own (`myself`), and its
    `name` directive. `clusterLoadConfig` compares the two without regard to case. -/
structure NodeTable (n : Nat) where
  name : Fin n → CStr 40
  serverName : Fin n → Bytes
  self : ∀ i, strcaseEq (name i).bytes (serverName i) = true

/-- A table in which a server finds one line for itself. -/
structure Config (n : Nat) extends NodeTable n where
  alone : ∀ i j, strcaseEq (name j).bytes (serverName i) = true → j = i

instance {n : Nat} : Coe (Config n) (NodeTable n) := ⟨Config.toNodeTable⟩

/-- The part of `clusterNode` that replication uses. `lastSentEntry` is the index of the entry that
    `last_sent_entry` points to; an entry never changes its index. -/
structure ClusterNode where
  lastSentEntry : Option Int
  nextIndex : Int
  matchIndex : Int
deriving DecidableEq

/-- `PREZ_FOLLOWER`, `PREZ_CANDIDATE`, `PREZ_LEADER`. -/
inductive Role where
  | follower
  | candidate
  | leader
deriving DecidableEq

/-- The macro `quorumSize`. -/
def quorumSize (n : Nat) : Nat := n / 2 + 1

/-- `PREZ_LOG_MAX_ENTRIES_PER_REQUEST`. -/
def logMaxEntriesPerRequest : Nat := 50

/-! ## Messages -/

/-- `clusterMsgDataRequestVote`. -/
structure RequestVote where
  term : Int
  candidateid : Bytes
  lastLogIndex : Int
  lastLogTerm : Int
deriving DecidableEq

/-- `clusterMsgDataResponseVote`. -/
structure ResponseVote where
  term : Int
  voteGranted : Bool
deriving DecidableEq

/-- `clusterMsgDataAppendEntries`; the list holds `log_entries_count` entries. -/
structure AppendEntries where
  term : Int
  leaderid : Bytes
  prevLogIndex : Int
  prevLogTerm : Int
  leaderCommitIndex : Int
  logEntries : List LogEntry
deriving DecidableEq

/-- `clusterMsgDataResponseAppendEntries`. -/
structure ResponseAppendEntries where
  term : Int
  index : Int
  commitIndex : Int
  ok : Bool
deriving DecidableEq

/-- The four messages of the cluster bus. -/
inductive Message where
  | requestVote (vote : RequestVote)
  | responseVote (vote : ResponseVote)
  | appendEntries (entries : AppendEntries)
  | responseAppendEntries (entries : ResponseAppendEntries)
deriving DecidableEq

/-! ## One server -/

/-- `clusterState`. -/
structure ClusterState (n : Nat) where
  nodes : Fin n → ClusterNode
  state : Role
  leader : Bytes
  votedFor : Bytes
  votesGranted : Nat
  currentTerm : Int
  log : LogState
  commitIndex : Int
  lastApplied : Int

/-- `clusterInit()` on a loaded log. The node records come from `zmalloc` and are not initialised. -/
def clusterInit {n : Nat} (nodes : Fin n → ClusterNode) (log : LogState) : ClusterState n where
  nodes := nodes
  state := .follower
  leader := []
  votedFor := []
  votesGranted := 0
  currentTerm := logCurrentTerm log
  log := log
  commitIndex := 0
  lastApplied := 0

end Prez
