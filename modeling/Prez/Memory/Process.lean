import Prez.Server
import Prez.Lib.Run

/-!
# `Prez.Memory.Process` — a server with the memory that `zmalloc` returned

`createClusterNode` and `createClient` take their records from `zmalloc` and set only some of the fields. Here
the bytes of the others are an input (`Memory`), and what reads them is modelled: the flags of a node decide
whether it is dialled, asked and sent to, `last_activity_time` whether a heartbeat is due, and the flags of a
client whether its requests are read. Clocks, the outcome of `connect` and the values of the configuration
are inputs of `clusterCron`, so that two runs can be compared on the same inputs.

With all peers' flags clear the phases are those of `Prez.Cluster.Protocol` (`cron_eq`).
-/

namespace Prez

open Lib

variable {n : Nat}

/-! ## Records -/

/-- What `zmalloc` returned for a `clusterNode`, in the fields that `createClusterNode` does not set. A pointer
    that was never set is NULL or reads as the index of some entry. -/
structure NodeBytes where
  flags : UInt32
  lastActivityTime : Int
  lastSentEntry : Option Int
  nextIndex : Int
  matchIndex : Int

/-- What `zmalloc` returned for the nodes, and for `flags` of the clients in the order of their creation. -/
structure Memory (n : Nat) where
  node : Fin n → NodeBytes
  clientFlags : Nat → UInt32

/-- `PREZ_NODE_MYSELF`. -/
def nodeMyself : UInt32 := 16

/-- `PREZ_NODE_NOADDR`. -/
def nodeNoaddr : UInt32 := 64

/-- `PREZ_BLOCKED`. -/
def clientBlocked : UInt32 := 16

/-- `PREZ_CLOSE_AFTER_REPLY`. -/
def clientCloseAfterReply : UInt32 := 64

/-- `PREZ_CLOSE_ASAP`. -/
def clientCloseAsap : UInt32 := 1024

/-- `node->flags & PREZ_NODE_MYSELF`. -/
def isMyself (flags : UInt32) : Bool := flags &&& nodeMyself != 0

/-- `node->flags & (PREZ_NODE_MYSELF|PREZ_NODE_NOADDR)`: the node is passed over. -/
def isSkipped (flags : UInt32) : Bool := flags &&& (nodeMyself ||| nodeNoaddr) != 0

/-- The tests at the head of the loop of `processInputBuffer`: nothing is read from the client. -/
def isDeaf (flags : UInt32) : Bool := flags &&& clientBlocked != 0 || flags &&& clientCloseAfterReply != 0

/-- `c->flags & PREZ_CLOSE_ASAP`. -/
def isClosing (flags : UInt32) : Bool := flags &&& clientCloseAsap != 0

/-- The part of a `clusterNode` that is not replication state: `link` is whether there is one. -/
structure NodeRecord where
  flags : UInt32
  lastActivityTime : Int
  link : Bool

/-- `createClusterNode(nodename, flags)`: the argument `flags` is not used. -/
def createClusterNode (bytes : NodeBytes) (_flags : UInt32) : NodeRecord × ClusterNode :=
  (⟨bytes.flags, bytes.lastActivityTime, false⟩, ⟨bytes.lastSentEntry, bytes.nextIndex, bytes.matchIndex⟩)

/-- The record of node `j` after `clusterInit()` on server `i`. `clusterLoadConfig` marks its own line; without
    a `nodes.conf` the flag is left to `createClusterNode`. -/
def loadNode (conf : Bool) (i j : Fin n) (bytes : NodeBytes) : NodeRecord × ClusterNode :=
  if conf then
    let (r, node) := createClusterNode bytes 0
    (if j = i then { r with flags := r.flags ||| nodeMyself } else r, node)
  else createClusterNode bytes nodeMyself

/-! ## The process -/

/-- A server with its node records, `server.cluster->last_activity_time` and the flags of its clients. -/
structure Process (n : Nat) where
  server : Server n
  records : Fin n → NodeRecord
  lastActivityTime : Int
  clientFlags : Nat → UInt32

/-- The process after `clusterInit()` at the time `now`. -/
def Process.boot (conf : Bool) (i : Fin n) (log : LogState) (now : Int) (m : Memory n) : Process n where
  server := Server.boot (clusterInit (fun j => (loadNode conf i j (m.node j)).2) log)
  records j := (loadNode conf i j (m.node j)).1
  lastActivityTime := now
  clientFlags := m.clientFlags

/-! ## The timer -/

/-- What a call of `clusterCron` finds outside: `mstime()` at each of its calls, `random()`, the two intervals
    of the configuration, and whether a connection can be opened. -/
structure TickInput (n : Nat) where
  now : Int
  random : Nat
  electionTimeout : Int
  heartbeatInterval : Int
  connects : Fin n → Bool
  dialTime : Fin n → Int
  electionTime : Int
  testTime : Fin n → Int
  sendTime : Fin n → Int

namespace Process

def skipped (p : Process n) (j : Fin n) : Bool := isSkipped (p.records j).flags

def link (p : Process n) (j : Fin n) : Bool := (p.records j).link

/-- The nodes that `clusterCron` tries to connect to. -/
def dials (p : Process n) : List (Fin n) := (List.finRange n).filter fun j => !p.skipped j && !p.link j

/-- The first loop of `clusterCron`. -/
def dial (p : Process n) (inp : TickInput n) : Process n :=
  { p with
    records := fun j =>
      if !p.skipped j && !p.link j && inp.connects j then
        { p.records j with link := true, lastActivityTime := inp.dialTime j }
      else p.records j }

/-- `clusterBroadcastMessage`: the nodes that are sent to. -/
def voters (p : Process n) : List (Fin n) :=
  (List.finRange n).filter fun j => p.link j && !isMyself (p.records j).flags

/-- `now - last_activity_time > election_timeout`. -/
def timeout (p : Process n) (inp : TickInput n) : Bool :=
  decide (inp.now - p.lastActivityTime > inp.electionTimeout + inp.random % inp.electionTimeout)

/-- A heartbeat to node `j` is due. -/
def due (p : Process n) (inp : TickInput n) (j : Fin n) : Bool :=
  decide (inp.testTime j - (p.records j).lastActivityTime > inp.heartbeatInterval)

/-- The nodes that the last loop of `clusterCron` sends to. -/
def followers (p : Process n) (inp : TickInput n) : List (Fin n) :=
  (List.finRange n).filter fun j => !p.skipped j && p.link j && p.due inp j

end Process

/-- The election timeout of `clusterCron`, with the nodes that are asked. -/
def startElectionAt (cfg : Config n) (i : Fin n) (timeout : Bool) (voters : List (Fin n)) (s : ClusterState n) :
    ClusterState n × List (Fin n × Message) :=
  if s.state ≠ .leader ∧ timeout then
    let s := { s with state := .candidate, leader := [], votedFor := cstr (cfg.serverName i), votesGranted := 1 }
    let (s, vote) := clusterSendRequestVote cfg i s
    (s, voters.map fun j => (j, .requestVote vote))
  else (s, [])

/-- A candidate with enough votes becomes leader: the nodes that are skipped keep their indices. -/
def becomeLeaderAt (cfg : Config n) (i : Fin n) (skipped : Fin n → Bool) (s : ClusterState n) : ClusterState n :=
  if s.state = .candidate ∧ quorumSize n ≤ s.votesGranted then
    { s with
      state := .leader
      leader := cstr (cfg.serverName i)
      nodes := fun j =>
        if skipped j then s.nodes j
        else { s.nodes j with nextIndex := logCurrentIndex s.log + 1, matchIndex := 0 } }
  else s

/-- The last part of `clusterCron`, with the nodes that are sent to. -/
def leaderTickAt (cfg : Config n) (i : Fin n) (followers : List (Fin n)) (s : ClusterState n) :
    ClusterState n × List (Fin n × Message) :=
  if s.state = .leader then sendHeartbeats cfg i followers (clusterUpdateCommitIndex s) else (s, [])

namespace Process

/-- `clusterCron()` behind its first loop and the apply loop. -/
def cronTail (cfg : Config n) (i : Fin n) (inp : TickInput n) (p : Process n) :
    Process n × List (Fin n × Message) :=
  let starts := p.server.cluster.state ≠ .leader ∧ p.timeout inp
  let (cluster, requests) := startElectionAt cfg i (p.timeout inp) p.voters p.server.cluster
  let cluster := becomeLeaderAt cfg i p.skipped cluster
  let leads := cluster.state = .leader
  let (cluster, heartbeats) := leaderTickAt cfg i (p.followers inp) cluster
  ({ p with
      server := { p.server with cluster }
      lastActivityTime := if starts then inp.electionTime else p.lastActivityTime
      records := fun j =>
        if leads ∧ j ∈ p.followers inp then { p.records j with lastActivityTime := inp.sendTime j } else p.records j },
    requests ++ heartbeats)

/-- `clusterCron()`: the new state, the nodes that were dialled and the messages sent. -/
def cron (cfg : Config n) (i : Fin n) (inp : TickInput n) (p : Process n) :
    Option (Process n × List (Fin n) × List (Fin n × Message)) :=
  let dials := p.dials
  let p := p.dial inp
  let count := (p.server.cluster.commitIndex - p.server.cluster.lastApplied).toNat
  (applyLoop count p.server).map fun server =>
    let (p, sent) := { p with server }.cronTail cfg i inp
    (p, dials, sent)

/-! ## Messages and clients -/

/-- A handler sets `last_activity_time` when it grants a vote, and for an `AppendEntries` of a term that is not
    old. -/
def touches (s : ClusterState n) (msg : Message) (response : Option Message) : Bool :=
  match msg, response with
  | .requestVote _, some (.responseVote vote) => vote.voteGranted
  | .appendEntries entries, _ => decide (¬ entries.term < s.currentTerm)
  | _, _ => false

/-- `clusterProcessPacket` on the link of node `j`, at the time `now`. -/
def processPacket (p : Process n) (j : Fin n) (msg : Message) (fsync : Bool) (now : Int) :
    Option (Process n × Option Message) :=
  (p.server.receive j msg fsync).map fun (server, response) =>
    ({ p with server, lastActivityTime := if touches p.server.cluster msg response then now else p.lastActivityTime },
      response)

/-- A message on the link to a node, or on one that was accepted. An accepted link has no node, and the
    response to an `AppendEntries` is looked up there. -/
def receive (i : Fin n) (p : Process n) (from? : Option (Fin n)) (msg : Message) (fsync : Bool) (now : Int) :
    Option (Process n × Option Message) :=
  match from?, msg with
  | some j, msg => if p.link j then p.processPacket j msg fsync now else some (p, none)
  | none, .responseAppendEntries _ => none
  | none, msg => p.processPacket i msg fsync now

/-- A request of a client that is deaf stays in its buffer. -/
def request (p : Process n) (id : Nat) (kind : ReqType) (argv : List Bytes) : Option (Process n) :=
  if isDeaf (p.clientFlags id) ∧ (p.server.clients id).isSome then some p
  else (processRequest p.server id kind argv).map fun server => { p with server }

/-- `freeClient(c)`: a client that is marked as closing has to be in `clients_to_close`, where nothing put it. -/
def disconnect (p : Process n) (id : Nat) : Option (Process n) :=
  if isClosing (p.clientFlags id) ∧ (p.server.clients id).isSome then none
  else some { p with server := { p.server with clients := Function.update p.server.clients id none } }

/-- `handleLinkIOError(link)` on the link to a node. -/
def linkLost (p : Process n) (j : Fin n) : Process n :=
  { p with records := Function.update p.records j { p.records j with link := false } }

/-- `createClient(fd)`. -/
def connect (p : Process n) : Process n :=
  { p with server := { p.server.setClient p.server.nextClient Client.new with nextClient := p.server.nextClient + 1 } }

end Process

/-! ## Events and what they show -/

inductive ProcessEvent (n : Nat) where
  | tick (inp : TickInput n)
  | receive (from? : Option (Fin n)) (msg : Message) (fsync : Bool) (now : Int)
  | linkLost (j : Fin n)
  | connect
  | request (id : Nat) (kind : ReqType) (argv : List Bytes)
  | disconnect (id : Nat)

/-- What can be seen of an event from outside: the nodes that are dialled, the messages that are sent and the
    response on the link of the message, the commit index and the replies of every client. -/
structure Seen (n : Nat) where
  dials : List (Fin n)
  sent : List (Fin n × Message)
  response : Option Message
  commitIndex : Int
  replies : Nat → Option (List Bytes)

namespace Process

def see (p : Process n) (dials : List (Fin n)) (sent : List (Fin n × Message)) (response : Option Message) :
    Process n × Seen n :=
  (p, ⟨dials, sent, response, p.server.cluster.commitIndex, fun id => (p.server.clients id).map (·.reply)⟩)

/-- One event. -/
def step (cfg : Config n) (i : Fin n) (p : Process n) : ProcessEvent n → Option (Process n × Seen n)
  | .tick inp => (p.cron cfg i inp).map fun (p, dials, sent) => p.see dials sent none
  | .receive from? msg fsync now => (p.receive i from? msg fsync now).map fun (p, response) => p.see [] [] response
  | .linkLost j => some ((p.linkLost j).see [] [] none)
  | .connect => some (p.connect.see [] [] none)
  | .request id kind argv => (p.request id kind argv).map fun p => p.see [] [] none
  | .disconnect id => (p.disconnect id).map fun p => p.see [] [] none

end Process

/-! ## Peers with clear flags -/

theorem becomeLeaderAt_eq (cfg : Config n) (i : Fin n) (s : ClusterState n) :
    becomeLeaderAt cfg i (fun j => decide (j = i)) s = becomeLeader cfg i s := by
  simp only [becomeLeaderAt, becomeLeader, decide_eq_true_eq]

theorem Process.dial_flags (p : Process n) (inp : TickInput n) (j : Fin n) :
    ((p.dial inp).records j).flags = (p.records j).flags := by
  unfold Process.dial
  dsimp only
  split <;> rfl

theorem Process.dial_skipped (p : Process n) (inp : TickInput n) (j : Fin n) :
    (p.dial inp).skipped j = p.skipped j := by
  rw [Process.skipped, Process.dial_flags, Process.skipped]

/-- **With the flags of all peers clear the timer is that of the cluster model**, on what the links and clocks
    of the process give. -/
theorem cron_eq (cfg : Config n) (i : Fin n) (inp : TickInput n) (p : Process n)
    (hskip : ∀ j, p.skipped j = decide (j = i)) (hmyself : ∀ j, isMyself (p.records j).flags = decide (j = i)) :
    (p.cron cfg i inp).map (fun r => (r.1.server, r.2.2)) =
      clusterCron cfg i ⟨(p.dial inp).timeout inp, (p.dial inp).link, (p.dial inp).due inp⟩ p.server := by
  have hdecide : ∀ j : Fin n, (!decide (j = i)) = (j != i) := fun j => rfl
  have hskipped : (p.dial inp).skipped = fun j => decide (j = i) := by
    funext j
    rw [Process.dial_skipped, hskip]
  have hvoters : (p.dial inp).voters = (List.finRange n).filter fun j => (p.dial inp).link j && j != i := by
    unfold Process.voters
    simp only [Process.dial_flags, hmyself, hdecide]
  have hfollowers : (p.dial inp).followers inp =
      (List.finRange n).filter fun j => j != i && (p.dial inp).link j && (p.dial inp).due inp j := by
    unfold Process.followers
    simp only [hskipped, hdecide]
  rw [Process.cron, clusterCron]
  dsimp only
  rw [Option.map_map]
  congr 1
  funext server
  -- the lists depend on the records alone
  have hv : Process.voters { p.dial inp with server } = _ := hvoters
  have hf : Process.followers { p.dial inp with server } inp = _ := hfollowers
  have hs : Process.skipped { p.dial inp with server } = _ := hskipped
  simp only [Function.comp_apply, Process.cronTail, hv, hf, hs, becomeLeaderAt_eq, clusterCronTail]
  rfl

end Prez
