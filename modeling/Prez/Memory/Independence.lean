import Prez.Memory.Process
import Prez.Moves

/-!
# `Prez.Memory.Independence` — what depends on uninitialised memory

Two runs of a server on the same inputs, with different bytes from `zmalloc`. The states of the two runs are
kept in a relation (`Twins`): they are the same but for the node records, and those agree in what can still be
read. A node that is passed over keeps the `match_index` it was created with, for ever; of the others
`next_index` and `match_index` are set when the server becomes leader, and `last_sent_entry` not before the
first heartbeat. `memory_independent` says that memories that agree in these fields and in three flags of the
clients cannot be told apart, and `memory_dependent` that each of them can be seen.
-/

namespace Prez

open Lib

variable {n : Nat}

/-! ## Functions that do not look at the node records -/

def ClusterState.withNodes (s : ClusterState n) (nodes : Fin n → ClusterNode) : ClusterState n := { s with nodes }

def Server.withNodes (s : Server n) (nodes : Fin n → ClusterNode) : Server n :=
  { s with cluster := s.cluster.withNodes nodes }

section

variable (nodes : Fin n → ClusterNode)

/-- Committing does not look at the nodes. -/
theorem logCommitIndex_withNodes (s : ClusterState n) (index : Int) :
    logCommitIndex (s.withNodes nodes) index = (logCommitIndex s index).withNodes nodes := by
  unfold logCommitIndex ClusterState.withNodes
  split <;> rfl

/-- Nor does taking the sender for the leader. -/
theorem followLeader_withNodes (s : ClusterState n) (entries : AppendEntries) :
    followLeader (s.withNodes nodes) entries = (followLeader s entries).withNodes nodes := by
  unfold followLeader ClusterState.withNodes
  split <;> rfl

/-- A vote depends on the term, the vote and the log. -/
theorem clusterProcessRequestVote_withNodes (s : ClusterState n) (vote : RequestVote) :
    clusterProcessRequestVote (s.withNodes nodes) vote =
      ((clusterProcessRequestVote s vote).1.withNodes nodes, (clusterProcessRequestVote s vote).2) := by
  unfold clusterProcessRequestVote voteOnLog ClusterState.enterTerm ClusterState.withNodes
  dsimp only
  split_ifs <;> rfl

/-- A vote is counted without a look at its sender. -/
theorem clusterProcessResponseVote_withNodes (s : ClusterState n) (vote : ResponseVote) :
    clusterProcessResponseVote (s.withNodes nodes) vote = (clusterProcessResponseVote s vote).withNodes nodes := by
  unfold clusterProcessResponseVote ClusterState.enterTerm ClusterState.withNodes
  dsimp only
  split_ifs <;> rfl

/-- A follower does not need its records of the others. -/
theorem clusterProcessAppendEntries_withNodes (s : ClusterState n) (entries : AppendEntries) (fsync : Bool) :
    clusterProcessAppendEntries (s.withNodes nodes) entries fsync =
      (clusterProcessAppendEntries s entries fsync).map fun r => (r.1.withNodes nodes, r.2) := by
  unfold clusterProcessAppendEntries
  by_cases hterm : entries.term < s.currentTerm
  · rw [if_pos hterm, if_pos (show entries.term < (s.withNodes nodes).currentTerm from hterm)]
    rfl
  rw [if_neg hterm, if_neg (show ¬entries.term < (s.withNodes nodes).currentTerm from hterm), followLeader_withNodes]
  generalize followLeader s entries = x
  have hlog : (x.withNodes nodes).log = x.log := rfl
  dsimp only
  rw [hlog]
  cases logVerifyAppend x.log entries.prevLogIndex entries.prevLogTerm with
  | none => rfl
  | some verified =>
    cases verified with
    | false => rfl
    | true =>
      dsimp only
      cases logAppendEntries x.log entries.logEntries with
      | none => rfl
      | some log =>
        cases fsync with
        | false => rfl
        | true =>
          exact congrArg (fun s => some (s, clusterSendResponseAppendEntries s true))
            (logCommitIndex_withNodes nodes { x with log } entries.leaderCommitIndex)

/-- A command reads and writes its client. -/
theorem call_withNodes (s : Server n) (id : Nat) :
    call (s.withNodes nodes) id = (call s id).map (·.withNodes nodes) := by
  unfold call
  rw [Option.map_map]
  show (s.clients id).map _ = (s.clients id).map _
  congr 1
  funext c
  dsimp only [Function.comp_apply]
  cases c.cmd <;> rfl

/-- An entry that no client waits for. -/
theorem applyText_withNodes (s : Server n) (text : Bytes) :
    applyText (s.withNodes nodes) text = (applyText s text).map (·.withNodes nodes) := by
  unfold applyText
  cases sdssplitargs text with
  | none => rfl
  | some argv =>
    dsimp only
    split
    · rfl
    cases lookupCommand (argv.head?.getD []) with
    | none => rfl
    | some cmd =>
      dsimp only
      split_ifs <;> rfl

/-- Applying an entry reads the log and the clients. -/
theorem logApply_withNodes (s : Server n) (index : Int) :
    logApply (s.withNodes nodes) index = (logApply s index).map (·.withNodes nodes) := by
  unfold logApply
  have hlog : (s.withNodes nodes).cluster.log = s.cluster.log := rfl
  rw [hlog]
  cases getLogEntry s.cluster.log index with
  | none => rfl
  | some en =>
    dsimp only
    generalize hs : { s with executed := s.executed ++ [some en.logEntry] } = s₁
    have hs' : { s.withNodes nodes with executed := (s.withNodes nodes).executed ++ [some en.logEntry] } =
        s₁.withNodes nodes := by
      rw [← hs]
      rfl
    have hwait : waitingClient (s₁.withNodes nodes) index = waitingClient s₁ index := rfl
    rw [hs', hwait]
    cases waitingClient s₁ index with
    | none => exact applyText_withNodes nodes s₁ _
    | some id =>
      dsimp only
      rw [call_withNodes, Option.map_map, Option.map_map]
      rfl

/-- The apply loop, by induction on what is left to apply. -/
theorem applyLoop_withNodes (count : Nat) : ∀ s : Server n,
    applyLoop count (s.withNodes nodes) = (applyLoop count s).map (·.withNodes nodes) := by
  induction count with
  | zero => exact fun s => rfl
  | succ count ih =>
    intro s
    rw [applyLoop, applyLoop]
    dsimp only
    generalize hs : { s with cluster := { s.cluster with lastApplied := s.cluster.lastApplied + 1 } } = s₁
    have hs' : { s.withNodes nodes with cluster :=
        { (s.withNodes nodes).cluster with lastApplied := (s.withNodes nodes).cluster.lastApplied + 1 } } =
        s₁.withNodes nodes := by
      rw [← hs]
      rfl
    have hlast : (s.withNodes nodes).cluster.lastApplied = s.cluster.lastApplied := rfl
    rw [hs', hlast, logApply_withNodes]
    cases logApply s₁ (s.cluster.lastApplied + 1) with
    | none => rfl
    | some s₂ => exact ih s₂

theorem addProcClient_withNodes (s : Server n) (index : Int) (id : Nat) :
    addProcClient (s.withNodes nodes) index id = (addProcClient s index id).withNodes nodes := by
  unfold addProcClient Server.withNodes
  split <;> rfl

/-- A write goes into the log of the leader; its peers come later. -/
theorem clusterProcessCommand_withNodes (s : Server n) (id : Nat) (cmd : PrezCommand) (argv : List Bytes) :
    clusterProcessCommand (s.withNodes nodes) id cmd argv =
      (clusterProcessCommand s id cmd argv).map (·.withNodes nodes) := by
  unfold clusterProcessCommand
  have hlog : (s.withNodes nodes).cluster.log = s.cluster.log := rfl
  have hterm : (s.withNodes nodes).cluster.currentTerm = s.cluster.currentTerm := rfl
  rw [hlog, hterm]
  cases commandName cmd with
  | none => rfl
  | some name =>
    cases commandField argv with
    | none => rfl
    | some command =>
      simp only [Option.bind_eq_bind, Option.bind_some]
      generalize (⟨logCurrentIndex s.cluster.log + 1, s.cluster.currentTerm, name, command⟩ : LogEntry) = entry
      cases logWriteEntry s.cluster.log entry with
      | none => rfl
      | some log =>
        simp only [Option.bind_some]
        split
        · exact congrArg (fun cluster => some { s with cluster })
            (logCommitIndex_withNodes nodes { s.cluster with log } _)
        · exact congrArg some (addProcClient_withNodes nodes { s with cluster := { s.cluster with log } } _ id)

/-- A command is executed, forwarded to the log or refused by the role alone. -/
theorem processCommand_withNodes (s : Server n) (id : Nat) (c : Client) :
    processCommand (s.withNodes nodes) id c = (processCommand s id c).map (·.withNodes nodes) := by
  unfold processCommand
  dsimp only
  cases lookupCommand (c.argv.head?.getD []) with
  | none => rfl
  | some cmd =>
    dsimp only
    split
    · rfl
    split
    · have hstate : (s.withNodes nodes).cluster.state = s.cluster.state := rfl
      rw [hstate]
      cases s.cluster.state with
      | candidate => rfl
      | follower => rfl
      | leader => exact clusterProcessCommand_withNodes nodes (s.setClient id _) id cmd c.argv
    · exact call_withNodes nodes (s.setClient id _) id

/-- **No request of a client looks at the nodes.** -/
theorem processRequest_withNodes (s : Server n) (id : Nat) (kind : ReqType) (argv : List Bytes) :
    processRequest (s.withNodes nodes) id kind argv = (processRequest s id kind argv).map (·.withNodes nodes) := by
  unfold processRequest
  have hclients : (s.withNodes nodes).clients = s.clients := rfl
  rw [hclients]
  cases s.clients id with
  | none => rfl
  | some c =>
    simp only [Option.bind_some]
    split
    · rfl
    split
    · rfl
    split
    · rfl
    · exact processCommand_withNodes nodes s id _

end

/-! ## Node records that cannot be told apart -/

/-- Two records of a node agree in what can still be read; `leads` is whether the server is leader. -/
structure NodeAlike (skipped : Bool) (leads : Prop) (x y : ClusterNode) : Prop where
  kept : skipped = true → y.matchIndex = x.matchIndex
  lastSentEntry : skipped = false → y.lastSentEntry = x.lastSentEntry
  indices : leads → skipped = false → y.nextIndex = x.nextIndex ∧ y.matchIndex = x.matchIndex

def NodesAlike (skipped : Fin n → Bool) (leads : Prop) (a b : Fin n → ClusterNode) : Prop :=
  ∀ j, NodeAlike (skipped j) leads (a j) (b j)

namespace NodesAlike

variable {skipped : Fin n → Bool} {leads leads' : Prop} {a b : Fin n → ClusterNode}

/-- Less can be read of a server that leads less often. -/
theorem weaken (h : NodesAlike skipped leads a b) (hl : leads' → leads) : NodesAlike skipped leads' a b :=
  fun j => { h j with indices := fun hl' => (h j).indices (hl hl') }

/-- A leader reads the `match_index` of every node, passed over or not. -/
theorem matchIndex (h : NodesAlike skipped leads a b) (hl : leads) (j : Fin n) :
    (b j).matchIndex = (a j).matchIndex := by
  cases hj : skipped j with
  | true => exact (h j).kept hj
  | false => exact ((h j).indices hl hj).2

/-- The record of a node that is not passed over changes on both sides. -/
theorem update (h : NodesAlike skipped leads a b) {j : Fin n} (hj : skipped j = false) {x y : ClusterNode}
    (hlast : y.lastSentEntry = x.lastSentEntry)
    (hidx : leads → y.nextIndex = x.nextIndex ∧ y.matchIndex = x.matchIndex) :
    NodesAlike skipped leads (Function.update a j x) (Function.update b j y) := by
  intro k
  by_cases hkj : k = j
  · subst hkj
    rw [Function.update_self, Function.update_self, hj]
    exact ⟨nofun, fun _ => hlast, fun hl _ => hidx hl⟩
  · rw [Function.update_of_ne hkj, Function.update_of_ne hkj]
    exact h k

end NodesAlike

section

variable {skipped : Fin n → Bool} {s : ClusterState n} {b : Fin n → ClusterNode}

/-- The response to a heartbeat: the node was dialled, so it is not passed over. -/
theorem response_alike (h : NodesAlike skipped (s.state = .leader) s.nodes b) {j : Fin n} (hj : skipped j = false)
    (entries : ResponseAppendEntries) :
    ∃ b', clusterProcessResponseAppendEntries (s.withNodes b) j entries =
        (clusterProcessResponseAppendEntries s j entries).withNodes b' ∧
      NodesAlike skipped ((clusterProcessResponseAppendEntries s j entries).state = .leader)
        (clusterProcessResponseAppendEntries s j entries).nodes b' := by
  have hnodes : (s.withNodes b).nodes = b := rfl
  have hterm : (s.withNodes b).currentTerm = s.currentTerm := rfl
  unfold clusterProcessResponseAppendEntries
  rw [hnodes, hterm, (h j).lastSentEntry hj]
  split
  · cases (s.nodes j).lastSentEntry with
    | none => exact ⟨b, rfl, h⟩
    | some index => exact ⟨_, rfl, h.update hj ((h j).lastSentEntry hj) fun _ => ⟨rfl, rfl⟩⟩
  split
  · exact ⟨b, rfl, h.weaken nofun⟩
  · refine ⟨_, rfl, h.update hj ((h j).lastSentEntry hj) fun hl => ⟨?_, ((h j).indices hl hj).2⟩⟩
    dsimp only
    rw [((h j).indices hl hj).1]

/-- A server that becomes leader sets the indices of the nodes that it will send to. -/
theorem becomeLeaderAt_alike (cfg : Config n) (i : Fin n) (h : NodesAlike skipped (s.state = .leader) s.nodes b) :
    ∃ b', becomeLeaderAt cfg i skipped (s.withNodes b) = (becomeLeaderAt cfg i skipped s).withNodes b' ∧
      NodesAlike skipped ((becomeLeaderAt cfg i skipped s).state = .leader)
        (becomeLeaderAt cfg i skipped s).nodes b' := by
  have hstate : (s.withNodes b).state = s.state := rfl
  have hvotes : (s.withNodes b).votesGranted = s.votesGranted := rfl
  unfold becomeLeaderAt
  rw [hstate, hvotes]
  split
  · refine ⟨_, rfl, fun j => ?_⟩
    dsimp only
    cases hj : skipped j with
    | true => exact ⟨fun _ => (h j).kept hj, nofun, fun _ => nofun⟩
    | false => exact ⟨nofun, fun _ => (h j).lastSentEntry hj, fun _ _ => ⟨rfl, rfl⟩⟩
  · exact ⟨b, rfl, h⟩

/-- Of the nodes the commit index depends on `match_index` alone. -/
theorem clusterUpdateCommitIndex_withNodes (hmatch : ∀ j, (b j).matchIndex = (s.nodes j).matchIndex) :
    clusterUpdateCommitIndex (s.withNodes b) = (clusterUpdateCommitIndex s).withNodes b := by
  have hindices : (List.ofFn fun j => ((s.withNodes b).nodes j).matchIndex) =
      List.ofFn fun j => (s.nodes j).matchIndex :=
    congrArg List.ofFn (funext hmatch)
  unfold clusterUpdateCommitIndex
  rw [hindices]
  dsimp only
  cases (sortIndices (List.ofFn fun j => (s.nodes j).matchIndex)).reverse[quorumSize n - 1]? with
  | none => rfl
  | some commitIndex =>
    have hcommit : (s.withNodes b).commitIndex = s.commitIndex := rfl
    have hterm : (s.withNodes b).currentTerm = s.currentTerm := rfl
    have hlog : (s.withNodes b).log = s.log := rfl
    dsimp only
    rw [hcommit, hterm, hlog]
    split <;> rfl

/-- A heartbeat to a node that is not passed over. -/
theorem clusterSendAppendEntries_alike (cfg : Config n) (i : Fin n) {j : Fin n} (hj : skipped j = false)
    (hl : s.state = .leader) (h : NodesAlike skipped (s.state = .leader) s.nodes b) :
    ∃ b', clusterSendAppendEntries cfg i j (s.withNodes b) =
        ((clusterSendAppendEntries cfg i j s).1.withNodes b', (clusterSendAppendEntries cfg i j s).2) ∧
      NodesAlike skipped (s.state = .leader) (clusterSendAppendEntries cfg i j s).1.nodes b' := by
  have hnodes : (s.withNodes b).nodes = b := rfl
  have hlog : (s.withNodes b).log = s.log := rfl
  obtain ⟨hnext, hmatch⟩ := (h j).indices hl hj
  unfold clusterSendAppendEntries
  rw [hnodes, hlog]
  dsimp only
  rw [hnext]
  exact ⟨_, rfl, h.update hj rfl fun _ => ⟨rfl, hmatch⟩⟩

/-- The heartbeats of a leader, node by node. -/
theorem sendHeartbeats_alike (cfg : Config n) (i : Fin n) (js : List (Fin n)) (hjs : ∀ j ∈ js, skipped j = false) :
    ∀ {s : ClusterState n} {b : Fin n → ClusterNode}, s.state = .leader →
      NodesAlike skipped (s.state = .leader) s.nodes b →
      ∃ b', sendHeartbeats cfg i js (s.withNodes b) =
          ((sendHeartbeats cfg i js s).1.withNodes b', (sendHeartbeats cfg i js s).2) ∧
        (sendHeartbeats cfg i js s).1.state = s.state ∧
        NodesAlike skipped (s.state = .leader) (sendHeartbeats cfg i js s).1.nodes b' := by
  induction js with
  | nil => exact fun _ h => ⟨_, rfl, rfl, h⟩
  | cons j js ih =>
    intro s b hl h
    obtain ⟨b₁, hsend, h₁⟩ := clusterSendAppendEntries_alike cfg i (hjs j (List.mem_cons_self ..)) hl h
    obtain ⟨b₂, hrest, hstate, h₂⟩ := ih (fun k hk => hjs k (List.mem_cons_of_mem _ hk))
      (s := (clusterSendAppendEntries cfg i j s).1) hl h₁
    refine ⟨b₂, ?_, hstate, h₂⟩
    rw [sendHeartbeats, hsend]
    dsimp only
    rw [hrest]
    rfl

/-- The tick of a leader: the commit index moves, then the heartbeats go out. -/
theorem leaderTickAt_alike (cfg : Config n) (i : Fin n) {js : List (Fin n)} (hjs : ∀ j ∈ js, skipped j = false)
    (h : NodesAlike skipped (s.state = .leader) s.nodes b) :
    ∃ b', leaderTickAt cfg i js (s.withNodes b) =
        ((leaderTickAt cfg i js s).1.withNodes b', (leaderTickAt cfg i js s).2) ∧
      NodesAlike skipped ((leaderTickAt cfg i js s).1.state = .leader) (leaderTickAt cfg i js s).1.nodes b' := by
  have hstate : (s.withNodes b).state = s.state := rfl
  unfold leaderTickAt
  rw [hstate]
  split
  · rename_i hl
    rw [clusterUpdateCommitIndex_withNodes (h.matchIndex hl)]
    have hstate₁ := clusterUpdateCommitIndex_state s
    obtain ⟨b', hsend, hstate₂, h'⟩ := sendHeartbeats_alike cfg i js hjs (s := clusterUpdateCommitIndex s) (b := b)
      (hstate₁.trans hl) (by rw [hstate₁, clusterUpdateCommitIndex_nodes]; exact h)
    exact ⟨b', hsend, h'.weaken fun hs => hstate₂.symm.trans hs⟩
  · exact ⟨b, rfl, h⟩

/-- An election does not look at the nodes, and makes no leader yet. -/
theorem startElectionAt_withNodes (cfg : Config n) (i : Fin n) (timeout : Bool) (voters : List (Fin n)) :
    startElectionAt cfg i timeout voters (s.withNodes b) =
      ((startElectionAt cfg i timeout voters s).1.withNodes b, (startElectionAt cfg i timeout voters s).2) ∧
    (startElectionAt cfg i timeout voters s).1.nodes = s.nodes ∧
    ((startElectionAt cfg i timeout voters s).1.state = .leader → s.state = .leader) := by
  have hstate : (s.withNodes b).state = s.state := rfl
  unfold startElectionAt
  rw [hstate]
  split
  · exact ⟨rfl, rfl, nofun⟩
  · exact ⟨rfl, rfl, id⟩

end

/-! ## Messages -/

section

variable {s : ClusterState n}

/-- A vote leaves the nodes and makes no leader. -/
theorem requestVote_keeps (vote : RequestVote) : (clusterProcessRequestVote s vote).1.nodes = s.nodes ∧
    ((clusterProcessRequestVote s vote).1.state = .leader → s.state = .leader) := by
  unfold clusterProcessRequestVote voteOnLog ClusterState.enterTerm
  dsimp only
  split_ifs
  all_goals first | exact ⟨rfl, id⟩ | exact ⟨rfl, nofun⟩

theorem responseVote_keeps (vote : ResponseVote) : (clusterProcessResponseVote s vote).nodes = s.nodes ∧
    ((clusterProcessResponseVote s vote).state = .leader → s.state = .leader) := by
  unfold clusterProcessResponseVote ClusterState.enterTerm
  split_ifs
  all_goals first | exact ⟨rfl, id⟩ | exact ⟨rfl, nofun⟩

/-- An append request leaves the nodes and makes no leader. -/
theorem appendEntries_keeps {entries : AppendEntries} {fsync : Bool} {r : ClusterState n × ResponseAppendEntries}
    (h : clusterProcessAppendEntries s entries fsync = some r) :
    r.1.nodes = s.nodes ∧ (r.1.state = .leader → s.state = .leader) := by
  obtain ⟨-, heq⟩ | ⟨-, log, commitIndex, heq⟩ := clusterProcessAppendEntries_frame h
  · rw [heq]
    exact ⟨rfl, id⟩
  · rw [heq]
    exact ⟨followLeader_nodes .., followLeader_leader⟩

end

/-- What a step leaves on the two sides: nothing, or the same server but for alike nodes. -/
def ServersAlike (skipped : Fin n → Bool) (s t : Server n) : Prop :=
  ∃ b, t = s.withNodes b ∧ NodesAlike skipped (s.cluster.state = .leader) s.cluster.nodes b

/-- A handler that leaves the nodes alone and makes no leader. -/
theorem ServersAlike.keep {skipped : Fin n → Bool} {s : Server n} {b : Fin n → ClusterNode} {cluster : ClusterState n}
    (hb : NodesAlike skipped (s.cluster.state = .leader) s.cluster.nodes b)
    (hkeeps : cluster.nodes = s.cluster.nodes ∧ (cluster.state = .leader → s.cluster.state = .leader)) :
    ServersAlike skipped { s with cluster } { s.withNodes b with cluster := cluster.withNodes b } := by
  refine ⟨b, rfl, ?_⟩
  dsimp only
  rw [hkeeps.1]
  exact hb.weaken hkeeps.2

/-- A message, on the link of a node that is not passed over or one that no handler looks up the node of. -/
theorem receive_alike {skipped : Fin n → Bool} {s t : Server n} (h : ServersAlike skipped s t) {j : Fin n}
    {msg : Message} (hj : (∃ entries, msg = .responseAppendEntries entries) → skipped j = false) (fsync : Bool) :
    Option.Rel (fun x y => ServersAlike skipped x.1 y.1 ∧ x.2 = y.2) (s.receive j msg fsync)
      (t.receive j msg fsync) := by
  obtain ⟨b, rfl, hb⟩ := h
  have hcluster : (s.withNodes b).cluster = s.cluster.withNodes b := rfl
  cases msg with
  | requestVote vote =>
    rw [Server.receive, Server.receive, hcluster, clusterProcessRequestVote_withNodes]
    have hkeeps := requestVote_keeps (s := s.cluster) vote
    generalize clusterProcessRequestVote s.cluster vote = r at hkeeps
    exact .some ⟨.keep hb hkeeps, rfl⟩
  | responseVote vote =>
    rw [Server.receive, Server.receive, hcluster, clusterProcessResponseVote_withNodes]
    exact .some ⟨.keep hb (responseVote_keeps vote), rfl⟩
  | appendEntries entries =>
    rw [Server.receive, Server.receive, hcluster, clusterProcessAppendEntries_withNodes]
    cases happend : clusterProcessAppendEntries s.cluster entries fsync with
    | none => exact .none
    | some r => exact .some ⟨.keep hb (appendEntries_keeps happend), rfl⟩
  | responseAppendEntries entries =>
    obtain ⟨b', hresp, hb'⟩ := response_alike hb (hj ⟨entries, rfl⟩) entries
    rw [Server.receive, Server.receive, hcluster, hresp]
    exact .some ⟨⟨b', rfl, hb'⟩, rfl⟩

/-- A request of a client leaves the nodes and the role. -/
theorem processRequest_keeps {s s' : Server n} {id : Nat} {kind : ReqType} {argv : List Bytes}
    (h : processRequest s id kind argv = some s') :
    s'.cluster.nodes = s.cluster.nodes ∧ s'.cluster.state = s.cluster.state := by
  obtain ⟨-, ⟨-, c, rfl⟩ | ⟨htakes, c, cmd, -, -, -, hwrite⟩⟩ := processRequest_cases h
  · exact ⟨rfl, rfl⟩
  · obtain ⟨e, log, -, -, hc⟩ := clusterProcessCommand_write (s := s.setClient id c) htakes.1 hwrite
    rw [hc]
    split
    · rw [logCommitIndex_nodes, logCommitIndex_state]
      exact ⟨rfl, rfl⟩
    · exact ⟨rfl, rfl⟩

/-! ## Two processes -/

/-- The flags of a node that is passed over include the flag of the server itself. -/
theorem isMyself_of_not_skipped {flags : UInt32} (h : isSkipped flags = false) : isMyself flags = false := by
  have hzero : flags &&& (nodeMyself ||| nodeNoaddr) = 0 := by simpa [isSkipped] using h
  have hand : flags &&& nodeMyself = flags &&& (nodeMyself ||| nodeNoaddr) &&& nodeMyself := by
    rw [UInt32.and_assoc]
    congr 1
  rw [isMyself, hand, hzero]
  rfl

/-- The records `x` and `y` of a node become `x'` and `y'` on the two sides. -/
structure RecordAlike (skipped : Bool) (x y x' y' : NodeRecord) : Prop where
  flags : x'.flags = x.flags
  flags' : y'.flags = y.flags
  link : y'.link = x'.link
  linked : x'.link = true → skipped = false
  activity : x'.link = true → y'.lastActivityTime = x'.lastActivityTime

/-- Two states of a process that cannot be told apart, now or later. -/
structure Twins (p q : Process n) : Prop where
  server : ServersAlike p.skipped p.server q.server
  skipped : ∀ j, q.skipped j = p.skipped j
  link : ∀ j, q.link j = p.link j
  linked : ∀ j, p.link j = true → p.skipped j = false
  activity : ∀ j, p.link j = true → (q.records j).lastActivityTime = (p.records j).lastActivityTime
  time : q.lastActivityTime = p.lastActivityTime
  deaf : ∀ id, isDeaf (q.clientFlags id) = isDeaf (p.clientFlags id)
  closing : ∀ id, isClosing (q.clientFlags id) = isClosing (p.clientFlags id)

namespace Twins

variable {p q : Process n}

/-- Both sides dial the same nodes. -/
theorem dials_eq (h : Twins p q) : q.dials = p.dials := by
  unfold Process.dials
  simp only [h.skipped, h.link]

/-- The election of both sides asks the same nodes. -/
theorem voters_eq (h : Twins p q) : q.voters = p.voters := by
  unfold Process.voters
  refine List.filter_congr fun j _ => ?_
  rw [h.link j]
  cases hlink : p.link j with
  | false => rfl
  | true =>
    have hp := h.linked j hlink
    rw [isMyself_of_not_skipped hp, isMyself_of_not_skipped ((h.skipped j).trans hp)]

/-- Heartbeats of both sides are due at the same nodes. -/
theorem followers_eq (h : Twins p q) (inp : TickInput n) : q.followers inp = p.followers inp := by
  unfold Process.followers
  refine List.filter_congr fun j _ => ?_
  rw [h.skipped j, h.link j]
  cases hlink : p.link j with
  | false => simp
  | true => rw [Process.due, Process.due, h.activity j hlink]

theorem timeout_eq (h : Twins p q) (inp : TickInput n) : q.timeout inp = p.timeout inp := by
  rw [Process.timeout, Process.timeout, h.time]

/-- A heartbeat goes to a node that is not passed over and has a link. -/
theorem mem_followers {p : Process n} {inp : TickInput n} {j : Fin n} (hj : j ∈ p.followers inp) :
    p.skipped j = false ∧ p.link j = true := by
  have := (List.mem_filter.mp hj).2
  simp only [Bool.and_eq_true, Bool.not_eq_true'] at this
  exact this.1

section

variable (h : Twins p q)

include h

/-- The same server on both sides, with alike nodes. -/
theorem setServer {s t : Server n} (hst : ServersAlike p.skipped s t) :
    Twins { p with server := s } { q with server := t } :=
  ⟨hst, h.skipped, h.link, h.linked, h.activity, h.time, h.deaf, h.closing⟩

theorem setTime (now : Int) :
    Twins { p with lastActivityTime := now } { q with lastActivityTime := now } :=
  ⟨h.server, h.skipped, h.link, h.linked, h.activity, rfl, h.deaf, h.closing⟩

/-- The records change alike; a node that gets a link gets its time. -/
theorem setRecords {r r' : Fin n → NodeRecord}
    (hr : ∀ j, RecordAlike (p.skipped j) (p.records j) (q.records j) (r j) (r' j)) :
    Twins { p with records := r } { q with records := r' } := by
  have hskip : ∀ j, isSkipped (r j).flags = p.skipped j := fun j => by rw [(hr j).flags, Process.skipped]
  have hskip' : ∀ j, isSkipped (r' j).flags = p.skipped j := fun j => by
    rw [(hr j).flags']
    exact h.skipped j
  have hfun : Process.skipped { p with records := r } = p.skipped := funext hskip
  exact ⟨hfun.symm ▸ h.server, fun j => (hskip' j).trans (hskip j).symm, fun j => (hr j).link,
    fun j hj => (hskip j).trans ((hr j).linked hj), fun j => (hr j).activity, h.time, h.deaf, h.closing⟩

/-- Records that stay as they are. -/
theorem record (j : Fin n) :
    RecordAlike (p.skipped j) (p.records j) (q.records j) (p.records j) (q.records j) :=
  ⟨rfl, rfl, h.link j, h.linked j, h.activity j⟩

/-- Both sides dial the same nodes, at the same times. -/
theorem dial (inp : TickInput n) : Twins (p.dial inp) (q.dial inp) := by
  refine h.setRecords fun j => ?_
  dsimp only
  rw [h.skipped, h.link]
  split
  · rename_i hnew
    simp only [Bool.and_eq_true, Bool.not_eq_true'] at hnew
    exact ⟨rfl, rfl, rfl, fun _ => hnew.1.1, fun _ => rfl⟩
  · exact h.record j

/-- The elections and heartbeats of a tick. -/
theorem cronTail (cfg : Config n) (i : Fin n) (inp : TickInput n) :
    Twins (p.cronTail cfg i inp).1 (q.cronTail cfg i inp).1 ∧ (q.cronTail cfg i inp).2 = (p.cronTail cfg i inp).2 := by
  obtain ⟨b, hq, hb⟩ := h.server
  have hcluster : q.server.cluster = p.server.cluster.withNodes b := by rw [hq]; rfl
  have hstate : (p.server.cluster.withNodes b).state = p.server.cluster.state := rfl
  have hskip : q.skipped = p.skipped := funext h.skipped
  -- the three phases, each on the state that the one before leaves
  obtain ⟨hstart, hnodes₁, hstate₁⟩ :=
    startElectionAt_withNodes (b := b) (s := p.server.cluster) cfg i (p.timeout inp) p.voters
  unfold Process.cronTail
  rw [h.timeout_eq, h.voters_eq, h.followers_eq, hskip, hcluster, hstart, hstate]
  generalize startElectionAt cfg i (p.timeout inp) p.voters p.server.cluster = r₁ at hnodes₁ hstate₁ ⊢
  obtain ⟨c₁, requests⟩ := r₁
  dsimp only at hnodes₁ hstate₁ ⊢
  obtain ⟨b₂, hbecome, h₂⟩ := becomeLeaderAt_alike (s := c₁) (b := b) cfg i (by rw [hnodes₁]; exact hb.weaken hstate₁)
  rw [hbecome]
  generalize becomeLeaderAt cfg i p.skipped c₁ = c₂ at h₂ ⊢
  have hstate₂ : (c₂.withNodes b₂).state = c₂.state := rfl
  obtain ⟨b₃, hlead, h₃⟩ := leaderTickAt_alike cfg i (fun j hj => (mem_followers hj).1) h₂
  rw [hlead, hstate₂]
  generalize leaderTickAt cfg i (p.followers inp) c₂ = r₃ at h₃ ⊢
  obtain ⟨c₃, heartbeats⟩ := r₃
  refine ⟨?_, rfl⟩
  have hserver : Twins { p with server := { p.server with cluster := c₃ } }
      { q with server := { q.server with cluster := c₃.withNodes b₃ } } := by
    refine h.setServer ⟨b₃, ?_, h₃⟩
    rw [hq]
    rfl
  rw [h.time]
  refine (hserver.setTime _).setRecords fun j => ?_
  split
  · exact ⟨rfl, rfl, h.link j, h.linked j, fun _ => rfl⟩
  · exact h.record j

/-- A whole tick. -/
theorem cron (cfg : Config n) (i : Fin n) (inp : TickInput n) :
    Option.Rel (fun x y => Twins x.1 y.1 ∧ x.2 = y.2) (p.cron cfg i inp) (q.cron cfg i inp) := by
  have hd := h.dial inp
  obtain ⟨b, hq, hb⟩ := hd.server
  unfold Process.cron
  dsimp only
  rw [h.dials_eq, hq, applyLoop_withNodes]
  have hcommit : ((p.dial inp).server.withNodes b).cluster.commitIndex = (p.dial inp).server.cluster.commitIndex := rfl
  have happlied : ((p.dial inp).server.withNodes b).cluster.lastApplied = (p.dial inp).server.cluster.lastApplied := rfl
  rw [hcommit, happlied]
  cases happly : applyLoop _ (p.dial inp).server with
  | none => exact .none
  | some server =>
    have hserver : ServersAlike (p.dial inp).skipped server (server.withNodes b) :=
      ⟨b, rfl, by rw [applyLoop_cluster _ happly]; exact hb⟩
    obtain ⟨htwins, hsent⟩ := (hd.setServer hserver).cronTail cfg i inp
    exact .some ⟨htwins, congrArg (Prod.mk p.dials) hsent.symm⟩

/-- A message that is handled, as in `receive_alike`. -/
theorem processPacket {j : Fin n} {msg : Message}
    (hj : (∃ entries, msg = .responseAppendEntries entries) → p.skipped j = false) (fsync : Bool) (now : Int) :
    Option.Rel (fun x y => Twins x.1 y.1 ∧ x.2 = y.2) (p.processPacket j msg fsync now)
      (q.processPacket j msg fsync now) := by
  have hterm : ∀ response, Process.touches q.server.cluster msg response =
      Process.touches p.server.cluster msg response := by
    obtain ⟨b, hq, -⟩ := h.server
    intro response
    rw [hq]
    rfl
  refine rel_map (receive_alike h.server hj fsync) fun x y hxy => ?_
  obtain ⟨server, response⟩ := x
  obtain ⟨server', response'⟩ := y
  obtain ⟨halike, rfl⟩ := hxy
  refine ⟨?_, rfl⟩
  dsimp only
  rw [hterm, h.time]
  exact (h.setServer halike).setTime _

/-- A message on a link of the server, or on one that it accepted. -/
theorem receive (i : Fin n) (from? : Option (Fin n)) (msg : Message) (fsync : Bool) (now : Int) :
    Option.Rel (fun x y => Twins x.1 y.1 ∧ x.2 = y.2) (Process.receive i p from? msg fsync now)
      (Process.receive i q from? msg fsync now) := by
  cases from? with
  | some j =>
    rw [Process.receive, Process.receive, h.link j]
    split
    · rename_i hlink
      exact h.processPacket (fun _ => h.linked j hlink) fsync now
    · exact .some ⟨h, rfl⟩
  | none =>
    cases msg with
    | responseAppendEntries entries => exact .none
    | requestVote vote => exact h.processPacket (fun ⟨_, heq⟩ => by cases heq) fsync now
    | responseVote vote => exact h.processPacket (fun ⟨_, heq⟩ => by cases heq) fsync now
    | appendEntries entries => exact h.processPacket (fun ⟨_, heq⟩ => by cases heq) fsync now

theorem clients_eq : q.server.clients = p.server.clients := by
  obtain ⟨b, hq, -⟩ := h.server
  rw [hq]
  rfl

/-- A request is read on both sides or on neither. -/
theorem request (id : Nat) (kind : ReqType) (argv : List Bytes) :
    Option.Rel Twins (p.request id kind argv) (q.request id kind argv) := by
  unfold Process.request
  rw [h.deaf, h.clients_eq]
  split
  · exact .some h
  · obtain ⟨b, hq, hb⟩ := h.server
    rw [hq, processRequest_withNodes]
    cases hreq : processRequest p.server id kind argv with
    | none => exact .none
    | some server =>
      obtain ⟨hnodes, hstate⟩ := processRequest_keeps hreq
      exact .some (h.setServer ⟨b, rfl, by rw [hnodes, hstate]; exact hb⟩)

/-- A client that is being closed is freed twice on both sides or on neither. -/
theorem disconnect (id : Nat) : Option.Rel Twins (p.disconnect id) (q.disconnect id) := by
  unfold Process.disconnect
  rw [h.closing, h.clients_eq]
  split
  · exact .none
  · obtain ⟨b, hq, hb⟩ := h.server
    exact .some (h.setServer ⟨b, by rw [hq]; rfl, hb⟩)

theorem connect : Twins p.connect q.connect := by
  obtain ⟨b, hq, hb⟩ := h.server
  exact h.setServer ⟨b, by rw [hq]; rfl, hb⟩

theorem linkLost (j : Fin n) : Twins (p.linkLost j) (q.linkLost j) := by
  refine h.setRecords fun k => ?_
  by_cases hkj : k = j
  · subst hkj
    rw [Function.update_self, Function.update_self]
    exact ⟨rfl, rfl, rfl, nofun, nofun⟩
  · rw [Function.update_of_ne hkj, Function.update_of_ne hkj]
    exact h.record k

/-- What is seen of two such processes is the same. -/
theorem see (dials : List (Fin n)) (sent : List (Fin n × Message)) (response : Option Message) :
    Twins (p.see dials sent response).1 (q.see dials sent response).1 ∧
      (p.see dials sent response).2 = (q.see dials sent response).2 := by
  refine ⟨h, ?_⟩
  obtain ⟨b, hq, -⟩ := h.server
  rw [Process.see, Process.see, hq]
  rfl

end

/-- **Every event shows the same on both sides**, and leaves states that cannot be told apart. -/
theorem step (h : Twins p q) (cfg : Config n) (i : Fin n) (e : ProcessEvent n) :
    Option.Rel (fun x y => Twins x.1 y.1 ∧ x.2 = y.2) (p.step cfg i e) (q.step cfg i e) := by
  cases e with
  | tick inp =>
    refine rel_map (h.cron cfg i inp) fun x y hxy => ?_
    obtain ⟨x, out⟩ := x
    obtain ⟨y, out'⟩ := y
    obtain ⟨htwins, rfl⟩ := hxy
    exact htwins.see ..
  | receive from? msg fsync now =>
    refine rel_map (h.receive i from? msg fsync now) fun x y hxy => ?_
    obtain ⟨x, response⟩ := x
    obtain ⟨y, response'⟩ := y
    obtain ⟨htwins, rfl⟩ := hxy
    exact htwins.see ..
  | linkLost j => exact .some ((h.linkLost j).see ..)
  | connect => exact .some (h.connect.see ..)
  | request id kind argv => exact rel_map (h.request id kind argv) fun x y hxy => hxy.see ..
  | disconnect id => exact rel_map (h.disconnect id) fun x y hxy => hxy.see ..

end Twins

/-! ## Memories -/

/-- The flags of node `j` when the process has started. -/
def startFlags (conf : Bool) (i j : Fin n) (m : Memory n) : UInt32 := (loadNode conf i j (m.node j)).1.flags

/-- Two memories agree in what is read before it is set: whether a node is passed over, the `match_index` of the
    nodes that are (the server itself is one of them), the `last_sent_entry` of the others, and of the clients
    whether they are deaf or closing. -/
structure Agree (conf : Bool) (i : Fin n) (m m' : Memory n) : Prop where
  skipped : ∀ j, isSkipped (startFlags conf i j m') = isSkipped (startFlags conf i j m)
  matchIndex : ∀ j, isSkipped (startFlags conf i j m) = true → (m'.node j).matchIndex = (m.node j).matchIndex
  lastSentEntry : ∀ j, isSkipped (startFlags conf i j m) = false →
    (m'.node j).lastSentEntry = (m.node j).lastSentEntry
  deaf : ∀ id, isDeaf (m'.clientFlags id) = isDeaf (m.clientFlags id)
  closing : ∀ id, isClosing (m'.clientFlags id) = isClosing (m.clientFlags id)

/-- What a record holds of the memory that it was given. -/
theorem loadNode_node (conf : Bool) (i j : Fin n) (bytes : NodeBytes) :
    (loadNode conf i j bytes).2 = ⟨bytes.lastSentEntry, bytes.nextIndex, bytes.matchIndex⟩ := by
  unfold loadNode createClusterNode
  split <;> rfl

theorem loadNode_link (conf : Bool) (i j : Fin n) (bytes : NodeBytes) : (loadNode conf i j bytes).1.link = false := by
  unfold loadNode createClusterNode
  dsimp only
  split_ifs <;> rfl

/-- Two processes that start from memories that agree. -/
theorem boot_twins {conf : Bool} {i : Fin n} {m m' : Memory n} (h : Agree conf i m m') (log : LogState) (now : Int) :
    Twins (.boot conf i log now m) (.boot conf i log now m') where
  server := by
    refine ⟨fun j => (loadNode conf i j (m'.node j)).2, rfl, fun j => ⟨fun hj => ?_, fun hj => ?_, nofun⟩⟩
    · dsimp only [Process.boot, Server.boot, clusterInit]
      rw [loadNode_node, loadNode_node]
      exact h.matchIndex j hj
    · dsimp only [Process.boot, Server.boot, clusterInit]
      rw [loadNode_node, loadNode_node]
      exact h.lastSentEntry j hj
  skipped := h.skipped
  link j := (loadNode_link ..).trans (loadNode_link ..).symm
  linked j hj := by
    cases (loadNode_link conf i j (m.node j)).symm.trans hj
  activity j hj := by
    cases (loadNode_link conf i j (m.node j)).symm.trans hj
  time := rfl
  deaf := h.deaf
  closing := h.closing

/-- **Independence from uninitialised memory.** Two runs of a server on the same inputs, from memories that
    agree in the fields above, dial the same nodes, send the same messages, have the same commit index and
    give the same replies after every event, whatever else the records held. -/
theorem memory_independent (cfg : Config n) (conf : Bool) (i : Fin n) (log : LogState) (now : Int) {m m' : Memory n}
    (h : Agree conf i m m') (events : List (ProcessEvent n)) :
    trace (Process.step cfg i) (.boot conf i log now m) events =
      trace (Process.step cfg i) (.boot conf i log now m') events :=
  trace_eq (fun _ _ e ht => ht.step cfg i e) events (boot_twins h log now)

/-! ## Runs of a server of three -/

/-- Memory of all zeros. -/
def zeroMemory : Memory n := ⟨fun _ => ⟨0, 0, none, 0, 0⟩, fun _ => 0⟩

def Memory.setNode (m : Memory n) (j : Fin n) (bytes : NodeBytes) : Memory n :=
  { m with node := Function.update m.node j bytes }

/-- What server 0 of three shows from a memory. -/
def showing (m : Memory 3) (events : List (ProcessEvent 3)) : List (Option (Seen 3)) :=
  trace (Process.step threeServers 0) (.boot true 0 .empty 0 m) events

/-- A tick at the time `now`; connections can be opened. -/
def cronAt (now : Int) : ProcessEvent 3 :=
  .tick ⟨now, 0, 150, 10, fun _ => true, fun _ => now, now, fun _ => now, fun _ => now⟩

/-- The links come up and the server is elected. The first heartbeats are not due yet. -/
def electEvents : List (ProcessEvent 3) :=
  [cronAt 200, .receive (some 1) (.responseVote ⟨1, true⟩) true 201, cronAt 202]

/-- The answer of node 1 to a heartbeat. -/
def answer : ProcessEvent 3 := .receive (some 1) (.responseAppendEntries ⟨1, 0, 0, true⟩) true 205

/-- A client writes, and one peer has the entry. -/
def writeEvents : List (ProcessEvent 3) :=
  electEvents ++ [.connect, .request 0 .inline [ascii "set", ascii "k", ascii "v"], cronAt 220, answer, cronAt 221]

/-- The records held other things, in fields that are set before they are read. -/
def junkMemory (m : Memory 3) : Memory 3 where
  node j := { m.node j with
    flags := (m.node j).flags ||| 40
    lastActivityTime := 1000
    nextIndex := 77
    lastSentEntry := if j = 0 then some 5 else (m.node j).lastSentEntry
    matchIndex := if j = 0 then (m.node j).matchIndex else 9 }
  clientFlags id := m.clientFlags id ||| 2048

/-- Junk in every field that is set before it is read. -/
theorem memory_independent_junk :
    showing (junkMemory zeroMemory) writeEvents = showing zeroMemory writeEvents ∧
      (showing zeroMemory writeEvents).map (Option.map Seen.commitIndex) =
        [some 0, some 0, some 0, some 0, some 0, some 0, some 0, some 0] := by
  have hagree : Agree true 0 zeroMemory (junkMemory zeroMemory) :=
    ⟨by decide, by decide, by decide, fun _ => show isDeaf (0 ||| 2048) = isDeaf 0 by decide,
      fun _ => show isClosing (0 ||| 2048) = isClosing 0 by decide⟩
  exact ⟨(memory_independent threeServers true 0 .empty 0 hagree writeEvents).symm, by decide +kernel⟩

/-- **Each of the fields can be seen.** Memories that differ in one of them only: the flags of a peer, the
    server's own `match_index`, the `last_sent_entry` of a peer, and two flags of a client. -/
theorem memory_dependent :
    showing zeroMemory electEvents ≠ showing (zeroMemory.setNode 1 ⟨64, 0, none, 0, 0⟩) electEvents ∧
    showing zeroMemory writeEvents ≠ showing (zeroMemory.setNode 0 ⟨0, 0, none, 0, 5⟩) writeEvents ∧
    showing zeroMemory (electEvents ++ [answer, cronAt 220]) ≠
      showing (zeroMemory.setNode 1 ⟨0, 0, some 7, 0, 0⟩) (electEvents ++ [answer, cronAt 220]) ∧
    showing zeroMemory [.connect, .request 0 .inline [ascii "get", ascii "k"]] ≠
      showing { zeroMemory with clientFlags := fun _ => 64 } [.connect, .request 0 .inline [ascii "get", ascii "k"]] ∧
    showing zeroMemory [.connect, .disconnect 0] ≠
      showing { zeroMemory with clientFlags := fun _ => 1024 } [.connect, .disconnect 0] := by
  refine ⟨fun h => ?_, fun h => ?_, fun h => ?_, fun h => ?_, fun h => ?_⟩
  · exact absurd (congrArg (List.map (Option.map Seen.dials)) h) (by decide +kernel)
  · exact absurd (congrArg (List.map (Option.map Seen.commitIndex)) h) (by decide +kernel)
  · exact absurd (congrArg (List.map (Option.map Seen.sent)) h) (by decide +kernel)
  · exact absurd (congrArg (List.map (Option.map (·.replies 0))) h) (by decide +kernel)
  · exact absurd (congrArg (List.map Option.isSome) h) (by decide +kernel)

end Prez
