import Prez.Network
import Prez.Log.Replicate
import Prez.Lib.Consensus

/-!
# `Prez.Moves` — what a step of the cluster can do

Every step of `Net.step` other than a restart is a sequence of `Move`s (`moves_of_step`): a call of
`clusterCron` applies entries one by one, may start an election, may win one, may commit and sends
heartbeats; a message of a higher term is a change of term followed by the same message in its own term.
The invariants of the protocol are proved over moves, one case each. A move also says what it adds to the
history of the cluster (`Lib.History`), so that an invariant can speak of votes and logs of the past.

The conditions of this module single out the steps on which the code does what the protocol needs; `Guard`
says which of them a run is asked to meet.
-/

namespace Prez

open Lib

variable {n : Nat}

/-! ## Conditions on steps -/

/-- `clusterProcessAppendEntries` gets as far as writing entries. -/
def Accepts (x : ClusterState n) (entries : AppendEntries) : Prop :=
  x.currentTerm ≤ entries.term ∧ logVerifyAppend x.log entries.prevLogIndex entries.prevLogTerm = some true

instance (x : ClusterState n) (entries : AppendEntries) : Decidable (Accepts x entries) :=
  inferInstanceAs (Decidable (_ ∧ _))

/-- The first entry that conflicts with the log, if any, does not conflict with its last entry. -/
def TruncOk (x : ClusterState n) (entries : AppendEntries) : Prop :=
  Accepts x entries → ∀ e, entries.logEntries.find? (Conflicts x.log.list) = some e → e.index ≠ logLength x.log

/-- A commit index that is new to the follower is covered by the message, or the follower's log has
    nothing beyond the message once it is written. -/
def CommitOk (x : ClusterState n) (entries : AppendEntries) : Prop :=
  Accepts x entries →
    entries.leaderCommitIndex ≤ x.commitIndex ∨
    entries.leaderCommitIndex ≤ entries.prevLogIndex + entries.logEntries.length ∨
    logLength x.log ≤ entries.prevLogIndex + entries.logEntries.length ∨
    ∃ e ∈ entries.logEntries, Conflicts x.log.list e = true

/-- A leader that is about to credit peer `j` with its last sent entry has the answer to a request of its
    own term that reached as far as this entry. -/
def RespOk (x : ClusterState n) (j : Fin n) (entries : ResponseAppendEntries) (answers : Option AppendEntries) :
    Prop :=
  entries.ok = true → x.state = .leader → ∀ k, (x.nodes j).lastSentEntry = some k →
    ∃ r, answers = some r ∧ r.term = x.currentTerm ∧ k ≤ r.prevLogIndex + r.logEntries.length

/-- The differences of match indices that `compareIndices` computes fit an `int`. -/
def SortOk (x : ClusterState n) : Prop :=
  ∀ j k, -(2 ^ 31) ≤ (x.nodes j).matchIndex - (x.nodes k).matchIndex ∧
    (x.nodes j).matchIndex - (x.nodes k).matchIndex < 2 ^ 31

/-- Which of the conditions a run is asked to meet. -/
structure Guard where
  trunc : Bool
  resp : Bool
  commit : Bool

/-- The state of a server when `clusterCron` reaches `clusterUpdateCommitIndex`. -/
def cronLeader (cfg : Config n) (i : Fin n) (inp : CronInput n) (x : ClusterState n) : ClusterState n :=
  becomeLeader cfg i (startElection cfg i inp x).1

/-- A message from `j` that meets the conditions asked for. -/
def MessageOk (g : Guard) (x : ClusterState n) (j : Fin n) (answers : Option AppendEntries) : Message → Prop
  | .appendEntries entries => (g.trunc = true → TruncOk x entries) ∧ (g.commit = true → CommitOk x entries)
  | .responseAppendEntries entries => g.resp = true → RespOk x j entries answers
  | _ => True

/-- A step that meets the conditions asked for. -/
def StepOk (cfg : Config n) (g : Guard) (s : Net n) : Action n → Prop
  | .event i (.cron inp) => g.commit = true → SortOk (cronLeader cfg i inp (s.node i))
  | .deliver k _ => ∀ p, s.net[k]? = some p → MessageOk g (s.node p.dst) p.src p.answers p.msg
  | _ => True

instance (x : ClusterState n) (entries : AppendEntries) : Decidable (TruncOk x entries) :=
  inferInstanceAs (Decidable (_ → _))

instance (x : ClusterState n) (entries : AppendEntries) : Decidable (CommitOk x entries) :=
  inferInstanceAs (Decidable (_ → _))

instance (x : ClusterState n) (j : Fin n) (entries : ResponseAppendEntries) (answers : Option AppendEntries) :
    Decidable (RespOk x j entries answers) :=
  inferInstanceAs (Decidable (_ → _))

instance (x : ClusterState n) : Decidable (SortOk x) :=
  inferInstanceAs (Decidable (∀ _ _, _ ∧ _))

instance (g : Guard) (x : ClusterState n) (j : Fin n) (answers : Option AppendEntries) :
    ∀ msg, Decidable (MessageOk g x j answers msg)
  | .appendEntries _ => inferInstanceAs (Decidable (_ ∧ _))
  | .responseAppendEntries _ => inferInstanceAs (Decidable (_ → _))
  | .requestVote _ | .responseVote _ => instDecidableTrue

instance (cfg : Config n) (g : Guard) (s : Net n) : ∀ a, Decidable (StepOk cfg g s a)
  | .event _ (.cron _) => inferInstanceAs (Decidable (_ → _))
  | .event _ .connect | .event _ (.request ..) | .event _ (.disconnect _) | .restart .. => instDecidableTrue
  | .deliver k _ => inferInstanceAs (Decidable (∀ p ∈ s.net[k]?, MessageOk g (s.node p.dst) p.src p.answers p.msg))

/-! ## Moves -/

/-- The packet with which `i` answers `p`. -/
def Packet.reply (p : Packet n) (msg : Message) : Packet n := ⟨p.dst, p.src, msg, answered p.msg⟩

/-- Server `i` changes its cluster state and nothing that the cluster sees besides. -/
structure Becomes (s : Net n) (i : Fin n) (x : ClusterState n) (server : Server n) : Prop where
  cluster : server.cluster = x
  executed : server.executed = (s.servers i).executed

/-- A leader's write: the new entry and the log with it. -/
structure Writes (x : ClusterState n) (e : LogEntry) (log : LogState) : Prop where
  leader : x.state = .leader
  index : e.index = logCurrentIndex x.log + 1
  term : e.term = x.currentTerm
  log : logWriteEntry x.log e = some log

/-- The history of the cluster. -/
abbrev Hist (n : Nat) := History (Fin n) Int LogEntry

/-- The message carries a stretch of the log `ll`, and the term before it. -/
structure Slice (ll : List LogEntry) (entries : AppendEntries) : Prop where
  start : 0 ≤ entries.prevLogIndex
  fits : entries.prevLogIndex.toNat + entries.logEntries.length ≤ ll.length
  stretch : entries.logEntries <+: ll.drop entries.prevLogIndex.toNat
  prevTerm : 0 < entries.prevLogIndex →
    ∃ e, ll[entries.prevLogIndex.toNat - 1]? = some e ∧ e.term = entries.prevLogTerm

/-- What an accepted message does to the history of `v`: it takes over a stretch of the leader's log. A
    message that is no such stretch leaves no trace. -/
def Recorded (h : Hist n) (v : Fin n) (entries : AppendEntries) (l : List LogEntry) (h' : Hist n) : Prop :=
  Slice (h.llog entries.term) entries ∧
      h' = h.accept v (entries.prevLogIndex.toNat + entries.logEntries.length) l ∨
    ¬ Slice (h.llog entries.term) entries ∧ h' = h

/-- Whether a request is a stretch of its leader's log decides how it is recorded. -/
theorem recorded_exists (h : Hist n) (v : Fin n) (entries : AppendEntries) (l : List LogEntry) :
    ∃ h', Recorded h v entries l h' := by
  by_cases hs : Slice (h.llog entries.term) entries
  · exact ⟨_, .inl ⟨hs, rfl⟩⟩
  · exact ⟨h, .inr ⟨hs, rfl⟩⟩

/-- One move of the cluster, and what it adds to the history. -/
inductive Move (cfg : Config n) (g : Guard) (s : Net n) (h : Hist n) : Net n → Hist n → Prop where
  /-- clients come, go and ask; nothing happens to the cluster state -/
  | idle (i : Fin n) (server : Server n) (hb : Becomes s i (s.node i) server) :
      Move cfg g s h (s.put i server s.net []) h
  /-- one turn of the apply loop -/
  | apply (i : Fin n) (server : Server n) (hlt : (s.node i).lastApplied < (s.node i).commitIndex)
      (hc : server.cluster = { s.node i with lastApplied := (s.node i).lastApplied + 1 })
      (he : server.executed = (s.servers i).executed ++
        [(getLogEntry (s.node i).log ((s.node i).lastApplied + 1)).map (·.logEntry)]) :
      Move cfg g s h (s.put i server s.net []) h
  /-- a higher term is seen -/
  | enter (i : Fin n) (server : Server n) (t : Int) (ht : (s.node i).currentTerm < t)
      (hb : Becomes s i ((s.node i).enterTerm t) server) : Move cfg g s h (s.put i server s.net []) (h.raise i t)
  /-- the election timeout -/
  | campaign (i : Fin n) (server : Server n) (inp : CronInput n) (hs : (s.node i).state ≠ .leader)
      (ht : inp.timeout = true) (hb : Becomes s i (startElection cfg i inp (s.node i)).1 server) :
      Move cfg g s h (s.put i server s.net
        ((startElection cfg i inp (s.node i)).2.map fun (j, msg) => ⟨i, j, msg, none⟩))
        ((h.raise i ((s.node i).currentTerm + 1)).stand i)
  /-- a candidate wins -/
  | elect (i : Fin n) (server : Server n) (hs : (s.node i).state = .candidate)
      (hq : quorumSize n ≤ (s.node i).votesGranted) (hb : Becomes s i (becomeLeader cfg i (s.node i)) server) :
      Move cfg g s h (s.put i server s.net []) (h.elect i)
  /-- a leader moves its commit index -/
  | commit (i : Fin n) (server : Server n) (hs : (s.node i).state = .leader)
      (hg : g.commit = true → SortOk (s.node i))
      (hb : Becomes s i (clusterUpdateCommitIndex (s.node i)) server) : Move cfg g s h (s.put i server s.net []) h
  /-- a leader sends a heartbeat -/
  | heartbeat (i j : Fin n) (server : Server n) (hs : (s.node i).state = .leader) (hj : j ≠ i)
      (hb : Becomes s i (clusterSendAppendEntries cfg i j (s.node i)).1 server) :
      Move cfg g s h (s.put i server s.net
        [⟨i, j, .appendEntries (clusterSendAppendEntries cfg i j (s.node i)).2, none⟩]) h
  /-- a leader takes a client's write -/
  | write (i : Fin n) (server : Server n) (e : LogEntry) (log : LogState) (hw : Writes (s.node i) e log)
      (hb : Becomes s i
        (if n = 1 then logCommitIndex { s.node i with log := log } (logCurrentIndex log)
          else { s.node i with log := log }) server) :
      Move cfg g s h (s.put i server s.net []) (h.append i e)
  /-- a vote is refused -/
  | deny (k : Nat) (p : Packet n) (vote : RequestVote) (server : Server n) (hp : s.net[k]? = some p)
      (hm : p.msg = .requestVote vote) (hb : Becomes s p.dst (s.node p.dst) server) :
      Move cfg g s h (s.put p.dst server (s.net.eraseIdx k)
        [p.reply (.responseVote (clusterSendResponseVote (s.node p.dst) false))]) h
  /-- a vote is granted -/
  | grant (k : Nat) (p : Packet n) (vote : RequestVote) (server : Server n) (hp : s.net[k]? = some p)
      (hm : p.msg = .requestVote vote) (ht : vote.term = (s.node p.dst).currentTerm)
      (hv : (s.node p.dst).votedFor = [] ∨ (s.node p.dst).votedFor = vote.candidateid)
      (hi : logCurrentIndex (s.node p.dst).log ≤ vote.lastLogIndex)
      (hl : logCurrentTerm (s.node p.dst).log ≤ vote.lastLogTerm)
      (hb : Becomes s p.dst { s.node p.dst with votedFor := vote.candidateid } server) :
      Move cfg g s h (s.put p.dst server (s.net.eraseIdx k)
        [p.reply (.responseVote (clusterSendResponseVote (s.node p.dst) true))]) (h.grant p.dst p.src)
  /-- a vote is counted -/
  | count (k : Nat) (p : Packet n) (vote : ResponseVote) (server : Server n) (hp : s.net[k]? = some p)
      (hm : p.msg = .responseVote vote) (hgr : vote.voteGranted = true)
      (ht : vote.term = (s.node p.dst).currentTerm)
      (hb : Becomes s p.dst { s.node p.dst with votesGranted := (s.node p.dst).votesGranted + 1 } server) :
      Move cfg g s h (s.put p.dst server (s.net.eraseIdx k) []) h
  /-- a response without effect -/
  | ignore (k : Nat) (p : Packet n) (server : Server n) (hp : s.net[k]? = some p)
      (hb : Becomes s p.dst (s.node p.dst) server) : Move cfg g s h (s.put p.dst server (s.net.eraseIdx k) []) h
  /-- an append request of an old term -/
  | stale (k : Nat) (p : Packet n) (entries : AppendEntries) (server : Server n) (hp : s.net[k]? = some p)
      (hm : p.msg = .appendEntries entries) (hb : Becomes s p.dst (s.node p.dst) server) :
      Move cfg g s h (s.put p.dst server (s.net.eraseIdx k)
        [p.reply (.responseAppendEntries (clusterSendResponseAppendEntries (s.node p.dst) false))]) h
  /-- an append request that does not fit the log -/
  | refuse (k : Nat) (p : Packet n) (entries : AppendEntries) (server : Server n) (hp : s.net[k]? = some p)
      (hm : p.msg = .appendEntries entries) (ht : entries.term = (s.node p.dst).currentTerm)
      (hb : Becomes s p.dst (followLeader (s.node p.dst) entries) server) :
      Move cfg g s h (s.put p.dst server (s.net.eraseIdx k)
        [p.reply (.responseAppendEntries
          (clusterSendResponseAppendEntries (followLeader (s.node p.dst) entries) false))]) h
  /-- an append request that is written but not synced -/
  | unsynced (k : Nat) (p : Packet n) (entries : AppendEntries) (server : Server n) (log : LogState)
      (h' : Hist n) (hh : Recorded h p.dst entries log.list h')
      (hp : s.net[k]? = some p) (hm : p.msg = .appendEntries entries)
      (ht : entries.term = (s.node p.dst).currentTerm) (ha : Accepts (s.node p.dst) entries)
      (hl : logAppendEntries (s.node p.dst).log entries.logEntries = some log)
      (hg : g.trunc = true → TruncOk (s.node p.dst) entries)
      (hb : Becomes s p.dst { followLeader (s.node p.dst) entries with log := log } server) :
      Move cfg g s h (s.put p.dst server (s.net.eraseIdx k)
        [p.reply (.responseAppendEntries (clusterSendResponseAppendEntries server.cluster false))]) h'
  /-- an append request that is accepted -/
  | accept (k : Nat) (p : Packet n) (entries : AppendEntries) (server : Server n) (log : LogState)
      (h' : Hist n) (hh : Recorded h p.dst entries log.list h')
      (hp : s.net[k]? = some p) (hm : p.msg = .appendEntries entries)
      (ht : entries.term = (s.node p.dst).currentTerm) (ha : Accepts (s.node p.dst) entries)
      (hl : logAppendEntries (s.node p.dst).log entries.logEntries = some log)
      (hg : g.trunc = true → TruncOk (s.node p.dst) entries)
      (hgc : g.commit = true → CommitOk (s.node p.dst) entries)
      (hb : Becomes s p.dst
        (logCommitIndex { followLeader (s.node p.dst) entries with log := log } entries.leaderCommitIndex) server) :
      Move cfg g s h (s.put p.dst server (s.net.eraseIdx k)
        [p.reply (.responseAppendEntries (clusterSendResponseAppendEntries server.cluster true))]) h'
  /-- a peer is credited with the entry sent last -/
  | credit (k : Nat) (p : Packet n) (entries : ResponseAppendEntries) (server : Server n) (index : Int)
      (hp : s.net[k]? = some p) (hm : p.msg = .responseAppendEntries entries) (hok : entries.ok = true)
      (hl : ((s.node p.dst).nodes p.src).lastSentEntry = some index)
      (hg : g.resp = true → RespOk (s.node p.dst) p.src entries p.answers)
      (hb : Becomes s p.dst ((s.node p.dst).setNode p.src
        { (s.node p.dst).nodes p.src with nextIndex := index + 1, matchIndex := index }) server) :
      Move cfg g s h (s.put p.dst server (s.net.eraseIdx k) []) h
  /-- a peer is sent earlier entries next -/
  | retreat (k : Nat) (p : Packet n) (server : Server n) (hp : s.net[k]? = some p)
      (hb : Becomes s p.dst ((s.node p.dst).setNode p.src
        { (s.node p.dst).nodes p.src with nextIndex := ((s.node p.dst).nodes p.src).nextIndex - 1 }) server) :
      Move cfg g s h (s.put p.dst server (s.net.eraseIdx k) []) h

/-- A sequence of moves, with their histories. -/
abbrev Trace (cfg : Config n) (g : Guard) : Net n × Hist n → Net n × Hist n → Prop :=
  Relation.ReflTransGen fun a b => Move cfg g a.1 a.2 b.1 b.2

/-- A sequence of moves leads from `s` to `s'`, whatever the history. -/
def Moves (cfg : Config n) (g : Guard) (s s' : Net n) : Prop := ∀ h, ∃ h', Trace cfg g (s, h) (s', h')

section

variable {cfg : Config n} {g : Guard} {s s₁ s₂ : Net n}

theorem Moves.refl : Moves cfg g s s := fun h => ⟨h, .refl⟩

/-- One move, whatever the history was. -/
theorem Moves.single (hm : ∀ h, ∃ h', Move cfg g s h s₁ h') : Moves cfg g s s₁ := by
  intro h
  obtain ⟨h', hm⟩ := hm h
  exact ⟨h', .single hm⟩

theorem Moves.trans (hm : Moves cfg g s s₁) (hm' : Moves cfg g s₁ s₂) : Moves cfg g s s₂ := by
  intro h
  obtain ⟨h₁, ht⟩ := hm h
  obtain ⟨h₂, ht'⟩ := hm' h₁
  exact ⟨h₂, ht.trans ht'⟩

/-- **The invariant rule.** What every move preserves, for some history, a sequence of moves preserves. -/
theorem Moves.invariant {P : Net n → Hist n → Prop}
    (hstep : ∀ {s h s' h'}, P s h → Move cfg g s h s' h' → P s' h') (hm : Moves cfg g s s₁) {h : Hist n}
    (hp : P s h) : ∃ h', P s₁ h' := by
  obtain ⟨h', ht⟩ := hm h
  refine ⟨h', ?_⟩
  have : ∀ b, Trace cfg g (s, h) b → P b.1 b.2 := by
    intro b hb
    induction hb with
    | refl => exact hp
    | tail _ hlast ih => exact hstep ih hlast
  exact this _ ht

end

/-! ## Composing changes of one server -/

@[simp] theorem Net.put_servers_self (s : Net n) (i : Fin n) (server : Server n) (rest out : List (Packet n)) :
    (s.put i server rest out).servers i = server := Function.update_self ..

@[simp] theorem Net.put_node_self (s : Net n) (i : Fin n) (server : Server n) (rest out : List (Packet n)) :
    (s.put i server rest out).node i = server.cluster := by simp [Net.node]

theorem Net.put_servers_of_ne (s : Net n) {i j : Fin n} (h : j ≠ i) (server : Server n)
    (rest out : List (Packet n)) : (s.put i server rest out).servers j = s.servers j :=
  Function.update_of_ne h ..

theorem Net.put_node_of_ne (s : Net n) {i j : Fin n} (h : j ≠ i) (server : Server n)
    (rest out : List (Packet n)) : (s.put i server rest out).node j = s.node j := by
  simp [Net.node, Net.put_servers_of_ne s h]

variable {server : Server n} {s : Net n} {i : Fin n} {x : ClusterState n} {p : Packet n} {entries : AppendEntries}
variable {cmd : PrezCommand} {k id : Nat} {argv : List Bytes} {fsync : Bool}

/-- What holds of the server that changes and of all the others holds of every server. -/
theorem Net.forall_server_put {rest out : List (Packet n)} {P : Fin n → Server n → Prop} (hself : P i server)
    (hother : ∀ v, v ≠ i → P v (s.servers v)) : ∀ v, P v ((s.put i server rest out).servers v) :=
  (Function.forall_update_iff s.servers P).mpr ⟨hself, hother⟩

/-- The same, of the cluster states. -/
theorem Net.forall_node_put {rest out : List (Packet n)} {P : Fin n → ClusterState n → Prop}
    (hself : P i server.cluster) (hother : ∀ v, v ≠ i → P v (s.node v)) :
    ∀ v, P v ((s.put i server rest out).node v) :=
  Net.forall_server_put (P := fun v server => P v server.cluster) hself hother

/-- What holds of the packets sent before and of those sent now holds of every packet. -/
theorem Net.forall_sent_put {rest out : List (Packet n)} {P : Packet n → Prop} (hs : ∀ p ∈ s.sent, P p)
    (hout : ∀ p ∈ out, P p) : ∀ p ∈ (s.put i server rest out).sent, P p :=
  fun p hp => (List.mem_append.mp hp).elim (hs p) (hout p)

@[simp] theorem Net.put_net (s : Net n) (i : Fin n) (server : Server n) (rest out : List (Packet n)) :
    (s.put i server rest out).net = rest ++ out := rfl

theorem Net.put_self (s : Net n) (i : Fin n) : s.put i (s.servers i) s.net [] = s := by
  simp [Net.put, Function.update_eq_self]

/-- Two changes of one server in a row are one. -/
theorem Net.put_put (s : Net n) (i : Fin n) (a b : Server n) (rest out₁ out₂ : List (Packet n)) :
    (s.put i a rest out₁).put i b (rest ++ out₁) out₂ = s.put i b rest (out₁ ++ out₂) := by
  simp [Net.put, Function.update_idem]

variable {cfg : Config n} {g : Guard}

/-- A move of server `i` that leaves the wire alone, between two changes of that server. -/
theorem Moves.put_tail {s s₀ : Net n} {a b : Server n} {out₁ out₂ : List (Packet n)}
    (h : Moves cfg g s₀ (s.put i a s.net out₁))
    (h' : Moves cfg g (s.put i a s.net out₁) ((s.put i a s.net out₁).put i b (s.net ++ out₁) out₂)) :
    Moves cfg g s₀ (s.put i b s.net (out₁ ++ out₂)) := by
  rw [Net.put_put] at h'
  exact h.trans h'

/-! ## The apply loop -/

/-- `call` on a client with a command. -/
theorem call_eq {s s' : Server n} {c : Client} (h : call s id = some s') (hc : s.clients id = some c)
    (hcmd : c.cmd = some cmd) : ∃ c', s' = { s with db := execute s.db cmd.proc c.argv }.setClient id (resetClient c') := by
  rw [call, hc, Option.map_some, hcmd] at h
  cases h
  exact ⟨_, rfl⟩

/-- `call` leaves the cluster state alone. -/
theorem call_cluster {s s' : Server n} (h : call s id = some s') :
    s'.cluster = s.cluster ∧ s'.executed = s.executed := by
  obtain ⟨c, -, rfl⟩ := Option.map_eq_some_iff.mp h
  cases c.cmd with
  | none => exact ⟨rfl, rfl⟩
  | some cmd => exact ⟨rfl, rfl⟩

/-- So does the text of an entry, on whichever way out. -/
theorem applyText_cluster {s s' : Server n} {text : Bytes} (h : applyText s text = some s') :
    s'.cluster = s.cluster ∧ s'.executed = s.executed := by
  unfold applyText at h
  repeat' split at h
  all_goals cases h
  all_goals exact ⟨rfl, rfl⟩

/-- `logApply` records the entry it fetched and leaves the cluster state alone. -/
theorem logApply_cluster {s s' : Server n} {index : Int} (h : logApply s index = some s') :
    s'.cluster = s.cluster ∧
      s'.executed = s.executed ++ [(getLogEntry s.cluster.log index).map (·.logEntry)] := by
  unfold logApply at h
  split at h
  · rename_i hentry
    cases h
    rw [hentry]
    exact ⟨rfl, rfl⟩
  · rename_i en hentry
    rw [hentry]
    dsimp only at h
    split at h
    · obtain ⟨s₁, h₁, rfl⟩ := Option.map_eq_some_iff.mp h
      exact call_cluster h₁
    · exact applyText_cluster h

/-- The loop changes nothing of the cluster but `last_applied`. -/
theorem applyLoop_cluster (count : Nat) : ∀ {s s' : Server n}, applyLoop count s = some s' →
    s'.cluster = { s.cluster with lastApplied := s.cluster.lastApplied + count } := by
  induction count with
  | zero =>
    intro s s' h
    cases h
    simp
  | succ count ih =>
    intro s s' h
    obtain ⟨s₁, h₁, h₂⟩ := Option.bind_eq_some_iff.mp h
    rw [ih h₂, (logApply_cluster h₁).1]
    simp only [Nat.cast_add, Nat.cast_one]
    congr 1
    omega

/-- The apply loop is one move for every entry. -/
theorem applyLoop_moves : ∀ (count : Nat) {s : Net n} {server : Server n},
    applyLoop count (s.servers i) = some server →
    count ≤ ((s.node i).commitIndex - (s.node i).lastApplied).toNat → Moves cfg g s (s.put i server s.net []) := by
  intro count
  induction count with
  | zero =>
    intro s server h _
    cases h
    rw [Net.put_self]
    exact .refl
  | succ count ih =>
    intro s server h hle
    -- one move for this turn, then the rest of the loop from the server it leaves
    obtain ⟨server₁, h₁, h₂⟩ := Option.bind_eq_some_iff.mp h
    obtain ⟨hc, he⟩ := logApply_cluster h₁
    have hmove : Moves cfg g s (s.put i server₁ s.net []) :=
      .single fun h => ⟨h, .apply i server₁ (by omega) hc he⟩
    have hrest := ih (s := s.put i server₁ s.net []) (by simpa using h₂)
      (by rw [Net.put_node_self, hc]; simp only [Net.node] at hle ⊢; omega)
    rw [Net.put_net, Net.put_put] at hrest
    exact hmove.trans hrest

/-! ## The rest of the timer -/

/-- An election timeout is a campaign, or nothing. -/
theorem startElection_moves (inp : CronInput n) (server : Server n)
    (hb : Becomes s i (startElection cfg i inp (s.node i)).1 server) :
    Moves cfg g s (s.put i server s.net
      ((startElection cfg i inp (s.node i)).2.map fun (j, msg) => ⟨i, j, msg, none⟩)) := by
  by_cases hgo : (s.node i).state ≠ .leader ∧ inp.timeout = true
  · exact .single fun _ => ⟨_, .campaign i server inp hgo.1 hgo.2 hb⟩
  · have hstay : startElection cfg i inp (s.node i) = (s.node i, []) := by
      rw [startElection, if_neg hgo]
    rw [hstay] at hb ⊢
    exact .single fun _ => ⟨_, .idle i server hb⟩

/-- A candidate is elected, or nothing happens. -/
theorem becomeLeader_moves (server : Server n) (hb : Becomes s i (becomeLeader cfg i (s.node i)) server) :
    Moves cfg g s (s.put i server s.net []) := by
  by_cases hgo : (s.node i).state = .candidate ∧ quorumSize n ≤ (s.node i).votesGranted
  · exact .single fun _ => ⟨_, .elect i server hgo.1 hgo.2 hb⟩
  · rw [becomeLeader, if_neg hgo] at hb
    exact .single fun _ => ⟨_, .idle i server hb⟩

/-- The heartbeats are one move for every peer. -/
theorem sendHeartbeats_moves : ∀ (js : List (Fin n)) {s : Net n} (server : Server n),
    (∀ j ∈ js, j ≠ i) → (s.node i).state = .leader →
    Becomes s i (sendHeartbeats cfg i js (s.node i)).1 server →
      Moves cfg g s (s.put i server s.net
        ((sendHeartbeats cfg i js (s.node i)).2.map fun (j, msg) => ⟨i, j, msg, none⟩)) := by
  intro js
  induction js with
  | nil =>
    intro s server _ _ hb
    exact .single fun _ => ⟨_, .idle i server hb⟩
  | cons j js ih =>
    intro s server hjs hs hb
    have hj : j ≠ i := hjs j List.mem_cons_self
    -- the server between the first heartbeat and the others
    let mid : Server n := { s.servers i with cluster := (clusterSendAppendEntries cfg i j (s.node i)).1 }
    have hmid : Becomes s i (clusterSendAppendEntries cfg i j (s.node i)).1 mid := ⟨rfl, rfl⟩
    have hmove : Moves cfg g s _ := .single fun _ => ⟨_, .heartbeat i j mid hs hj hmid⟩
    have hrest := ih (s := s.put i mid s.net
        [⟨i, j, .appendEntries (clusterSendAppendEntries cfg i j (s.node i)).2, none⟩]) server
      (fun k hk => hjs k (List.mem_cons_of_mem _ hk)) (by rw [Net.put_node_self]; exact hs)
      ⟨by rw [Net.put_node_self]; exact hb.cluster, by rw [Net.put_servers_self]; exact hb.executed⟩
    rw [Net.put_node_self, Net.put_net] at hrest
    exact hmove.put_tail hrest

/-- A leader moves its commit index and then sends its heartbeats. -/
theorem leaderTick_moves (inp : CronInput n) (server : Server n) (hg : g.commit = true → SortOk (s.node i))
    (hb : Becomes s i (leaderTick cfg i inp (s.node i)).1 server) :
    Moves cfg g s (s.put i server s.net
      ((leaderTick cfg i inp (s.node i)).2.map fun (j, msg) => ⟨i, j, msg, none⟩)) := by
  by_cases hs : (s.node i).state = .leader
  · have htick : leaderTick cfg i inp (s.node i) = sendHeartbeats cfg i
        ((List.finRange n).filter fun j => j != i && inp.linked j && inp.due j)
        (clusterUpdateCommitIndex (s.node i)) := by rw [leaderTick, if_pos hs]
    rw [htick] at hb ⊢
    -- first the commit index, then the heartbeats, which carry it
    let mid : Server n := { s.servers i with cluster := clusterUpdateCommitIndex (s.node i) }
    have hmid : Becomes s i (clusterUpdateCommitIndex (s.node i)) mid := ⟨rfl, rfl⟩
    have hleader : (clusterUpdateCommitIndex (s.node i)).state = .leader := by
      rw [clusterUpdateCommitIndex_state]
      exact hs
    have hrest : Moves cfg g _ _ := sendHeartbeats_moves
      ((List.finRange n).filter fun j => j != i && inp.linked j && inp.due j)
      (s := s.put i mid s.net []) server
      (by
        intro j hj
        have := (List.mem_filter.mp hj).2
        simp only [Bool.and_eq_true, bne_iff_ne] at this
        exact this.1.1)
      (by rw [Net.put_node_self]; exact hleader)
      ⟨by rw [Net.put_node_self]; exact hb.cluster, by rw [Net.put_servers_self]; exact hb.executed⟩
    rw [Net.put_node_self, Net.put_net] at hrest
    exact Moves.put_tail (.single fun _ => ⟨_, .commit i mid hs hg hmid⟩) hrest
  · have htick : leaderTick cfg i inp (s.node i) = (s.node i, []) := by rw [leaderTick, if_neg hs]
    rw [htick] at hb ⊢
    exact .single fun _ => ⟨_, .idle i server hb⟩

theorem startElection_lastApplied (inp : CronInput n) (i : Fin n) (x : ClusterState n) (k : Int) :
    (startElection cfg i inp { x with lastApplied := k }).1 =
      { (startElection cfg i inp x).1 with lastApplied := k } := by
  by_cases hgo : x.state ≠ .leader ∧ inp.timeout = true
  · rw [startElection, if_pos hgo, startElection, if_pos hgo]
    rfl
  · rw [startElection, if_neg hgo, startElection, if_neg hgo]

theorem becomeLeader_lastApplied (i : Fin n) (x : ClusterState n) (k : Int) :
    becomeLeader cfg i { x with lastApplied := k } = { becomeLeader cfg i x with lastApplied := k } := by
  by_cases hgo : x.state = .candidate ∧ quorumSize n ≤ x.votesGranted
  · rw [becomeLeader, if_pos hgo, becomeLeader, if_pos hgo]
  · rw [becomeLeader, if_neg hgo, becomeLeader, if_neg hgo]

/-- The election does not look at `last_applied`. -/
theorem cronLeader_lastApplied (inp : CronInput n) (i : Fin n) (x : ClusterState n) (k : Int) :
    cronLeader cfg i inp { x with lastApplied := k } = { cronLeader cfg i inp x with lastApplied := k } := by
  rw [cronLeader, startElection_lastApplied, becomeLeader_lastApplied, cronLeader]

/-- A call of `clusterCron` is a sequence of moves. -/
theorem clusterCron_moves {inp : CronInput n} {out : List (Fin n × Message)}
    (hg : g.commit = true → SortOk (cronLeader cfg i inp (s.node i)))
    (h : clusterCron cfg i inp (s.servers i) = some (server, out)) :
    Moves cfg g s (s.put i server s.net (out.map fun (j, msg) => ⟨i, j, msg, none⟩)) := by
  obtain ⟨server₁, h₁, h⟩ := Option.map_eq_some_iff.mp h
  have happly : Moves cfg g s (s.put i server₁ s.net []) := applyLoop_moves _ h₁ le_rfl
  have hc₁ := applyLoop_cluster _ h₁
  cases h
  -- the election, the promotion and the leader's part follow on the server the apply loop left
  let x₂ := (startElection cfg i inp server₁.cluster).1
  let x₃ := becomeLeader cfg i x₂
  let server₂ : Server n := { server₁ with cluster := x₂ }
  let server₃ : Server n := { server₁ with cluster := x₃ }
  let wire : Fin n × Message → Packet n := fun (j, msg) => ⟨i, j, msg, none⟩
  let requests := (startElection cfg i inp server₁.cluster).2.map wire
  -- the condition speaks of the state before the apply loop, which changes `last_applied` only
  have hsort : g.commit = true → SortOk x₃ := by
    intro hgc
    have hx₃ : x₃ = cronLeader cfg i inp server₁.cluster := rfl
    rw [hx₃, hc₁, cronLeader_lastApplied]
    exact hg hgc
  have helection : Moves cfg g s (s.put i server₂ s.net requests) := by
    have hmove : Moves cfg g (s.put i server₁ s.net []) _ := startElection_moves inp server₂
      ⟨by rw [Net.put_node_self], by rw [Net.put_servers_self]⟩
    rw [Net.put_node_self, Net.put_net] at hmove
    exact happly.put_tail hmove
  have hpromote : Moves cfg g s (s.put i server₃ s.net requests) := by
    have hmove : Moves cfg g (s.put i server₂ s.net requests) _ := becomeLeader_moves server₃
      ⟨by rw [Net.put_node_self], by rw [Net.put_servers_self]⟩
    rw [Net.put_net] at hmove
    have := helection.put_tail hmove
    rwa [List.append_nil] at this
  have htick : Moves cfg g (s.put i server₃ s.net requests) _ := leaderTick_moves inp
    { server₁ with cluster := (leaderTick cfg i inp x₃).1 } (by rw [Net.put_node_self]; exact hsort)
    ⟨by rw [Net.put_node_self], by rw [Net.put_servers_self]⟩
  rw [Net.put_node_self, Net.put_net] at htick
  have := hpromote.put_tail htick
  rw [← List.map_append] at this
  exact this

/-! ## Requests -/

/-- A leader writes one entry of its term; if it is alone, it commits it. -/
theorem clusterProcessCommand_write {s s' : Server n} (hl : s.cluster.state = .leader)
    (h : clusterProcessCommand s id cmd argv = some s') :
    ∃ e log, Writes s.cluster e log ∧ s'.executed = s.executed ∧
      s'.cluster = if n = 1 then logCommitIndex { s.cluster with log := log } (logCurrentIndex log)
        else { s.cluster with log := log } := by
  unfold clusterProcessCommand at h
  obtain ⟨name, -, h⟩ := Option.bind_eq_some_iff.mp h
  obtain ⟨command, -, h⟩ := Option.bind_eq_some_iff.mp h
  obtain ⟨log, hlog, h⟩ := Option.bind_eq_some_iff.mp h
  refine ⟨_, log, ⟨hl, rfl, rfl, hlog⟩, ?_⟩
  by_cases hn : n = 1
  · rw [if_pos hn] at h ⊢
    cases h
    exact ⟨rfl, rfl⟩
  · rw [if_neg hn] at h ⊢
    cases h
    rcases addProcClient_cases _ _ id with heq | heq <;> rw [heq] <;> exact ⟨rfl, rfl⟩

/-- Only a write command touches the keyspace. -/
theorem execute_read {name : Bytes} (hl : lookupCommand name = some cmd) (hr : cmd.write ≠ true) (db : Keyspace)
    (argv : List Bytes) : execute db cmd.proc argv = db := by
  rcases lookupCommand_mem hl with rfl | rfl | rfl
  · rfl
  · exact absurd rfl hr
  · rfl

/-- `call` on a read command answers and resets its client. -/
theorem call_read {s s' : Server n} {c : Client} (hread : execute s.db cmd.proc c.argv = s.db)
    (hcmd : c.cmd = some cmd) (h : call (s.setClient id c) id = some s') :
    ∃ c', s' = s.setClient id (resetClient c') := by
  obtain ⟨c', rfl⟩ := call_eq h (Function.update_self ..) hcmd
  refine ⟨c', ?_⟩
  show { s with db := execute s.db _ _, clients := Function.update (Function.update s.clients id _) id _ } = _
  rw [hread, Function.update_idem]
  rfl

/-- **What a command does**: it is answered and its client reset, or a leader takes it as a write. -/
theorem processCommand_cases {s s' : Server n} {c : Client} (hne : c.argv ≠ []) (h : processCommand s id c = some s') :
    ¬ TakesWrite s c.argv ∧ (∃ c', s' = s.setClient id (resetClient c')) ∨
      TakesWrite s c.argv ∧ ∃ cmd, checkCommand c.argv = some cmd ∧
        clusterProcessCommand (s.setClient id { c with cmd := some cmd }) id cmd c.argv = some s' := by
  unfold TakesWrite isWrite
  rw [checkCommand_eq hne]
  -- the tests of `processCommand` in their order
  unfold processCommand at h
  dsimp only at h
  split at h
  · rename_i hlookup
    cases h
    rw [hlookup]
    exact .inl ⟨fun htakes => (nomatch htakes.2), _, rfl⟩
  rename_i cmd hlookup
  rw [hlookup, Option.filter_some]
  split at h
  · rename_i harity
    cases h
    rw [harity]
    exact .inl ⟨fun htakes => (nomatch htakes.2), _, rfl⟩
  rename_i harity
  rw [if_pos (Bool.eq_true_of_not_eq_false harity)]
  split at h
  · rename_i hwrite
    split at h
    · rename_i hstate
      cases h
      exact .inl ⟨fun htakes => (nomatch hstate.symm.trans htakes.1), _, rfl⟩
    · rename_i hstate
      cases h
      exact .inl ⟨fun htakes => (nomatch hstate.symm.trans htakes.1), _, rfl⟩
    · rename_i hstate
      exact .inr ⟨⟨hstate, hwrite⟩, cmd, rfl, h⟩
  · rename_i hread
    exact .inl ⟨fun htakes => hread htakes.2, call_read (execute_read hlookup hread ..) rfl h⟩

/-- **What a request does**: it changes its client only, or a leader takes it as a write. -/
theorem processRequest_cases {s s' : Server n} {kind : ReqType} (h : processRequest s id kind argv = some s') :
    (∃ c₀, s.clients id = some c₀) ∧ (¬ TakesWrite s argv ∧ (∃ c, s' = s.setClient id c) ∨
      TakesWrite s argv ∧ ∃ c cmd, c.argv = argv ∧ c.cmd = some cmd ∧ checkCommand argv = some cmd ∧
        clusterProcessCommand (s.setClient id c) id cmd c.argv = some s') := by
  obtain ⟨c₀, hc₀, h⟩ := Option.bind_eq_some_iff.mp h
  refine ⟨⟨c₀, hc₀⟩, ?_⟩
  split at h
  · cases h
  split at h
  · cases h
  split at h
  · rename_i hnil
    cases h
    rw [hnil]
    exact .inl ⟨fun htakes => (nomatch htakes.2), _, rfl⟩
  · rename_i hne
    obtain ⟨hnot, c, rfl⟩ | ⟨htakes, cmd, hcheck, h⟩ := processCommand_cases hne h
    · exact .inl ⟨hnot, _, rfl⟩
    · exact .inr ⟨htakes, _, cmd, rfl, rfl, hcheck, h⟩

/-- **Every event at a server is a sequence of moves.** -/
theorem handle_moves {e : Event n} {out : List (Fin n × Message)} (hok : StepOk cfg g s (.event i e))
    (h : (s.servers i).handle cfg i e = some (server, out)) :
    Moves cfg g s (s.put i server s.net (out.map fun (j, msg) => ⟨i, j, msg, none⟩)) := by
  cases e with
  | cron inp => exact clusterCron_moves hok h
  | connect =>
    cases h
    exact .single fun _ => ⟨_, .idle i _ ⟨rfl, rfl⟩⟩
  | disconnect id =>
    cases h
    exact .single fun _ => ⟨_, .idle i _ ⟨rfl, rfl⟩⟩
  | request id kind argv =>
    obtain ⟨server', h', heq⟩ := Option.map_eq_some_iff.mp h
    cases heq
    obtain ⟨-, ⟨-, c, rfl⟩ | ⟨htakes, c, cmd, -, -, -, hwrite⟩⟩ := processRequest_cases h'
    · exact .single fun _ => ⟨_, .idle i _ ⟨rfl, rfl⟩⟩
    · obtain ⟨e, log, hw, he, hc⟩ := clusterProcessCommand_write (s := (s.servers i).setClient id c) htakes.1 hwrite
      exact .single fun _ => ⟨_, .write i server e log hw ⟨hc, he⟩⟩

/-! ## Messages -/

/-- With a log without gaps, the new commit index is the smaller of the leader's and the log's. -/
theorem logCommitIndex_eq (x : ClusterState n) {leaderCommitIndex : Int} (hc : Contiguous x.log.list)
    (hnew : x.commitIndex < leaderCommitIndex) :
    logCommitIndex x leaderCommitIndex = { x with commitIndex := min leaderCommitIndex (logLength x.log) } := by
  rw [logCommitIndex, if_pos hnew, hc.currentIndex]
  congr 1
  split <;> omega

/-- Server `i` has seen term `t`. -/
def Net.entered (s : Net n) (i : Fin n) (t : Int) : Net n :=
  s.put i { s.servers i with cluster := (s.node i).enterTerm t } s.net []

theorem Net.entered_net (s : Net n) (i : Fin n) (t : Int) : (s.entered i t).net = s.net := List.append_nil _

theorem Net.entered_node (s : Net n) (i : Fin n) (t : Int) : (s.entered i t).node i = (s.node i).enterTerm t :=
  Net.put_node_self ..

theorem Becomes.entered (h : Becomes s i x server) (t : Int) : Becomes (s.entered i t) i x server :=
  ⟨h.cluster, by rw [h.executed, Net.entered, Net.put_servers_self]⟩

/-- A handler that first sees a higher term makes two moves. -/
theorem Moves.enter_head {t : Int} {rest out : List (Packet n)} (ht : (s.node i).currentTerm < t)
    (h : Moves cfg g (s.entered i t) ((s.entered i t).put i server rest out)) :
    Moves cfg g s (s.put i server rest out) := by
  have hput : (s.entered i t).put i server rest out = s.put i server rest out := by
    simp [Net.entered, Net.put, Function.update_idem]
  rw [hput] at h
  have hmove : Moves cfg g s (s.entered i t) := .single fun _ => ⟨_, .enter i _ t ht ⟨rfl, rfl⟩⟩
  exact hmove.trans h

/-- The last test of a vote request: the logs are compared. -/
theorem voteOnLog_moves {vote : RequestVote} (hp : s.net[k]? = some p) (hm : p.msg = .requestVote vote)
    (ht : vote.term = (s.node p.dst).currentTerm)
    (hv : (s.node p.dst).votedFor = [] ∨ (s.node p.dst).votedFor = vote.candidateid)
    (hb : Becomes s p.dst (voteOnLog (s.node p.dst) vote).1 server) :
    Moves cfg g s (s.put p.dst server (s.net.eraseIdx k)
      [p.reply (.responseVote (voteOnLog (s.node p.dst) vote).2)]) := by
  by_cases hlog : logCurrentIndex (s.node p.dst).log > vote.lastLogIndex ∨
      logCurrentTerm (s.node p.dst).log > vote.lastLogTerm
  · rw [voteOnLog, if_pos hlog] at hb ⊢
    exact .single fun _ => ⟨_, .deny k p vote server hp hm hb⟩
  · rw [voteOnLog, if_neg hlog] at hb ⊢
    rw [not_or, not_lt, not_lt] at hlog
    exact .single fun _ => ⟨_, .grant k p vote server hp hm ht hv hlog.1 hlog.2 hb⟩

/-- A vote request is denied or granted, after its term has been seen. -/
theorem requestVote_moves {vote : RequestVote} (hp : s.net[k]? = some p) (hm : p.msg = .requestVote vote)
    (hb : Becomes s p.dst (clusterProcessRequestVote (s.node p.dst) vote).1 server) :
    Moves cfg g s (s.put p.dst server (s.net.eraseIdx k)
      [p.reply (.responseVote (clusterProcessRequestVote (s.node p.dst) vote).2)]) := by
  unfold clusterProcessRequestVote at hb ⊢
  split at hb
  · rename_i hlt
    rw [if_pos hlt]
    exact .single fun _ => ⟨_, .deny k p vote server hp hm hb⟩
  rename_i hlt
  rw [if_neg hlt]
  split at hb
  · -- a higher term: the server enters it and votes as one that has not voted
    rename_i hgt
    rw [if_pos hgt]
    have hmoves : Moves cfg g (s.entered p.dst vote.term) _ := voteOnLog_moves (k := k)
      (by rw [Net.entered_net]; exact hp) hm (by rw [Net.entered_node]; rfl)
      (.inl (by rw [Net.entered_node]; rfl)) (by rw [Net.entered_node]; exact hb.entered _)
    rw [Net.entered_net, Net.entered_node] at hmoves
    exact hmoves.enter_head hgt
  rename_i hgt
  rw [if_neg hgt]
  split at hb
  · rename_i hother
    rw [if_pos hother]
    exact .single fun _ => ⟨_, .deny k p vote server hp hm hb⟩
  · rename_i hfree
    rw [if_neg hfree]
    exact voteOnLog_moves hp hm (by omega) (by tauto) hb

/-- A message that does no more than raise the term. -/
theorem ignore_moves {t : Int} (hp : s.net[k]? = some p) (ht : (s.node p.dst).currentTerm < t)
    (hb : Becomes s p.dst ((s.node p.dst).enterTerm t) server) :
    Moves cfg g s (s.put p.dst server (s.net.eraseIdx k) []) := by
  have hmove : Moves cfg g (s.entered p.dst t) _ := .single fun _ => ⟨_, .ignore k p server
    (by rw [Net.entered_net]; exact hp) (by rw [Net.entered_node]; exact hb.entered _)⟩
  rw [Net.entered_net] at hmove
  exact hmove.enter_head ht

/-- A vote is counted, or it is for another term or refused. -/
theorem responseVote_moves {vote : ResponseVote} (hp : s.net[k]? = some p) (hm : p.msg = .responseVote vote)
    (hb : Becomes s p.dst (clusterProcessResponseVote (s.node p.dst) vote) server) :
    Moves cfg g s (s.put p.dst server (s.net.eraseIdx k) []) := by
  unfold clusterProcessResponseVote at hb
  split at hb
  · rename_i hcount
    exact .single fun _ => ⟨_, .count k p vote server hp hm hcount.1 hcount.2 hb⟩
  split at hb
  · rename_i hgt
    exact ignore_moves hp hgt hb
  · exact .single fun _ => ⟨_, .ignore k p server hp hb⟩

/-- An append response credits the peer, goes back by one entry, or raises the term. -/
theorem responseAppendEntries_moves {entries : ResponseAppendEntries} (hp : s.net[k]? = some p)
    (hm : p.msg = .responseAppendEntries entries) (hg : g.resp = true → RespOk (s.node p.dst) p.src entries p.answers)
    (hb : Becomes s p.dst (clusterProcessResponseAppendEntries (s.node p.dst) p.src entries) server) :
    Moves cfg g s (s.put p.dst server (s.net.eraseIdx k) []) := by
  unfold clusterProcessResponseAppendEntries at hb
  split at hb
  · rename_i hok
    cases hlast : ((s.node p.dst).nodes p.src).lastSentEntry with
    | some index =>
      rw [hlast] at hb
      exact .single fun _ => ⟨_, .credit k p entries server index hp hm hok hlast hg hb⟩
    | none =>
      rw [hlast] at hb
      exact .single fun _ => ⟨_, .ignore k p server hp hb⟩
  split at hb
  · rename_i hgt
    exact ignore_moves hp hgt hb
  · exact .single fun _ => ⟨_, .retreat k p server hp hb⟩

/-- Seeing a term and then its leader is seeing its leader. -/
theorem followLeader_enterTerm (ht : x.currentTerm < entries.term) :
    followLeader (x.enterTerm entries.term) entries = followLeader x entries := by
  rw [followLeader, followLeader, if_neg ht.ne']
  exact if_pos rfl

/-- A message of a higher term has the effect of seeing the term and then handling the message. -/
theorem clusterProcessAppendEntries_enterTerm (fsync : Bool) (ht : x.currentTerm < entries.term) :
    clusterProcessAppendEntries (x.enterTerm entries.term) entries fsync =
      clusterProcessAppendEntries x entries fsync := by
  rw [clusterProcessAppendEntries, followLeader_enterTerm ht, clusterProcessAppendEntries,
    if_neg (not_lt.mpr ht.le)]
  exact if_neg (lt_irrefl entries.term)

theorem Accepts.of_enterTerm (ht : x.currentTerm < entries.term) (h : Accepts (x.enterTerm entries.term) entries) :
    Accepts x entries := ⟨ht.le, h.2⟩

/-- An append request of the receiver's own term. -/
theorem appendEntries_moves_of_eq {response : ResponseAppendEntries} (hp : s.net[k]? = some p)
    (hm : p.msg = .appendEntries entries) (ht : entries.term = (s.node p.dst).currentTerm)
    (hg : g.trunc = true → TruncOk (s.node p.dst) entries) (hgc : g.commit = true → CommitOk (s.node p.dst) entries)
    (h : clusterProcessAppendEntries (s.node p.dst) entries fsync = some (x, response))
    (hb : Becomes s p.dst x server) :
    Moves cfg g s (s.put p.dst server (s.net.eraseIdx k) [p.reply (.responseAppendEntries response)]) := by
  obtain ⟨hresponse, ⟨hlt, -⟩ | ⟨hterm, ⟨-, rfl, hno⟩ | ⟨hverify, log, hlog, hfsync, rfl⟩⟩⟩ :=
    clusterProcessAppendEntries_cases h
  · exact absurd ht hlt.ne
  · rw [hresponse, hno]
    exact .single fun _ => ⟨_, .refuse k p entries server hp hm ht hb⟩
  refine .single fun h => ?_
  obtain ⟨h', hh⟩ := recorded_exists h p.dst entries log.list
  rw [hresponse, hfsync, ← hb.cluster]
  cases fsync with
  | true => exact ⟨h', .accept k p entries server log h' hh hp hm ht ⟨hterm, hverify⟩ hlog hg hgc hb⟩
  | false => exact ⟨h', .unsynced k p entries server log h' hh hp hm ht ⟨hterm, hverify⟩ hlog hg hb⟩

/-- An append request of any term. -/
theorem appendEntries_moves {response : ResponseAppendEntries} (hp : s.net[k]? = some p)
    (hm : p.msg = .appendEntries entries) (hg : g.trunc = true → TruncOk (s.node p.dst) entries)
    (hgc : g.commit = true → CommitOk (s.node p.dst) entries)
    (h : clusterProcessAppendEntries (s.node p.dst) entries fsync = some (x, response))
    (hb : Becomes s p.dst x server) :
    Moves cfg g s (s.put p.dst server (s.net.eraseIdx k) [p.reply (.responseAppendEntries response)]) := by
  rcases lt_trichotomy entries.term (s.node p.dst).currentTerm with hlt | heq | hgt
  · rw [clusterProcessAppendEntries, if_pos hlt] at h
    cases h
    exact .single fun _ => ⟨_, .stale k p entries server hp hm hb⟩
  · exact appendEntries_moves_of_eq hp hm heq hg hgc h hb
  · -- the conditions on the message do not look at the term of the receiver
    rw [← clusterProcessAppendEntries_enterTerm fsync hgt] at h
    have hmoves : Moves cfg g (s.entered p.dst entries.term) _ := appendEntries_moves_of_eq
      (by rw [Net.entered_net]; exact hp) hm (by rw [Net.entered_node]; rfl)
      (by
        rw [Net.entered_node]
        exact fun hgt' ha => hg hgt' (ha.of_enterTerm hgt))
      (by
        rw [Net.entered_node]
        exact fun hgc' ha => hgc hgc' (ha.of_enterTerm hgt))
      (by rw [Net.entered_node]; exact h) (hb.entered _)
    rw [Net.entered_net] at hmoves
    exact hmoves.enter_head hgt

/-- **Every message that is delivered is a sequence of moves.** -/
theorem receive_moves {response : Option Message} (hok : StepOk cfg g s (.deliver k fsync)) (hp : s.net[k]? = some p)
    (h : (s.servers p.dst).receive p.src p.msg fsync = some (server, response)) :
    Moves cfg g s (s.put p.dst server (s.net.eraseIdx k) (response.toList.map p.reply)) := by
  have hok := hok p hp
  rcases hm : p.msg with vote | vote | entries | entries
  all_goals
    rw [hm] at h hok
    unfold Server.receive at h
  · cases h
    exact requestVote_moves hp hm ⟨rfl, rfl⟩
  · cases h
    exact responseVote_moves hp hm ⟨rfl, rfl⟩
  · obtain ⟨⟨x, r⟩, hx, heq⟩ := Option.map_eq_some_iff.mp h
    cases heq
    exact appendEntries_moves hp hm hok.1 hok.2 hx ⟨rfl, rfl⟩
  · cases h
    exact responseAppendEntries_moves hp hm hok ⟨rfl, rfl⟩

/-- **Every step other than a restart is a sequence of moves.** -/
theorem moves_of_step {s s' : Net n} {a : Action n} (ha : a.CrashFree) (hok : StepOk cfg g s a)
    (h : s.step cfg a = some s') : Moves cfg g s s' := by
  cases a with
  | event i e =>
    obtain ⟨⟨server, out⟩, hhandle, rfl⟩ := Option.map_eq_some_iff.mp h
    exact handle_moves hok hhandle
  | deliver k fsync =>
    obtain ⟨p, hp, h⟩ := Option.bind_eq_some_iff.mp h
    obtain ⟨⟨server, response⟩, hreceive, rfl⟩ := Option.map_eq_some_iff.mp h
    exact receive_moves hok hp hreceive
  | restart i mem nodes => exact ha.elim

/-- The steps of a run without restarts that meet the conditions asked for. -/
def Good (cfg : Config n) (g : Guard) (s : Net n) (a : Action n) : Prop := a.CrashFree ∧ StepOk cfg g s a

instance (cfg : Config n) (g : Guard) (s : Net n) (a : Action n) : Decidable (Good cfg g s a) :=
  inferInstanceAs (Decidable (_ ∧ _))

/-- **Every run is a sequence of moves.** -/
theorem moves_of_run {s s' : Net n} (hr : RunIf cfg (Good cfg g) s s') : Moves cfg g s s' := by
  induction hr with
  | refl => exact .refl
  | tail _ hstep ih =>
    obtain ⟨a, ⟨ha, hok⟩, h⟩ := hstep
    exact ih.trans (moves_of_step ha hok h)

/-- Nothing is asked of the steps. -/
def Guard.none : Guard := ⟨false, false, false⟩

/-- A step without restart always meets the empty condition. -/
theorem good_of_crashFree {a : Action n} (ha : a.CrashFree) : Good cfg .none s a := by
  refine ⟨ha, ?_⟩
  cases a with
  | event i e =>
    cases e with
    | cron inp => exact fun hc => nomatch hc
    | _ => trivial
  | deliver k fsync =>
    intro p _
    cases p.msg with
    | appendEntries entries => exact ⟨nofun, nofun⟩
    | responseAppendEntries entries => exact fun hc => nomatch hc
    | _ => trivial
  | restart i mem nodes => trivial

end Prez
