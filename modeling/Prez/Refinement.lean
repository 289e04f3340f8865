import Prez.Moves
import Prez.Log.Reconcile

/-!
# `Prez.Refinement` — the keyspace of a node is the replay of its applied log

One node, with any clients and any messages from its peers. The abstract node is nothing but a sequence of
command texts, the entries up to `last_applied`; its keyspace is what `replay` makes of them from the empty
one. A leader takes the other way: it runs the arguments that the waiting client still holds. The two ways
agree as long as those arguments stay in place and are what the entry of the index decodes to. `NodeOk`
collects what a step must not do for that, and `node_refines_log` is the result over whole runs.

The table `proc_clients` is keyed by index and is emptied only by `logApply`, so a client can go on with its
next request, or leave, while its index is still in the table (`pipelined_write_lost`).
-/

namespace Prez

open Lib

variable {n : Nat}

/-! ## The abstract node -/

/-- What the text of an entry does to the keyspace. -/
def runText (db : Keyspace) (text : Bytes) : Keyspace :=
  match sdssplitargs text with
  | none => db
  | some argv => (checkCommand argv).elim db fun cmd => execute db cmd.proc argv

/-- The commands of the entries, executed in order from the empty keyspace. -/
def replay (entries : List LogEntry) : Keyspace :=
  entries.foldl (fun db e => runText db e.command.bytes) fun _ => none

/-- The entries that the node has applied. -/
def Server.applied (s : Server n) : List LogEntry := s.cluster.log.list.take s.cluster.lastApplied.toNat

/-- Client `id` holds the command that the entry at `index` decodes to. -/
def HoldsEntry (s : Server n) (index : Int) (id : Nat) : Prop :=
  ∃ c cmd e, s.clients id = some c ∧ c.cmd = some cmd ∧ s.cluster.log.list[(index - 1).toNat]? = some e ∧
    sdssplitargs e.command.bytes = some c.argv ∧ checkCommand c.argv = some cmd

theorem replay_concat (l : List LogEntry) (e : LogEntry) : replay (l ++ [e]) = runText (replay l) e.command.bytes := by
  rw [replay, List.foldl_concat]
  rfl

/-! ## Steps of one node -/

/-- What happens to a node: an event of its own, or a message from a peer. -/
inductive NodeEvent (n : Nat) where
  | event (e : Event n)
  | message (j : Fin n) (msg : Message) (fsync : Bool)

/-- The node after the event. -/
def Server.next (cfg : Config n) (i : Fin n) (s : Server n) : NodeEvent n → Option (Server n)
  | .event e => (s.handle cfg i e).map (·.1)
  | .message j msg fsync => (s.receive j msg fsync).map (·.1)

/-- A run of one node whose steps all meet a condition. -/
abbrev NodeRunIf (cfg : Config n) (i : Fin n) (ok : Server n → NodeEvent n → Prop) : Server n → Server n → Prop :=
  RunBy (Server.next cfg i) ok

/-- The client stands in `proc_clients` at an index that is not applied yet. -/
def Waits (s : Server n) (id : Nat) : Prop := ∃ p ∈ s.procClients, s.cluster.lastApplied < p.1 ∧ p.2 = id
deriving Decidable

/-- A leader does not hear from a client that waits, and a write it takes has a text that decodes to it. -/
def RequestOk (s : Server n) (id : Nat) (argv : List Bytes) : Prop :=
  s.cluster.state = .leader → ¬ Waits s id ∧ (isWrite argv = true → RoundTrips argv)
deriving Decidable

/-- When the node acts as leader, no match index is beyond its log; when it becomes leader, no client is
    left in the table beyond the commit index. -/
def CronOk (cfg : Config n) (i : Fin n) (inp : CronInput n) (s : Server n) : Prop :=
  (cronLeader cfg i inp s.cluster).state = .leader →
    (∀ j, ((cronLeader cfg i inp s.cluster).nodes j).matchIndex ≤ logLength s.cluster.log) ∧
    (s.cluster.state ≠ .leader → ∀ p ∈ s.procClients, p.1 ≤ s.cluster.commitIndex)
deriving Decidable

/-- An accepted message carries the entries behind `prev_log_index`. Its first conflict is not at the last
    entry of the log, none is at a committed index, and on a leader none is at an index that a client waits
    for. -/
def AppendOk (s : Server n) (entries : AppendEntries) : Prop :=
  Accepts s.cluster entries →
    0 ≤ entries.prevLogIndex ∧ Consecutive entries.prevLogIndex entries.logEntries ∧
    TruncOk s.cluster entries ∧
    ∀ e ∈ entries.logEntries, Conflicts s.cluster.log.list e = true →
      s.cluster.commitIndex < e.index ∧
      (s.cluster.state = .leader → ∀ p ∈ s.procClients, s.cluster.lastApplied < p.1 → p.1 < e.index)
deriving Decidable

/-- The condition on a step. -/
def NodeOk (cfg : Config n) (i : Fin n) (s : Server n) : NodeEvent n → Prop
  | .event (.cron inp) => CronOk cfg i inp s
  | .event .connect => True
  | .event (.request id _ argv) => RequestOk s id argv
  | .event (.disconnect id) => s.cluster.state = .leader → ¬ Waits s id
  | .message _ (.appendEntries entries) _ => AppendOk s entries
  | .message _ _ _ => True

instance (cfg : Config n) (i : Fin n) (s : Server n) : ∀ a, Decidable (NodeOk cfg i s a)
  | .event (.cron inp) => inferInstanceAs (Decidable (CronOk cfg i inp s))
  | .event .connect | .message _ (.requestVote _) _ | .message _ (.responseVote _) _ |
    .message _ (.responseAppendEntries _) _ => instDecidableTrue
  | .event (.request id _ argv) => inferInstanceAs (Decidable (RequestOk s id argv))
  | .event (.disconnect _) => inferInstanceAs (Decidable (_ → _))
  | .message _ (.appendEntries entries) _ => inferInstanceAs (Decidable (AppendOk s entries))

/-! ## The invariant -/

/-- What holds of a node between its steps. The table of waiting clients counts on a leader only: beyond
    `last_applied`, each client in it holds the entry of its index, and none is there twice. -/
structure NodeInv (s : Server n) : Prop where
  contiguous : Contiguous s.cluster.log.list
  start : 0 ≤ s.cluster.lastApplied
  applied_le : s.cluster.lastApplied ≤ s.cluster.commitIndex
  commit_le : s.cluster.commitIndex ≤ logLength s.cluster.log
  db : s.db = replay s.applied
  ids : ∀ id c, s.clients id = some c → id < s.nextClient
  pending : s.cluster.state = .leader → ∀ p ∈ s.procClients, s.cluster.lastApplied < p.1 → HoldsEntry s p.1 p.2
  apart : s.cluster.state = .leader → ∀ p ∈ s.procClients, ∀ q ∈ s.procClients,
    s.cluster.lastApplied < p.1 → s.cluster.lastApplied < q.1 → p.2 = q.2 → p.1 = q.1

namespace NodeInv

variable {s : Server n}

/-- A node that has just come up, on any log whose entries carry their positions. -/
theorem boot (nodes : Fin n → ClusterNode) {log : LogState} (hc : Contiguous log.list) :
    NodeInv (Server.boot (clusterInit nodes log)) where
  contiguous := hc
  start := le_rfl
  applied_le := le_rfl
  commit_le := Int.natCast_nonneg _
  db := rfl
  ids _ _ hid := nomatch hid
  pending hs := nomatch hs
  apart hs := nomatch hs

/-- The cluster state changes, the log may lose what is neither applied nor waited for. -/
theorem update (hi : NodeInv s) {x : ClusterState n} (hla : x.lastApplied = s.cluster.lastApplied)
    (hc : Contiguous x.log.list) (hle : s.cluster.lastApplied ≤ x.commitIndex)
    (hcommit : x.commitIndex ≤ logLength x.log)
    (hkeep : s.cluster.log.list.take s.cluster.lastApplied.toNat <+: x.log.list)
    (hlead : x.state = .leader → ∀ p ∈ s.procClients, s.cluster.lastApplied < p.1 →
      s.cluster.state = .leader ∧ s.cluster.log.list.take p.1.toNat <+: x.log.list) :
    NodeInv { s with cluster := x } where
  contiguous := hc
  start := by
    rw [hla]
    exact hi.start
  applied_le := by
    rw [hla]
    exact hle
  commit_le := hcommit
  db := by
    have hlen : (s.cluster.log.list.take s.cluster.lastApplied.toNat).length = s.cluster.lastApplied.toNat := by
      rw [List.length_take, LogState.length_list]
      have := hi.applied_le.trans hi.commit_le
      omega
    have happlied : Server.applied { s with cluster := x } = s.applied := by
      have := List.prefix_iff_eq_take.mp hkeep
      rw [hlen] at this
      rw [Server.applied, Server.applied, this, hla]
    rw [happlied]
    exact hi.db
  ids := hi.ids
  pending hs p hp hlt := by
    rw [hla] at hlt
    obtain ⟨hs₀, hpre⟩ := hlead hs p hp hlt
    obtain ⟨c, cmd, e, hclient, hcmd, he, hrest⟩ := hi.pending hs₀ p hp hlt
    refine ⟨c, cmd, e, hclient, hcmd, getElem?_of_isPrefix hpre ?_, hrest⟩
    have := hi.start
    rw [List.getElem?_take_of_lt (by omega)]
    exact he
  apart hs p hp q hq hpl hql heq := by
    rw [hla] at hpl hql
    exact hi.apart (hlead hs p hp hpl).1 p hp q hq hpl hql heq

/-- The cluster state changes and the log does not. -/
theorem still (hi : NodeInv s) {x : ClusterState n} (hlog : x.log = s.cluster.log)
    (hla : x.lastApplied = s.cluster.lastApplied) (hle : s.cluster.lastApplied ≤ x.commitIndex)
    (hcommit : x.commitIndex ≤ logLength s.cluster.log)
    (hlead : x.state = .leader → s.cluster.state = .leader ∨ ∀ p ∈ s.procClients, p.1 ≤ s.cluster.lastApplied) :
    NodeInv { s with cluster := x } := by
  refine hi.update hla ?_ hle ?_ ?_ fun hs p hp hlt => ?_
  · rw [hlog]
    exact hi.contiguous
  · rw [hlog]
    exact hcommit
  · rw [hlog]
    exact List.take_prefix ..
  · rw [hlog]
    refine ⟨(hlead hs).resolve_right fun hnone => ?_, List.take_prefix ..⟩
    exact not_le.mpr hlt (hnone p hp)

/-- A client that does not wait changes, comes or goes. -/
theorem client (hi : NodeInv s) {id m : Nat} {v : Option Client} (hm : s.nextClient ≤ m)
    (hid : ∀ c, v = some c → id < m) (hfree : s.cluster.state = .leader → ¬ Waits s id) :
    NodeInv { s with clients := Function.update s.clients id v, nextClient := m } where
  contiguous := hi.contiguous
  start := hi.start
  applied_le := hi.applied_le
  commit_le := hi.commit_le
  db := hi.db
  ids k c hk := by
    dsimp only at hk
    by_cases hki : k = id
    · subst hki
      rw [Function.update_self] at hk
      exact hid c hk
    · rw [Function.update_of_ne hki] at hk
      exact (hi.ids k c hk).trans_le hm
  pending hs p hp hlt := by
    obtain ⟨c, cmd, e, hclient, hrest⟩ := hi.pending hs p hp hlt
    refine ⟨c, cmd, e, ?_, hrest⟩
    have hne : p.2 ≠ id := fun heq => hfree hs ⟨p, hp, hlt, heq⟩
    exact (Function.update_of_ne hne ..).trans hclient
  apart := hi.apart

theorem setClient (hi : NodeInv s) {id : Nat} {c₀ : Client} (hc : s.clients id = some c₀)
    (hfree : s.cluster.state = .leader → ¬ Waits s id) (c : Client) : NodeInv (s.setClient id c) :=
  hi.client le_rfl (fun _ _ => hi.ids id c₀ hc) hfree

/-- One more entry is applied: the keyspace takes its text, and the clients that wait for later indices are
    left alone. -/
theorem advance (hi : NodeInv s) {s' : Server n} {e : LogEntry}
    (hlt : s.cluster.lastApplied < s.cluster.commitIndex)
    (he : s.cluster.log.list[s.cluster.lastApplied.toNat]? = some e)
    (hcluster : s'.cluster = { s.cluster with lastApplied := s.cluster.lastApplied + 1 })
    (hdb : s'.db = runText s.db e.command.bytes) (hids : ∀ id c, s'.clients id = some c → id < s'.nextClient)
    (hsub : ∀ p ∈ s'.procClients, p ∈ s.procClients)
    (hkept : s.cluster.state = .leader → ∀ p ∈ s'.procClients, s.cluster.lastApplied + 1 < p.1 →
      s'.clients p.2 = s.clients p.2) : NodeInv s' where
  contiguous := by
    rw [hcluster]
    exact hi.contiguous
  start := by
    rw [hcluster]
    exact Int.le_add_one hi.start
  applied_le := by
    rw [hcluster]
    exact hlt
  commit_le := by
    rw [hcluster]
    exact hi.commit_le
  db := by
    have hstep : s'.applied = s.applied ++ [e] := by
      rw [Server.applied, hcluster]
      dsimp only
      rw [Int.toNat_add hi.start Int.one_nonneg]
      exact take_succ_of_getElem? he
    rw [hstep, replay_concat, hdb, hi.db]
  ids := hids
  pending hs p hp hpl := by
    rw [hcluster] at hs hpl
    dsimp only at hs hpl
    obtain ⟨c, cmd, x, hclient, hcmd, hx, hrest⟩ := hi.pending hs p (hsub p hp) (by omega)
    refine ⟨c, cmd, x, (hkept hs p hp hpl).trans hclient, hcmd, ?_, hrest⟩
    rw [hcluster]
    exact hx
  apart hs p hp q hq hpl hql heq := by
    rw [hcluster] at hs hpl hql
    dsimp only at hs hpl hql
    exact hi.apart hs p (hsub p hp) q (hsub q hq) (by omega) (by omega) heq

end NodeInv

/-! ## The apply loop -/

variable {s s' : Server n} {id : Nat} {index : Int}

/-- `logApply` on a text does to the keyspace what the abstract node does, and nothing else. -/
theorem applyText_eq {text : Bytes} (h : applyText s text = some s') : s' = { s with db := runText s.db text } := by
  unfold applyText at h
  unfold runText
  cases hsplit : sdssplitargs text with
  | none =>
    rw [hsplit] at h
    cases h
    rfl
  | some argv =>
    rw [hsplit] at h
    dsimp only at h ⊢
    split at h
    · cases h
    rename_i hne
    rw [checkCommand_eq fun hnil => hne (by rw [hnil]; rfl)]
    cases hcmd : lookupCommand (argv.head?.getD []) with
    | none =>
      rw [hcmd] at h
      cases h
      rfl
    | some cmd =>
      rw [hcmd] at h
      dsimp only at h
      rw [Option.filter_some]
      split at h
      · rename_i harity
        cases h
        rw [harity]
        rfl
      rename_i harity
      rw [if_pos (Bool.eq_true_of_not_eq_false harity)]
      split at h
      · cases h
      split at h
      · cases h
        rfl
      · cases h

theorem mem_of_lookup {table : List (Int × Nat)} (h : table.lookup index = some id) : (index, id) ∈ table := by
  obtain ⟨l₁, l₂, hl, -⟩ := List.lookup_eq_some_iff.mp h
  rw [hl]
  exact List.mem_append_right _ List.mem_cons_self

/-- The entry behind the last applied one is in the log. -/
theorem NodeInv.next_entry {s : Server n} (hi : NodeInv s) (hlt : s.cluster.lastApplied < s.cluster.commitIndex) :
    ∃ en, getLogEntry s.cluster.log (s.cluster.lastApplied + 1) = some en ∧
      s.cluster.log.list[s.cluster.lastApplied.toNat]? = some en.logEntry := by
  have hstart := hi.start
  have hle := hi.commit_le
  obtain ⟨e, he⟩ : ∃ e, s.cluster.log.list[s.cluster.lastApplied.toNat]? = some e :=
    ⟨_, List.getElem?_eq_getElem (by rw [LogState.length_list]; omega)⟩
  obtain ⟨en, hen, rfl⟩ := Option.map_eq_some_iff.mp ((LogState.getElem?_list ..).symm.trans he)
  refine ⟨en, ?_, he⟩
  rw [getLogEntry_in (by omega) (by omega), show s.cluster.lastApplied + 1 - 1 = s.cluster.lastApplied by omega]
  exact hen

/-- **One turn of the loop** keeps the invariant, on either way. -/
theorem NodeInv.apply (hi : NodeInv s) (hlt : s.cluster.lastApplied < s.cluster.commitIndex)
    (h : logApply { s with cluster := { s.cluster with lastApplied := s.cluster.lastApplied + 1 } }
      (s.cluster.lastApplied + 1) = some s') : NodeInv s' := by
  obtain ⟨en, hget, he⟩ := hi.next_entry hlt
  unfold logApply at h
  dsimp only at h
  rw [hget] at h
  dsimp only at h
  split at h
  · -- a leader runs what the waiting client holds, which is the entry decoded
    rename_i id hwait
    unfold waitingClient at hwait
    dsimp only at hwait
    split at hwait
    · rename_i hleader
      have hmem := mem_of_lookup hwait
      obtain ⟨c, cmd, x, hclient, hcmd, hx, hsplit, hcheck⟩ := hi.pending hleader _ hmem (by omega)
      rw [show s.cluster.lastApplied + 1 - 1 = s.cluster.lastApplied by omega, he] at hx
      cases hx
      obtain ⟨s₁, hs₁, rfl⟩ := Option.map_eq_some_iff.mp h
      obtain ⟨c', rfl⟩ := call_eq hs₁ hclient hcmd
      have hrun : execute s.db cmd.proc c.argv = runText s.db en.logEntry.command.bytes := by
        rw [runText, hsplit]
        dsimp only
        rw [hcheck]
        rfl
      -- `call` changes this client only, and it waits for no other index
      refine hi.advance hlt he rfl hrun ?_ (fun p hp => List.mem_of_mem_filter hp) fun _ p hp hpl => ?_
      · intro k c₁ hk
        by_cases hki : k = id
        · subst hki
          exact hi.ids k c hclient
        · exact hi.ids k c₁ ((Function.update_of_ne hki ..).symm.trans hk)
      · have hne : p.2 ≠ id := fun heq => by
          have := hi.apart hleader p (List.mem_of_mem_filter hp) _ hmem (by omega) (by dsimp only; omega) heq
          dsimp only at this
          omega
        exact Function.update_of_ne hne ..
    · cases hwait
  · -- everyone else runs the text, and no client is touched
    have := applyText_eq h
    subst this
    exact hi.advance hlt he rfl rfl hi.ids (fun _ hp => hp) fun _ _ _ _ => rfl

/-- `logApply` only takes clients out of the table. -/
theorem logApply_procClients (h : logApply s index = some s') : ∀ p ∈ s'.procClients, p ∈ s.procClients := by
  unfold logApply at h
  split at h
  · cases h
    exact fun _ hp => hp
  · dsimp only at h
    split at h
    · obtain ⟨s₁, h₁, rfl⟩ := Option.map_eq_some_iff.mp h
      obtain ⟨c, -, rfl⟩ := Option.map_eq_some_iff.mp h₁
      intro p hp
      have := List.mem_of_mem_filter hp
      cases hcmd : c.cmd <;> rw [hcmd] at this <;> exact this
    · cases applyText_eq h
      exact fun _ hp => hp

/-- The whole loop: everything committed is applied. -/
theorem NodeInv.applyLoop : ∀ {count : Nat} {s s' : Server n}, NodeInv s →
    s.cluster.lastApplied + count = s.cluster.commitIndex → Prez.applyLoop count s = some s' →
    NodeInv s' ∧ s'.cluster = { s.cluster with lastApplied := s.cluster.commitIndex } ∧
      ∀ p ∈ s'.procClients, p ∈ s.procClients := by
  intro count
  induction count with
  | zero =>
    intro s s' hi hcount h
    cases h
    refine ⟨hi, ?_, fun _ hp => hp⟩
    rw [← hcount, Nat.cast_zero, Int.add_zero]
  | succ count ih =>
    intro s s' hi hcount h
    rw [Nat.cast_succ] at hcount
    obtain ⟨s₁, h₁, h⟩ := Option.bind_eq_some_iff.mp h
    obtain ⟨hc, -⟩ := logApply_cluster h₁
    have hi₁ := hi.apply (by omega) h₁
    obtain ⟨hi', hc', hsub⟩ := ih hi₁ (by rw [hc]; dsimp only; omega) h
    refine ⟨hi', ?_, fun p hp => logApply_procClients h₁ p (hsub p hp)⟩
    rw [hc', hc]

/-! ## The rest of `clusterCron` -/

theorem sendHeartbeats_eq (cfg : Config n) (i : Fin n) : ∀ (js : List (Fin n)) (x : ClusterState n),
    ∃ nodes, (sendHeartbeats cfg i js x).1 = { x with nodes := nodes } := by
  intro js
  induction js with
  | nil => exact fun x => ⟨x.nodes, rfl⟩
  | cons j js ih =>
    intro x
    obtain ⟨nodes, hn⟩ := ih (clusterSendAppendEntries cfg i j x).1
    exact ⟨nodes, hn⟩

/-- The election leaves log and indices alone. -/
theorem cronLeader_frame (cfg : Config n) (i : Fin n) (inp : CronInput n) (x : ClusterState n) :
    (cronLeader cfg i inp x).log = x.log ∧ (cronLeader cfg i inp x).lastApplied = x.lastApplied ∧
      (cronLeader cfg i inp x).commitIndex = x.commitIndex := by
  unfold cronLeader becomeLeader startElection
  split <;> split <;> exact ⟨rfl, rfl, rfl⟩

/-- What `clusterCron` behind its apply loop does to log, indices and role. -/
theorem clusterCronTail_frame (cfg : Config n) (i : Fin n) (inp : CronInput n) (x : ClusterState n) :
    (clusterCronTail cfg i inp x).1.log = x.log ∧ (clusterCronTail cfg i inp x).1.lastApplied = x.lastApplied ∧
      (clusterCronTail cfg i inp x).1.state = (cronLeader cfg i inp x).state ∧
      ((clusterCronTail cfg i inp x).1.commitIndex = x.commitIndex ∨
        (cronLeader cfg i inp x).state = .leader ∧ ∃ j, x.commitIndex < ((cronLeader cfg i inp x).nodes j).matchIndex ∧
          (clusterCronTail cfg i inp x).1.commitIndex = ((cronLeader cfg i inp x).nodes j).matchIndex) := by
  obtain ⟨hlog, hla, hcommit⟩ := cronLeader_frame cfg i inp x
  have htail : (clusterCronTail cfg i inp x).1 = (leaderTick cfg i inp (cronLeader cfg i inp x)).1 := rfl
  rw [htail]
  by_cases hs : (cronLeader cfg i inp x).state = .leader
  · rw [leaderTick, if_pos hs]
    obtain ⟨nodes, hn⟩ := sendHeartbeats_eq cfg i
      ((List.finRange n).filter fun j => j != i && inp.linked j && inp.due j)
      (clusterUpdateCommitIndex (cronLeader cfg i inp x))
    rw [hn]
    rcases clusterUpdateCommitIndex_cases (cronLeader cfg i inp x) with heq | ⟨j, hj, heq⟩
    · rw [heq]
      exact ⟨hlog, hla, rfl, .inl hcommit⟩
    · rw [heq]
      exact ⟨hlog, hla, rfl, .inr ⟨hs, j, hcommit ▸ hj, rfl⟩⟩
  · rw [leaderTick, if_neg hs]
    exact ⟨hlog, hla, rfl, .inl hcommit⟩

/-- A whole call of `clusterCron`. -/
theorem NodeInv.cron {cfg : Config n} {i : Fin n} {inp : CronInput n} {out : List (Fin n × Message)} (hi : NodeInv s)
    (hok : CronOk cfg i inp s) (h : clusterCron cfg i inp s = some (s', out)) : NodeInv s' := by
  obtain ⟨s₁, h₁, h⟩ := Option.map_eq_some_iff.mp h
  obtain ⟨hi₁, hc₁, hsub⟩ := hi.applyLoop (by have := hi.applied_le; omega) h₁
  have hs' : { s₁ with cluster := (clusterCronTail cfg i inp s₁.cluster).1 } = s' := congrArg Prod.fst h
  rw [← hs']
  obtain ⟨hlog, hla, hstate, hcommit⟩ := clusterCronTail_frame cfg i inp s₁.cluster
  -- the condition is about the state before the apply loop, but the election does not look at `last_applied`
  have hcron : cronLeader cfg i inp s₁.cluster =
      { cronLeader cfg i inp s.cluster with lastApplied := s.cluster.commitIndex } := by
    rw [hc₁, cronLeader_lastApplied]
  rw [hcron] at hstate hcommit
  dsimp only at hstate hcommit
  have hle₁ : s₁.cluster.lastApplied ≤ s₁.cluster.commitIndex := hi₁.applied_le
  refine hi₁.still hlog hla ?_ ?_ fun hs => ?_
  · rcases hcommit with heq | ⟨-, j, hj, heq⟩ <;> rw [heq] <;> omega
  · rcases hcommit with heq | ⟨hs, j, -, heq⟩
    · rw [heq]
      exact hi₁.commit_le
    · rw [heq, hc₁]
      exact (hok hs).1 j
  · by_cases hs₀ : s.cluster.state = .leader
    · rw [hc₁]
      exact .inl hs₀
    · -- a new leader has nobody in its table beyond what it has just applied
      rw [hc₁]
      exact .inr fun p hp => (hok (hstate ▸ hs)).2 hs₀ p (hsub p hp)

/-! ## Requests -/

/-- A client that waits for nothing else joins the table at an index whose entry it holds. -/
theorem NodeInv.wait {s : Server n} (hi : NodeInv s) (hfree : ¬ Waits s id) (hheld : HoldsEntry s index id) :
    NodeInv (addProcClient s index id) := by
  rcases addProcClient_cases s index id with heq | heq <;> rw [heq]
  · refine { hi with pending := fun hs p hp hlt => ?_, apart := fun hs p hp q hq hpl hql heq => ?_ }
    · rcases List.mem_cons.mp hp with rfl | hp
      · exact hheld
      · exact hi.pending hs p hp hlt
    · rcases List.mem_cons.mp hp with rfl | hp <;> rcases List.mem_cons.mp hq with rfl | hq
      · rfl
      · exact absurd ⟨q, hq, hql, heq.symm⟩ hfree
      · exact absurd ⟨p, hp, hpl, heq⟩ hfree
      · exact hi.apart hs p hp q hq hpl hql heq
  · exact hi

/-- **A leader's write.** The new entry decodes to what the client holds. -/
theorem NodeInv.write {c : Client} {cmd : PrezCommand} (hi : NodeInv s) (hleader : s.cluster.state = .leader)
    (hfree : ¬ Waits s id) (hclient : s.clients id = some c) (hcmd : c.cmd = some cmd)
    (hcheck : checkCommand c.argv = some cmd) (hround : RoundTrips c.argv)
    (h : clusterProcessCommand s id cmd c.argv = some s') : NodeInv s' := by
  obtain ⟨name, -, h⟩ := Option.bind_eq_some_iff.mp h
  obtain ⟨command, hcommand, h⟩ := Option.bind_eq_some_iff.mp h
  obtain ⟨log, hlog, h⟩ := Option.bind_eq_some_iff.mp h
  -- the entry goes behind the last one
  have hindex : logCurrentIndex s.cluster.log + 1 = logLength s.cluster.log + 1 := by
    rw [hi.contiguous.currentIndex]
  rw [logWriteEntry_next hi.contiguous hindex] at hlog
  cases hlog
  set e : LogEntry := ⟨logCurrentIndex s.cluster.log + 1, s.cluster.currentTerm, name, command⟩ with he
  have hlist : (logAppend s.cluster.log e).list = s.cluster.log.list ++ [e] := list_logAppend ..
  have hlen : logLength (logAppend s.cluster.log e) = logLength s.cluster.log + 1 := by
    rw [← LogState.length_list, hlist, List.length_append, LogState.length_list, List.length_singleton]
  have hcontiguous : Contiguous (logAppend s.cluster.log e).list := by
    rw [hlist]
    exact hi.contiguous.concat (by rw [LogState.length_list]; exact hindex)
  have hkeep : ∀ k, s.cluster.log.list.take k <+: (logAppend s.cluster.log e).list := fun k => by
    rw [hlist]
    exact (List.take_prefix ..).trans (List.prefix_append ..)
  have hcommit := hi.commit_le
  have happlied := hi.applied_le
  split at h
  · -- alone, the node commits at once and remembers no client
    cases h
    rw [logCommitIndex_eq _ hcontiguous (by rw [hcontiguous.currentIndex, hlen]; dsimp only; omega)]
    refine hi.update rfl hcontiguous ?_ ?_ (hkeep _) fun _ p _ _ => ⟨hleader, hkeep _⟩
    · dsimp only
      rw [hcontiguous.currentIndex, hlen]
      omega
    · exact min_le_right ..
  · -- otherwise the client waits for the index of the entry
    cases h
    refine NodeInv.wait (s := { s with cluster := { s.cluster with log := logAppend s.cluster.log e } })
      (hi.update rfl hcontiguous happlied ?_ (hkeep _) fun _ p _ _ => ⟨hleader, hkeep _⟩) hfree ?_
    · dsimp only
      rw [hlen]
      omega
    · obtain ⟨command', hcommand', hsplit⟩ := hround
      cases hcommand.symm.trans hcommand'
      refine ⟨c, cmd, e, hclient, hcmd, ?_, hsplit, hcheck⟩
      dsimp only
      rw [hlist, show (logCurrentIndex s.cluster.log + 1 - 1).toNat = s.cluster.log.list.length by
        rw [LogState.length_list]; omega]
      exact List.getElem?_concat_length ..

/-- A request that meets its condition. -/
theorem NodeInv.request {kind : ReqType} {argv : List Bytes} (hi : NodeInv s) (hok : RequestOk s id argv)
    (h : processRequest s id kind argv = some s') : NodeInv s' := by
  obtain ⟨⟨c₀, hc₀⟩, ⟨-, c, rfl⟩ | ⟨htakes, c, cmd, rfl, hcmd, hcheck, h⟩⟩ := processRequest_cases h
  -- an error, a redirection or a read: only the client changes
  · exact hi.setClient hc₀ (fun hs => (hok hs).1) c
  · obtain ⟨hfree, hround⟩ := hok htakes.1
    have hi₁ := hi.setClient hc₀ (fun _ => hfree) c
    exact hi₁.write htakes.1 hfree (Function.update_self ..) hcmd hcheck (hround htakes.2) h

/-! ## Messages -/

/-- Log and indices stay as they are, and the role can only be lost. -/
structure StepsBack (x y : ClusterState n) : Prop where
  log : y.log = x.log
  lastApplied : y.lastApplied = x.lastApplied
  commitIndex : y.commitIndex = x.commitIndex
  role : y.state = .leader → x.state = .leader

namespace StepsBack

variable {x : ClusterState n}

theorem refl (x : ClusterState n) : StepsBack x x := ⟨rfl, rfl, rfl, id⟩

theorem enterTerm (x : ClusterState n) (t : Int) : StepsBack x (x.enterTerm t) := ⟨rfl, rfl, rfl, nofun⟩

theorem voteOnLog {y : ClusterState n} (h : StepsBack x y) (vote : RequestVote) :
    StepsBack x (Prez.voteOnLog y vote).1 := by
  unfold Prez.voteOnLog
  split
  · exact h
  · exact ⟨h.log, h.lastApplied, h.commitIndex, h.role⟩

theorem requestVote (x : ClusterState n) (vote : RequestVote) :
    StepsBack x (clusterProcessRequestVote x vote).1 := by
  unfold clusterProcessRequestVote
  split
  · exact refl x
  split
  · exact (enterTerm x vote.term).voteOnLog vote
  split
  · exact refl x
  · exact (refl x).voteOnLog vote

theorem responseVote (x : ClusterState n) (vote : ResponseVote) :
    StepsBack x (clusterProcessResponseVote x vote) := by
  unfold clusterProcessResponseVote
  split
  · exact ⟨rfl, rfl, rfl, id⟩
  split
  · exact enterTerm x vote.term
  · exact refl x

theorem responseAppendEntries (x : ClusterState n) (j : Fin n) (entries : ResponseAppendEntries) :
    StepsBack x (clusterProcessResponseAppendEntries x j entries) := by
  unfold clusterProcessResponseAppendEntries
  split
  · split
    · exact ⟨rfl, rfl, rfl, id⟩
    · exact refl x
  split
  · exact enterTerm x entries.term
  · exact ⟨rfl, rfl, rfl, id⟩

theorem followLeader (x : ClusterState n) (entries : AppendEntries) : StepsBack x (Prez.followLeader x entries) := by
  exact ⟨followLeader_log .., followLeader_lastApplied .., followLeader_commitIndex .., followLeader_leader⟩

end StepsBack

theorem NodeInv.stepsBack {s : Server n} (hi : NodeInv s) {x : ClusterState n} (h : StepsBack s.cluster x) :
    NodeInv { s with cluster := x } := by
  refine hi.still h.log h.lastApplied ?_ ?_ fun hs => .inl (h.role hs)
  · rw [h.commitIndex]
    exact hi.applied_le
  · rw [h.commitIndex]
    exact hi.commit_le

/-- **An append request.** What is applied, and what a client of a leader waits for, is kept. -/
theorem NodeInv.appendEntries {s : Server n} {entries : AppendEntries} {fsync : Bool} {x : ClusterState n}
    {response : ResponseAppendEntries} (hi : NodeInv s) (hok : AppendOk s entries)
    (h : clusterProcessAppendEntries s.cluster entries fsync = some (x, response)) :
    NodeInv { s with cluster := x } := by
  have hback := StepsBack.followLeader s.cluster entries
  obtain ⟨-, ⟨-, rfl, -⟩ | ⟨hterm, ⟨-, rfl, -⟩ | ⟨hverify, log, hlog, -, rfl⟩⟩⟩ := clusterProcessAppendEntries_cases h
  · exact hi.stepsBack (.refl _)
  · exact hi.stepsBack hback
  obtain ⟨hprev, hconsecutive, htrunc, hconflict⟩ := hok ⟨hterm, hverify⟩
  obtain ⟨j, hj⟩ := Int.eq_ofNat_of_zero_le hprev
  rw [hj] at hverify hconsecutive
  obtain ⟨hc, hkeep⟩ := logAppendEntries_keeps hi.contiguous hconsecutive (logVerifyAppend_le hverify)
    (htrunc ⟨hterm, by rw [hj]; exact hverify⟩) hlog
  -- everything committed is below the conflicts
  have hcommitted : s.cluster.log.list.take s.cluster.commitIndex.toNat <+: log.list := by
    refine hkeep _ fun e he hcon => ?_
    have := (hconflict e he hcon).1
    have := hi.start.trans hi.applied_le
    omega
  have hlen : s.cluster.commitIndex ≤ logLength log := by
    have := hcommitted.length_le
    have := hi.commit_le
    rw [List.length_take, LogState.length_list, LogState.length_list] at *
    omega
  have hnew : ∀ commitIndex, s.cluster.commitIndex ≤ commitIndex → commitIndex ≤ logLength log →
      NodeInv { s with cluster := { followLeader s.cluster entries with log, commitIndex } } := by
    intro commitIndex hle hle'
    refine hi.update hback.lastApplied hc (hi.applied_le.trans hle) hle' ?_ fun hs p hp hpl => ?_
    · exact (List.take_prefix_take_left (Int.toNat_le_toNat hi.applied_le)).trans hcommitted
    · refine ⟨hback.role hs, hkeep _ fun e he hcon => ?_⟩
      have := (hconflict e he hcon).2 (hback.role hs) p hp hpl
      have := hi.start
      omega
  split
  · by_cases hgt : s.cluster.commitIndex < entries.leaderCommitIndex
    · rw [logCommitIndex_eq _ hc (by rw [← hback.commitIndex] at hgt; exact hgt)]
      exact hnew _ (le_min hgt.le hlen) (min_le_right ..)
    · rw [logCommitIndex, if_neg (by rw [← hback.commitIndex] at hgt; exact hgt)]
      exact hnew _ hback.commitIndex.ge (hback.commitIndex.trans_le hlen)
  · exact hnew _ hback.commitIndex.ge (hback.commitIndex.trans_le hlen)

/-! ## Whole runs -/

/-- **Every step that meets its condition keeps the invariant.** -/
theorem NodeInv.step {cfg : Config n} {i : Fin n} {a : NodeEvent n} (hi : NodeInv s) (hok : NodeOk cfg i s a)
    (h : s.next cfg i a = some s') : NodeInv s' := by
  cases a with
  | event e =>
    obtain ⟨⟨s₁, out⟩, h₁, rfl⟩ := Option.map_eq_some_iff.mp h
    cases e with
    | cron inp => exact hi.cron hok h₁
    | connect =>
      cases h₁
      refine hi.client (Nat.le_succ _) (fun _ _ => Nat.lt_succ_self _) fun hs hwaits => ?_
      obtain ⟨p, hp, hlt, heq⟩ := hwaits
      obtain ⟨c, -, -, hclient, -⟩ := hi.pending hs p hp hlt
      exact absurd heq (hi.ids _ c hclient).ne
    | request id kind argv =>
      obtain ⟨s₂, h₂, heq⟩ := Option.map_eq_some_iff.mp h₁
      cases heq
      exact hi.request hok h₂
    | disconnect id =>
      cases h₁
      exact hi.client le_rfl (fun _ hc => nomatch hc) hok
  | message j msg fsync =>
    obtain ⟨⟨s₁, response⟩, h₁, rfl⟩ := Option.map_eq_some_iff.mp h
    cases msg with
    | requestVote vote =>
      cases h₁
      exact hi.stepsBack (.requestVote ..)
    | responseVote vote =>
      cases h₁
      exact hi.stepsBack (.responseVote ..)
    | appendEntries entries =>
      obtain ⟨⟨x, r⟩, hx, heq⟩ := Option.map_eq_some_iff.mp h₁
      cases heq
      exact hi.appendEntries hok hx
    | responseAppendEntries entries =>
      cases h₁
      exact hi.stepsBack (.responseAppendEntries ..)

/-- **The keyspace is the replay of the applied log.** In a run whose steps all meet `NodeOk`, from a node
    that has just come up, the keyspace is what the entries up to `last_applied` decode to; and the client
    that a leader is going to run at an index holds the command of that entry. -/
theorem node_refines_log (cfg : Config n) (i : Fin n) (nodes : Fin n → ClusterNode) (log : LogState)
    (hc : Contiguous log.list) (s : Server n)
    (hr : NodeRunIf cfg i (NodeOk cfg i) (Server.boot (clusterInit nodes log)) s) :
    s.db = replay s.applied ∧ ∀ index id, s.cluster.lastApplied < index → waitingClient s index = some id →
      HoldsEntry s index id := by
  have hi : NodeInv s := RunBy.invariant (fun _ _ _ hok h hi => hi.step hok h) hr (.boot nodes hc)
  refine ⟨hi.db, fun index id hlt hwait => ?_⟩
  unfold waitingClient at hwait
  split at hwait
  · rename_i hleader
    exact hi.pending hleader (index, id) (mem_of_lookup hwait) hlt
  · cases hwait

/-- A node of three that has just come up without a log file. -/
def freshNode : Server 3 := Server.boot (clusterInit (fun _ => ⟨none, 0, 0⟩) LogState.empty)

/-- `clusterCron`, with or without an election timeout; heartbeats are due for both peers. -/
def cronEvent (timeout : Bool) : NodeEvent 3 := .event (.cron ⟨timeout, fun _ => true, fun _ => true⟩)

/-- The node is elected, and its first client sends `set a 1`. -/
def writeRun : List (NodeEvent 3) :=
  [cronEvent true, .message 1 (.responseVote ⟨1, true⟩) true, cronEvent false, .event .connect,
    .event (.request 0 .inline [ascii "set", ascii "a", ascii "1"])]

/-- The entry is sent, both peers have it, and the commit index moves. -/
def replicateRun : List (NodeEvent 3) :=
  [cronEvent false, .message 1 (.responseAppendEntries ⟨1, 1, 0, true⟩) true,
    .message 2 (.responseAppendEntries ⟨1, 1, 0, true⟩) true, cronEvent false]

theorem node_refines_log_write : ∃ s, NodeRunIf threeServers 0 (NodeOk threeServers 0) freshNode s ∧
    s.cluster.lastApplied = 1 ∧ s.db (ascii "a") = some (ascii "1") ∧ s.db = replay s.applied := by
  obtain ⟨s, hr, hs⟩ := run_of_exec (Server.next threeServers 0) (NodeOk threeServers 0) freshNode
    (writeRun ++ replicateRun ++ [cronEvent false]) (fun s => (s.cluster.lastApplied, s.db (ascii "a")))
    (1, some (ascii "1")) (by decide +kernel)
  rw [Prod.mk.injEq] at hs
  exact ⟨s, hr, hs.1, hs.2, (node_refines_log threeServers 0 _ LogState.empty contiguous_nil s hr).1⟩

/-- The client pipelines `get a` behind `set a 1`. The second request resets the client while its index is
    in the table, so the entry is applied by running nothing. -/
theorem pipelined_write_lost : ∃ s₁ s : Server 3,
    NodeRunIf threeServers 0 (fun _ _ => True) freshNode s₁ ∧
    s₁.next threeServers 0 (cronEvent false) = some s ∧ s.cluster.lastApplied = 1 ∧ s.db (ascii "a") = none ∧
    s.db ≠ replay s.applied := by
  obtain ⟨s₁, hr, hs⟩ := run_of_exec (Server.next threeServers 0) (fun _ _ => True) freshNode
    (writeRun ++ .event (.request 0 .inline [ascii "get", ascii "a"]) :: replicateRun)
    (fun s => (s.next threeServers 0 (cronEvent false)).map fun s =>
      (s.cluster.lastApplied, s.db (ascii "a"), replay s.applied (ascii "a")))
    (some (1, none, some (ascii "1"))) (by decide +kernel)
  obtain ⟨s, hstep, hs⟩ := Option.map_eq_some_iff.mp hs
  rw [Prod.mk.injEq, Prod.mk.injEq] at hs
  obtain ⟨happlied, hdb, hreplay⟩ := hs
  refine ⟨s₁, s, hr, hstep, happlied, hdb, fun heq => ?_⟩
  rw [← heq, hdb] at hreplay
  cases hreplay

end Prez
