import Prez.Commit
import Prez.Client.Pending

/-!
# `Prez.Replicas` — what is committed and answered survives

Runs over time, where `Prez.Commit` is about one state: what a server has committed stays committed, at this server
and in the log of every leader from then on (`committed_entries_survive`). On top of it, the keyspaces: if clients
meet the conditions of `Prez.Refinement` besides, the keyspaces of all servers are snapshots of one sequence of
commands (`replicas_agree`), and a write that is answered is in that sequence for good
(`answered_writes_survive`).
-/

namespace Prez

open Lib

variable {n : Nat} {cfg : Config n} {s s' : Net n} {h h' : Hist n}

/-! ## Commit indices over time -/

/-- There are peers, and the servers have names. -/
structure Config.Proper (cfg : Config n) : Prop where
  size : 2 ≤ n
  name : ∀ i, (cfg.name i).bytes ≠ []

/-- The entries that a server has committed. -/
def ClusterState.committed (x : ClusterState n) : List LogEntry := x.log.list.take x.commitIndex.toNat

/-- The invariants of a run that meets all conditions. -/
structure Running (cfg : Config n) (s : Net n) (h : Hist n) : Prop extends Tracked cfg s h where
  commits : CommitInv s h

/-- **Every move keeps the invariants.** -/
theorem Running.move (hcfg : cfg.Proper) (hi : Running cfg s h) (hm : Move cfg .all s h s' h') : Running cfg s' h' where
  toTracked := hi.toTracked.move hcfg.name rfl rfl hm
  commits := hi.commits.move hcfg.size rfl rfl hi.toTracked hm

theorem Net.Fresh.running {s : Net n} (hs : s.Fresh) : Running cfg s (History.start s) where
  toTracked := hs.tracked
  commits := hs.commitInv

/-- One state after another: the history grows, and no commit index goes back. -/
structure Later (s : Net n) (h : Hist n) (s' : Net n) (h' : Hist n) : Prop where
  ext : h.Extends h'
  commitIndex : ∀ v, (s.node v).commitIndex ≤ (s'.node v).commitIndex

theorem Later.refl (s : Net n) (h : Hist n) : Later s h s h := ⟨.refl h, fun _ => le_rfl⟩

theorem Later.trans {s₁ : Net n} {h₁ : Hist n} (hl : Later s h s₁ h₁) (hl' : Later s₁ h₁ s' h') : Later s h s' h' :=
  ⟨hl.ext.trans hl'.ext, fun v => (hl.commitIndex v).trans (hl'.commitIndex v)⟩

/-- **Nothing committed is taken back.** -/
theorem Running.later (hn : 2 ≤ n) (hi : Running cfg s h) (hm : Move cfg .all s h s' h') : Later s h s' h' := by
  refine ⟨hi.logs.extends_of_move hi.election hm, ?_⟩
  have hput : ∀ {i : Fin n} {server : Server n} {rest out : List (Packet n)},
      (s.node i).commitIndex ≤ server.cluster.commitIndex →
      ∀ v, (s.node v).commitIndex ≤ ((s.put i server rest out).node v).commitIndex := by
    intro i server rest out hle
    exact Net.forall_node_put (P := fun v x => (s.node v).commitIndex ≤ x.commitIndex) hle fun v _ => le_rfl
  have hstill : ∀ {i : Fin n} {server : Server n} {x : ClusterState n} {rest out : List (Packet n)},
      Becomes s i x server → x.commitIndex = (s.node i).commitIndex →
      ∀ v, (s.node v).commitIndex ≤ ((s.put i server rest out).node v).commitIndex := by
    intro i server x rest out hb heq
    exact hput (by rw [hb.cluster, heq])
  cases hm with
  | idle _ _ hb | enter _ _ _ _ hb | heartbeat _ _ _ _ _ hb | deny _ _ _ _ _ _ hb | grant _ _ _ _ _ _ _ _ _ _ hb
  | count _ _ _ _ _ _ _ _ hb | ignore _ _ _ _ hb | stale _ _ _ _ _ _ hb | credit _ _ _ _ _ _ _ _ _ _ hb
  | retreat _ _ _ _ hb => exact hstill hb rfl
  | apply i server hlt hc he => exact hput (by rw [hc])
  | campaign i server inp hs ht hb =>
    rw [startElection, if_pos ⟨hs, ht⟩] at hb ⊢
    exact hstill hb rfl
  | elect i server hs hq hb =>
    rw [becomeLeader, if_pos ⟨hs, hq⟩] at hb
    exact hstill hb rfl
  | commit i server hs hg hb =>
    refine hput ?_
    rw [hb.cluster]
    rcases clusterUpdateCommitIndex_cases (s.node i) with heq | ⟨j, hj, heq⟩
    · rw [heq]
    · rw [heq]
      exact hj.le
  | write i server e log hw hb =>
    rw [if_neg (by omega)] at hb
    exact hstill hb rfl
  | refuse _ _ _ _ _ _ _ hb | unsynced _ _ _ _ _ _ _ _ _ _ _ _ _ hb => exact hstill hb (followLeader_commitIndex ..)
  | accept k p entries server log _ hh hp hm ht ha hlog hok hcok hb =>
    refine hput ?_
    rw [hb.cluster]
    -- what the follower has committed is still in its log, so the log is no shorter
    have hmem := List.mem_of_getElem? hp
    have hlen := (hi.commits.keeps hi.toTracked hmem hm ha (hok rfl) hlog ht).length_le
    have hcommitted := (hi.commits.settled p.dst).length
    rw [List.length_take, LogState.length_list, LogState.length_list] at hlen
    simp only [← Net.node.eq_1] at hcommitted
    have hcommit := followLeader_commitIndex (s.node p.dst) entries
    unfold logCommitIndex
    split
    · rename_i hnew
      dsimp only at hnew ⊢
      rw [(hi.contiguous_appended hmem hm ha (hok rfl) hlog).currentIndex]
      split <;> omega
    · exact hcommit.ge

/-- A run goes on from a state of a run. -/
theorem Running.moves (hcfg : cfg.Proper) (hi : Running cfg s h) (hm : Moves cfg .all s s') :
    ∃ h', Running cfg s' h' ∧ Later s h s' h' := by
  refine hm.invariant (P := fun s' h' => Running cfg s' h' ∧ Later s h s' h') ?_ ⟨hi, .refl s h⟩
  rintro s₁ h₁ s₂ h₂ ⟨hi₁, hl⟩ hmove
  exact ⟨hi₁.move hcfg hmove, hl.trans (hi₁.later hcfg.size hmove)⟩

theorem Running.length_committed (hi : Running cfg s h) (v : Fin n) :
    (s.node v).committed.length = (s.node v).commitIndex.toNat := by
  have := (hi.commits.settled v).length
  simp only [← Net.node.eq_1] at this
  rw [ClusterState.committed, List.length_take, LogState.length_list]
  omega

/-- What a server has committed in an earlier state, seen in a later one. -/
structure Survives (s s' : Net n) (i : Fin n) : Prop where
  /-- the server has committed it still -/
  kept : (s.node i).committed <+: (s'.node i).committed
  /-- no server commits anything else -/
  agreed : ∀ j, (s.node i).committed <+: (s'.node j).committed ∨ (s'.node j).committed <+: (s.node i).committed
  /-- every leader since has it -/
  led : ∀ j, (s'.node j).state = .leader → (s.node i).currentTerm ≤ (s'.node j).currentTerm →
    (s.node i).committed <+: (s'.node j).log.list

/-- What was committed is committed later as well. -/
theorem Running.survives (hi : Running cfg s h) (hi' : Running cfg s' h') (hl : Later s h s' h') (i : Fin n) :
    Survives s s' i := by
  have hinv' := hi'.logs.inv
  have hold : h'.CommittedUpTo (h.term i) (s.node i).committed :=
    (hi.commits.settled i).committed.extends hi.logs.inv hl.ext
  have hagreed : ∀ j, (s.node i).committed <+: (s'.node j).committed ∨
      (s'.node j).committed <+: (s.node i).committed :=
    fun j => hinv'.committed_comparable hold (hi'.commits.settled j).committed
  refine ⟨?_, hagreed, fun j hs ht => ?_⟩
  · refine (hagreed i).elim id fun hp => ?_
    -- the later of the two is no shorter
    have hlen := hp.length_le
    rw [hi.length_committed, hi'.length_committed] at hlen
    have hsame : (s'.node i).committed.length = (s.node i).committed.length := by
      rw [hi.length_committed, hi'.length_committed]
      have := hl.commitIndex i
      omega
    rw [hp.eq_of_length hsame]
  · rw [← hi'.logs.leader_llog hi'.election hs]
    rw [hi.election.term_eq] at hold
    refine hinv'.committed_llog (hold.mono ht) ?_
    have hled := hi'.election.leader j hs
    rw [hi'.election.term_eq] at hled
    rw [hled]
    exact Option.some_ne_none _

/-- **What is committed survives.** In a run without restarts that meets all conditions, what a server has committed in
    one state is a part of what it has committed in every later state, agrees with what any server has committed then,
    and is in the log of every server that leads a term no older. -/
theorem committed_entries_survive (hcfg : cfg.Proper) {s₀ : Net n} (h₀ : s₀.Fresh) (hr : RunIf cfg (Good cfg .all) s₀ s)
    (hr' : RunIf cfg (Good cfg .all) s s') (i : Fin n) : Survives s s' i := by
  obtain ⟨h, hi⟩ := (moves_of_run hr).invariant (fun hi hm => hi.move hcfg hm) h₀.running
  obtain ⟨h', hi', hl⟩ := hi.moves hcfg (moves_of_run hr')
  exact hi.survives hi' hl i

theorem threeServers_proper : threeServers.Proper := ⟨by decide, by decide⟩

/-- The election of server 0 and a write of its first client that both peers acknowledge. -/
def writeCommitted : List (Action 3) :=
  campaignAt 0 [1] :: deliveries 2 ++ [tickAt 0 [], .event 0 .connect, setAt 0, tickAt 0 [1, 2]] ++ deliveries 4 ++
    [tickAt 0 []]

/-- Server 0 commits a write, and server 1 is elected after that. -/
theorem committed_entries_survive_election : ∃ s s' : Net 3, (s.node 0).committed = [setA 1 1] ∧
    (s'.node 1).state = .leader ∧ (s'.node 1).currentTerm = 2 ∧ Survives s s' 0 := by
  obtain ⟨s, hr, hs⟩ := run_of_exec (Net.step threeServers) (Good threeServers .all) (Net.fresh 3) writeCommitted
    (fun s => ((s.node 0).committed,
      (execIf (Net.step threeServers) (fun s a => decide (Good threeServers .all s a)) s
        (campaignAt 1 [2] :: deliveries 2 ++ [tickAt 1 []])).map fun s => ((s.node 1).state, (s.node 1).currentTerm)))
    ([setA 1 1], some (.leader, 2)) (by decide +kernel)
  rw [Prod.mk.injEq] at hs
  obtain ⟨s', hrest, hs'⟩ := Option.map_eq_some_iff.mp hs.2
  rw [Prod.mk.injEq] at hs'
  exact ⟨s, s', hs.1, hs'.1, hs'.2, committed_entries_survive threeServers_proper (Net.fresh_fresh 3) hr
    (execIf_run (fun _ _ => of_decide_eq_true) hrest) 0⟩

/-! ## Keyspaces -/

/-- What clients must not do, and a server that becomes leader must not have left over: the conditions of
    `Prez.Refinement` that are not about the protocol. -/
def ClientsOk (cfg : Config n) (s : Net n) : Action n → Prop
  | .event i (.cron inp) => (s.node i).state ≠ .leader → (cronLeader cfg i inp (s.node i)).state = .leader →
      ∀ p ∈ (s.servers i).procClients, p.1 ≤ (s.node i).commitIndex
  | .event i (.request id _ argv) => RequestOk (s.servers i) id argv
  | .event i (.disconnect id) => (s.node i).state = .leader → ¬ Waits (s.servers i) id
  | _ => True

instance (cfg : Config n) (s : Net n) : ∀ a, Decidable (ClientsOk cfg s a)
  | .event _ (.cron _) | .event _ (.disconnect _) => inferInstanceAs (Decidable (_ → _))
  | .event i (.request id _ argv) => inferInstanceAs (Decidable (RequestOk (s.servers i) id argv))
  | .event _ .connect | .deliver .. | .restart .. => instDecidableTrue

/-- The steps of a run that meets all conditions, those on clients included. -/
def Orderly (cfg : Config n) (s : Net n) (a : Action n) : Prop := Good cfg .all s a ∧ ClientsOk cfg s a
deriving Decidable

/-- The invariants of such a run: every keyspace is the replay of what is applied. -/
structure Replicated (cfg : Config n) (s : Net n) (h : Hist n) : Prop extends Running cfg s h where
  nodes : ∀ i, NodeInv (s.servers i)

theorem Net.Fresh.replicated (cfg : Config n) {s : Net n} (hs : s.Fresh) : Replicated cfg s (History.start s) where
  toRunning := hs.running
  nodes i := by
    obtain ⟨nodes, hboot⟩ := hs.servers i
    rw [hboot]
    exact .boot nodes contiguous_nil

/-- `clusterCron` keeps the keyspace right as long as nothing is committed beyond the log. -/
theorem NodeInv.cron_of_commit_le {i : Fin n} {inp : CronInput n} {x y : Server n} {out : List (Fin n × Message)}
    (hi : NodeInv x) (hcron : clusterCron cfg i inp x = some (y, out)) (hle : y.cluster.commitIndex ≤ logLength y.cluster.log)
    (hleft : x.cluster.state ≠ .leader → (cronLeader cfg i inp x.cluster).state = .leader →
      ∀ p ∈ x.procClients, p.1 ≤ x.cluster.commitIndex) : NodeInv y := by
  obtain ⟨x₁, h₁, hy⟩ := Option.map_eq_some_iff.mp hcron
  obtain ⟨hi₁, hc₁, hsub⟩ := hi.applyLoop (by have := hi.applied_le; omega) h₁
  have hy : { x₁ with cluster := (clusterCronTail cfg i inp x₁.cluster).1 } = y := congrArg Prod.fst hy
  rw [← hy] at hle ⊢
  obtain ⟨hlog, hla, hstate, hcommit⟩ := clusterCronTail_frame cfg i inp x₁.cluster
  have hrole : (cronLeader cfg i inp x₁.cluster).state = (cronLeader cfg i inp x.cluster).state := by
    rw [hc₁, cronLeader_lastApplied]
  have hle₁ := hi₁.applied_le
  refine hi₁.still hlog hla ?_ (hlog ▸ hle) fun hs => ?_
  · rcases hcommit with heq | ⟨-, j, hj, heq⟩ <;> rw [heq] <;> omega
  · rw [hc₁]
    by_cases hs₀ : x.cluster.state = .leader
    · exact .inl hs₀
    · exact .inr fun p hp => hleft hs₀ ((hrole.symm.trans hstate.symm).trans hs) p (hsub p hp)

/-- A node that still leads after an append request led before, in the term of the sender or in a later one. -/
theorem clusterProcessAppendEntries_leader {x y : ClusterState n} {entries : AppendEntries} {fsync : Bool}
    {response : ResponseAppendEntries} (h : clusterProcessAppendEntries x entries fsync = some (y, response))
    (hs : y.state = .leader) : x.state = .leader ∧ (y = x ∨ entries.term = x.currentTerm) := by
  obtain ⟨-, rfl⟩ | ⟨-, log, commitIndex, rfl⟩ := clusterProcessAppendEntries_frame h
  · exact ⟨hs, .inl rfl⟩
  · have hs : (followLeader x entries).state = .leader := hs
    refine ⟨followLeader_leader hs, .inr ?_⟩
    unfold followLeader at hs
    split at hs
    · assumption
    · cases hs

/-- An append request, between two states of a run: what was applied is still there, and a leader takes none. -/
theorem Replicated.append (hi : Replicated cfg s h) (hi' : Running cfg s' h') (hl : Later s h s' h') {p : Packet n}
    (hp : p ∈ s.net) {entries : AppendEntries} (hmsg : p.msg = .appendEntries entries) {fsync : Bool} {x : ClusterState n}
    {response : ResponseAppendEntries}
    (hx : clusterProcessAppendEntries (s.node p.dst) entries fsync = some (x, response)) (hx' : s'.node p.dst = x) :
    NodeInv { s.servers p.dst with cluster := x } := by
  subst hx'
  have hla := clusterProcessAppendEntries_lastApplied hx
  have hnode := hi.nodes p.dst
  have hkeep : (s.node p.dst).log.list.take (s.node p.dst).lastApplied.toNat <+: (s'.node p.dst).log.list := by
    refine (take_prefix_take_of_le _ ?_).trans ((hi.toRunning.survives hi' hl p.dst).kept.trans (List.take_prefix ..))
    exact Int.toNat_le_toNat hnode.applied_le
  refine hnode.update hla (hi'.logs.contiguous_node _) ?_ (hi'.commits.settled p.dst).length hkeep fun hs q hq hlt => ?_
  · exact hnode.applied_le.trans (hl.commitIndex p.dst)
  · obtain ⟨hs₀, hsame | hterm⟩ := clusterProcessAppendEntries_leader hx hs
    · rw [hsame]
      exact ⟨hs₀, List.take_prefix ..⟩
    · exact absurd hs₀ (hi.election.not_leader hp hmsg hterm)

/-- **Every step that meets all conditions keeps the invariants.** -/
theorem Replicated.step (hcfg : cfg.Proper) (hi : Replicated cfg s h) {a : Action n} (hok : Orderly cfg s a)
    (hs : s.step cfg a = some s') :
    ∃ h', Replicated cfg s' h' ∧ Later s h s' h' := by
  obtain ⟨⟨hfree, hgood⟩, hclients⟩ := hok
  obtain ⟨h', hi', hl⟩ := hi.toRunning.moves hcfg (moves_of_step hfree hgood hs)
  refine ⟨h', ⟨hi', ?_⟩, hl⟩
  have hput : ∀ {i : Fin n} {server : Server n} {rest out : List (Packet n)}, NodeInv server →
      ∀ v, NodeInv ((s.put i server rest out).servers v) := fun hserver =>
    Net.forall_server_put (P := fun _ => NodeInv) hserver fun v _ => hi.nodes v
  cases a with
  | restart i mem nodes => exact hfree.elim
  | event i e =>
    obtain ⟨⟨server, out⟩, hhandle, rfl⟩ := Option.map_eq_some_iff.mp hs
    have hnode : NodeOk cfg i (s.servers i) (.event e) → NodeInv server := fun hok => by
      refine (hi.nodes i).step hok ?_
      rw [Server.next, hhandle]
      rfl
    refine hput ?_
    cases e with
    | cron inp =>
      have hlen := (hi'.commits.settled i).length
      rw [Net.put_servers_self] at hlen
      exact (hi.nodes i).cron_of_commit_le hhandle hlen hclients
    | connect => exact hnode trivial
    | request id kind argv => exact hnode hclients
    | disconnect id => exact hnode hclients
  | deliver k fsync =>
    obtain ⟨p, hp, hs⟩ := Option.bind_eq_some_iff.mp hs
    obtain ⟨⟨server, response⟩, hreceive, rfl⟩ := Option.map_eq_some_iff.mp hs
    have hnode : NodeOk cfg p.dst (s.servers p.dst) (.message p.src p.msg fsync) → NodeInv server := fun hok => by
      refine (hi.nodes p.dst).step hok ?_
      rw [Server.next, hreceive]
      rfl
    refine hput ?_
    cases hmsg : p.msg with
    | appendEntries entries =>
      rw [hmsg] at hreceive
      obtain ⟨⟨x, r⟩, hx, heq⟩ := Option.map_eq_some_iff.mp hreceive
      cases heq
      exact hi.append hi' hl (List.mem_of_getElem? hp) hmsg hx (Net.put_node_self ..)
    | requestVote vote => exact hnode (by rw [hmsg]; trivial)
    | responseVote vote => exact hnode (by rw [hmsg]; trivial)
    | responseAppendEntries entries => exact hnode (by rw [hmsg]; trivial)

/-- **The invariants of a run.** -/
theorem Replicated.run (hcfg : cfg.Proper) (hi : Replicated cfg s h) (hr : RunIf cfg (Orderly cfg) s s') :
    ∃ h', Replicated cfg s' h' ∧ Later s h s' h' := by
  refine RunBy.invariant (P := fun s' => ∃ h', Replicated cfg s' h' ∧ Later s h s' h') ?_ hr ⟨h, hi, .refl s h⟩
  rintro s₁ a s₂ hok hs ⟨h₁, hi₁, hl⟩
  obtain ⟨h₂, hi₂, hl₂⟩ := hi₁.step hcfg hok hs
  exact ⟨h₂, hi₂, hl.trans hl₂⟩

/-- What is applied is committed. -/
theorem Running.applied_prefix (hi : Running cfg s h) (v : Fin n) :
    (s.servers v).applied <+: (s.node v).committed ∧
      (s.servers v).applied.length = (s.node v).lastApplied.toNat := by
  obtain ⟨⟨-, hle⟩, hlen, -, -⟩ := hi.commits.settled v
  refine ⟨take_prefix_take_of_le _ (Int.toNat_le_toNat hle), ?_⟩
  rw [Server.applied, List.length_take, LogState.length_list]
  simp only [Net.node]
  omega

theorem replay_append (l l' : List LogEntry) :
    replay (l ++ l') = l'.foldl (fun db e => runText db e.command.bytes) (replay l) := List.foldl_append ..

/-- **Replicas agree.** In a run without restarts that meets all conditions, a server that has applied no less than
    another has applied the same entries first, and its keyspace is the other's with its further entries executed;
    servers that have applied equally much have the same keyspace. -/
theorem replicas_agree (hcfg : cfg.Proper) {s₀ : Net n} (h₀ : s₀.Fresh) (hr : RunIf cfg (Orderly cfg) s₀ s)
    {i j : Fin n} (hle : (s.node i).lastApplied ≤ (s.node j).lastApplied) :
    ∃ more, (s.servers j).applied = (s.servers i).applied ++ more ∧
      more.length = ((s.node j).lastApplied - (s.node i).lastApplied).toNat ∧
      (s.servers j).db = more.foldl (fun db e => runText db e.command.bytes) (s.servers i).db := by
  obtain ⟨h, hi, -⟩ := (h₀.replicated cfg).run hcfg hr
  obtain ⟨hpi, hli⟩ := hi.toRunning.applied_prefix i
  obtain ⟨hpj, hlj⟩ := hi.toRunning.applied_prefix j
  have hstart : 0 ≤ (s.node i).lastApplied := (hi.commits.settled i).applied.1
  -- both are prefixes of the longer of two committed prefixes
  have hpre : (s.servers i).applied <+: (s.servers j).applied := by
    have hlen : (s.servers i).applied.length ≤ (s.servers j).applied.length := by
      rw [hli, hlj]
      omega
    rcases hi.logs.inv.committed_comparable (hi.commits.settled i).committed (hi.commits.settled j).committed with hp | hp
    · exact prefix_of_length_le (hpi.trans hp) hpj hlen
    · exact prefix_of_length_le hpi (hpj.trans hp) hlen
  obtain ⟨more, hmore⟩ := hpre
  refine ⟨more, hmore.symm, ?_, ?_⟩
  · have hsum := congrArg List.length hmore
    rw [List.length_append, hli, hlj] at hsum
    omega
  · rw [(hi.nodes j).db, ← hmore, replay_append, ← (hi.nodes i).db]

/-- The leader has applied the write and a follower has not. -/
theorem replicas_agree_write : ∃ s : Net 3, (s.servers 0).db (ascii "a") = some (ascii "1") ∧
    ∃ more, (s.servers 0).applied = (s.servers 1).applied ++ more ∧ more.length = 1 ∧
      (s.servers 0).db = more.foldl (fun db e => runText db e.command.bytes) (s.servers 1).db := by
  obtain ⟨s, hr, hs⟩ := run_of_exec (Net.step threeServers) (Orderly threeServers) (Net.fresh 3)
    (writeCommitted ++ [tickAt 0 []])
    (fun s => ((s.servers 0).db (ascii "a"), (s.node 0).lastApplied, (s.node 1).lastApplied))
    (some (ascii "1"), 1, 0) (by decide +kernel)
  simp only [Prod.mk.injEq] at hs
  obtain ⟨hdb, h0, h1⟩ := hs
  have hle : (s.node 1).lastApplied ≤ (s.node 0).lastApplied := by
    rw [h0, h1]
    decide
  obtain ⟨more, happlied, hlen, hmore⟩ :=
    replicas_agree threeServers_proper (Net.fresh_fresh 3) hr hle
  rw [h0, h1] at hlen
  exact ⟨s, hdb, more, happlied, hlen, hmore⟩

/-! ## Answered writes -/

/-- A client that the apply loop changes waits for an index that the loop goes through. -/
theorem applyLoop_client (id : Nat) : ∀ {count : Nat} {x y : Server n}, applyLoop count x = some y →
    y.clients id = x.clients id ∨ ∃ index, x.cluster.lastApplied < index ∧ index ≤ x.cluster.lastApplied + count ∧
      waitingClient x index = some id := by
  intro count
  induction count with
  | zero =>
    intro x y h
    cases h
    exact .inl rfl
  | succ count ih =>
    intro x y h
    obtain ⟨x₁, h₁, h⟩ := Option.bind_eq_some_iff.mp h
    obtain ⟨hcluster, -, hcase⟩ := applyNext_cases h₁
    -- who waits for a later index waits still, and only the client of this one is changed
    have hwaits : ∀ index, index ≠ x.cluster.lastApplied + 1 → waitingClient x₁ index = waitingClient x index := by
      intro index hne
      unfold waitingClient
      rw [hcluster]
      rcases hcase with ⟨-, hsame⟩ | ⟨id', -, hcalled⟩
      · rw [hsame.procClients]
      · rw [hcalled.table, lookup_filter_ne hne]
    have hclient : x₁.clients id = x.clients id ∨ waitingClient x (x.cluster.lastApplied + 1) = some id := by
      rcases hcase with ⟨-, hsame⟩ | ⟨id', hid, hcalled⟩
      · exact .inl (congrFun hsame.clients id)
      · obtain ⟨c, r, -, -, hclients⟩ := hcalled.client
        by_cases heq : id = id'
        · obtain ⟨en, -, hwait⟩ := Option.bind_eq_some_iff.mp hid
          exact .inr (heq ▸ hwait)
        · rw [hclients]
          exact .inl (Function.update_of_ne heq ..)
    rcases hclient with hsame | hwait
    · rcases ih h with heq | ⟨index, hlt, hle, hwait⟩
      · exact .inl (heq.trans hsame)
      · rw [hcluster] at hlt hle
        dsimp only at hlt hle
        rw [hwaits index (by omega)] at hwait
        exact .inr ⟨index, by omega, by omega, hwait⟩
    · exact .inr ⟨x.cluster.lastApplied + 1, by omega, by omega, hwait⟩

/-- What was committed at an index, in a later state. -/
theorem Running.entry_survives (hi' : Running cfg s' h') {i : Fin n} (hlive : Survives s s' i) {k : Nat} {e : LogEntry}
    (he : (s.node i).committed[k]? = some e) :
    (∀ j, (s'.node j).state = .leader → (s.node i).currentTerm ≤ (s'.node j).currentTerm →
      (s'.node j).log.list[k]? = some e) ∧
    ∀ j, (k : Int) < (s'.node j).lastApplied → (s'.servers j).executed[k]? = some (some e) := by
  refine ⟨fun j hs ht => getElem?_of_isPrefix (hlive.led j hs ht) he, fun j hlt => ?_⟩
  obtain ⟨hpre, hlen⟩ := hi'.applied_prefix j
  have hk : k < (s'.servers j).applied.length := by
    rw [hlen]
    omega
  obtain ⟨e', he'⟩ : ∃ e', (s'.servers j).applied[k]? = some e' := ⟨_, List.getElem?_eq_getElem hk⟩
  have hcom := getElem?_of_isPrefix hpre he'
  -- of the two committed prefixes one extends the other, so they have the same entry here
  have hsame : e' = e := by
    rcases hlive.agreed j with hp | hp
    · exact Option.some.inj (hcom.symm.trans (getElem?_of_isPrefix hp he))
    · exact Option.some.inj ((getElem?_of_isPrefix hp hcom).symm.trans he)
  have hexec : (s'.servers j).executed = (s'.servers j).applied.map some := (hi'.commits.settled j).executed
  rw [hexec, List.getElem?_map, he', hsame]
  rfl

/-- **Answered writes survive.** In a run without restarts that meets all conditions, a client that `clusterCron` gives a
    reply has its command in the log, at an index that is committed; and whatever happens from then on, every leader
    of this term or a later one has that entry at the index, and every server that applies the index applies it. -/
theorem answered_writes_survive (hcfg : cfg.Proper) {s₀ s₁ : Net n} (h₀ : s₀.Fresh)
    (hr : RunIf cfg (Orderly cfg) s₀ s) {i : Fin n} {inp : CronInput n}
    (hok : Orderly cfg s (.event i (.cron inp))) (hs : s.step cfg (.event i (.cron inp)) = some s₁)
    (hr' : RunIf cfg (Orderly cfg) s₁ s') {id : Nat} {c c' : Client} (hc : (s.servers i).clients id = some c)
    (hc' : (s₁.servers i).clients id = some c') (hreply : c'.reply ≠ c.reply) :
    ∃ (k : Nat) (e : LogEntry), sdssplitargs e.command.bytes = some c.argv ∧ (s.node i).committed[k]? = some e ∧
      (∀ j, (s'.node j).state = .leader → (s.node i).currentTerm ≤ (s'.node j).currentTerm →
        (s'.node j).log.list[k]? = some e) ∧
      ∀ j, (k : Int) < (s'.node j).lastApplied → (s'.servers j).executed[k]? = some (some e) := by
  obtain ⟨h, hi, -⟩ := (h₀.replicated cfg).run hcfg hr
  obtain ⟨h', hi', hl⟩ := hi.run hcfg (.head ⟨_, hok, hs⟩ hr')
  have hlive := hi.toRunning.survives hi'.toRunning hl i
  -- the client waits for an index that is applied now
  obtain ⟨⟨server, out⟩, hcron, rfl⟩ := Option.map_eq_some_iff.mp hs
  obtain ⟨x₁, hloop, hx₁⟩ := Option.map_eq_some_iff.mp hcron
  have hserver : { x₁ with cluster := (clusterCronTail cfg i inp x₁.cluster).1 } = server := congrArg Prod.fst hx₁
  have hclients : server.clients = x₁.clients := by rw [← hserver]
  have hnode := hi.nodes i
  have happlied := hnode.applied_le
  obtain ⟨index, hlt, hle', hwait⟩ : ∃ index, (s.node i).lastApplied < index ∧ index ≤ (s.node i).commitIndex ∧
      waitingClient (s.servers i) index = some id := by
    rcases applyLoop_client id hloop with hsame | ⟨index, hlt, hle', hwait⟩
    · rw [Net.put_servers_self, hclients, hsame, hc] at hc'
      cases hc'
      exact absurd rfl hreply
    · exact ⟨index, hlt, by simp only [Net.node]; omega, hwait⟩
  unfold waitingClient at hwait
  split at hwait
  · rename_i hleader
    -- what it holds is the entry of the index
    obtain ⟨c₁, cmd, e, hclient, -, he, hsplit, -⟩ := hnode.pending hleader (index, id) (mem_of_lookup hwait) hlt
    cases hc.symm.trans hclient
    have hstart := hnode.start
    have hcom : (s.node i).committed[(index - 1).toNat]? = some e := by
      rw [ClusterState.committed, List.getElem?_take_of_lt (by simp only [Net.node] at *; omega)]
      exact he
    exact ⟨(index - 1).toNat, e, hsplit, hcom, hi'.toRunning.entry_survives hlive hcom⟩
  · cases hwait

/-- The client that waits for its write is answered. -/
theorem answered_writes_survive_set : ∃ (s : Net 3) (k : Nat) (e : LogEntry),
    sdssplitargs e.command.bytes = some [ascii "set", ascii "a", ascii "1"] ∧ (s.node 0).committed[k]? = some e := by
  obtain ⟨s, hr, hs⟩ := run_of_exec (Net.step threeServers) (Orderly threeServers) (Net.fresh 3) writeCommitted
    (fun s => decide (Orderly threeServers s (tickAt 0 []) ∧
      ((s.servers 0).clients 0).map (fun c => (c.argv, c.reply)) = some ([ascii "set", ascii "a", ascii "1"], []) ∧
      ((s.step threeServers (tickAt 0 [])).bind fun s₁ => (s₁.servers 0).clients 0).map (·.reply) =
        some [ascii "+OK\r\n"])) true (by decide +kernel)
  obtain ⟨hok, hold, hnew⟩ := of_decide_eq_true hs
  obtain ⟨c, hc, hpair⟩ := Option.map_eq_some_iff.mp hold
  obtain ⟨hargv, hnone⟩ := Prod.mk.inj hpair
  obtain ⟨c', hstep, hreply⟩ := Option.map_eq_some_iff.mp hnew
  obtain ⟨s₁, hs₁, hc'⟩ := Option.bind_eq_some_iff.mp hstep
  obtain ⟨k, e, hsplit, hcom, -⟩ := answered_writes_survive threeServers_proper (Net.fresh_fresh 3) hr hok
    hs₁ .refl hc hc' (by rw [hreply, hnone]; exact nofun)
  exact ⟨s, k, e, hargv ▸ hsplit, hcom⟩

end Prez
