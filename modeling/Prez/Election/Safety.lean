import Prez.Election.Invariant

/-!
# `Prez.Election.Safety` — one leader per term

Every move of the cluster is one of the five steps that elections tell apart (`Voting`), so each of them keeps
`ElectionInv`. As long as nobody restarts, a server without a vote in memory has not voted in its term
(`Unvoted`), which is what the invariant needs of a voter; with that, election safety holds over whole runs.

The empty string stands for "has not voted", so the names of the node table must not be empty, and a server finds its
own line without regard to case, so they must not differ in case only (`two_leaders_by_name`).
-/

namespace Prez

open Lib

variable {n : Nat} {cfg : Config n} {g : Guard} {s s' : Net n} {h h' : Hist n}

/-! ## All moves -/

/-- Two states of a server that elections do not tell apart, except that the second may have stepped back. -/
structure SameVoter (x y : ClusterState n) : Prop where
  term : y.currentTerm = x.currentTerm
  votedFor : y.votedFor = x.votedFor
  votesGranted : y.votesGranted = x.votesGranted
  state : y.state = x.state ∨ y.state = .follower

theorem SameVoter.refl (x : ClusterState n) : SameVoter x x := ⟨rfl, rfl, rfl, .inl rfl⟩

theorem sameVoter_setNode (x : ClusterState n) (j : Fin n) (node : ClusterNode) : SameVoter x (x.setNode j node) :=
  ⟨rfl, rfl, rfl, .inl rfl⟩

/-- Committing does not change a vote. -/
theorem SameVoter.logCommitIndex {x y : ClusterState n} (hxy : SameVoter x y) (index : Int) :
    SameVoter x (logCommitIndex y index) := by
  unfold Prez.logCommitIndex
  split
  · exact ⟨hxy.term, hxy.votedFor, hxy.votesGranted, hxy.state⟩
  · exact hxy

theorem sameVoter_clusterUpdateCommitIndex (x : ClusterState n) : SameVoter x (clusterUpdateCommitIndex x) := by
  rcases clusterUpdateCommitIndex_cases x with heq | ⟨j, -, heq⟩ <;> rw [heq]
  · exact .refl x
  · exact ⟨rfl, rfl, rfl, .inl rfl⟩

/-- A leader of the server's own term does not change its vote. -/
theorem sameVoter_followLeader {x : ClusterState n} {entries : AppendEntries} (ht : entries.term = x.currentTerm) :
    SameVoter x (followLeader x entries) := by
  rw [followLeader, if_pos ht]
  refine ⟨rfl, rfl, rfl, ?_⟩
  dsimp only
  split
  · exact .inr rfl
  · exact .inl rfl

theorem SameVoter.withLog {x y : ClusterState n} (hxy : SameVoter x y) (log : LogState) :
    SameVoter x { y with log := log } := ⟨hxy.term, hxy.votedFor, hxy.votesGranted, hxy.state⟩

/-- A vote that is counted leaves the wire. -/
theorem quiet_count {k : Nat} {p : Packet n} {vote : ResponseVote} (hp : s.net[k]? = some p)
    (hm : p.msg = .responseVote vote) (hgr : vote.voteGranted = true)
    (ht : vote.term = (s.node p.dst).currentTerm) :
    Quiet s h p.dst { s.node p.dst with votesGranted := (s.node p.dst).votesGranted + 1 } (s.net.eraseIdx k) [] where
  term := rfl
  votedFor := rfl
  state := .inl rfl
  wire := List.eraseIdx_sublist ..
  tally := by
    rintro - t rfl
    have hone : grants p.dst (s.node p.dst).currentTerm p = true := by
      unfold grants
      rw [hm]
      simp [hgr, ht]
    rw [countP_eraseIdx hp, if_pos hone]
    dsimp only
    omega
  out := by
    intro q hq
    cases hq

/-- What a move means to elections. -/
inductive Voting (cfg : Config n) (s : Net n) (h : Hist n) : Net n → Hist n → Prop where
  | quiet {i : Fin n} {server : Server n} {rest out : List (Packet n)} {h' : Hist n}
      (hq : Quiet s h i server.cluster rest out) (hh : SameVotes h h') : Voting cfg s h (s.put i server rest out) h'
  | enter {i : Fin n} {server : Server n} {t : Int} (ht : (s.node i).currentTerm < t)
      (hb : Becomes s i ((s.node i).enterTerm t) server) :
      Voting cfg s h (s.put i server s.net []) (h.raise i t)
  | campaign {i : Fin n} {server : Server n} {inp : CronInput n} (hs : (s.node i).state ≠ .leader)
      (ht : inp.timeout = true) (hb : Becomes s i (startElection cfg i inp (s.node i)).1 server) :
      Voting cfg s h (s.put i server s.net (voteRequests cfg i inp (s.node i)))
        ((h.raise i ((s.node i).currentTerm + 1)).stand i)
  | elect {i : Fin n} {server : Server n} (hs : (s.node i).state = .candidate)
      (hq : quorumSize n ≤ (s.node i).votesGranted) (hb : Becomes s i (becomeLeader cfg i (s.node i)) server) :
      Voting cfg s h (s.put i server s.net []) (h.elect i)
  | grant {k : Nat} {p : Packet n} {vote : RequestVote} {server : Server n} (hp : s.net[k]? = some p)
      (hm : p.msg = .requestVote vote) (ht : vote.term = (s.node p.dst).currentTerm)
      (hv : (s.node p.dst).votedFor = [] ∨ (s.node p.dst).votedFor = vote.candidateid)
      (hl : logCurrentTerm (s.node p.dst).log ≤ vote.lastLogTerm)
      (hb : Becomes s p.dst { s.node p.dst with votedFor := vote.candidateid } server) :
      Voting cfg s h (s.put p.dst server (s.net.eraseIdx k)
        [p.reply (.responseVote (clusterSendResponseVote (s.node p.dst) true))]) (h.grant p.dst p.src)

/-- A change that no vote sees is a quiet one. -/
theorem SameVoter.voting {i : Fin n} {server : Server n} {rest out : List (Packet n)}
    (hx : SameVoter (s.node i) server.cluster) (hwire : rest.Sublist s.net) (hout : ∀ p ∈ out, Inert h p)
    (hh : SameVotes h h') : Voting cfg s h (s.put i server rest out) h' := by
  refine .quiet ⟨hx.term, hx.votedFor, hx.state, hwire, ?_, hout⟩ hh
  intro _ t _
  rw [hx.votesGranted]
  exact Nat.add_le_add_left hwire.countP_le _

/-- A response to an append request, sent after a state change that elections do not see. -/
theorem SameVoter.voting_response {k : Nat} {p : Packet n} {server : Server n} {r : ResponseAppendEntries}
    (hx : SameVoter (s.node p.dst) server.cluster) (hh : SameVotes h h') :
    Voting cfg s h (s.put p.dst server (s.net.eraseIdx k) [p.reply (.responseAppendEntries r)]) h' := by
  refine hx.voting (List.eraseIdx_sublist ..) ?_ hh
  intro q hq
  rw [List.mem_singleton.mp hq]
  trivial

/-- Every move is quiet, or one of the four that matter to votes. -/
theorem Move.voting (hi : ElectionInv cfg s h) (hm : Move cfg g s h s' h') : Voting cfg s h s' h' := by
  have hnil : ∀ p ∈ ([] : List (Packet n)), Inert h p := fun p hp => nomatch hp
  have hsub : ∀ k, (s.net.eraseIdx k).Sublist s.net := fun k => List.eraseIdx_sublist ..
  cases hm with
  | idle i server hb => exact SameVoter.voting (hb.cluster ▸ .refl _) (.refl _) hnil (.refl h)
  | apply i server hlt hc he =>
    exact SameVoter.voting (hc ▸ ⟨rfl, rfl, rfl, .inl rfl⟩) (.refl _) hnil (.refl h)
  | enter i server t ht hb => exact .enter ht hb
  | campaign i server inp hs ht hb => exact .campaign hs ht hb
  | elect i server hs hq hb => exact .elect hs hq hb
  | commit i server hs hg hb =>
    exact SameVoter.voting (hb.cluster ▸ sameVoter_clusterUpdateCommitIndex _) (.refl _) hnil (.refl h)
  | heartbeat i j server hs hj hb =>
    refine SameVoter.voting (hb.cluster ▸ sameVoter_setNode ..) (.refl _) ?_ (.refl h)
    intro p hp
    rw [List.mem_singleton.mp hp]
    have hled := hi.leader i hs
    rw [hi.term_eq] at hled
    exact ⟨hled, hj.symm⟩
  | write i server e log hw hb =>
    refine SameVoter.voting ?_ (.refl _) hnil (sameVotes_append h i e)
    rw [hb.cluster]
    split
    · exact ((SameVoter.refl _).withLog log).logCommitIndex _
    · exact (SameVoter.refl _).withLog log
  | deny k p vote server hp hm hb =>
    refine SameVoter.voting (hb.cluster ▸ .refl _) (hsub k) ?_ (.refl h)
    intro q hq
    rw [List.mem_singleton.mp hq]
    exact rfl
  | grant k p vote server hp hm ht hv hidx hl hb => exact .grant hp hm ht hv hl hb
  | count k p vote server hp hm hgr ht hb => exact .quiet (hb.cluster ▸ quiet_count hp hm hgr ht) (.refl h)
  | ignore k p server hp hb => exact SameVoter.voting (hb.cluster ▸ .refl _) (hsub k) hnil (.refl h)
  | stale k p entries server hp hm hb => exact SameVoter.voting_response (hb.cluster ▸ .refl _) (.refl h)
  | refuse k p entries server hp hm ht hb =>
    exact SameVoter.voting_response (hb.cluster ▸ sameVoter_followLeader ht) (.refl h)
  | unsynced k p entries server log _ hh hp hm ht ha hl hg hb =>
    exact SameVoter.voting_response (hb.cluster ▸ (sameVoter_followLeader ht).withLog log) hh.sameVotes
  | accept k p entries server log _ hh hp hm ht ha hl hg hgc hb =>
    exact SameVoter.voting_response (hb.cluster ▸ ((sameVoter_followLeader ht).withLog log).logCommitIndex _)
      hh.sameVotes
  | credit k p entries server index hp hm hok hl hg hb =>
    exact SameVoter.voting (hb.cluster ▸ sameVoter_setNode ..) (hsub k) hnil (.refl h)
  | retreat k p server hp hb =>
    exact SameVoter.voting (hb.cluster ▸ sameVoter_setNode ..) (hsub k) hnil (.refl h)

/-- **Every move keeps the invariant.** -/
theorem ElectionInv.move (hi : ElectionInv cfg s h) (hf : Free s h) (hm : Move cfg g s h s' h') :
    ElectionInv cfg s' h' := by
  cases hm.voting hi with
  | quiet hq hh => exact hi.quiet hq hh
  | enter ht hb => exact hi.stepBack ht.le (by rw [hb.cluster]; rfl) (by rw [hb.cluster]; rfl) (by rw [hb.cluster]; rfl)
  | campaign hs ht hb => exact hi.campaign hs ht hb
  | elect hs hq hb => exact hi.elect hs hq hb
  | grant hp hmsg ht hv hl hb =>
    exact hi.grant (hi.unvoted hf (List.mem_of_getElem? hp) hmsg ht hv hl) hp hmsg ht hb

/-- The leader of a term stays the leader of that term. -/
theorem ElectionInv.led_of_move (hi : ElectionInv cfg s h) (hm : Move cfg g s h s' h') {t : Int} {c : Fin n}
    (hc : h.led t = some c) : h'.led t = some c := by
  cases hm.voting hi with
  | quiet hq hh => exact (congrFun hh.led t).trans hc
  | elect hs hq hb =>
    rw [← hc]
    refine Function.update_of_ne ?_ ..
    rintro rfl
    rw [hi.unled hs hq] at hc
    cases hc
  | _ => exact hc

/-! ## Voters without a vote -/

/-- A server whose name is not empty asks in a name that is not. -/
theorem serverName_ne_nil {i : Fin n} (hname : (cfg.name i).bytes ≠ []) : cstr (cfg.serverName i) ≠ [] := by
  intro hnil
  have hself := cfg.self i
  rw [strcaseEq, hnil, cstr_eq_self (cfg.name i).nulFree, beq_iff_eq, List.map_nil, List.map_eq_nil_iff] at hself
  exact hname hself

/-- What a move does to the vote of `v`: there is a vote in memory, or `v` has not voted in its term, or
    nothing about it has changed. -/
theorem ElectionInv.voter_of_move (hi : ElectionInv cfg s h) (hname : ∀ i, (cfg.name i).bytes ≠ [])
    (hm : Move cfg g s h s' h') (v : Fin n) :
    (s'.node v).votedFor ≠ [] ∨ h'.vote v (h'.term v) = none ∨
      (s'.node v).votedFor = (s.node v).votedFor ∧ h'.vote v = h.vote v ∧ h'.term v = h.term v := by
  cases hm.voting hi with
  | quiet hq hh => exact .inr (.inr ⟨(hq.node v).2.1, congrFun hh.vote v, congrFun hh.term v⟩)
  | @enter i server t ht hb =>
    by_cases hv : v = i
    · subst hv
      refine .inr (.inl ?_)
      -- nobody votes in a term before entering it
      rw [h.raise_term_self, Option.eq_none_iff_forall_ne_some]
      intro c hc
      have := (hi.vote_term hc).1
      rw [hi.term_eq] at this
      omega
    · exact .inr (.inr ⟨by rw [Net.put_node_of_ne s hv], rfl, h.raise_term_of_ne hv t⟩)
  | @campaign i server inp hs ht hb =>
    by_cases hv : v = i
    · subst hv
      left
      rw [Net.put_node_self, hb.cluster, startElection, if_pos ⟨hs, ht⟩]
      exact serverName_ne_nil (hname v)
    · refine .inr (.inr ⟨by rw [Net.put_node_of_ne s hv], ?_, h.raise_term_of_ne hv _⟩)
      rw [campaign_vote]
      funext t
      exact setCell_of_ne _ _ fun hcell => hv hcell.1
  | @elect i server hs hq hb =>
    refine .inr (.inr ⟨?_, rfl, rfl⟩)
    by_cases hv : v = i
    · rw [hv, Net.put_node_self, hb.cluster, becomeLeader, if_pos ⟨hs, hq⟩]
    · rw [Net.put_node_of_ne s hv]
  | @grant k p vote server hp hmsg ht hv hl hb =>
    by_cases hvd : v = p.dst
    · subst hvd
      left
      -- `candidateid` is a name of the node table
      rw [Net.put_node_self, hb.cluster]
      dsimp only
      rw [(hi.request p (hi.wire p (List.mem_of_getElem? hp)) vote hmsg).2.1]
      exact hname _
    · refine .inr (.inr ⟨by rw [Net.put_node_of_ne s hvd], ?_, rfl⟩)
      funext t
      exact setCell_of_ne _ _ fun hcell => hvd hcell.1

/-- A server without a vote in memory has not voted in its term. -/
def Unvoted (s : Net n) (h : Hist n) : Prop := ∀ v, (s.node v).votedFor = [] → h.vote v (h.term v) = none

/-- A server with an empty `voted_for` has its vote to give. -/
theorem Unvoted.free (hi : ElectionInv cfg s h) (hu : Unvoted s h) : Free s h := by
  intro p _ vote _ ht hv _
  rw [ht, ← hi.term_eq]
  exact hu p.dst hv

/-- Without restarts a vote given is in memory. -/
theorem Unvoted.move (hi : ElectionInv cfg s h) (hname : ∀ i, (cfg.name i).bytes ≠ []) (hu : Unvoted s h)
    (hm : Move cfg g s h s' h') : Unvoted s' h' := by
  intro v hv
  rcases hi.voter_of_move hname hm v with hne | hnone | ⟨hvf, hvote, hterm⟩
  · exact absurd hv hne
  · exact hnone
  · rw [hvote, hterm]
    exact hu v (hvf ▸ hv)

/-! ## Election safety -/

/-- The history of a cluster that has just come up. -/
def History.start (s : Net n) : Hist n where
  term v := (s.node v).currentTerm
  vote _ _ := none
  led _ := none
  log v := (s.node v).log.list
  cand _ _ := none
  elog _ := []
  llog _ := []
  ack _ _ := 0

theorem Net.Booted.node {s : Net n} (hs : s.Booted) (v : Fin n) : ∃ nodes log, s.node v = clusterInit nodes log := by
  obtain ⟨nodes, log, hboot⟩ := hs.servers v
  exact ⟨nodes, log, by rw [Net.node, hboot]; rfl⟩

/-- Servers that have just started have voted for nobody. -/
theorem Net.Booted.electionInv {s : Net n} (hs : s.Booted) : ElectionInv cfg s (History.start s) where
  node v := by
    obtain ⟨nodes, log, hv⟩ := hs.node v
    refine ⟨rfl, ?_, ?_, ?_⟩ <;> rw [hv]
    · exact fun hne => absurd rfl hne
    · exact nofun
    · exact nofun
  sent p hp := by
    rw [hs.sent] at hp
    cases hp
  wire p hp := by
    rw [hs.net] at hp
    cases hp
  vote_term hv := nomatch hv
  once hcv t := by
    rw [hs.net]
    exact Nat.zero_le _
  tally v hc := by
    obtain ⟨nodes, log, hv⟩ := hs.node v
    rw [hv] at hc
    cases hc
  elected hl := nomatch hl

theorem unvoted_start (s : Net n) : Unvoted s (History.start s) := fun _ _ => rfl

/-- Runs keep the invariant, and who led a term goes on having led it. -/
theorem election_of_moves (hname : ∀ i, (cfg.name i).bytes ≠ []) (hm : Moves cfg g s s')
    (hi : ElectionInv cfg s h ∧ Unvoted s h) {t : Int} :
    ∃ h', (ElectionInv cfg s' h' ∧ Unvoted s' h') ∧ ∀ c, h.led t = some c → h'.led t = some c := by
  refine hm.invariant (P := fun s h' => (ElectionInv cfg s h' ∧ Unvoted s h') ∧
    ∀ c, h.led t = some c → h'.led t = some c) ?_ ⟨hi, fun _ hc => hc⟩
  rintro s₁ h₁ s₂ h₂ ⟨⟨he, hu⟩, hled⟩ hmove
  exact ⟨⟨he.move (hu.free he) hmove, hu.move he hname hmove⟩, fun c hc => he.led_of_move hmove (hled c hc)⟩

/-- **Election safety.** In a run without restarts two servers are never leader in the same term, neither at
    one time nor at two. The run may deliver messages in any order and lose any of them; the names of the node
    table are not empty. -/
theorem election_safety (cfg : Config n) (hname : ∀ i, (cfg.name i).bytes ≠ []) {s₀ s₁ s₂ : Net n}
    (h₀ : s₀.Booted) (hr₁ : RunIf cfg (fun _ a => a.CrashFree) s₀ s₁)
    (hr₂ : RunIf cfg (fun _ a => a.CrashFree) s₁ s₂) {i j : Fin n} (hi : (s₁.node i).state = .leader)
    (hj : (s₂.node j).state = .leader) (ht : (s₁.node i).currentTerm = (s₂.node j).currentTerm) : i = j := by
  have hmoves : ∀ {s s'}, RunIf cfg (fun _ a => a.CrashFree) s s' → Moves cfg .none s s' := fun hr =>
    moves_of_run (hr.weaken fun _ _ => good_of_crashFree)
  obtain ⟨h₁, hinv₁, -⟩ := election_of_moves (t := 0) hname (hmoves hr₁) ⟨h₀.electionInv, unvoted_start s₀⟩
  obtain ⟨h₂, hinv₂, hled⟩ := election_of_moves hname (hmoves hr₂) hinv₁
  have hli := hinv₁.1.leader i hi
  rw [hinv₁.1.term_eq, ht] at hli
  exact (hinv₂.1.leader_unique hj (hled i hli)).symm

/-- Server 0 leads term 1 alone. -/
theorem election_safety_three : ∃ s : Net 3,
    RunIf threeServers (fun _ a => a.CrashFree) (Net.fresh 3) s ∧ (s.node 0).state = .leader ∧
      ∀ j, (s.node j).state = .leader → (s.node 0).currentTerm = (s.node j).currentTerm → 0 = j := by
  obtain ⟨s, hr, hs⟩ := run_of_exec (Net.step threeServers) (fun _ a => a.CrashFree) (Net.fresh 3)
    (campaignAt 0 [1] :: deliveries 2 ++ [tickAt 0 []]) (fun s => (s.node 0).state) .leader (by decide +kernel)
  exact ⟨s, hr, hs, fun j hj ht => election_safety _ (by decide) (Net.fresh_fresh 3).booted hr .refl hs hj ht⟩

/-- A node table in which the first name is empty. -/
def namelessConfig : Config 3 where
  name i := if i = 0 then ⟨[], by decide, by decide⟩ else threeServers.name i
  serverName i := if i = 0 then [] else threeServers.serverName i
  self := by decide
  alone := by decide

/-- The lines `a`, `A` and `b`: the servers `a` and `A` both take the second one for their own. -/
def sharedLine : NodeTable 3 where
  name i := if i = 2 then threeServers.name 1 else ⟨ascii "A", by decide, by decide⟩
  serverName i := if i = 0 then ascii "a" else if i = 1 then ascii "A" else ascii "b"
  self := by decide

/-- A run without restarts makes the servers 0 and 1 leaders of one term. -/
def ElectsTwo (cfg : NodeTable 3) : Prop :=
  ∃ s₀ s : Net 3, s₀.Booted ∧ RunIf cfg (fun _ a => a.CrashFree) s₀ s ∧ (s.node 0).state = .leader ∧
    (s.node 1).state = .leader ∧ (s.node 0).currentTerm = (s.node 1).currentTerm

/-- Both ask server 2, and both get its vote. -/
theorem electsTwo_of_mem : ∀ cfg ∈ [namelessConfig.toNodeTable, sharedLine], ElectsTwo cfg := by
  intro cfg hcfg
  obtain ⟨s, hr, hs⟩ := run_of_exec (Net.step cfg) (fun _ a => a.CrashFree) (Net.fresh 3)
    ([campaignAt 0 [2], campaignAt 1 [2]] ++ deliveries 4 ++ [tickAt 0 [], tickAt 1 []])
    (fun s => ((s.node 0).state, (s.node 1).state, (s.node 0).currentTerm, (s.node 1).currentTerm))
    (.leader, .leader, 1, 1) (by
      simp only [List.mem_cons, List.not_mem_nil, or_false] at hcfg
      rcases hcfg with rfl | rfl <;> decide +kernel)
  simp only [Prod.mk.injEq] at hs
  exact ⟨_, s, (Net.fresh_fresh 3).booted, hr, hs.1, hs.2.1, hs.2.2.1.trans hs.2.2.2.symm⟩

/-- With an empty name, `voted_for` looks unset after a vote for it, and the voter votes again in the same term. With
    names that differ in case only, two candidates ask in one name, and a vote for one of them is a vote for both. -/
theorem two_leaders_by_name : ElectsTwo namelessConfig.toNodeTable ∧ ElectsTwo sharedLine :=
  ⟨electsTwo_of_mem _ (by simp), electsTwo_of_mem _ (by simp)⟩

end Prez
