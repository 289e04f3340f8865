import Prez.Matching

/-!
# `Prez.MatchIndex` — what a leader knows about its followers

`MatchInv` says that a leader's `match_index` for a peer is backed by what the peer has acknowledged in the
leader's term, and that an `ok` response is backed by the request it answers. A response does not say what it
answers: the leader credits it with `last_sent_entry`, the last entry it has sent by then. The invariant is
kept by runs in which such a response answers a request that reached as far (`RespOk`).

An acknowledgement holds as long as the follower stays in the leader's term. A leader that has been deposed
without knowing keeps its indices while the next leader rewrites the follower.
-/

namespace Prez

open Lib

variable {n : Nat} {cfg : Config n} {g : Guard} {s s' : Net n} {h h' : Hist n}

/-! ## The invariant -/

/-- The records that a leader `i` in state `x` keeps of its peers. -/
def Tracks (x : ClusterState n) (h : Hist n) (i : Fin n) : Prop :=
  ∀ j, j ≠ i → (x.nodes j).nextIndex ≤ logLength x.log + 1 ∧ (x.nodes j).matchIndex ≤ h.ack j (h.term i)

/-- A request quotes the log of its leader, and an `ok` response what the request it answers reached. -/
def MatchInert (h : Hist n) (p : Packet n) : Prop :=
  match p.msg with
  | .appendEntries entries => 0 ≤ entries.prevLogIndex → Slice (h.llog entries.term) entries
  | .responseAppendEntries r => r.ok = true →
    ∃ q, p.answers = some q ∧ q.prevLogIndex + q.logEntries.length ≤ h.ack p.src q.term
  | _ => True

/-- **The invariant of match indices.** -/
structure MatchInv (s : Net n) (h : Hist n) : Prop where
  tracks : ∀ i, (s.node i).state = .leader → Tracks (s.node i) h i
  sent : ∀ p ∈ s.sent, MatchInert h p

variable {server : Server n} {entries : AppendEntries} {p : Packet n} {i : Fin n} {k : Nat}

/-- What was quoted or acknowledged stays so. -/
theorem MatchInert.mono (hp : MatchInert h p) (hext : h.Extends h') : MatchInert h' p := by
  unfold MatchInert at hp ⊢
  split at hp
  · exact fun hpos => (hp hpos).mono (hext.llog _)
  · intro hok
    obtain ⟨q, hq, hle⟩ := hp hok
    refine ⟨q, hq, hle.trans ?_⟩
    exact_mod_cast hext.ack _ _
  · trivial

theorem Tracks.extend {x y : ClusterState n} (ht : Tracks x h i) (hnodes : y.nodes = x.nodes)
    (hlen : logLength x.log ≤ logLength y.log) (hext : h.Extends h') (hterm : h'.term i = h.term i) :
    Tracks y h' i := by
  intro j hj
  obtain ⟨h₁, h₂⟩ := ht j hj
  rw [hnodes, hterm]
  refine ⟨by omega, h₂.trans ?_⟩
  exact_mod_cast hext.ack j _

/-- The record of one peer changes. -/
theorem Tracks.setNode {x : ClusterState n} {i j : Fin n} {node : ClusterNode} (ht : Tracks x h i)
    (hnode : j ≠ i → node.nextIndex ≤ logLength x.log + 1 ∧ node.matchIndex ≤ h.ack j (h.term i)) :
    Tracks (x.setNode j node) h i := by
  intro k hk
  rw [ClusterState.setNode]
  dsimp only
  by_cases hkj : k = j
  · subst hkj
    rw [Function.update_self]
    exact hnode hk
  · rw [Function.update_of_ne hkj]
    exact ht k hk

/-- **The frame of the invariant**: one server changes and packets are sent. -/
theorem MatchInv.put (hm : MatchInv s h) {rest out : List (Packet n)} (hext : h.Extends h')
    (hterm : ∀ v, v ≠ i → h'.term v = h.term v) (hx : server.cluster.state = .leader → Tracks server.cluster h' i)
    (hout : ∀ p ∈ out, MatchInert h' p) :
    MatchInv (s.put i server rest out) h' where
  tracks := Net.forall_node_put (P := fun v x => x.state = .leader → Tracks x h' v) hx
    fun v hv hs => (hm.tracks v hs).extend rfl le_rfl hext (hterm v hv)
  sent := Net.forall_sent_put (fun p hp => (hm.sent p hp).mono hext) hout

theorem matchInert_nil : ∀ p ∈ ([] : List (Packet n)), MatchInert h p := fun _ hp => nomatch hp

theorem matchInert_vote (p : Packet n) (r : ResponseVote) : ∀ q ∈ [p.reply (.responseVote r)], MatchInert h q := by
  intro q hq
  rw [List.mem_singleton.mp hq]
  trivial

/-- A refusal acknowledges nothing. -/
theorem matchInert_refusal (p : Packet n) (x : ClusterState n) :
    ∀ q ∈ [p.reply (.responseAppendEntries (clusterSendResponseAppendEntries x false))], MatchInert h q := by
  intro q hq
  rw [List.mem_singleton.mp hq]
  exact fun hok => nomatch hok

/-- A change of one server that keeps its records of peers and does not shorten its log. -/
theorem MatchInv.still (hm : MatchInv s h) {rest out : List (Packet n)} (hext : h.Extends h')
    (hterm : h'.term = h.term) {x : ClusterState n} (hx : server.cluster = x)
    (hstate : x.state = .leader → (s.node i).state = .leader) (hnodes : x.nodes = (s.node i).nodes)
    (hlen : logLength (s.node i).log ≤ logLength x.log) (hout : ∀ p ∈ out, MatchInert h' p) :
    MatchInv (s.put i server rest out) h' := by
  subst hx
  exact hm.put hext (fun v _ => congrFun hterm v)
    (fun hl => (hm.tracks i (hstate hl)).extend hnodes hlen hext (congrFun hterm i)) hout

/-! ## The moves of a leader -/

/-- A heartbeat sends a stretch of the leader's own log. -/
theorem MatchInv.heartbeat (hi : ElectionInv cfg s h) (hl : LogInv s h) (hm : MatchInv s h) {i j : Fin n}
    (hs : (s.node i).state = .leader) (hj : j ≠ i)
    (hb : Becomes s i (clusterSendAppendEntries cfg i j (s.node i)).1 server) :
    MatchInv (s.put i server s.net
      [⟨i, j, .appendEntries (clusterSendAppendEntries cfg i j (s.node i)).2, none⟩]) h := by
  have htracks := hm.tracks i hs
  refine hm.put (.refl h) (fun _ _ => rfl) (fun _ => ?_) ?_
  · -- only `last_sent_entry` of peer `j` is new
    rw [hb.cluster]
    exact htracks.setNode fun _ => htracks j hj
  · intro p hp
    rw [List.mem_singleton.mp hp]
    intro (hpos : 0 ≤ ((s.node i).nodes j).nextIndex - 1)
    rw [show (clusterSendAppendEntries cfg i j (s.node i)).2.term = (s.node i).currentTerm from rfl,
      hl.leader_llog hi hs]
    exact slice_clusterSendAppendEntries (hl.contiguous_node i) (by omega) (htracks j hj).1

/-- A new leader takes nothing for acknowledged. -/
theorem MatchInv.elect (hi : ElectionInv cfg s h) (hl : LogInv s h) (hm : MatchInv s h)
    (hs : (s.node i).state = .candidate) (hq : quorumSize n ≤ (s.node i).votesGranted)
    (hb : Becomes s i (becomeLeader cfg i (s.node i)) server) : MatchInv (s.put i server s.net []) (h.elect i) := by
  refine hm.put (hl.inv.extends_elect (hi.unled hs hq)) (fun _ _ => rfl) (fun _ => ?_) matchInert_nil
  rw [hb.cluster, becomeLeader, if_pos ⟨hs, hq⟩]
  -- a new leader starts behind its log, with nothing acknowledged
  intro j hj
  dsimp only
  rw [if_neg hj]
  dsimp only
  rw [(hl.contiguous_node i).currentIndex]
  exact ⟨le_rfl, Int.natCast_nonneg _⟩

/-- A response that is credited as it should be. -/
theorem MatchInv.credit (hi : ElectionInv cfg s h) (hl : LogInv s h) (hm : MatchInv s h) {r : ResponseAppendEntries}
    {index : Int} (hp : s.net[k]? = some p) (hmsg : p.msg = .responseAppendEntries r) (hok : r.ok = true)
    (hlast : ((s.node p.dst).nodes p.src).lastSentEntry = some index)
    (hresp : RespOk (s.node p.dst) p.src r p.answers) (hb : Becomes s p.dst ((s.node p.dst).setNode p.src
      { (s.node p.dst).nodes p.src with nextIndex := index + 1, matchIndex := index }) server) :
    MatchInv (s.put p.dst server (s.net.eraseIdx k) []) h := by
  refine hm.put (.refl h) (fun _ _ => rfl) (fun hlead => ?_) matchInert_nil
  rw [hb.cluster] at hlead ⊢
  have hs : (s.node p.dst).state = .leader := hlead
  have htracks := hm.tracks p.dst hs
  -- the response answers a request of this term that reached as far as the entry
  obtain ⟨q, hq, hterm, hreach⟩ := hresp hok hs index hlast
  have hacked := hm.sent p (hi.wire p (List.mem_of_getElem? hp))
  rw [MatchInert, hmsg] at hacked
  obtain ⟨q', hq', hack⟩ := hacked hok
  cases hq.symm.trans hq'
  rw [hterm, ← hi.term_eq] at hack
  -- nothing is acknowledged beyond the leader's own log
  have hle : (h.ack p.src (h.term p.dst) : Int) ≤ logLength (s.node p.dst).log := by
    have hlen := hl.inv.ack_le p.src (h.term p.dst)
    rw [hi.term_eq, hl.leader_llog hi hs, LogState.length_list, ← hi.term_eq] at hlen
    exact_mod_cast hlen
  refine htracks.setNode fun _ => ⟨?_, hreach.trans hack⟩
  exact Int.add_le_add_right ((hreach.trans hack).trans hle) 1

/-- A refusal takes `next_index` back and leaves `match_index`. -/
theorem MatchInv.retreat (hm : MatchInv s h) (hb : Becomes s p.dst ((s.node p.dst).setNode p.src
      { (s.node p.dst).nodes p.src with nextIndex := ((s.node p.dst).nodes p.src).nextIndex - 1 }) server) :
    MatchInv (s.put p.dst server (s.net.eraseIdx k) []) h := by
  refine hm.put (.refl h) (fun _ _ => rfl) (fun hlead => ?_) matchInert_nil
  rw [hb.cluster] at hlead ⊢
  have htracks := hm.tracks p.dst hlead
  refine htracks.setNode fun hj => ⟨?_, (htracks _ hj).2⟩
  exact (Int.sub_le_self _ Int.one_nonneg).trans (htracks _ hj).1

/-! ## The moves of a follower -/

/-- The receiver of an append request of its own term is not the leader. -/
theorem ElectionInv.not_leader (hi : ElectionInv cfg s h) (hp : p ∈ s.net) (hm : p.msg = .appendEntries entries)
    (ht : entries.term = (s.node p.dst).currentTerm) : (s.node p.dst).state ≠ .leader := by
  intro hs
  obtain ⟨hled, hne⟩ := hi.append p (hi.wire p hp) entries hm
  rw [ht] at hled
  exact hne (hi.leader_unique hs hled).symm

/-- A request that is no stretch of the leader's log is empty, and its index negative. -/
theorem MatchInv.empty_of_not_slice (hl : LogInv s h) (hm : MatchInv s h) (hp : p ∈ s.sent)
    (hmsg : p.msg = .appendEntries entries) (hs : ¬ Slice (h.llog entries.term) entries) :
    entries.prevLogIndex < 0 ∧ entries.logEntries = [] := by
  have hsliced := hm.sent p hp
  rw [MatchInert, hmsg] at hsliced
  constructor
  · by_contra hpos
    exact hs (hsliced (not_lt.mp hpos))
  · by_contra hne
    exact hs (hl.slices p hp entries hmsg hne)

/-- What an `ok` response acknowledges. -/
theorem Recorded.acked (hi : ElectionInv cfg s h) (hl : LogInv s h) (hm : MatchInv s h) {l : List LogEntry}
    (hh : Recorded h p.dst entries l h') (hp : p ∈ s.net) (hmsg : p.msg = .appendEntries entries)
    (ht : entries.term = (s.node p.dst).currentTerm) :
    entries.prevLogIndex + entries.logEntries.length ≤ h'.ack p.dst entries.term := by
  rcases hh with ⟨hs, rfl⟩ | ⟨hs, rfl⟩
  · have hstart := hs.start
    have hack : (h.accept p.dst (entries.prevLogIndex.toNat + entries.logEntries.length) l).ack p.dst
        entries.term =
          max (h.ack p.dst (h.term p.dst)) (entries.prevLogIndex.toNat + entries.logEntries.length) := by
      rw [ht, ← hi.term_eq]
      exact setCell_same ..
    rw [hack]
    omega
  · -- it acknowledges nothing
    obtain ⟨hneg, hnil⟩ := hm.empty_of_not_slice hl (hi.wire p hp) hmsg hs
    rw [hnil, List.length_nil]
    omega

/-- Whoever takes an append request of its term does not lead it. -/
theorem MatchInv.take (hi : ElectionInv cfg s h) (hm : MatchInv s h) {l : List LogEntry} {out : List (Packet n)}
    (hh : Recorded h p.dst entries l h') (hp : s.net[k]? = some p) (hmsg : p.msg = .appendEntries entries)
    (ht : entries.term = (s.node p.dst).currentTerm)
    (hstate : server.cluster.state = (followLeader (s.node p.dst) entries).state)
    (hout : ∀ q ∈ out, MatchInert h' q) : MatchInv (s.put p.dst server (s.net.eraseIdx k) out) h' := by
  refine hm.put hh.extends (fun v _ => congrFun hh.sameVotes.term v) (fun hlead => ?_) hout
  rw [hstate] at hlead
  exact absurd (followLeader_leader hlead) (hi.not_leader (List.mem_of_getElem? hp) hmsg ht)

/-! ## All moves -/

/-- **Every move keeps the invariant**, if responses are credited as they should be. -/
theorem MatchInv.move (hgr : g.resp = true) (hi : ElectionInv cfg s h) (hl : LogInv s h) (hm : MatchInv s h)
    (hmove : Move cfg g s h s' h') : MatchInv s' h' := by
  have hext := hl.extends_of_move hi hmove
  cases hmove with
  | idle i server hb => exact hm.still hext rfl hb.cluster id rfl le_rfl matchInert_nil
  | apply i server hlt hc he => exact hm.still hext rfl hc id rfl le_rfl matchInert_nil
  | enter i server t ht hb =>
    refine hm.put hext (fun v hv => h.raise_term_of_ne hv t) (fun hlead => ?_) matchInert_nil
    rw [hb.cluster] at hlead
    cases hlead
  | campaign i server inp hs ht hb =>
    refine hm.put hext (fun v hv => h.raise_term_of_ne hv _) (fun hlead => ?_) ?_
    · rw [hb.cluster, startElection, if_pos ⟨hs, ht⟩] at hlead
      cases hlead
    · intro p hp
      unfold MatchInert
      rw [(mem_voteRequests hs ht hp).2.2]
      trivial
  | elect i server hs hq hb => exact hm.elect hi hl hs hq hb
  | commit i server hs hg hb =>
    exact hm.still hext rfl hb.cluster (fun _ => hs) (clusterUpdateCommitIndex_nodes _)
      (by rw [clusterUpdateCommitIndex_log]) matchInert_nil
  | heartbeat i j server hs hj hb => exact hm.heartbeat hi hl hs hj hb
  | write i server e log hw hb =>
    refine hm.still hext rfl hb.cluster (fun _ => hw.leader) ?_ ?_ matchInert_nil
    · split
      · rw [logCommitIndex_nodes]
      · rfl
    · rw [← hb.cluster, (Becomes.of_write hb).1, ← LogState.length_list, ← LogState.length_list,
        (hw.list (hl.contiguous_node i)).1, List.length_append]
      exact Nat.le_add_right ..
  | deny k p vote server hp hmsg hb => exact hm.still hext rfl hb.cluster id rfl le_rfl (matchInert_vote p _)
  | grant k p vote server hp hmsg ht hv hidx hterm hb =>
    exact hm.still hext rfl hb.cluster id rfl le_rfl (matchInert_vote p _)
  | count k p vote server hp hmsg hgr ht hb => exact hm.still hext rfl hb.cluster id rfl le_rfl matchInert_nil
  | ignore k p server hp hb => exact hm.still hext rfl hb.cluster id rfl le_rfl matchInert_nil
  | stale k p entries server hp hmsg hb =>
    exact hm.still hext rfl hb.cluster id rfl le_rfl (matchInert_refusal p _)
  | refuse k p entries server hp hmsg ht hb =>
    exact hm.still hext rfl hb.cluster followLeader_leader (followLeader_nodes ..) (by rw [followLeader_log])
      (matchInert_refusal p _)
  | unsynced k p entries server log _ hh hp hmsg ht ha hlog hok hb =>
    exact hm.take hi hh hp hmsg ht (by rw [hb.cluster]) (matchInert_refusal p _)
  | accept k p entries server log _ hh hp hmsg ht ha hlog hok hgc hb =>
    refine hm.take hi hh hp hmsg ht (by rw [hb.cluster, logCommitIndex_state]) ?_
    -- the packet of an `ok` response remembers the request, and the history that it was recorded
    intro q hq
    rw [List.mem_singleton.mp hq]
    refine fun _ => ⟨entries, by rw [Packet.reply, hmsg]; rfl, ?_⟩
    exact hh.acked hi hl hm (List.mem_of_getElem? hp) hmsg ht
  | credit k p entries server index hp hmsg hok hlast hresp hb =>
    exact hm.credit hi hl hp hmsg hok hlast (hresp hgr) hb
  | retreat k p server hp hb => exact hm.retreat hb

/-! ## Match-index soundness -/

/-- Conflicts are removed and responses are credited as they should be. -/
def Guard.responses : Guard := ⟨true, true, false⟩

/-- Everything that is kept by such runs. -/
structure Tracked (cfg : Config n) (s : Net n) (h : Hist n) : Prop extends Logged cfg s h where
  indices : MatchInv s h

/-- A move keeps election, logs and match indices. -/
theorem Tracked.move (hname : ∀ i, (cfg.name i).bytes ≠ []) (hg : g.trunc = true) (hgr : g.resp = true)
    (hi : Tracked cfg s h) (hm : Move cfg g s h s' h') : Tracked cfg s' h' where
  toLogged := hi.toLogged.move hname hg hm
  indices := hi.indices.move hgr hi.election hi.logs hm

theorem Net.Fresh.tracked {s : Net n} (hs : s.Fresh) : Tracked cfg s (History.start s) where
  toLogged := hs.logged
  indices :=
    { tracks := fun v hv => by
        obtain ⟨nodes, log, hb⟩ := hs.booted.node v
        rw [hb] at hv
        cases hv
      sent := fun p hp => by
        rw [hs.sent] at hp
        cases hp }

/-- The first `m` entries of `l'` exist and are the first `m` entries of `l`. -/
def StoredUpTo (l l' : List LogEntry) (m : Int) : Prop := m ≤ l'.length ∧ l.take m.toNat = l'.take m.toNat
deriving Decidable

/-- What a peer acknowledged in the leader's term it still stores, unless it has gone on. -/
theorem Tracked.stored (hi : Tracked cfg s h) {i j : Fin n} (hs : (s.node i).state = .leader) (hij : j ≠ i)
    (ht : (s.node j).currentTerm ≤ (s.node i).currentTerm) :
    StoredUpTo (s.node j).log.list (s.node i).log.list ((s.node i).nodes j).matchIndex := by
  have hmatch := (hi.indices.tracks i hs j hij).2
  have hinv := hi.logs.inv
  have hllog := hi.logs.leader_llog hi.election hs
  rw [← hi.election.term_eq] at hllog
  have hlen := hinv.ack_le j (h.term i)
  rw [hllog] at hlen
  refine ⟨by omega, ?_⟩
  rcases Nat.eq_zero_or_pos (h.ack j (h.term i)) with hzero | hpos
  · rw [show ((s.node i).nodes j).matchIndex.toNat = 0 by omega]
    rfl
  · -- a follower that has acknowledged something has reached the leader's term
    have hreach := hinv.ack_term hpos
    have hsame : h.term j = h.term i := by
      rw [hi.election.term_eq, hi.election.term_eq] at hreach ⊢
      omega
    have hkept := hinv.ack_log j
    rw [hsame, History.ledTake, hllog, hi.logs.log_eq] at hkept
    have hle : ((s.node i).nodes j).matchIndex.toNat ≤ ((s.node i).log.list.take (h.ack j (h.term i))).length := by
      rw [List.length_take]
      omega
    rw [take_of_isPrefix hkept hle, take_of_isPrefix (List.take_prefix _ (s.node i).log.list) hle]

/-- **Match-index soundness.** In a run without restarts in which conflicts are removed and responses are
    credited as they should be, a follower that has not gone on to a later term than the leader stores the
    leader's entries up to the leader's match index for it. -/
theorem match_index_sound (cfg : Config n) (hname : ∀ i, (cfg.name i).bytes ≠ []) {s₀ s : Net n} (h₀ : s₀.Fresh)
    (hr : RunIf cfg (Good cfg .responses) s₀ s) {i j : Fin n} (hs : (s.node i).state = .leader) (hij : j ≠ i)
    (ht : (s.node j).currentTerm ≤ (s.node i).currentTerm) :
    StoredUpTo (s.node j).log.list (s.node i).log.list ((s.node i).nodes j).matchIndex := by
  have hinv : ∃ h, Tracked cfg s h := (moves_of_run hr).invariant (fun hi hm => hi.move hname rfl rfl hm) h₀.tracked
  obtain ⟨h, hi⟩ := hinv
  exact hi.stored hs hij ht

/-- A leader whose follower has acknowledged one entry. -/
theorem match_index_sound_credited : ∃ s : Net 3,
    RunIf threeServers (Good threeServers .responses) (Net.fresh 3) s ∧
      ((s.node 0).nodes 1).matchIndex = 1 ∧ StoredUpTo (s.node 1).log.list (s.node 0).log.list 1 := by
  obtain ⟨s, hr, hs⟩ := run_of_exec (Net.step threeServers) (Good threeServers .responses)
    (Net.fresh 3)
    (campaignAt 0 [1] :: deliveries 2 ++ [tickAt 0 [], .event 0 .connect, setAt 0, tickAt 0 [1]] ++ deliveries 2)
    (fun s => ((s.node 0).state, (s.node 0).currentTerm, (s.node 1).currentTerm,
      ((s.node 0).nodes 1).matchIndex)) (.leader, 1, 1, 1) (by decide +kernel)
  simp only [Prod.mk.injEq] at hs
  obtain ⟨hlead, ht₀, ht₁, hmatch⟩ := hs
  have hstored := match_index_sound _ (by decide) (Net.fresh_fresh 3) hr (j := 1) hlead (by decide) (by omega)
  rw [hmatch] at hstored
  exact ⟨s, hr, hmatch, hstored⟩

/-- Server 0 leads term 1 and stores two entries on server 2; server 1 leads term 2 with the votes of 3 and 4
    and puts its own entry into their place. Server 0 hears nothing of it. -/
def deposedRun : List (Action 5) :=
  campaignAt 0 [3, 4] :: deliveries 4 ++ [tickAt 0 [], .event 0 .connect, setAt 0, setAt 0, tickAt 0 [2]] ++
    deliveries 2 ++ [campaignAt 1 [], campaignAt 1 [3, 4]] ++ deliveries 4 ++
    [tickAt 1 [], .event 1 .connect, setAt 1, tickAt 1 [2]] ++ deliveries 1

/-- Server 0 sends its first entry to server 2, then both; the response to the first request is credited with
    the second entry. -/
def creditRun : List (Action 3) :=
  campaignAt 0 [1] :: deliveries 2 ++ [tickAt 0 [], .event 0 .connect, setAt 0, tickAt 0 [2], setAt 0, tickAt 0 [2]] ++
    [.deliver 0 true, .deliver 1 true]

/-- A deposed leader keeps its match indices, in a run that meets every condition; and a response that answers
    an earlier request is credited with what was sent last. -/
theorem match_index_unsound :
    (∃ s₀ s : Net 5, s₀.Fresh ∧ RunIf fiveServers
      (fun s a => Good fiveServers ⟨true, true, true⟩ s a ∧ InOrder s a) s₀ s ∧
        (s.node 0).state = .leader ∧
          ¬ StoredUpTo (s.node 2).log.list (s.node 0).log.list ((s.node 0).nodes 2).matchIndex) ∧
    (∃ s₀ s : Net 3, s₀.Fresh ∧ RunIf threeServers (fun s a => a.CrashFree ∧ InOrder s a) s₀ s ∧
        (s.node 0).state = .leader ∧ (s.node 2).currentTerm = (s.node 0).currentTerm ∧
          ¬ StoredUpTo (s.node 2).log.list (s.node 0).log.list ((s.node 0).nodes 2).matchIndex) := by
  constructor
  · obtain ⟨s, hr, hs⟩ := run_of_exec (Net.step fiveServers)
      (fun s a => Good fiveServers ⟨true, true, true⟩ s a ∧ InOrder s a) (Net.fresh 5) deposedRun
      (fun s => ((s.node 0).state,
        decide (StoredUpTo (s.node 2).log.list (s.node 0).log.list ((s.node 0).nodes 2).matchIndex)))
      (.leader, false) (by decide +kernel)
    rw [Prod.mk.injEq] at hs
    exact ⟨_, s, Net.fresh_fresh 5, hr, hs.1, of_decide_eq_false hs.2⟩
  · obtain ⟨s, hr, hs⟩ := run_of_exec (Net.step threeServers) (fun s a => a.CrashFree ∧ InOrder s a)
      (Net.fresh 3) creditRun
      (fun s => ((s.node 0).state, (s.node 0).currentTerm, (s.node 2).currentTerm,
        decide (StoredUpTo (s.node 2).log.list (s.node 0).log.list ((s.node 0).nodes 2).matchIndex)))
      (.leader, 1, 1, false) (by decide +kernel)
    simp only [Prod.mk.injEq] at hs
    exact ⟨_, s, Net.fresh_fresh 3, hr, hs.1, hs.2.2.1.trans hs.2.1.symm, of_decide_eq_false hs.2.2.2⟩

end Prez
