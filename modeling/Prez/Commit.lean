import Prez.MatchIndex
import Prez.Cluster.Indices
import Mathlib.Data.Int.Interval

/-!
# `Prez.Commit` — commit indices and state machine safety

`CommitInv` says that what a server has committed is committed in the history: up to its `commit_index` its
log is a prefix of entries that a quorum acknowledged to their leader, and its `last_applied` runs behind. It
is kept by runs in which, besides, a follower takes over a commit index only as far as the request reaches or
its log ends there (`CommitOk`), and the differences of match indices fit an `int` (`SortOk`). A cluster has
at least two servers here: a server alone has no record of itself to commit by.

Since committed prefixes extend one another, servers apply the same entries.
-/

namespace Prez

open Lib

variable {n : Nat} {cfg : Config n} {g : Guard} {s s' : Net n} {h h' : Hist n}

/-! ## The invariant -/

/-- A server `i` and what it has committed and applied. -/
structure Settled (server : Server n) (h : Hist n) (i : Fin n) : Prop where
  applied : 0 ≤ server.cluster.lastApplied ∧ server.cluster.lastApplied ≤ server.cluster.commitIndex
  length : server.cluster.commitIndex ≤ logLength server.cluster.log
  executed : server.executed = (server.cluster.log.list.take server.cluster.lastApplied.toNat).map some
  committed : h.CommittedUpTo (h.term i) (server.cluster.log.list.take server.cluster.commitIndex.toNat)

/-- A leader has acknowledged what it has written itself. -/
def OwnAcked (h : Hist n) : Prop :=
  ∀ t c, h.led t = some c → (h.elog t).length < (h.llog t).length → h.ack c t = (h.llog t).length

/-- A new packet that the invariant allows: its commit index is committed. -/
def CommitInert (h : Hist n) (p : Packet n) : Prop :=
  ∀ entries, p.msg = .appendEntries entries → entries.leaderCommitIndex ≤ (h.llog entries.term).length ∧
    h.CommittedUpTo entries.term ((h.llog entries.term).take entries.leaderCommitIndex.toNat)

/-- **The invariant of commit indices.** -/
structure CommitInv (s : Net n) (h : Hist n) : Prop where
  settled : ∀ i, Settled (s.servers i) h i
  append : ∀ p ∈ s.sent, CommitInert h p
  own : OwnAcked h

variable {server : Server n} {i : Fin n} {entries : AppendEntries} {p : Packet n} {log : LogState}
variable {x : ClusterState n} {index : Int}

/-- What is committed stays committed as the history goes on. -/
theorem Settled.extend (hinv : h.Inv LogEntry.term) (hx : Settled server h i) (hext : h.Extends h') :
    Settled server h' i where
  applied := hx.applied
  length := hx.length
  executed := hx.executed
  committed := (hx.committed.extends hinv hext).mono (hext.term i)

theorem CommitInert.extend (hinv : h.Inv LogEntry.term) (hp : CommitInert h p) (hext : h.Extends h') :
    CommitInert h' p := by
  intro entries hm
  obtain ⟨hle, hc⟩ := hp entries hm
  refine ⟨hle.trans (by exact_mod_cast (hext.llog _).length_le), ?_⟩
  rw [take_of_isPrefix (hext.llog _) (by omega)]
  exact hc.extends hinv hext

/-- **The frame of the invariant**: one server changes and packets are sent. -/
theorem CommitInv.put (hinv : h.Inv LogEntry.term) (hc : CommitInv s h) {rest out : List (Packet n)}
    (hext : h.Extends h') (hown : OwnAcked h') (hx : Settled server h' i) (hout : ∀ p ∈ out, CommitInert h' p) :
    CommitInv (s.put i server rest out) h' where
  settled := Net.forall_server_put (P := fun v server => Settled server h' v) hx
    fun v _ => (hc.settled v).extend hinv hext
  append := Net.forall_sent_put (fun p hp => (hc.append p hp).extend hinv hext) hout
  own := hown

/-- The committed part of a log, read in a log that keeps it. -/
theorem Settled.keep {old server : Server n} (hx : Settled old h i)
    (hkeep : old.cluster.log.list.take old.cluster.commitIndex.toNat <+: server.cluster.log.list)
    (hcommit : server.cluster.commitIndex = old.cluster.commitIndex)
    (happlied : server.cluster.lastApplied = old.cluster.lastApplied) (hexec : server.executed = old.executed) :
    Settled server h i := by
  obtain ⟨ha, hl, he, hc⟩ := hx
  have hlen : (old.cluster.log.list.take old.cluster.commitIndex.toNat).length = old.cluster.commitIndex.toNat := by
    rw [List.length_take, LogState.length_list]
    omega
  have htake : ∀ k : Int, k ≤ old.cluster.commitIndex →
      server.cluster.log.list.take k.toNat = old.cluster.log.list.take k.toNat := by
    intro k hk
    rw [take_of_isPrefix hkeep (by omega), List.take_take, Nat.min_eq_left (by omega)]
  constructor
  · rw [happlied, hcommit]
    exact ha
  · rw [hcommit, ← LogState.length_list]
    have := hkeep.length_le
    omega
  · rw [hexec, happlied, htake _ ha.2]
    exact he
  · rw [hcommit, htake _ le_rfl]
    exact hc

/-- A change of one server that keeps its log, its indices and what it has applied. -/
theorem Settled.of_same {old server : Server n} (hx : Settled old h i) (hlog : server.cluster.log = old.cluster.log)
    (hcommit : server.cluster.commitIndex = old.cluster.commitIndex)
    (happlied : server.cluster.lastApplied = old.cluster.lastApplied) (hexec : server.executed = old.executed) :
    Settled server h i :=
  hx.keep (by rw [hlog]; exact List.take_prefix ..) hcommit happlied hexec

theorem commitInert_nil : ∀ p ∈ ([] : List (Packet n)), CommitInert h p := fun _ hp => nomatch hp

theorem commitInert_vote (p : Packet n) (r : ResponseVote) : ∀ q ∈ [p.reply (.responseVote r)], CommitInert h q := by
  intro q hq entries hm
  rw [List.mem_singleton.mp hq] at hm
  cases hm

theorem commitInert_response (p : Packet n) (r : ResponseAppendEntries) :
    ∀ q ∈ [p.reply (.responseAppendEntries r)], CommitInert h q := by
  intro q hq entries hm
  rw [List.mem_singleton.mp hq] at hm
  cases hm

/-! ## Leaders acknowledge their own entries -/

/-- A new leader has written nothing yet. -/
theorem OwnAcked.elect (ho : OwnAcked h) (i : Fin n) : OwnAcked (h.elect i) := by
  intro t c hc hlt
  by_cases ht : t = h.term i
  · subst ht
    have helog : (h.elect i).elog (h.term i) = h.log i := Function.update_self ..
    have hllog : (h.elect i).llog (h.term i) = h.log i := Function.update_self ..
    rw [helog, hllog] at hlt
    exact absurd hlt (lt_irrefl _)
  · have helog : (h.elect i).elog t = h.elog t := Function.update_of_ne ht ..
    have hllog : (h.elect i).llog t = h.llog t := Function.update_of_ne ht ..
    have hled : (h.elect i).led t = h.led t := Function.update_of_ne ht ..
    rw [helog, hllog] at hlt
    rw [hllog]
    exact ho t c (hled ▸ hc) hlt

/-- A leader acknowledges its own entry when it writes it. -/
theorem OwnAcked.append (ho : OwnAcked h) (hled : h.led (h.term i) = some i) (e : LogEntry) :
    OwnAcked (h.append i e) := by
  intro t c hc hlt
  by_cases ht : t = h.term i
  · subst ht
    cases hled.symm.trans hc
    have hllog : (h.append i e).llog (h.term i) = h.llog (h.term i) ++ [e] := Function.update_self ..
    rw [hllog, List.length_append, List.length_singleton]
    exact setCell_same ..
  · have hllog : (h.append i e).llog t = h.llog t := Function.update_of_ne ht ..
    have hack : (h.append i e).ack c t = h.ack c t := setCell_of_ne _ _ fun hcell => ht hcell.2
    rw [hllog] at hlt ⊢
    rw [hack]
    exact ho t c hc hlt

/-- Who takes entries of its term is not the leader, whose acknowledgement stays. -/
theorem OwnAcked.recorded (hi : ElectionInv cfg s h) (ho : OwnAcked h) {l : List LogEntry}
    (hh : Recorded h p.dst entries l h') (hp : p ∈ s.net) (hm : p.msg = .appendEntries entries)
    (ht : entries.term = (s.node p.dst).currentTerm) : OwnAcked h' := by
  rcases hh with ⟨-, rfl⟩ | ⟨-, rfl⟩
  · intro t c hc hlt
    -- the receiver is not the leader of its term
    have hcell : ¬(c = p.dst ∧ t = h.term p.dst) := by
      rintro ⟨rfl, rfl⟩
      obtain ⟨hled, hne⟩ := hi.append p (hi.wire p hp) entries hm
      rw [ht, ← hi.term_eq] at hled
      exact hne (Option.some.inj (hled.symm.trans hc))
    rw [show (h.accept p.dst _ l).ack c t = h.ack c t from setCell_of_ne _ _ hcell]
    exact ho t c hc hlt
  · exact ho

/-! ## A leader commits -/

/-- Match indices whose differences fit an `int` are compared as they should be. -/
theorem SortOk.orders (hs : SortOk x) : ∀ a ∈ matchIndices x, ∀ b ∈ matchIndices x, Orders a b := by
  intro a ha b hb
  obtain ⟨j, rfl⟩ := List.mem_ofFn.mp ha
  obtain ⟨k, rfl⟩ := List.mem_ofFn.mp hb
  exact .of_int (hs j k).1 (hs j k).2

/-- The index that `clusterUpdateCommitIndex` finds is the greatest that a quorum of match indices has reached. -/
theorem SortOk.reached_iff (hs : SortOk x)
    (hk : (sortIndices (matchIndices x)).reverse[quorumSize n - 1]? = some index) (a : Int) :
    quorumSize n ≤ (Finset.univ.filter fun j => a ≤ (x.nodes j).matchIndex).card ↔ a ≤ index := by
  have hread : MayRead (matchIndices x) index :=
    (sortIndices_qsorted _).mayRead (by rw [length_matchIndices]; exact hk)
  exact hread.reached_iff hs.orders a

/-- An index in the part of the log that the leader wrote itself, reached by a quorum of match indices, is
    committed. The leader's own record counts like the others, although nothing sets it. -/
theorem CommitInv.committed_of_quorum (hn : 2 ≤ n) (hi : Tracked cfg s h) (hc : CommitInv s h)
    (hs : (s.node i).state = .leader) (hpos : 0 < index)
    (hq : quorumSize n ≤ (Finset.univ.filter fun j => index ≤ ((s.node i).nodes j).matchIndex).card)
    (hterm : (s.node i).currentTerm = logGetTerm (s.node i).log index) :
    index ≤ logLength (s.node i).log ∧ h.Committed (h.term i) index.toNat := by
  set Q := Finset.univ.filter fun j => index ≤ ((s.node i).nodes j).matchIndex with hQ
  have hinv := hi.logs.inv
  have hllog := hi.logs.leader_llog hi.election hs
  rw [← hi.election.term_eq] at hllog
  have hack : ∀ j ∈ Q, j ≠ i → index ≤ h.ack j (h.term i) := by
    intro j hj hji
    rw [hQ, Finset.mem_filter] at hj
    exact hj.2.trans (hi.indices.tracks i hs j hji).2
  -- a quorum of two or more has another member than the leader
  obtain ⟨j, hj, hji⟩ : ∃ j ∈ Q, j ≠ i := by
    have hone : 1 < Q.card := by
      unfold quorumSize at hq
      omega
    exact Finset.exists_mem_ne hone i
  have hlen : index ≤ logLength (s.node i).log := by
    have := hinv.ack_le j (h.term i)
    rw [hllog, LogState.length_list] at this
    have := hack j hj hji
    omega
  -- the entry has the leader's term, and nothing that it inherited has
  have hown : (h.elog (h.term i)).length < index.toNat := by
    by_contra hle
    obtain ⟨e, he, hte⟩ := logGetTerm_in (s.node i).log (k := index.toNat) (by omega) (by omega)
    rw [Int.toNat_of_nonneg hpos.le, ← hterm] at hte
    obtain ⟨own, hgrown, -⟩ := hinv.grown (h.term i)
    rw [← hllog, hgrown, List.getElem?_append_left (by omega)] at he
    have := hinv.elog_term (h.term i) e (List.mem_of_getElem? he)
    rw [hi.election.term_eq] at this
    omega
  refine ⟨hlen, hown, Q, isQuorum_of_quorumSize hq, fun v hv => ?_⟩
  by_cases hvi : v = i
  · subst hvi
    have hlong : index.toNat ≤ (h.llog (h.term v)).length := by
      rw [hllog, LogState.length_list]
      omega
    rw [hc.own _ _ (hi.election.leader v hs) (by omega)]
    exact hlong
  · have := hack v hv hvi
    omega

/-- A leader commits what a quorum has acknowledged in its term. -/
theorem Settled.commit (hn : 2 ≤ n) (hi : Tracked cfg s h) (hc : CommitInv s h) (hs : (s.node i).state = .leader)
    (hsort : SortOk (s.node i)) (hb : Becomes s i (clusterUpdateCommitIndex (s.node i)) server) :
    Settled server h i := by
  have hold := hc.settled i
  have hcluster := hb.cluster
  unfold clusterUpdateCommitIndex at hcluster
  dsimp only at hcluster
  split at hcluster
  · rename_i index hk
    split at hcluster
    · rename_i hnew
      have happlied := hold.applied
      have hpos : 0 < index := by
        have := hnew.1
        simp only [Net.node] at this
        omega
      obtain ⟨hlen, hcom⟩ := hc.committed_of_quorum hn hi hs hpos ((hsort.reached_iff hk index).mpr le_rfl) hnew.2
      constructor
      · rw [hcluster]
        refine ⟨happlied.1, happlied.2.trans ?_⟩
        exact hnew.1.le
      · rw [hcluster]
        exact hlen
      · rw [hb.executed, hcluster]
        exact hold.executed
      -- what is committed is the leader's log up to the index
      · refine .inr ⟨h.term i, index.toNat, le_rfl, hcom, ?_⟩
        have hllog := hi.logs.leader_llog hi.election hs
        rw [← hi.election.term_eq] at hllog
        rw [History.ledTake, hllog, hcluster]
    · exact hold.of_same (by rw [hcluster]; rfl) (by rw [hcluster]; rfl) (by rw [hcluster]; rfl) hb.executed
  · exact hold.of_same (by rw [hcluster]; rfl) (by rw [hcluster]; rfl) (by rw [hcluster]; rfl) hb.executed

/-! ## Applying, writing, sending -/

/-- The next entry applied is the next one of the log. -/
theorem Settled.apply (hx : Settled (s.servers i) h i) (hlt : (s.node i).lastApplied < (s.node i).commitIndex)
    (hc : server.cluster = { s.node i with lastApplied := (s.node i).lastApplied + 1 })
    (he : server.executed = (s.servers i).executed ++
      [(getLogEntry (s.node i).log ((s.node i).lastApplied + 1)).map (·.logEntry)]) : Settled server h i := by
  have happlied := hx.applied
  have hlen := hx.length
  have hexec := hx.executed
  have hcom := hx.committed
  simp only [← Net.node.eq_1] at happlied hlen hexec hcom
  constructor
  · rw [hc]
    dsimp only
    omega
  · rw [hc]
    exact hlen
  · -- the entry fetched is the one behind those applied so far
    rw [he, hc, hexec, getLogEntry_in (by omega) (by omega)]
    dsimp only
    rw [show ((s.node i).lastApplied + 1 - 1).toNat = (s.node i).lastApplied.toNat by omega,
      show ((s.node i).lastApplied + 1).toNat = (s.node i).lastApplied.toNat + 1 by omega, ← LogState.getElem?_list,
      List.take_add_one, List.map_append]
    congr 1
    rw [List.getElem?_eq_getElem (by rw [LogState.length_list]; omega)]
    rfl
  · rw [hc]
    exact hcom

/-- A write is behind everything committed. -/
theorem Settled.write (hn : 2 ≤ n) (hl : LogInv s h) {e : LogEntry} (hx : Settled (s.servers i) h i)
    (hw : Writes (s.node i) e log)
    (hb : Becomes s i (if n = 1 then logCommitIndex { s.node i with log := log } (logCurrentIndex log)
      else { s.node i with log := log }) server) : Settled server h i := by
  rw [if_neg (by omega)] at hb
  obtain ⟨hlist, -⟩ := hw.list (hl.contiguous_node i)
  -- the new entry is behind everything committed
  refine hx.keep ?_ (by rw [hb.cluster]; rfl) (by rw [hb.cluster]; rfl) hb.executed
  rw [hb.cluster, hlist]
  exact (List.take_prefix ..).trans (List.prefix_append ..)

/-- A heartbeat tells what its leader has committed. -/
theorem CommitInv.heartbeat (hi : ElectionInv cfg s h) (hl : LogInv s h) (hc : CommitInv s h) {i j : Fin n}
    (hs : (s.node i).state = .leader) :
    CommitInert h ⟨i, j, .appendEntries (clusterSendAppendEntries cfg i j (s.node i)).2, none⟩ := by
  intro entries hm
  cases hm
  have hx := hc.settled i
  show (s.node i).commitIndex ≤ (h.llog (s.node i).currentTerm).length ∧
    h.CommittedUpTo (s.node i).currentTerm ((h.llog (s.node i).currentTerm).take (s.node i).commitIndex.toNat)
  rw [hl.leader_llog hi hs, LogState.length_list, ← hi.term_eq]
  exact ⟨hx.length, hx.committed⟩

/-! ## A follower takes over entries -/

section

variable (hi : Tracked cfg s h) (hp : p ∈ s.net) (hm : p.msg = .appendEntries entries)
  (ha : Accepts (s.node p.dst) entries) (hok : TruncOk (s.node p.dst) entries)
  (hlog : logAppendEntries (s.node p.dst).log entries.logEntries = some log)

include hi hp hm ha hok hlog

/-- A log has no gaps after an append request either. -/
theorem Tracked.contiguous_appended : Contiguous log.list := by
  by_cases hs : Slice (h.llog entries.term) entries
  · exact (hi.logs.took hs ha hok hlog).contiguous (hi.logs.contiguous_node _) (hi.logs.contiguous_llog _)
  · rw [hi.logs.untouched hi.election hp hm hs hlog]
    exact hi.logs.contiguous_node _

variable (hc : CommitInv s h)

include hc

/-- What a follower has committed stays in place when it takes over entries of the leader of its term. -/
theorem CommitInv.keeps (ht : entries.term = (s.node p.dst).currentTerm) :
    (s.node p.dst).log.list.take (s.node p.dst).commitIndex.toNat <+: log.list := by
  by_cases hs : Slice (h.llog entries.term) entries
  · refine (hi.logs.took hs ha hok hlog).takes.common _ (List.take_prefix ..) ?_
    obtain ⟨hled, -⟩ := hi.election.append p (hi.election.wire p hp) entries hm
    have htv : entries.term = h.term p.dst := ht.trans (hi.election.term_eq _).symm
    rw [htv] at hled ⊢
    exact hi.logs.inv.committed_llog (hc.settled p.dst).committed (by rw [hled]; exact Option.some_ne_none _)
  · rw [hi.logs.untouched hi.election hp hm hs hlog]
    exact List.take_prefix ..

/-- A commit index that is new to the follower lies within what the follower now has of the leader's log. -/
theorem CommitInv.reaches (hcok : CommitOk (s.node p.dst) entries)
    (hnew : (s.node p.dst).commitIndex < entries.leaderCommitIndex) {k : Nat} (hk : k ≤ entries.leaderCommitIndex)
    (hkl : k ≤ logLength log) : log.list.take k = (h.llog entries.term).take k := by
  have hold := hc.settled p.dst
  have hzero : 0 ≤ (s.node p.dst).commitIndex := hold.applied.1.trans hold.applied.2
  by_cases hs : Slice (h.llog entries.term) entries
  · set m := entries.prevLogIndex.toNat + entries.logEntries.length with hmdef
    have hstart := hs.start
    have htook := hi.logs.took hs ha hok hlog
    -- either the request reaches as far as the commit index, or the log now ends with the request
    have hreach : k ≤ m ∨ log.list = (h.llog entries.term).take m := by
      rcases htook.had_or_ends with ⟨rfl, hagree, hle, hno⟩ | ⟨hends, -⟩
      · rcases hcok ha with hcon | hcon | hcon | ⟨e, he, hcon⟩
        · omega
        · left
          omega
        · right
          rw [← hagree, List.take_of_length_le]
          rw [LogState.length_list]
          omega
        · rw [hno e he] at hcon
          cases hcon
      · exact .inr hends
    rcases hreach with hkm | hends
    · have hlen : k ≤ ((h.llog entries.term).take m).length := by
        rw [List.length_take]
        have := hs.fits
        omega
      rw [take_of_isPrefix htook.takes.taken hlen, List.take_take, Nat.min_eq_left hkm]
    · rw [← LogState.length_list, hends, List.length_take] at hkl
      rw [hends, List.take_take, Nat.min_eq_left (by omega)]
  · -- an empty request with a negative index carries no commit index that is new
    exfalso
    obtain ⟨hneg, hnil⟩ := hi.indices.empty_of_not_slice hi.logs (hi.election.wire p hp) hm hs
    rcases hcok ha with hcon | hcon | hcon | ⟨e, he, -⟩
    · omega
    · rw [hnil, List.length_nil] at hcon
      omega
    · rw [hnil, List.length_nil] at hcon
      omega
    · rw [hnil] at he
      cases he

/-- A follower commits what the leader had committed and it now has. -/
theorem Settled.accept (ht : entries.term = (s.node p.dst).currentTerm) (hcok : CommitOk (s.node p.dst) entries)
    (hb : Becomes s p.dst
      (logCommitIndex { followLeader (s.node p.dst) entries with log := log } entries.leaderCommitIndex) server) :
    Settled server h p.dst := by
  have hold := hc.settled p.dst
  have hkeep := hc.keeps hi hp hm ha hok hlog ht
  have hcommit := followLeader_commitIndex (s.node p.dst) entries
  have hlast := followLeader_lastApplied (s.node p.dst) entries
  have hcluster := hb.cluster
  by_cases hnew : (s.node p.dst).commitIndex < entries.leaderCommitIndex
  · have hcon := hi.contiguous_appended hp hm ha hok hlog
    rw [logCommitIndex_eq _ hcon (by rw [← hcommit] at hnew; exact hnew)] at hcluster
    -- the server before the commit index moves
    have hmid : Settled { s.servers p.dst with cluster :=
        { followLeader (s.node p.dst) entries with log := log } } h p.dst :=
      hold.keep hkeep hcommit hlast rfl
    have happlied := hmid.applied
    have hlen := hmid.length
    dsimp only at happlied hlen
    rw [hcommit] at happlied hlen
    constructor
    · rw [hcluster]
      dsimp only
      omega
    · rw [hcluster]
      exact min_le_right ..
    · rw [hb.executed, hcluster]
      exact hmid.executed
    -- the leader had committed as far as the new commit index, and the follower now has the same entries
    · obtain ⟨hcle, hcom⟩ := hc.append p (hi.election.wire p hp) entries hm
      have htv : entries.term = h.term p.dst := ht.trans (hi.election.term_eq _).symm
      rw [hcluster]
      dsimp only
      rw [hc.reaches hi hp hm ha hok hlog hcok hnew (by omega) (by omega), ← htv]
      exact hcom.of_isPrefix (take_prefix_take_of_le _ (by omega))
  · rw [logCommitIndex, if_neg (by rw [← hcommit] at hnew; exact hnew)] at hcluster
    exact hold.keep (by rw [hcluster]; exact hkeep) (by rw [hcluster]; exact hcommit)
      (by rw [hcluster]; exact hlast) hb.executed

end

/-! ## All moves -/

/-- A change of one server that commit indices do not see. -/
theorem CommitInv.still (hinv : h.Inv LogEntry.term) (hc : CommitInv s h) {rest out : List (Packet n)}
    (hext : h.Extends h') (hown : OwnAcked h') (hb : Becomes s i x server) (hlog : x.log = (s.node i).log)
    (hcommit : x.commitIndex = (s.node i).commitIndex) (happlied : x.lastApplied = (s.node i).lastApplied)
    (hout : ∀ p ∈ out, CommitInert h' p) : CommitInv (s.put i server rest out) h' := by
  refine hc.put hinv hext hown (Settled.extend hinv ?_ hext) hout
  exact (hc.settled i).of_same (by rw [hb.cluster]; exact hlog) (by rw [hb.cluster]; exact hcommit)
    (by rw [hb.cluster]; exact happlied) hb.executed

/-- **Every move keeps the invariant**, if it meets all conditions. -/
theorem CommitInv.move (hn : 2 ≤ n) (hgt : g.trunc = true) (hgc : g.commit = true) (hi : Tracked cfg s h)
    (hc : CommitInv s h) (hm : Move cfg g s h s' h') : CommitInv s' h' := by
  have hinv := hi.logs.inv
  have hext := hi.logs.extends_of_move hi.election hm
  have hown := hc.own
  cases hm with
  | idle i server hb => exact hc.still hinv hext hown hb rfl rfl rfl commitInert_nil
  | apply i server hlt hcl he =>
    exact hc.put hinv hext hown ((hc.settled i).apply hlt hcl he) commitInert_nil
  | enter i server t ht hb => exact hc.still hinv hext hown hb rfl rfl rfl commitInert_nil
  | campaign i server inp hs ht hb =>
    rw [startElection, if_pos ⟨hs, ht⟩] at hb
    refine hc.still hinv hext hown hb rfl rfl rfl ?_
    intro p hp entries hmsg
    cases hmsg.symm.trans (mem_voteRequests hs ht hp).2.2
  | elect i server hs hq hb =>
    rw [becomeLeader, if_pos ⟨hs, hq⟩] at hb
    exact hc.still hinv hext (hown.elect i) hb rfl rfl rfl commitInert_nil
  | commit i server hs hg hb =>
    exact hc.put hinv hext hown (Settled.commit hn hi hc hs (hg hgc) hb) commitInert_nil
  | heartbeat i j server hs hj hb =>
    refine hc.still hinv hext hown hb rfl rfl rfl fun p hp => ?_
    rw [List.mem_singleton.mp hp]
    exact hc.heartbeat hi.election hi.logs hs
  | write i server e log hw hb =>
    exact hc.put hinv hext (hown.append (hi.election.leader i hw.leader) e)
      (((hc.settled i).write hn hi.logs hw hb).extend hinv hext) commitInert_nil
  | deny k p vote server hp hmsg hb => exact hc.still hinv hext hown hb rfl rfl rfl (commitInert_vote p _)
  | grant k p vote server hp hmsg ht hv hidx hterm hb =>
    exact hc.still hinv hext hown hb rfl rfl rfl (commitInert_vote p _)
  | count k p vote server hp hmsg hgr ht hb => exact hc.still hinv hext hown hb rfl rfl rfl commitInert_nil
  | ignore k p server hp hb => exact hc.still hinv hext hown hb rfl rfl rfl commitInert_nil
  | stale k p entries server hp hmsg hb => exact hc.still hinv hext hown hb rfl rfl rfl (commitInert_response p _)
  | refuse k p entries server hp hmsg ht hb =>
    exact hc.still hinv hext hown hb (followLeader_log ..) (followLeader_commitIndex ..)
      (followLeader_lastApplied ..) (commitInert_response p _)
  | unsynced k p entries server log _ hh hp hmsg ht ha hlog hok hb =>
    have hmem := List.mem_of_getElem? hp
    refine hc.put hinv hext (hown.recorded hi.election hh hmem hmsg ht) (Settled.extend hinv ?_ hext)
      (commitInert_response p _)
    refine (hc.settled p.dst).keep ?_ ?_ ?_ hb.executed
    · rw [hb.cluster]
      exact hc.keeps hi hmem hmsg ha (hok hgt) hlog ht
    · rw [hb.cluster]
      exact followLeader_commitIndex ..
    · rw [hb.cluster]
      exact followLeader_lastApplied ..
  | accept k p entries server log _ hh hp hmsg ht ha hlog hok hcok hb =>
    have hmem := List.mem_of_getElem? hp
    exact hc.put hinv hext (hown.recorded hi.election hh hmem hmsg ht)
      ((Settled.accept hi hmem hmsg ha (hok hgt) hlog hc ht (hcok hgc) hb).extend hinv hext)
      (commitInert_response p _)
  | credit k p entries server index hp hmsg hok hlast hresp hb =>
    exact hc.still hinv hext hown hb rfl rfl rfl commitInert_nil
  | retreat k p server hp hb => exact hc.still hinv hext hown hb rfl rfl rfl commitInert_nil

/-! ## State machine safety -/

/-- All conditions. -/
def Guard.all : Guard := ⟨true, true, true⟩

theorem Net.Fresh.commitInv {s : Net n} (hs : s.Fresh) : CommitInv s (History.start s) where
  settled i := by
    obtain ⟨nodes, hboot⟩ := hs.servers i
    rw [hboot]
    exact ⟨⟨le_rfl, le_rfl⟩, le_rfl, rfl, History.committedUpTo_nil _⟩
  append p hp := by
    rw [hs.sent] at hp
    cases hp
  own _ _ hl := nomatch hl

/-- What one server has applied at an index that another has applied too. -/
theorem CommitInv.same_entry (hi : Tracked cfg s h) (hc : CommitInv s h) {i j : Fin n} (hpos : 1 ≤ index)
    (hle : index ≤ (s.node i).lastApplied) (hle' : index ≤ (s.node j).lastApplied) :
    ∃ e, (s.servers i).executed[(index - 1).toNat]? = some (some e) ∧
      (s.servers j).executed[(index - 1).toNat]? = some (some e) := by
  -- what `logApply` fetched at the index is the entry that stands there now
  have hread : ∀ v, index ≤ (s.node v).lastApplied →
      ((s.servers v).cluster.log.list.take (s.servers v).cluster.commitIndex.toNat)[(index - 1).toNat]? ≠ none ∧
      (s.servers v).executed[(index - 1).toNat]? =
        (((s.servers v).cluster.log.list.take
          (s.servers v).cluster.commitIndex.toNat)[(index - 1).toNat]?).map some := by
    intro v hv
    obtain ⟨ha, hl, he, -⟩ := hc.settled v
    simp only [Net.node] at hv
    have hlt : (index - 1).toNat < (s.servers v).cluster.log.list.length := by
      rw [LogState.length_list]
      omega
    rw [he, List.getElem?_map, List.getElem?_take_of_lt (by omega), List.getElem?_take_of_lt (by omega),
      List.getElem?_eq_getElem hlt]
    exact ⟨Option.some_ne_none _, rfl⟩
  obtain ⟨hi₁, hi₂⟩ := hread i hle
  obtain ⟨hj₁, hj₂⟩ := hread j hle'
  obtain ⟨e, he⟩ := Option.ne_none_iff_exists'.mp hi₁
  obtain ⟨e', he'⟩ := Option.ne_none_iff_exists'.mp hj₁
  -- both have it in a committed prefix, and of two such prefixes one extends the other
  have hsame : e = e' := by
    rcases hi.logs.inv.committed_comparable (hc.settled i).committed (hc.settled j).committed with hp | hp
    · exact Option.some.inj ((getElem?_of_isPrefix hp he).symm.trans he')
    · exact Option.some.inj (he.symm.trans (getElem?_of_isPrefix hp he'))
  subst hsame
  exact ⟨e, by rw [hi₂, he]; rfl, by rw [hj₂, he']; rfl⟩

/-- **State machine safety.** In a run without restarts that meets all conditions, an index that two servers
    have applied was applied with the same entry. -/
theorem state_machine_safety (cfg : Config n) (hname : ∀ i, (cfg.name i).bytes ≠ []) {s₀ s : Net n} (h₀ : s₀.Fresh)
    (hr : RunIf cfg (Good cfg .all) s₀ s) {i j : Fin n} (hij : i ≠ j) (index : Int) (hpos : 1 ≤ index)
    (hle : index ≤ (s.node i).lastApplied) (hle' : index ≤ (s.node j).lastApplied) :
    ∃ e, (s.servers i).executed[(index - 1).toNat]? = some (some e) ∧
      (s.servers j).executed[(index - 1).toNat]? = some (some e) := by
  have hn : 2 ≤ n := by
    have h₁ := i.isLt
    have h₂ := j.isLt
    have := Fin.val_ne_of_ne hij
    omega
  have hinv : ∃ h, Tracked cfg s h ∧ CommitInv s h :=
    (moves_of_run hr).invariant (P := fun s h => Tracked cfg s h ∧ CommitInv s h)
      (fun ⟨hi, hc⟩ hm => ⟨hi.move hname rfl rfl hm, hc.move hn rfl rfl hi hm⟩) ⟨h₀.tracked, h₀.commitInv⟩
  obtain ⟨h, hi, hc⟩ := hinv
  exact hc.same_entry hi hpos hle hle'

/-- A write that goes to both followers and is applied by the leader and one of them. -/
theorem state_machine_safety_applied : ∃ s : Net 3,
    RunIf threeServers (Good threeServers .all) (Net.fresh 3) s ∧
      (s.node 0).lastApplied = 1 ∧ (s.node 1).lastApplied = 1 ∧
        ∃ e, (s.servers 0).executed[0]? = some (some e) ∧ (s.servers 1).executed[0]? = some (some e) := by
  obtain ⟨s, hr, hs⟩ := run_of_exec (Net.step threeServers) (Good threeServers .all) (Net.fresh 3)
    (campaignAt 0 [1] :: deliveries 2 ++ [tickAt 0 [], .event 0 .connect, setAt 0, tickAt 0 [1, 2]] ++ deliveries 4 ++
      [tickAt 0 [1]] ++ deliveries 2 ++ [tickAt 0 [], tickAt 1 []])
    (fun s => ((s.node 0).lastApplied, (s.node 1).lastApplied)) (1, 1) (by decide +kernel)
  rw [Prod.mk.injEq] at hs
  exact ⟨s, hr, hs.1, hs.2, state_machine_safety _ (by decide) (Net.fresh_fresh 3) hr (by decide) 1
    le_rfl hs.1.ge hs.2.ge⟩

/-- Server 0 leads term 1 and takes a write that goes nowhere. Server 1 leads term 2, commits its own entry at
    index 1 and sends it to server 0. There it conflicts with the last entry, which stays: server 0 applies its
    own entry. -/
def divergeRun : List (Action 5) :=
  campaignAt 0 [1, 2] :: deliveries 4 ++ [tickAt 0 [], .event 0 .connect, setAt 0, campaignAt 1 [2, 3, 4]] ++
    deliveries 6 ++ [tickAt 1 [], .event 1 .connect, setAt 1, tickAt 1 [2, 3, 4]] ++ deliveries 6 ++
    [tickAt 1 [], tickAt 1 [0]] ++ deliveries 1 ++ [tickAt 0 []]

theorem state_machines_diverge : ∃ s₀ s : Net 5, s₀.Fresh ∧
    RunIf fiveServers (fun s a => a.CrashFree ∧ InOrder s a) s₀ s ∧ (s.node 0).lastApplied = 1 ∧
      (s.node 1).lastApplied = 1 ∧ (s.servers 0).executed = [some (setA 1 1)] ∧
        (s.servers 1).executed = [some (setA 1 2)] := by
  obtain ⟨s, hr, hs⟩ := run_of_exec (Net.step fiveServers) (fun s a => a.CrashFree ∧ InOrder s a)
    (Net.fresh 5) divergeRun
    (fun s => ((s.node 0).lastApplied, (s.node 1).lastApplied, (s.servers 0).executed, (s.servers 1).executed))
    (1, 1, [some (setA 1 1)], [some (setA 1 2)]) (by decide +kernel)
  simp only [Prod.mk.injEq] at hs
  exact ⟨_, s, Net.fresh_fresh 5, hr, hs⟩

end Prez
