import Prez.Commit
import Prez.Log.Reconcile
import Mathlib.Order.Bounds.Basic

/-!
# `Prez.Rules` — votes and commits against their rules

Three decisions that a server takes alone: whether it votes for a candidate, how far it commits as a leader,
and how far it commits as a follower. Each is stated as a rule about the state and the message, and the code is
compared with the rule.

* `vote_rule` — the candidate's log is compared index by index and term by term, where the rule compares terms
  first. Two logs of which one is longer and the other one newer deny each other.
* `leader_commit_rule` — the leader's own record takes part in the count with a match index that nothing sets,
  and the comparison of `qsort` cuts differences down to an `int`.
* `follower_commit_bound` — the follower commits up to the end of its own log, not of what the message covers.
-/

namespace Prez

open Lib

variable {n : Nat}

/-! ## Votes -/

/-- The candidate's last entry is not older than the voter's: terms first, then indices. -/
def LogUpToDate (x : ClusterState n) (vote : RequestVote) : Prop :=
  logCurrentTerm x.log < vote.lastLogTerm ∨
    logCurrentTerm x.log = vote.lastLogTerm ∧ logCurrentIndex x.log ≤ vote.lastLogIndex

/-- The rule for votes. A voter has not voted in a term that is new to it. -/
structure VoteRule (x : ClusterState n) (vote : RequestVote) : Prop where
  term : x.currentTerm ≤ vote.term
  free : vote.term = x.currentTerm → x.votedFor = [] ∨ x.votedFor = vote.candidateid
  log : LogUpToDate x vote

/-- The candidate's last entry is of a newer term, but at a smaller index. -/
def NewerButShorter (x : ClusterState n) (vote : RequestVote) : Prop :=
  logCurrentTerm x.log < vote.lastLogTerm ∧ vote.lastLogIndex < logCurrentIndex x.log

/-- The vote of `y` for a candidate that stands in state `x`. -/
def votesFor (cfg : Config n) (i : Fin n) (x y : ClusterState n) : Bool :=
  (clusterProcessRequestVote y (clusterSendRequestVote cfg i x).2).2.voteGranted

/-- The two comparisons of the code are the rule without the case that it denies. -/
theorem logUpToDate_iff (x : ClusterState n) (vote : RequestVote) :
    logCurrentIndex x.log ≤ vote.lastLogIndex ∧ logCurrentTerm x.log ≤ vote.lastLogTerm ↔
      LogUpToDate x vote ∧ ¬ NewerButShorter x vote := by
  unfold LogUpToDate NewerButShorter
  omega

/-- What `clusterProcessRequestVote` grants. -/
theorem requestVote_granted (x : ClusterState n) (vote : RequestVote) :
    (clusterProcessRequestVote x vote).2.voteGranted = true ↔ VoteRule x vote ∧ ¬ NewerButShorter x vote := by
  unfold clusterProcessRequestVote
  split
  · rename_i hold
    constructor
    · exact nofun
    · rintro ⟨h, -⟩
      have := h.term
      omega
  split
  · rename_i hnew
    rw [voteOnLog_granted]
    show logCurrentIndex x.log ≤ _ ∧ logCurrentTerm x.log ≤ _ ↔ _
    rw [logUpToDate_iff]
    constructor
    · rintro ⟨hlog, hnot⟩
      exact ⟨⟨hnew.le, fun heq => absurd heq (by omega), hlog⟩, hnot⟩
    · rintro ⟨h, hnot⟩
      exact ⟨h.log, hnot⟩
  · have heq : vote.term = x.currentTerm := by omega
    split
    · rename_i hvoted
      constructor
      · exact nofun
      · rintro ⟨h, -⟩
        rcases h.free heq with h | h
        · exact absurd h hvoted.1
        · exact absurd h hvoted.2
    · rename_i hfree
      rw [voteOnLog_granted, logUpToDate_iff]
      constructor
      · rintro ⟨hlog, hnot⟩
        refine ⟨⟨by omega, fun _ => ?_, hlog⟩, hnot⟩
        by_cases hnil : x.votedFor = []
        · exact .inl hnil
        · exact .inr (not_not.mp fun hne => hfree ⟨hnil, hne⟩)
      · rintro ⟨h, hnot⟩
        exact ⟨h.log, hnot⟩

theorem votesFor_iff (cfg : Config n) (i : Fin n) {x y : ClusterState n} (ht : y.currentTerm ≤ x.currentTerm) :
    votesFor cfg i x y = true ↔
      logCurrentIndex y.log ≤ logCurrentIndex x.log ∧ logCurrentTerm y.log ≤ logCurrentTerm x.log := by
  -- the candidate raises its term, so the voter has not voted in it
  unfold votesFor
  rw [requestVote_granted]
  have hlog := logUpToDate_iff y (clusterSendRequestVote cfg i x).2
  constructor
  · rintro ⟨h, hnot⟩
    exact hlog.mpr ⟨h.log, hnot⟩
  · intro h
    obtain ⟨hup, hnot⟩ := hlog.mp h
    refine ⟨⟨?_, fun heq => ?_, hup⟩, hnot⟩
    · show y.currentTerm ≤ x.currentTerm + 1
      omega
    · have : x.currentTerm + 1 = y.currentTerm := heq
      omega

/-- **The vote rule.** A vote is granted as the rule says exactly if the rule does not grant it to a candidate
    whose log is newer but shorter; and of two servers in one term, one votes for the other exactly if neither
    log is newer but shorter than the other. -/
theorem vote_rule :
    (∀ (x : ClusterState n) (vote : RequestVote),
      ((clusterProcessRequestVote x vote).2.voteGranted = true ↔ VoteRule x vote) ↔
        ¬ (VoteRule x vote ∧ NewerButShorter x vote)) ∧
    ∀ (cfg : Config n) (i j : Fin n) (x y : ClusterState n), x.currentTerm = y.currentTerm →
      (votesFor cfg i x y = true ∨ votesFor cfg j y x = true ↔
        ¬ NewerButShorter x (clusterSendRequestVote cfg j y).2 ∧
          ¬ NewerButShorter y (clusterSendRequestVote cfg i x).2) := by
  constructor
  · intro x vote
    rw [requestVote_granted]
    tauto
  · intro cfg i j x y ht
    rw [votesFor_iff cfg i ht.ge, votesFor_iff cfg j ht.le]
    have hx : NewerButShorter x (clusterSendRequestVote cfg j y).2 ↔
        logCurrentTerm x.log < logCurrentTerm y.log ∧ logCurrentIndex y.log < logCurrentIndex x.log := Iff.rfl
    have hy : NewerButShorter y (clusterSendRequestVote cfg i x).2 ↔
        logCurrentTerm y.log < logCurrentTerm x.log ∧ logCurrentIndex x.log < logCurrentIndex y.log := Iff.rfl
    rw [hx, hy]
    omega

/-- One of three servers, with a log and a term. -/
def serverWith (log : List LogEntry) (term : Int) : ClusterState 3 :=
  { clusterInit (fun _ => ⟨none, 0, 0⟩) (logOf log) with currentTerm := term }

/-- A server with one entry and one without. -/
theorem vote_rule_longer : votesFor threeServers 0 (serverWith [setA 1 1] 1) (serverWith [] 1) = true ∨
    votesFor threeServers 1 (serverWith [] 1) (serverWith [setA 1 1] 1) = true := by
  refine (vote_rule.2 threeServers 0 1 (serverWith [setA 1 1] 1) (serverWith [] 1) rfl).mpr ⟨fun h => ?_, fun h => ?_⟩
  · exact absurd h.1 (by decide +kernel)
  · exact absurd h.2 (by decide +kernel)

/-- A voter with two entries of term 1 and a candidate with one entry of term 2: the rule grants the vote, the
    code denies it, and the candidate denies its vote to the voter as well. -/
theorem newer_log_denied :
    VoteRule (serverWith [setA 1 1, setA 2 1] 2) (clusterSendRequestVote threeServers 1 (serverWith [setA 1 2] 2)).2 ∧
      votesFor threeServers 1 (serverWith [setA 1 2] 2) (serverWith [setA 1 1, setA 2 1] 2) = false ∧
        votesFor threeServers 0 (serverWith [setA 1 1, setA 2 1] 2) (serverWith [setA 1 2] 2) = false := by
  refine ⟨⟨by decide, fun h => ?_, .inl (by decide +kernel)⟩, by decide +kernel, by decide +kernel⟩
  exact absurd h (by decide)

/-! ## A leader commits -/

/-- Node `j` holds the log of leader `i` up to `index`: the leader its whole log, a peer what was matched. -/
def Holds (x : ClusterState n) (i : Fin n) (index : Int) (j : Fin n) : Prop :=
  if j = i then index ≤ logCurrentIndex x.log else index ≤ (x.nodes j).matchIndex
deriving Decidable

/-- An index that leader `i` may commit: a new one, of an entry of its own term, that a quorum holds. -/
structure Committable (x : ClusterState n) (i : Fin n) (index : Int) : Prop where
  new : x.commitIndex < index
  entry : ∃ e, x.log.list[(index - 1).toNat]? = some e ∧ e.index = index ∧ e.term = x.currentTerm
  quorum : quorumSize n ≤ (Finset.univ.filter (Holds x i index)).card

/-- The rule for the commit index of leader `i`. -/
def CommitRule (x : ClusterState n) (i : Fin n) (commitIndex : Int) : Prop :=
  IsGreatest {index | Committable x i index} commitIndex ∨
    (∀ index, ¬ Committable x i index) ∧ commitIndex = x.commitIndex

section

variable {x : ClusterState n} {i : Fin n}

theorem Committable.range (hc : Contiguous x.log.list) {index : Int} (h : Committable x i index) :
    1 ≤ index ∧ index ≤ logLength x.log := by
  obtain ⟨e, he, hindex, -⟩ := h.entry
  have hlt := (List.getElem?_eq_some_iff.mp he).1
  rw [x.log.length_list] at hlt
  have := hc _ _ he
  omega

/-- The term that `logGetTerm` finds at an index of the log. -/
theorem entry_of_logGetTerm (hc : Contiguous x.log.list) {index : Int} (h2 : index ≤ logLength x.log)
    (h1 : 1 ≤ index) :
    ∃ e, x.log.list[(index - 1).toNat]? = some e ∧ e.index = index ∧ e.term = logGetTerm x.log index := by
  obtain ⟨k, rfl⟩ := Int.eq_ofNat_of_zero_le (show 0 ≤ index by omega)
  obtain ⟨e, he, ht⟩ := logGetTerm_in x.log (k := k) (by omega) (by omega)
  have hpos : (((k : Int) - 1).toNat) = k - 1 := by omega
  refine ⟨e, by rw [hpos]; exact he, ?_, ht⟩
  have := hc _ _ he
  omega

/-- What a quorum of records has reached is held by a quorum, if it is in the leader's log. -/
theorem holds_of_reached {index : Int} (hlast : index ≤ logCurrentIndex x.log)
    (hq : quorumSize n ≤ (Finset.univ.filter fun j => index ≤ (x.nodes j).matchIndex).card) :
    quorumSize n ≤ (Finset.univ.filter (Holds x i index)).card := by
  refine hq.trans (Finset.card_le_card ?_)
  intro j hj
  rw [Finset.mem_filter] at hj ⊢
  refine ⟨hj.1, ?_⟩
  unfold Holds
  split
  · exact hlast
  · exact hj.2

/-- A quorum has another member than the leader, or the leader is alone: what it has reached is in the log. -/
theorem reached_le (hpeers : ∀ j, j ≠ i → (x.nodes j).matchIndex ≤ logCurrentIndex x.log)
    (hown : n = 1 → (x.nodes i).matchIndex ≤ logCurrentIndex x.log) {c : Int}
    (hcard : quorumSize n ≤ (Finset.univ.filter fun j => c ≤ (x.nodes j).matchIndex).card) :
    c ≤ logCurrentIndex x.log := by
  by_cases hone : n = 1
  · obtain ⟨j, hj⟩ : (Finset.univ.filter fun j => c ≤ (x.nodes j).matchIndex).Nonempty := by
      rw [← Finset.card_pos]
      exact lt_of_lt_of_le (Nat.succ_pos _) hcard
    have hle := (Finset.mem_filter.mp hj).2
    by_cases hji : j = i
    · subst hji
      exact hle.trans (hown hone)
    · exact hle.trans (hpeers j hji)
  · have hn : 0 < n := i.pos
    obtain ⟨j, hj, hji⟩ := Finset.exists_mem_ne (s := Finset.univ.filter fun j => c ≤ (x.nodes j).matchIndex)
      (by unfold quorumSize at hcard; omega) i
    exact (Finset.mem_filter.mp hj).2.trans (hpeers j hji)

/-- A later entry has no older term. -/
theorem term_le_of_le {l : List LogEntry} (hterms : l.Pairwise fun a b => a.term ≤ b.term) {k m : Nat} {e f : LogEntry}
    (he : l[k]? = some e) (hf : l[m]? = some f) (hkm : k ≤ m) : e.term ≤ f.term := by
  rcases hkm.lt_or_eq with hlt | rfl
  · obtain ⟨hk, rfl⟩ := List.getElem?_eq_some_iff.mp he
    obtain ⟨hm, rfl⟩ := List.getElem?_eq_some_iff.mp hf
    exact List.pairwise_iff_getElem.mp hterms _ _ hk hm hlt
  · cases he.symm.trans hf
    exact le_rfl

/-- The index `c` that is read serves leader `i`: every index that the rule allows is at most `c`, whose entry is
    then of the current term, and `c` is committed only if the rule allows it. -/
structure Serves (x : ClusterState n) (i : Fin n) (c : Int) : Prop where
  every : ∀ index, Committable x i index → index ≤ c ∧ x.currentTerm = logGetTerm x.log c
  only : x.commitIndex < c → x.currentTerm = logGetTerm x.log c → Committable x i c

/-- The index that is read decides. -/
theorem commitRule_iff {sorted : List Int} {c : Int} (hread : sorted.reverse[quorumSize n - 1]? = some c) :
    CommitRule x i (updateCommitIndexFrom x sorted).commitIndex ↔ Serves x i c := by
  rw [updateCommitIndexFrom_commitIndex hread]
  by_cases hset : c > x.commitIndex ∧ x.currentTerm = logGetTerm x.log c
  · rw [if_pos hset]
    constructor
    · rintro (hgreatest | ⟨-, heq⟩)
      · exact ⟨fun index hindex => ⟨hgreatest.2 hindex, hset.2⟩, fun _ _ => hgreatest.1⟩
      · exact absurd hset.1 heq.le.not_gt
    · intro h
      exact .inl ⟨h.only hset.1 hset.2, fun index hindex => (h.every index hindex).1⟩
  · rw [if_neg hset]
    constructor
    · rintro (hgreatest | ⟨hnone, -⟩)
      · exact absurd hgreatest.1.new (lt_irrefl _)
      · exact ⟨fun index hindex => absurd hindex (hnone index), fun hnew hterm => absurd ⟨hnew, hterm⟩ hset⟩
    · intro h
      refine .inr ⟨fun index hindex => hset ?_, rfl⟩
      obtain ⟨hle, hterm⟩ := h.every index hindex
      exact ⟨hindex.new.trans_le hle, hterm⟩

/-- An index that a quorum holds is in the leader's log. -/
theorem le_last_of_held (hpeers : ∀ j, j ≠ i → (x.nodes j).matchIndex ≤ logCurrentIndex x.log) {c : Int}
    (hq : quorumSize n ≤ (Finset.univ.filter (Holds x i c)).card) : c ≤ logCurrentIndex x.log := by
  obtain ⟨j, hj⟩ : (Finset.univ.filter (Holds x i c)).Nonempty := by
    rw [← Finset.card_pos]
    exact lt_of_lt_of_le (Nat.succ_pos _) hq
  have hholds : Holds x i c j := (Finset.mem_filter.mp hj).2
  unfold Holds at hholds
  split at hholds
  · exact hholds
  · rename_i hji
    exact hholds.trans (hpeers j hji)

/-- What the log and the match indices are in a leader that has come by its state as a server does. -/
structure Regular (x : ClusterState n) (i : Fin n) : Prop where
  orders : ∀ a ∈ matchIndices x, ∀ b ∈ matchIndices x, Orders a b
  terms : ∀ e ∈ x.log.list, e.term ≤ x.currentTerm
  commit : 0 ≤ x.commitIndex
  own : n = 1 → (x.nodes i).matchIndex ≤ logCurrentIndex x.log

/-- In such a state the index that is read serves if it is beyond every index that the rule allows. -/
theorem Regular.serves_iff (hr : Regular x i) (hc : Contiguous x.log.list)
    (hterms : x.log.list.Pairwise fun a b => a.term ≤ b.term)
    (hpeers : ∀ j, j ≠ i → (x.nodes j).matchIndex ≤ logCurrentIndex x.log) {c : Int}
    (hread : MayRead (matchIndices x) c) :
    Serves x i c ↔ ∀ index, Committable x i index →
      quorumSize n ≤ (Finset.univ.filter fun j => index ≤ (x.nodes j).matchIndex).card := by
  have hlast := hc.currentIndex
  have hcommit := hr.commit
  have hreach := hread.reached_iff hr.orders
  have hle : c ≤ logLength x.log := by
    have := reached_le hpeers hr.own ((hreach c).mpr le_rfl)
    omega
  constructor
  · intro h index hindex
    exact (hreach index).mpr (h.every index hindex).1
  · intro hall
    constructor
    · intro index hindex
      -- the entry found is behind one of the current term, so it has this term itself
      have hnew := hindex.new
      have hle' := (hreach index).mp (hall index hindex)
      obtain ⟨h1, -⟩ := hindex.range hc
      obtain ⟨e, he, -, het⟩ := hindex.entry
      obtain ⟨f, hf, -, hft⟩ := entry_of_logGetTerm hc hle (by omega)
      refine ⟨hle', ?_⟩
      rw [← hft]
      apply le_antisymm
      · rw [← het]
        exact term_le_of_le hterms he hf (by omega)
      · exact hr.terms f (List.mem_of_getElem? hf)
    · intro hnew hterm
      obtain ⟨e, he, hindex, het⟩ := entry_of_logGetTerm hc hle (by omega)
      exact ⟨hnew, ⟨e, he, hindex, het.trans hterm.symm⟩, holds_of_reached (by omega) ((hreach c).mpr le_rfl)⟩

/-- **The leader commit rule.** The commit index of a leader becomes what the rule says, whatever `qsort` does with
    the match indices, exactly if every index that may be read (the `quorumSize`-th largest of all records, the
    leader's own among them, or any of them if the comparison does not order every pair) is at least what the rule
    allows and then of the current term, and is not taken unless it is in the log and held by a quorum. In a
    regular state this says that what the rule allows is reached by a quorum of the records as they are. -/
theorem leader_commit_rule (hc : Contiguous x.log.list) (hterms : x.log.list.Pairwise fun a b => a.term ≤ b.term)
    (hpeers : ∀ j, j ≠ i → (x.nodes j).matchIndex ≤ logCurrentIndex x.log) :
    ((∀ sorted, Qsorted (matchIndices x) sorted → CommitRule x i (updateCommitIndexFrom x sorted).commitIndex) ↔
      ∀ c, MayRead (matchIndices x) c →
        (∀ index, Committable x i index → index ≤ c ∧ x.currentTerm = logGetTerm x.log c) ∧
        (x.commitIndex < c → x.currentTerm = logGetTerm x.log c →
          1 ≤ c ∧ quorumSize n ≤ (Finset.univ.filter (Holds x i c)).card)) ∧
    (Regular x i → (CommitRule x i (clusterUpdateCommitIndex x).commitIndex ↔
      ∀ index, Committable x i index →
        quorumSize n ≤ (Finset.univ.filter fun j => index ≤ (x.nodes j).matchIndex).card)) := by
  have hlen := length_matchIndices x
  -- the array has an entry for every node
  have hne : matchIndices x ≠ [] := by
    rw [← List.length_pos_iff, hlen]
    exact i.pos
  constructor
  · constructor
    · intro h c hmay
      obtain ⟨sorted, hsorted, hread⟩ := mayRead_iff.mp hmay
      rw [hlen] at hread
      have hserves := (commitRule_iff hread).mp (h sorted hsorted)
      refine ⟨hserves.every, fun hnew hterm => ?_⟩
      have hcommits := hserves.only hnew hterm
      exact ⟨(hcommits.range hc).1, hcommits.quorum⟩
    · intro h sorted hsorted
      obtain ⟨c, hread⟩ := hsorted.read hne
      obtain ⟨hevery, honly⟩ := h c (hsorted.mayRead hread)
      rw [hlen] at hread
      refine (commitRule_iff hread).mpr ⟨hevery, fun hnew hterm => ?_⟩
      obtain ⟨hpos, hquorum⟩ := honly hnew hterm
      have hle := le_last_of_held hpeers hquorum
      rw [hc.currentIndex] at hle
      obtain ⟨e, he, hindex, het⟩ := entry_of_logGetTerm hc hle hpos
      exact ⟨hnew, ⟨e, he, hindex, het.trans hterm.symm⟩, hquorum⟩
  · intro hr
    obtain ⟨c, hread⟩ := (sortIndices_qsorted (matchIndices x)).read hne
    have hmay := (sortIndices_qsorted (matchIndices x)).mayRead hread
    rw [hlen] at hread
    rw [clusterUpdateCommitIndex_from, commitRule_iff hread]
    exact hr.serves_iff hc hterms hpeers hmay

end

/-- A leader with its own record at 0 and both peers at the end of its log of two entries. -/
def bothMatched : ClusterState 3 :=
  { serverWith [setA 1 1, setA 2 1] 1 with nodes := fun j => ⟨none, 3, if j = 0 then 0 else 2⟩ }

/-- The same leader with one peer that does not answer. -/
def oneMatched : ClusterState 3 :=
  { serverWith [setA 1 1, setA 2 1] 1 with nodes := fun j => ⟨none, 3, if j = 1 then 2 else 0⟩ }

theorem contiguous_two : Contiguous (logOf [setA 1 1, setA 2 1]).list := contiguous_nil.append (by decide)

theorem regular_both : Regular bothMatched 0 where
  orders := by
    intro a ha b hb
    have hbound : ∀ c ∈ matchIndices bothMatched, 0 ≤ c ∧ c ≤ 2 := by decide +kernel
    have ha' := hbound a ha
    have hb' := hbound b hb
    exact .of_int (by omega) (by omega)
  terms := by decide +kernel
  commit := by decide
  own := by decide

/-- Both peers hold both entries, and the leader commits the second, however its match indices are sorted. -/
theorem leader_commit_rule_both :
    (∀ sorted, Qsorted (matchIndices bothMatched) sorted →
      CommitRule bothMatched 0 (updateCommitIndexFrom bothMatched sorted).commitIndex) ∧
    CommitRule bothMatched 0 (clusterUpdateCommitIndex bothMatched).commitIndex ∧
      (clusterUpdateCommitIndex bothMatched).commitIndex = 2 := by
  have hrule := leader_commit_rule (x := bothMatched) (i := 0) contiguous_two (by decide +kernel) (by decide +kernel)
  have hreached : ∀ index, Committable bothMatched 0 index →
      quorumSize 3 ≤ (Finset.univ.filter fun j => index ≤ (bothMatched.nodes j).matchIndex).card := by
    intro index hindex
    obtain ⟨-, hle⟩ := hindex.range contiguous_two
    have hle : index ≤ 2 := hle
    calc quorumSize 3 ≤ (Finset.univ.filter fun j => (2 : Int) ≤ (bothMatched.nodes j).matchIndex).card := by decide
      _ ≤ (Finset.univ.filter fun j => index ≤ (bothMatched.nodes j).matchIndex).card := by
          apply Finset.card_le_card
          intro j hj
          rw [Finset.mem_filter] at hj ⊢
          exact ⟨hj.1, hle.trans hj.2⟩
  refine ⟨hrule.1.mpr fun c hmay => ?_, (hrule.2 regular_both).mpr hreached, by decide +kernel⟩
  -- two of the three indices are 2
  have hc : c = 2 := (hmay.2 regular_both.orders).unique ⟨by decide +kernel, by decide +kernel, by decide +kernel⟩
  subst hc
  refine ⟨fun index hindex => ⟨(hindex.range contiguous_two).2, by decide +kernel⟩, fun _ _ => ?_⟩
  exact ⟨by decide, by decide +kernel⟩

/-- The leader and one of two peers are a quorum for both entries, and nothing is committed. -/
theorem leader_quorum_not_committed : IsGreatest {index | Committable oneMatched 0 index} 2 ∧
    (clusterUpdateCommitIndex oneMatched).commitIndex = 0 ∧
      ¬ CommitRule oneMatched 0 (clusterUpdateCommitIndex oneMatched).commitIndex := by
  have hcommits : Committable oneMatched 0 2 := ⟨by decide, ⟨setA 2 1, by decide +kernel, rfl, rfl⟩, by decide +kernel⟩
  have hzero : (clusterUpdateCommitIndex oneMatched).commitIndex = 0 := by decide +kernel
  refine ⟨⟨hcommits, fun index hindex => (hindex.range contiguous_two).2⟩, hzero, ?_⟩
  rw [hzero]
  rintro (hgreatest | ⟨hnone, -⟩)
  · exact absurd (hgreatest.2 hcommits) (by decide)
  · exact hnone 2 hcommits

/-! ## A follower commits -/

/-- How far a follower has been told that its log is the leader's: by earlier messages, or by this one. -/
def coveredTo (x : ClusterState n) (entries : AppendEntries) : Int :=
  max x.commitIndex (entries.prevLogIndex + entries.logEntries.length)

/-- The entry at `index` of the log `new` is confirmed by a message: it is in the prefix that the message extends,
    or the message has an entry with its index and term. -/
def Confirmed (old : List LogEntry) (prev : Nat) (es : List LogEntry) (index : Nat) (e : LogEntry) : Prop :=
  index ≤ prev ∧ old[index - 1]? = some e ∨ ∃ m ∈ es, m.index = index ∧ m.term = e.term

section

variable {old es : List LogEntry} {prev : Nat}

/-- A message that finds a conflict replaces the end of the log, also where the conflicting entry stays. -/
theorem getLast?_reconcile (hes : Consecutive prev es) {c : LogEntry} (hfind : es.find? (Conflicts old) = some c) :
    ((reconcile old prev es).getLast?.map (·.index)).getD 0 = prev + es.length := by
  obtain ⟨k, hk, hindex, -, -⟩ := find_conflict hes hfind
  have hlt := (List.getElem?_eq_some_iff.mp hk).1
  obtain ⟨e, he⟩ : ∃ e, es[es.length - 1]? = some e := ⟨_, List.getElem?_eq_getElem (by omega)⟩
  unfold reconcile
  rw [hfind]
  dsimp only
  rw [show (c.index - 1).toNat - prev = k by omega, List.getLast?_append, List.getLast?_drop, if_neg (by omega),
    List.getLast?_eq_getElem?, he]
  show e.index = _
  rw [hes.getElem he]
  omega

/-- An entry of the message that does not conflict confirms the entry that the log has in its place. -/
theorem confirmed_of_kept (hc : Contiguous old) (hes : Consecutive prev es) {k : Nat} {e : LogEntry}
    (he : old[k]? = some e) (hk : k < prev + es.length)
    (hno : ∀ m, prev ≤ k → es[k - prev]? = some m → Conflicts old m = false) : Confirmed old prev es (k + 1) e := by
  rcases Nat.lt_or_ge k prev with hlt | hge
  · exact .inl ⟨hlt, he⟩
  · obtain ⟨m, hm⟩ : ∃ m, es[k - prev]? = some m := ⟨_, List.getElem?_eq_getElem (by omega)⟩
    have hindex : m.index = k + 1 := by
      have := hes.getElem hm
      omega
    refine .inr ⟨m, List.mem_of_getElem? hm, hindex, ?_⟩
    by_contra hne
    have hcon := (Conflicts_at hc hindex).mpr ⟨e, he, fun h => hne h.symm⟩
    rw [hno m hge hm] at hcon
    cases hcon

/-- An entry of the message confirms itself. -/
theorem confirmed_of_taken (hes : Consecutive prev es) {k m : Nat} {e : LogEntry} (he : es[m]? = some e)
    (hk : k = prev + m) : Confirmed old prev es (k + 1) e := by
  refine .inr ⟨e, List.mem_of_getElem? he, ?_, rfl⟩
  rw [hes.getElem he, hk]
  push_cast
  rfl

/-- **Confirmation.** As far as the message reaches, every entry of the log that it leaves is confirmed. -/
theorem reconcile_confirmed (hc : Contiguous old) (hes : Consecutive prev es) (hprev : prev ≤ old.length)
    (htrunc : ∀ c, es.find? (Conflicts old) = some c → c.index ≠ old.length) {k : Nat} {e : LogEntry}
    (he : (reconcile old prev es)[k]? = some e) (hk : k < prev + es.length) : Confirmed old prev es (k + 1) e := by
  unfold reconcile at he
  cases hfind : es.find? (Conflicts old) with
  | none =>
    rw [hfind] at he
    dsimp only at he
    rcases Nat.lt_or_ge k old.length with hin | hout
    · rw [List.getElem?_append_left hin] at he
      refine confirmed_of_kept hc hes he hk fun m _ hm => ?_
      simpa using List.find?_eq_none.mp hfind m (List.mem_of_getElem? hm)
    · rw [List.getElem?_append_right hout, List.getElem?_drop] at he
      exact confirmed_of_taken hes he (by omega)
  | some c =>
    obtain ⟨j, -, hindex, hlt, htake⟩ := find_conflict hes hfind
    have hlen : (old.take (prev + j)).length = prev + j := by
      rw [List.length_take]
      omega
    rw [hfind] at he
    dsimp only at he
    rw [if_neg (htrunc c hfind), show (c.index - 1).toNat = prev + j by omega, Nat.add_sub_cancel_left] at he
    rcases Nat.lt_or_ge k (prev + j) with hin | hout
    · rw [List.getElem?_append_left (by omega), List.getElem?_take, if_pos hin] at he
      refine confirmed_of_kept hc hes he hk fun m hge hm => ?_
      have hmem : m ∈ es.take j := by
        refine List.mem_of_getElem? (i := k - prev) ?_
        rw [List.getElem?_take, if_pos (by omega)]
        exact hm
      rw [← htake] at hmem
      simpa using List.mem_takeWhile_imp hmem
    · rw [List.getElem?_append_right (by omega), hlen, List.getElem?_drop] at he
      exact confirmed_of_taken hes he (by omega)

end

/-- A request that is answered with success has been accepted, written and committed. -/
theorem clusterProcessAppendEntries_ok {x y : ClusterState n} {entries : AppendEntries} {fsync : Bool}
    {response : ResponseAppendEntries} (h : clusterProcessAppendEntries x entries fsync = some (y, response))
    (hok : response.ok = true) :
    Accepts x entries ∧ ∃ log, logAppendEntries x.log entries.logEntries = some log ∧
      y = logCommitIndex { followLeader x entries with log } entries.leaderCommitIndex := by
  obtain ⟨-, ⟨-, -, hno⟩ | ⟨hterm, ⟨-, -, hno⟩ | ⟨hverify, log, hlog, hfsync, rfl⟩⟩⟩ :=
    clusterProcessAppendEntries_cases h
  · cases hno.symm.trans hok
  · cases hno.symm.trans hok
  · rw [← hfsync, if_pos hok]
    exact ⟨⟨hterm, hverify⟩, log, hlog, rfl⟩

/-- The end of the log after an accepted message is where the message ends, or the old end. -/
theorem logCurrentIndex_reconcile {s s' : LogState} (hc : Contiguous s.list) {prev : Nat} {es : List LogEntry}
    (hes : Consecutive prev es) (hprev : prev ≤ logLength s) (h : logAppendEntries s es = some s') (c : Int)
    (hcover : prev + es.length ≤ c) :
    logCurrentIndex s' ≤ c ↔ logLength s ≤ c ∨ ∃ e ∈ es, Conflicts s.list e = true := by
  have hlist := logAppendEntries_reconcile hc hes hprev h
  cases hfind : es.find? (Conflicts s.list) with
  | none =>
    have hnone : ¬ ∃ e ∈ es, Conflicts s.list e = true := by
      rintro ⟨e, he, hcon⟩
      exact List.find?_eq_none.mp hfind e he hcon
    have hnew : s'.list = s.list ++ es.drop (s.list.length - prev) := by
      rw [hlist]
      unfold reconcile
      rw [hfind]
    have hc' : Contiguous s'.list := by
      rw [hnew]
      apply hc.append
      have := hes.drop (s.list.length - prev)
      rwa [show (prev : Int) + ((s.list.length - prev : Nat) : Int) = s.list.length by rw [s.length_list]; omega] at this
    have hlen := congrArg List.length hnew
    rw [s'.length_list, List.length_append, List.length_drop, s.length_list] at hlen
    rw [hc'.currentIndex, or_iff_left hnone]
    omega
  | some e =>
    rw [logCurrentIndex_eq, hlist, getLast?_reconcile hes hfind]
    exact ⟨fun _ => .inr ⟨e, List.mem_of_find?_eq_some hfind, List.find?_some hfind⟩, fun _ => hcover⟩

/-- **The follower commit bound.** After a message that is answered with success, the commit index is within what
    the follower has been told exactly if the leader's commit index is, or the log that the message makes of the
    follower's ends there. For a message with consecutive indices it ends there if the old log did or the message
    conflicts with it; and unless that conflict is with its last entry, what is newly committed within the bound is
    confirmed. -/
theorem follower_commit_bound {x y : ClusterState n} {entries : AppendEntries} {fsync : Bool}
    {response : ResponseAppendEntries} (hc : Contiguous x.log.list)
    (h : clusterProcessAppendEntries x entries fsync = some (y, response)) (hok : response.ok = true) :
    ∃ log, logAppendEntries x.log entries.logEntries = some log ∧ y.log = log ∧
    (y.commitIndex ≤ coveredTo x entries ↔
      entries.leaderCommitIndex ≤ coveredTo x entries ∨ logCurrentIndex log ≤ coveredTo x entries) ∧
    (Consecutive entries.prevLogIndex entries.logEntries →
      (logCurrentIndex log ≤ coveredTo x entries ↔
        logLength x.log ≤ coveredTo x entries ∨ ∃ e ∈ entries.logEntries, Conflicts x.log.list e = true) ∧
      (TruncOk x entries → y.commitIndex ≤ coveredTo x entries → ∀ index : Nat, 0 < index → x.commitIndex < index →
        index ≤ y.commitIndex → ∀ e, log.list[index - 1]? = some e →
          Confirmed x.log.list entries.prevLogIndex.toNat entries.logEntries index e)) := by
  obtain ⟨haccept, log, hlog, rfl⟩ := clusterProcessAppendEntries_ok h hok
  obtain ⟨hpos, hle⟩ := logVerifyAppend_range haccept.2
  obtain ⟨prev, hprev⟩ := Int.eq_ofNat_of_zero_le hpos
  have hcommit : x.commitIndex ≤ coveredTo x entries := le_max_left _ _
  refine ⟨log, hlog, logCommitIndex_log .., ?_, fun hes => ⟨?_, fun htrunc hbound index hindex hnew hnewle e he => ?_⟩⟩
  · unfold logCommitIndex
    rw [followLeader_commitIndex]
    split
    · show (if entries.leaderCommitIndex < logCurrentIndex log then entries.leaderCommitIndex else logCurrentIndex log) ≤
        coveredTo x entries ↔ _ ∨ logCurrentIndex log ≤ coveredTo x entries
      split <;> omega
    · rw [followLeader_commitIndex]
      exact ⟨fun _ => .inl (by omega), fun _ => hcommit⟩
  · rw [hprev] at hes
    refine logCurrentIndex_reconcile hc hes (by omega) hlog _ ?_
    rw [← hprev]
    exact le_max_right _ _
  · rw [hprev] at hes
    have hcut : ∀ c, entries.logEntries.find? (Conflicts x.log.list) = some c → c.index ≠ x.log.list.length := by
      rw [x.log.length_list]
      exact htrunc haccept
    rw [logAppendEntries_reconcile hc hes (by omega) hlog] at he
    rw [show index = index - 1 + 1 by omega, hprev, Int.toNat_natCast]
    refine reconcile_confirmed hc hes (by rw [x.log.length_list]; omega) hcut he ?_
    have hcover : (index : Int) ≤ max x.commitIndex (entries.prevLogIndex + entries.logEntries.length) :=
      hnewle.trans hbound
    omega

/-- A follower with three entries of term 1, of which none is committed. -/
def staleFollower : ClusterState 3 := serverWith [setA 1 1, setA 2 1, setA 3 1] 1

/-- A heartbeat of term 2 that begins behind the first entry, of a leader that has committed `leaderCommitIndex`. -/
def heartbeatAfterFirst (leaderCommitIndex : Int) : AppendEntries :=
  ⟨2, (threeServers.name 0).bytes, 1, 1, leaderCommitIndex, []⟩

theorem contiguous_stale : Contiguous staleFollower.log.list :=
  (contiguous_nil.append (by decide) : Contiguous [setA 1 1, setA 2 1, setA 3 1])

/-- A leader that has committed its first entry only. -/
theorem follower_commit_bound_within : ∃ y response,
    clusterProcessAppendEntries staleFollower (heartbeatAfterFirst 1) true = some (y, response) ∧
      response.ok = true ∧ y.commitIndex ≤ coveredTo staleFollower (heartbeatAfterFirst 1) := by
  obtain ⟨⟨y, response⟩, h⟩ : ∃ r, clusterProcessAppendEntries staleFollower (heartbeatAfterFirst 1) true = some r :=
    Option.isSome_iff_exists.mp (by decide +kernel)
  have hok : response.ok = true := by
    have hmap := congrArg (Option.map fun r => r.2.ok) h
    exact Option.some.inj (hmap.symm.trans (by decide +kernel))
  obtain ⟨_, _, _, hbound, _⟩ := follower_commit_bound contiguous_stale h hok
  exact ⟨y, response, h, hok, hbound.mpr (.inl (by decide))⟩

/-- The leader has committed three entries, of which the message confirms the first: the follower commits its own
    second and third entry. -/
theorem stale_suffix_committed : Contiguous staleFollower.log.list ∧ ∃ y response,
    clusterProcessAppendEntries staleFollower (heartbeatAfterFirst 3) true = some (y, response) ∧
      response.ok = true ∧ y.commitIndex = 3 ∧ coveredTo staleFollower (heartbeatAfterFirst 3) = 1 := by
  have hrun : (clusterProcessAppendEntries staleFollower (heartbeatAfterFirst 3) true).map
      (fun r => (r.1.commitIndex, r.2.ok)) = some (3, true) := by decide +kernel
  obtain ⟨⟨y, response⟩, h, hr⟩ := Option.map_eq_some_iff.mp hrun
  obtain ⟨hcommit, hok⟩ := Prod.mk.inj hr
  exact ⟨contiguous_stale, y, response, h, hok, hcommit, by decide⟩

end Prez
