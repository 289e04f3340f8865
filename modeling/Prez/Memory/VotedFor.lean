import Prez.Bus.Frame
import Prez.Election.Safety

/-!
# `Prez.Memory.VotedFor` — the string behind `voted_for`

`voted_for` is declared as an `sds`, and `clusterProcessRequestVote` reads it with `sdslen` and `sdscmp`, which
look for the length in the header in front of the bytes. Six of the seven assignments store a string from an `sds`
constructor. The election timeout stores `zstrdup(server.name)`, which has no such header: in front of its bytes
is what the allocator keeps there, the requested size with libc, the end of another block with jemalloc.

Here a string is known by its constructor (`VoteString`), the four bytes in front of a plain string are an input of
the timer, and the vote handler reads the header. `voted_for_well_formed` says when it sees the name that
was voted for; then it is the handler of `Prez.Cluster.Protocol`, which compares contents (`step_server`).
-/

namespace Prez

open Lib

variable {n : Nat}

/-! ## Strings -/

/-- A string that `voted_for` can point to: from `sdsnew` or `sdsempty`, or from `zstrdup` with the `int` that
    happens to stand eight bytes in front of it. -/
inductive VoteString where
  | sds (bytes : Bytes)
  | zstrdup (bytes : Bytes) (before : BitVec 32)
deriving DecidableEq

/-- The bytes up to the NUL. -/
def VoteString.bytes : VoteString → Bytes
  | .sds bytes => bytes
  | .zstrdup bytes _ => bytes

/-- The string comes from an `sds` constructor. -/
def VoteString.IsSds : VoteString → Prop
  | .sds _ => True
  | .zstrdup .. => False

/-- `sdslen(s)`: an `int` converted to `size_t`. -/
def sdslen : VoteString → Int
  | .sds bytes => bytes.length
  | .zstrdup _ before => toULong before.toInt

/-- `memcmp(a, b, count)`, up to the first difference. -/
def memcmp : Nat → Bytes → Bytes → Int
  | count + 1, x :: a, y :: b => if x = y then memcmp count a b else (x.toNat : Int) - y.toNat
  | _, _, _ => 0

/-- `sdscmp(s, t)` with an `sds` `t`: the difference of the lengths is returned as an `int`. -/
def sdscmp (s : VoteString) (t : Bytes) : Int :=
  let cmp := memcmp (min (sdslen s) t.length).toNat (s.bytes ++ [0]) (t ++ [0])
  if cmp = 0 then toInt32 (sdslen s - t.length) else cmp

/-- The values of `sdslen` that an `int` can give. -/
theorem sdslen_range {s : VoteString} (hs : s.bytes.length < 40) :
    0 ≤ sdslen s ∧ sdslen s < 2 ^ 31 ∨ 2 ^ 64 - 2 ^ 31 ≤ sdslen s ∧ sdslen s < 2 ^ 64 := by
  cases s with
  | sds bytes =>
    have hs : bytes.length < 40 := hs
    show 0 ≤ (bytes.length : Int) ∧ (bytes.length : Int) < 2 ^ 31 ∨ _
    omega
  | zstrdup bytes before =>
    have hlo := BitVec.le_toInt before
    have hhi := BitVec.toInt_lt (x := before)
    show 0 ≤ toULong before.toInt ∧ toULong before.toInt < 2 ^ 31 ∨
      2 ^ 64 - 2 ^ 31 ≤ toULong before.toInt ∧ toULong before.toInt < 2 ^ 64
    unfold toULong
    split <;> omega

/-- A string of the name's bytes differs from a longer one at its NUL. -/
theorem memcmp_eq_zero {t : Bytes} (ht : (0 : UInt8) ∉ t) : ∀ {count : Nat} {a : Bytes}, count ≤ t.length →
    (memcmp count (a ++ [0]) (t ++ [0]) = 0 ↔ t.take count <+: a) := by
  induction t with
  | nil =>
    intro count a hle
    obtain rfl : count = 0 := Nat.le_zero.mp hle
    simp [memcmp]
  | cons y t ih =>
    intro count a hle
    obtain ⟨hy, ht⟩ := not_or.mp (mt List.mem_cons.mpr ht)
    cases count with
    | zero => simp [memcmp]
    | succ count =>
      have hle : count ≤ t.length := Nat.le_of_succ_le_succ hle
      cases a with
      | nil =>
        have hne : ¬ (0 : UInt8) = y := hy
        rw [List.nil_append, List.cons_append, memcmp, if_neg hne, List.take_succ_cons]
        simp only [List.prefix_nil, reduceCtorEq, iff_false]
        have hpos : y.toNat ≠ 0 := fun h0 => hne (UInt8.toNat_inj.mp h0.symm)
        show ¬ ((0 : UInt8).toNat : Int) - y.toNat = 0
        rw [UInt8.toNat_zero]
        omega
      | cons x a =>
        rw [List.cons_append, List.cons_append, memcmp, List.take_succ_cons, List.cons_prefix_cons]
        split
        · rename_i hxy
          rw [ih ht hle, hxy]
          simp
        · rename_i hxy
          have hne : x.toNat ≠ y.toNat := fun h => hxy (UInt8.toNat_inj.mp h)
          constructor
          · intro h
            omega
          · exact fun h => absurd h.1.symm hxy

/-- **What `sdscmp` compares**: the length that the header gives, and that many bytes. -/
theorem sdscmp_eq_zero {s : VoteString} {t : Bytes} (hs : s.bytes.length < 40) (ht : (0 : UInt8) ∉ t)
    (hlen : t.length < 40) : sdscmp s t = 0 ↔ sdslen s = t.length ∧ t <+: s.bytes := by
  have hrange := sdslen_range hs
  have hint : toInt32 (sdslen s - t.length) = 0 ↔ sdslen s = t.length := by
    unfold toInt32
    omega
  have hle : (min (sdslen s) t.length).toNat ≤ t.length := by omega
  unfold sdscmp
  dsimp only
  split
  · rename_i hcmp
    rw [hint]
    constructor
    · intro heq
      rw [memcmp_eq_zero ht hle, heq, min_self, Int.toNat_natCast, List.take_length] at hcmp
      exact ⟨heq, hcmp⟩
    · exact fun h => h.1
  · rename_i hcmp
    constructor
    · exact fun h => absurd h hcmp
    · rintro ⟨heq, hstart⟩
      refine absurd ((memcmp_eq_zero ht hle).mpr ?_) hcmp
      rw [heq, min_self, Int.toNat_natCast, List.take_length]
      exact hstart

/-! ## A node and its vote -/

/-- A server and the string that `voted_for` points to. The field `votedFor` of the server is the contents. -/
structure VotingServer (n : Nat) where
  server : Server n
  votedFor : VoteString

/-- `clusterInit()`. -/
def VotingServer.boot (nodes : Fin n → ClusterNode) (log : LogState) : VotingServer n :=
  ⟨Server.boot (clusterInit nodes log), .sds []⟩

/-- The part of `clusterProcessRequestVote` behind the term tests. -/
def VotingServer.voteOnLog (s : VotingServer n) (vote : RequestVote) : VotingServer n × ResponseVote :=
  let r := Prez.voteOnLog s.server.cluster vote
  (⟨{ s.server with cluster := r.1 }, if r.2.voteGranted then .sds vote.candidateid else s.votedFor⟩, r.2)

/-- `clusterProcessRequestVote(link, vote)`. -/
def VotingServer.requestVote (s : VotingServer n) (vote : RequestVote) : VotingServer n × ResponseVote :=
  let x := s.server.cluster
  if vote.term < x.currentTerm then (s, clusterSendResponseVote x false)
  else if vote.term > x.currentTerm then
    VotingServer.voteOnLog ⟨{ s.server with cluster := x.enterTerm vote.term }, .sds []⟩ vote
  else if sdslen s.votedFor > 0 ∧ sdscmp s.votedFor vote.candidateid ≠ 0 then (s, clusterSendResponseVote x false)
  else s.voteOnLog vote

/-- The handlers; a higher term stores an empty `sds`. -/
def VotingServer.receive (s : VotingServer n) (j : Fin n) (msg : Message) (fsync : Bool) : Option (VotingServer n) :=
  let x := s.server.cluster
  match msg with
  | .requestVote vote => some (s.requestVote vote).1
  | .responseVote vote =>
    some ⟨{ s.server with cluster := clusterProcessResponseVote x vote },
      if ¬ (vote.voteGranted = true ∧ vote.term = x.currentTerm) ∧ vote.term > x.currentTerm then .sds []
      else s.votedFor⟩
  | .appendEntries entries =>
    (clusterProcessAppendEntries x entries fsync).map fun r =>
      ⟨{ s.server with cluster := r.1 }, if entries.term > x.currentTerm then .sds [] else s.votedFor⟩
  | .responseAppendEntries entries =>
    some ⟨{ s.server with cluster := clusterProcessResponseAppendEntries x j entries },
      if entries.ok = false ∧ entries.term > x.currentTerm then .sds [] else s.votedFor⟩

/-- What happens at a node. `before` is found in front of the string that `zstrdup` returns. -/
inductive VoterEvent (n : Nat) where
  | init (nodes : Fin n → ClusterNode) (log : LogState)
  | cron (inp : CronInput n) (before : BitVec 32)
  | message (j : Fin n) (msg : Message) (fsync : Bool)

/-- The test of `clusterCron` for the election timeout. -/
def TimesOut (s : VotingServer n) : VoterEvent n → Prop
  | .cron inp _ => s.server.cluster.state ≠ .leader ∧ inp.timeout = true
  | _ => False

/-- A name in a message fits its field. -/
def VoterEvent.Named : VoterEvent n → Prop
  | .message _ msg _ => msg.Sendable
  | _ => True

instance (s : VotingServer n) : ∀ e, Decidable (TimesOut s e)
  | .init .. => isFalse id
  | .cron .. => inferInstanceAs (Decidable (_ ∧ _))
  | .message .. => isFalse id

instance : ∀ e : VoterEvent n, Decidable e.Named
  | .init .. | .cron .. | .message _ (.responseVote _) _ | .message _ (.responseAppendEntries _) _ =>
    instDecidableTrue
  | .message _ (.requestVote _) _ | .message _ (.appendEntries _) _ => inferInstanceAs (Decidable (_ ∧ _))

/-- One step of node `i`. -/
def VotingServer.step (cfg : Config n) (i : Fin n) (s : VotingServer n) (e : VoterEvent n) : Option (VotingServer n) :=
  match e with
  | .init nodes log => some (.boot nodes log)
  | .cron inp before =>
    (clusterCron cfg i inp s.server).map fun r =>
      ⟨r.1, if TimesOut s e then .zstrdup (cstr (cfg.serverName i)) before else s.votedFor⟩
  | .message j msg fsync => s.receive j msg fsync

/-- The same step where contents are compared. -/
def Server.nodeStep (cfg : Config n) (i : Fin n) (s : Server n) : VoterEvent n → Option (Server n)
  | .init nodes log => some (.boot (clusterInit nodes log))
  | .cron inp _ => (clusterCron cfg i inp s).map (·.1)
  | .message j msg fsync => (s.receive j msg fsync).map (·.1)

/-! ## What the handler sees -/

/-- The vote handler answers as one that compares the name voted for with the candidate's. -/
def SeesVote (s : VotingServer n) : Prop :=
  ∀ vote : RequestVote, (Message.requestVote vote).Sendable →
    (s.requestVote vote).2 = (clusterProcessRequestVote s.server.cluster vote).2

/-- A node that has voted denies every other candidate of the term. -/
def DeniesOthers (s : VotingServer n) : Prop :=
  ∀ vote : RequestVote, (Message.requestVote vote).Sendable → s.votedFor.bytes ≠ [] →
    vote.candidateid ≠ s.votedFor.bytes → vote.term = s.server.cluster.currentTerm →
      (s.requestVote vote).2.voteGranted = false

/-- The vote in memory: contents and pointer are about one name, which fits its field. -/
structure VoteInv (s : VotingServer n) : Prop where
  bytes : s.votedFor.bytes = s.server.cluster.votedFor
  nulFree : (0 : UInt8) ∉ s.votedFor.bytes
  fits : s.votedFor.bytes.length < 40

section

variable {cfg : Config n} {i : Fin n} {s s' : VotingServer n} {vote : RequestVote}

theorem VotingServer.voteOnLog_server (s : VotingServer n) (vote : RequestVote) :
    (s.voteOnLog vote).1.server.cluster = (Prez.voteOnLog s.server.cluster vote).1 ∧
      (s.voteOnLog vote).2 = (Prez.voteOnLog s.server.cluster vote).2 := ⟨rfl, rfl⟩

/-- A test that is followed by a denial, and otherwise by a vote. -/
theorem granted_iff {α : Type} {deny : Prop} [Decidable deny] {no yes : α × ResponseVote}
    (hno : no.2.voteGranted = false) (hyes : yes.2.voteGranted = true) :
    (if deny then no else yes).2.voteGranted = true ↔ ¬ deny := by
  split
  · rename_i hdeny
    rw [hno]
    exact ⟨fun h => Bool.noConfusion h, fun h => absurd hdeny h⟩
  · rename_i hfree
    exact ⟨fun _ => hfree, fun _ => hyes⟩

/-- A request of the node's own term, that the candidate's log does not decide. -/
theorem VotingServer.requestVote_current (ht : vote.term = s.server.cluster.currentTerm)
    (hindex : logCurrentIndex s.server.cluster.log ≤ vote.lastLogIndex)
    (hterm : logCurrentTerm s.server.cluster.log ≤ vote.lastLogTerm) :
    (s.requestVote vote).2.voteGranted = true ↔
      ¬ (sdslen s.votedFor > 0 ∧ sdscmp s.votedFor vote.candidateid ≠ 0) := by
  unfold VotingServer.requestVote
  dsimp only
  rw [if_neg (by omega), if_neg (by omega)]
  refine granted_iff rfl ?_
  rw [(s.voteOnLog_server vote).2]
  exact (voteOnLog_granted ..).mpr ⟨hindex, hterm⟩

/-- The same for contents. -/
theorem clusterProcessRequestVote_current {x : ClusterState n} (ht : vote.term = x.currentTerm)
    (hindex : logCurrentIndex x.log ≤ vote.lastLogIndex) (hterm : logCurrentTerm x.log ≤ vote.lastLogTerm) :
    (clusterProcessRequestVote x vote).2.voteGranted = true ↔ ¬ (x.votedFor ≠ [] ∧ x.votedFor ≠ vote.candidateid) := by
  unfold clusterProcessRequestVote
  rw [if_neg (by omega), if_neg (by omega)]
  exact granted_iff rfl ((voteOnLog_granted ..).mpr ⟨hindex, hterm⟩)

/-- A request of the node's own term for which the log speaks. -/
def currentRequest (x : ClusterState n) (candidateid : Bytes) : RequestVote :=
  ⟨x.currentTerm, candidateid, logCurrentIndex x.log, logCurrentTerm x.log⟩

/-- With the right length in the header the two tests are those on the contents. -/
theorem VoteInv.test_iff (hi : VoteInv s) (hlen : sdslen s.votedFor = s.votedFor.bytes.length)
    (hs : (Message.requestVote vote).Sendable) :
    sdslen s.votedFor > 0 ∧ sdscmp s.votedFor vote.candidateid ≠ 0 ↔
      s.server.cluster.votedFor ≠ [] ∧ s.server.cluster.votedFor ≠ vote.candidateid := by
  rw [← hi.bytes, Ne, sdscmp_eq_zero hi.fits hs.1 hs.2, hlen]
  refine and_congr ?_ (not_congr ⟨?_, ?_⟩)
  · rw [← List.length_pos_iff_ne_nil]
    omega
  · rintro ⟨hlength, hstart⟩
    exact (hstart.eq_of_length (by omega)).symm
  · intro heq
    rw [heq]
    exact ⟨rfl, List.prefix_rfl⟩

/-- **The handler sees the vote exactly if the header holds the length of the name.** -/
theorem VoteInv.seesVote_iff (hi : VoteInv s) : SeesVote s ↔ sdslen s.votedFor = s.votedFor.bytes.length := by
  constructor
  · intro h
    by_contra hne
    have hrange := sdslen_range hi.fits
    have hgrant : ∀ candidateid : Bytes, (0 : UInt8) ∉ candidateid → candidateid.length < 40 →
        (¬ (sdslen s.votedFor > 0 ∧ sdscmp s.votedFor candidateid ≠ 0) ↔
          ¬ (s.votedFor.bytes ≠ [] ∧ s.votedFor.bytes ≠ candidateid)) := by
      intro candidateid hnul hfits
      have heq := congrArg ResponseVote.voteGranted
        (h (currentRequest s.server.cluster candidateid) ⟨hnul, hfits⟩)
      rw [Bool.eq_iff_iff, VotingServer.requestVote_current rfl le_rfl le_rfl,
        clusterProcessRequestVote_current rfl le_rfl le_rfl] at heq
      rw [hi.bytes]
      exact heq
    by_cases hzero : sdslen s.votedFor = 0
    · -- the vote is not seen: a candidate without a name gets another one
      have := (hgrant [] (by simp) (by simp)).mp (by omega)
      have hnil : s.votedFor.bytes = [] := by tauto
      rw [hnil, hzero] at hne
      exact hne rfl
    · -- the candidate voted for is denied
      have := (hgrant s.votedFor.bytes hi.nulFree hi.fits).mpr (by tauto)
      have hcmp : sdscmp s.votedFor s.votedFor.bytes = 0 := by
        by_contra hcmp
        exact this ⟨by omega, hcmp⟩
      exact hne ((sdscmp_eq_zero hi.fits hi.nulFree hi.fits).mp hcmp).1
  · intro hlen vote hs
    unfold VotingServer.requestVote clusterProcessRequestVote
    dsimp only
    split
    · rfl
    split
    · rfl
    simp only [hi.test_iff hlen hs]
    split <;> rfl

/-- **The node denies other candidates exactly if the header holds no less than the length of the name.** -/
theorem VoteInv.deniesOthers_iff (hi : VoteInv s) :
    DeniesOthers s ↔ (s.votedFor.bytes ≠ [] → (s.votedFor.bytes.length : Int) ≤ sdslen s.votedFor) := by
  have hrange := sdslen_range hi.fits
  constructor
  · intro h hne
    by_contra hlt
    -- a candidate named by the first bytes of the name gets the vote
    let candidateid := s.votedFor.bytes.take (sdslen s.votedFor).toNat
    have hlength : candidateid.length = (sdslen s.votedFor).toNat := by
      rw [List.length_take]
      omega
    have hnul : (0 : UInt8) ∉ candidateid := fun h0 => hi.nulFree (List.mem_of_mem_take h0)
    have hfits : candidateid.length < 40 := by
      have := hi.fits
      omega
    have hother : candidateid ≠ s.votedFor.bytes := by
      intro heq
      have := congrArg List.length heq
      omega
    have hdeny := h (currentRequest s.server.cluster candidateid) ⟨hnul, hfits⟩ hne hother rfl
    have hgrant : (s.requestVote (currentRequest s.server.cluster candidateid)).2.voteGranted = true := by
      refine (VotingServer.requestVote_current rfl le_rfl le_rfl).mpr fun htest => htest.2 ?_
      refine (sdscmp_eq_zero hi.fits hnul hfits).mpr ⟨?_, List.take_prefix ..⟩
      show sdslen s.votedFor = candidateid.length
      omega
    rw [hdeny] at hgrant
    cases hgrant
  · intro h vote hs hne hother ht
    have hlen := h hne
    have hpos : 0 < s.votedFor.bytes.length := List.length_pos_iff_ne_nil.mpr hne
    unfold VotingServer.requestVote
    dsimp only
    rw [if_neg (by omega), if_neg (by omega), if_pos]
    · rfl
    · refine ⟨by omega, fun hcmp => hother ?_⟩
      obtain ⟨heq, hstart⟩ := (sdscmp_eq_zero hi.fits hs.1 hs.2).mp hcmp
      have := hstart.length_le
      exact hstart.eq_of_length (by omega)

/-! ## Steps -/

theorem serverName_fits (cfg : Config n) (i : Fin n) : (cstr (cfg.serverName i)).length < 40 := by
  have hself := cfg.self i
  rw [strcaseEq, cstr_eq_self (cfg.name i).nulFree, beq_iff_eq] at hself
  have hlen := congrArg List.length hself
  rw [List.length_map, List.length_map] at hlen
  rw [← hlen]
  exact (cfg.name i).fits

theorem sendHeartbeats_votedFor (js : List (Fin n)) :
    ∀ x : ClusterState n, (sendHeartbeats cfg i js x).1.votedFor = x.votedFor := by
  induction js with
  | nil => exact fun _ => rfl
  | cons j js ih => exact fun x => ih _

theorem clusterCronTail_votedFor (inp : CronInput n) (x : ClusterState n) :
    (clusterCronTail cfg i inp x).1.votedFor =
      if x.state ≠ .leader ∧ inp.timeout = true then cstr (cfg.serverName i) else x.votedFor := by
  have htick : ∀ y, (leaderTick cfg i inp y).1.votedFor = y.votedFor := by
    intro y
    unfold leaderTick
    split
    · rw [sendHeartbeats_votedFor, (sameVoter_clusterUpdateCommitIndex y).votedFor]
    · rfl
  have hlead : ∀ y : ClusterState n, (becomeLeader cfg i y).votedFor = y.votedFor := by
    intro y
    unfold becomeLeader
    split <;> rfl
  have hstart : (startElection cfg i inp x).1.votedFor =
      if x.state ≠ .leader ∧ inp.timeout = true then cstr (cfg.serverName i) else x.votedFor := by
    unfold startElection
    split <;> rfl
  show (leaderTick cfg i inp (becomeLeader cfg i (startElection cfg i inp x).1)).1.votedFor = _
  rw [htick, hlead, hstart]

variable {e : VoterEvent n} {server : Server n}

theorem clusterCron_votedFor {inp : CronInput n} {r : Server n × List (Fin n × Message)}
    (h : clusterCron cfg i inp server = some r) : r.1.cluster.votedFor =
      if server.cluster.state ≠ .leader ∧ inp.timeout = true then cstr (cfg.serverName i)
      else server.cluster.votedFor := by
  obtain ⟨server₁, h₁, rfl⟩ := Option.map_eq_some_iff.mp h
  -- the apply loop changes `last_applied` only
  have hcluster : ∀ (count : Nat) {a b : Server n}, applyLoop count a = some b →
      b.cluster.state = a.cluster.state ∧ b.cluster.votedFor = a.cluster.votedFor := by
    intro count
    induction count with
    | zero =>
      intro a b hab
      cases hab
      exact ⟨rfl, rfl⟩
    | succ count ih =>
      intro a b hab
      obtain ⟨mid, hmid, hab⟩ := Option.bind_eq_some_iff.mp hab
      obtain ⟨hc, -⟩ := logApply_cluster hmid
      obtain ⟨hs, hv⟩ := ih hab
      rw [hc] at hs hv
      exact ⟨hs, hv⟩
  obtain ⟨hs, hv⟩ := hcluster _ h₁
  show (clusterCronTail cfg i inp server₁.cluster).1.votedFor = _
  rw [clusterCronTail_votedFor, hs, hv]

theorem VoteInv.voteOnLog (hi : VoteInv s) (hs : (Message.requestVote vote).Sendable) :
    VoteInv (s.voteOnLog vote).1 := by
  unfold VotingServer.voteOnLog Prez.voteOnLog
  dsimp only
  split
  · exact hi
  · exact ⟨rfl, hs.1, hs.2⟩

/-- A node without a vote. -/
theorem voteInv_empty (h : server.cluster.votedFor = []) :
    VoteInv ⟨server, .sds []⟩ := ⟨h.symm, by simp [VoteString.bytes], by simp [VoteString.bytes]⟩

theorem VoteInv.requestVote (hi : VoteInv s) (hs : (Message.requestVote vote).Sendable) :
    VoteInv (s.requestVote vote).1 := by
  unfold VotingServer.requestVote
  dsimp only
  split
  · exact hi
  split
  · exact (voteInv_empty rfl).voteOnLog hs
  split
  · exact hi
  · exact hi.voteOnLog hs

/-- The other handlers leave the vote alone, or store an empty string. -/
theorem VoteInv.reset (hi : VoteInv s) {c : Prop} [Decidable c]
    (h : server.cluster.votedFor = if c then [] else s.server.cluster.votedFor) :
    VoteInv ⟨server, if c then .sds [] else s.votedFor⟩ := by
  by_cases hc : c
  · rw [if_pos hc] at h ⊢
    exact voteInv_empty h
  · rw [if_neg hc] at h ⊢
    exact ⟨hi.bytes.trans h.symm, hi.nulFree, hi.fits⟩

theorem clusterProcessResponseVote_votedFor (x : ClusterState n) (vote : ResponseVote) :
    (clusterProcessResponseVote x vote).votedFor =
      if ¬ (vote.voteGranted = true ∧ vote.term = x.currentTerm) ∧ vote.term > x.currentTerm then []
      else x.votedFor := by
  unfold clusterProcessResponseVote
  by_cases hcount : vote.voteGranted = true ∧ vote.term = x.currentTerm
  · rw [if_pos hcount, if_neg fun h => h.1 hcount]
  · rw [if_neg hcount]
    by_cases hgt : vote.term > x.currentTerm
    · rw [if_pos hgt, if_pos ⟨hcount, hgt⟩]
      rfl
    · rw [if_neg hgt, if_neg fun h => hgt h.2]

theorem clusterProcessResponseAppendEntries_votedFor (x : ClusterState n) (j : Fin n)
    (entries : ResponseAppendEntries) : (clusterProcessResponseAppendEntries x j entries).votedFor =
      if entries.ok = false ∧ entries.term > x.currentTerm then [] else x.votedFor := by
  unfold clusterProcessResponseAppendEntries
  cases hok : entries.ok with
  | true =>
    rw [if_pos rfl, if_neg fun h => nomatch h.1]
    split <;> rfl
  | false =>
    rw [if_neg Bool.false_ne_true]
    by_cases hgt : entries.term > x.currentTerm
    · rw [if_pos hgt, if_pos ⟨rfl, hgt⟩]
      rfl
    · rw [if_neg hgt, if_neg fun h => hgt h.2]
      rfl

theorem clusterProcessAppendEntries_votedFor {x : ClusterState n} {entries : AppendEntries} {fsync : Bool}
    {r : ClusterState n × ResponseAppendEntries} (h : clusterProcessAppendEntries x entries fsync = some r) :
    r.1.votedFor = if entries.term > x.currentTerm then [] else x.votedFor := by
  obtain ⟨hlt, heq⟩ | ⟨hle, log, commitIndex, heq⟩ := clusterProcessAppendEntries_frame h
  · rw [heq, if_neg (by omega)]
  rw [heq]
  dsimp only
  unfold followLeader
  by_cases hterm : entries.term = x.currentTerm
  · rw [if_pos hterm, if_neg (show ¬ entries.term > x.currentTerm by omega)]
  · rw [if_neg hterm, if_pos (show entries.term > x.currentTerm by omega)]

theorem VoteInv.step (hi : VoteInv s) (he : e.Named) (h : s.step cfg i e = some s') : VoteInv s' := by
  cases e with
  | init nodes log =>
    cases h
    exact voteInv_empty rfl
  | cron inp before =>
    obtain ⟨r, hr, rfl⟩ := Option.map_eq_some_iff.mp h
    have hvoted := clusterCron_votedFor hr
    by_cases hgo : TimesOut s (.cron inp before)
    · rw [if_pos (show s.server.cluster.state ≠ .leader ∧ inp.timeout = true from hgo)] at hvoted
      rw [if_pos hgo]
      exact ⟨hvoted.symm, zero_notMem_cstr _, serverName_fits cfg i⟩
    · rw [if_neg (show ¬ (s.server.cluster.state ≠ .leader ∧ inp.timeout = true) from hgo)] at hvoted
      rw [if_neg hgo]
      exact ⟨hi.bytes.trans hvoted.symm, hi.nulFree, hi.fits⟩
  | message j msg fsync =>
    cases msg with
    | requestVote vote =>
      cases h
      exact hi.requestVote he
    | responseVote vote =>
      cases h
      exact hi.reset (clusterProcessResponseVote_votedFor ..)
    | appendEntries entries =>
      obtain ⟨r, hr, rfl⟩ := Option.map_eq_some_iff.mp h
      exact hi.reset (clusterProcessAppendEntries_votedFor hr)
    | responseAppendEntries entries =>
      cases h
      exact hi.reset (clusterProcessResponseAppendEntries_votedFor ..)

/-- **Where the vote is seen, the node is a server that compares contents.** -/
theorem step_server (hi : VoteInv s) (hsees : SeesVote s) (he : e.Named) :
    (s.step cfg i e).map VotingServer.server = s.server.nodeStep cfg i e := by
  cases e with
  | init nodes log => rfl
  | cron inp before =>
    show ((clusterCron cfg i inp s.server).map _).map _ = (clusterCron cfg i inp s.server).map _
    rw [Option.map_map]
    rfl
  | message j msg fsync =>
    cases msg with
    | requestVote vote =>
      have hlen := hi.seesVote_iff.mp hsees
      show some (s.requestVote vote).1.server =
        some { s.server with cluster := (clusterProcessRequestVote s.server.cluster vote).1 }
      congr 1
      unfold VotingServer.requestVote clusterProcessRequestVote
      dsimp only
      split
      · rfl
      split
      · rfl
      simp only [hi.test_iff hlen he]
      split <;> rfl
    | responseVote vote => rfl
    | appendEntries entries =>
      show ((clusterProcessAppendEntries _ entries fsync).map _).map _ =
        ((clusterProcessAppendEntries _ entries fsync).map _).map _
      rw [Option.map_map, Option.map_map]
      rfl
    | responseAppendEntries entries => rfl

/-- A string from an `sds` constructor is kept or replaced by another one, except by the election timeout. -/
theorem isSds_step (hs : s.votedFor.IsSds) (he : ¬ TimesOut s e) (h : s.step cfg i e = some s') :
    s'.votedFor.IsSds := by
  cases e with
  | init nodes log =>
    cases h
    trivial
  | cron inp before =>
    obtain ⟨r, -, rfl⟩ := Option.map_eq_some_iff.mp h
    rw [if_neg he]
    exact hs
  | message j msg fsync =>
    have hvote : ∀ {s : VotingServer n} (vote : RequestVote), s.votedFor.IsSds →
        (s.voteOnLog vote).1.votedFor.IsSds := by
      intro s vote hs
      unfold VotingServer.voteOnLog
      dsimp only
      split
      · trivial
      · exact hs
    have hreset : ∀ (c : Prop) [Decidable c], (if c then VoteString.sds [] else s.votedFor).IsSds := by
      intro c _
      split
      · trivial
      · exact hs
    cases msg with
    | requestVote vote =>
      cases h
      unfold VotingServer.requestVote
      dsimp only
      split
      · exact hs
      split
      · exact hvote vote trivial
      split
      · exact hs
      · exact hvote vote hs
    | responseVote vote =>
      cases h
      exact hreset _
    | appendEntries entries =>
      obtain ⟨r, -, rfl⟩ := Option.map_eq_some_iff.mp h
      exact hreset _
    | responseAppendEntries entries =>
      cases h
      exact hreset _

/-- The election timeout stores a plain string. -/
theorem not_isSds_of_timesOut (he : TimesOut s e) (h : s.step cfg i e = some s') : ¬ s'.votedFor.IsSds := by
  cases e with
  | init nodes log => exact he.elim
  | cron inp before =>
    obtain ⟨r, -, rfl⟩ := Option.map_eq_some_iff.mp h
    rw [if_pos he]
    exact id
  | message j msg fsync => exact he.elim

end

/-- **`voted_for`.** In any run of a node, the string has the name voted for in it; the handler sees that name
    exactly if the header holds its length, and denies other candidates exactly if the header holds no less. Without
    an election timeout the string is an `sds`, and both hold. -/
theorem voted_for_well_formed (cfg : Config n) (i : Fin n) (nodes : Fin n → ClusterNode) (log : LogState)
    {s : VotingServer n} (hr : RunBy (VotingServer.step cfg i) (fun _ e => e.Named) (.boot nodes log) s) :
    s.votedFor.bytes = s.server.cluster.votedFor ∧
    (SeesVote s ↔ sdslen s.votedFor = s.votedFor.bytes.length) ∧
    (DeniesOthers s ↔ (s.votedFor.bytes ≠ [] → (s.votedFor.bytes.length : Int) ≤ sdslen s.votedFor)) ∧
    (RunBy (VotingServer.step cfg i) (fun s e => e.Named ∧ ¬ TimesOut s e) (.boot nodes log) s →
      s.votedFor.IsSds ∧ SeesVote s ∧ DeniesOthers s) := by
  have hi : VoteInv s := RunBy.invariant (fun _ _ _ he h hi => hi.step he h) hr (voteInv_empty rfl)
  refine ⟨hi.bytes, hi.seesVote_iff, hi.deniesOthers_iff, fun hr' => ?_⟩
  have hsds : s.votedFor.IsSds := RunBy.invariant (P := fun s : VotingServer n => s.votedFor.IsSds)
    (fun _ _ _ he h hs => isSds_step hs he.2 h) hr' trivial
  have hlen : sdslen s.votedFor = s.votedFor.bytes.length := by
    cases hv : s.votedFor with
    | sds bytes => rfl
    | zstrdup bytes before =>
        rw [hv] at hsds
        exact hsds.elim
  exact ⟨hsds, hi.seesVote_iff.mpr hlen, hi.deniesOthers_iff.mpr fun _ => hlen.ge⟩

/-- A node that hears of a candidate in term 1 and gives it its vote. -/
theorem voted_for_well_formed_granted : ∃ s : VotingServer 3,
    RunBy (VotingServer.step threeServers 0) (fun s e => e.Named ∧ ¬ TimesOut s e)
        (.boot (fun _ => ⟨none, 0, 0⟩) LogState.empty) s ∧
      s.votedFor = .sds (threeServers.name 1).bytes ∧ DeniesOthers s := by
  obtain ⟨s, hr, hs⟩ := run_of_exec (VotingServer.step threeServers 0) (fun s e => e.Named ∧ ¬ TimesOut s e)
    (.boot (fun _ => ⟨none, 0, 0⟩) LogState.empty)
    [.message 1 (.requestVote ⟨1, (threeServers.name 1).bytes, 0, 0⟩) true] VotingServer.votedFor
    (.sds (threeServers.name 1).bytes) (by decide +kernel)
  exact ⟨s, hr, hs, ((voted_for_well_formed threeServers 0 _ _ (hr.weaken fun _ _ h => h.1)).2.2.2 hr).2.2⟩

/-- The election timeout at the first of three servers. -/
def timeoutEvent (before : BitVec 32) : VoterEvent 3 := .cron ⟨true, fun _ => false, fun _ => false⟩ before

/-- After the election timeout a node has voted for itself in term 1, and the string is no `sds` whatever is in
    front of it. If that is zero, the node votes again, for another candidate of that term; if it is the size that
    `zmalloc` keeps there, the node denies its own name. -/
theorem voted_for_not_sds :
    (∀ before s, (VotingServer.boot (fun _ => ⟨none, 0, 0⟩) LogState.empty).step threeServers 0
      (timeoutEvent before) = some s → ¬ s.votedFor.IsSds) ∧
    (∃ s, RunBy (VotingServer.step threeServers 0) (fun _ e => e.Named)
        (.boot (fun _ => ⟨none, 0, 0⟩) LogState.empty) s ∧
      s.votedFor.bytes = (threeServers.name 0).bytes ∧ s.server.cluster.currentTerm = 1 ∧
        (s.requestVote ⟨1, (threeServers.name 1).bytes, 0, 0⟩).2 = ⟨1, true⟩) ∧
    (∃ s, RunBy (VotingServer.step threeServers 0) (fun _ e => e.Named)
        (.boot (fun _ => ⟨none, 0, 0⟩) LogState.empty) s ∧
      s.votedFor.bytes = (threeServers.name 0).bytes ∧ s.server.cluster.currentTerm = 1 ∧
        (s.requestVote ⟨1, (threeServers.name 0).bytes, 0, 0⟩).2 = ⟨1, false⟩) := by
  refine ⟨fun before s h => ?_, ?_, ?_⟩
  · have hout : TimesOut (VotingServer.boot (fun _ => ⟨none, 0, 0⟩) LogState.empty) (timeoutEvent before) :=
      ⟨nofun, rfl⟩
    exact not_isSds_of_timesOut hout h
  · obtain ⟨s, hr, hs⟩ := run_of_exec (VotingServer.step threeServers 0) (fun _ e => e.Named)
      (.boot (fun _ => ⟨none, 0, 0⟩) LogState.empty) [timeoutEvent 0]
      (fun s => (s.votedFor.bytes, s.server.cluster.currentTerm,
        (s.requestVote ⟨1, (threeServers.name 1).bytes, 0, 0⟩).2))
      ((threeServers.name 0).bytes, 1, ⟨1, true⟩) (by decide +kernel)
    simp only [Prod.mk.injEq] at hs
    exact ⟨s, hr, hs⟩
  · obtain ⟨s, hr, hs⟩ := run_of_exec (VotingServer.step threeServers 0) (fun _ e => e.Named)
      (.boot (fun _ => ⟨none, 0, 0⟩) LogState.empty) [timeoutEvent 2]
      (fun s => (s.votedFor.bytes, s.server.cluster.currentTerm,
        (s.requestVote ⟨1, (threeServers.name 0).bytes, 0, 0⟩).2))
      ((threeServers.name 0).bytes, 1, ⟨1, false⟩) (by decide +kernel)
    simp only [Prod.mk.injEq] at hs
    exact ⟨s, hr, hs⟩

end Prez
