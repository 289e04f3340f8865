import Prez.MatchIndex
import Prez.Log.Reconcile

/-!
# `Prez.NextIndex` — next indices inside the log

A leader decrements `next_index` for every rejection, whatever request it answers, and sends the next request
without waiting for the answer to the last one. `next_index_usable` is about the runs in which a leader counts
only answers to requests of its own term, and a rejection only if it answers the request before the current
`next_index`: there the index stays between 1 and the end of the log plus one, and the next request is a slice of
the log. The invariant (`Steady`) also follows what was sent: the request that a response answers is among the
packets sent, and a rejected request did not start at the beginning of the log.

Logs need not be empty at the start, so this does not go through the history of `Prez.Matching`; the only thing
taken from elections is that a leader gets no append request of its own term.
-/

namespace Prez

open Lib

variable {n : Nat} {cfg : Config n}

/-! ## Conditions on steps -/

/-- A message from `j` that a server handles as it should: entries are written without a conflict at the end of
    the log and synced, and a leader gets answers to requests of its own term only. A rejection answers the request
    that precedes its `next_index`. -/
def MessageSteady (x : ClusterState n) (j : Fin n) (answers : Option AppendEntries) (fsync : Bool) : Message → Prop
  | .appendEntries entries => TruncOk x entries ∧ fsync = true
  | .responseAppendEntries entries => x.state = .leader →
    (entries.ok = true → ∃ q ∈ answers, q.term = x.currentTerm) ∧
    (entries.ok = false → entries.term ≤ x.currentTerm →
      ∃ q ∈ answers, q.term = x.currentTerm ∧ q.prevLogIndex + 1 = (x.nodes j).nextIndex)
  | _ => True

/-- A step that is no restart and no delivery of another kind of message. -/
def StepSteady (s : Net n) : Action n → Prop
  | .event .. => True
  | .deliver k fsync => ∀ p, s.net[k]? = some p → MessageSteady (s.node p.dst) p.src p.answers fsync p.msg
  | .restart .. => False

instance (x : ClusterState n) (j : Fin n) (answers : Option AppendEntries) (fsync : Bool) :
    ∀ msg, Decidable (MessageSteady x j answers fsync msg)
  | .requestVote _ | .responseVote _ => instDecidableTrue
  | .appendEntries _ => inferInstanceAs (Decidable (_ ∧ _))
  | .responseAppendEntries _ => inferInstanceAs (Decidable (_ → _))

instance (s : Net n) : ∀ a, Decidable (StepSteady s a)
  | .event .. => isTrue trivial
  | .deliver k fsync =>
    inferInstanceAs (Decidable (∀ p ∈ s.net[k]?, MessageSteady (s.node p.dst) p.src p.answers fsync p.msg))
  | .restart .. => isFalse id

theorem StepSteady.crashFree {s : Net n} {a : Action n} (h : StepSteady s a) : a.CrashFree := by
  cases a with
  | event i e => trivial
  | deliver k fsync => trivial
  | restart i mem nodes => exact h

/-! ## One server -/

/-- The next index for `j` is a position of the log, or the one behind it. -/
def Usable (x : ClusterState n) (j : Fin n) : Prop :=
  1 ≤ (x.nodes j).nextIndex ∧ (x.nodes j).nextIndex ≤ logCurrentIndex x.log + 1

/-- The entry last sent to `j`, if there is one, is in the log. -/
def SentInLog (x : ClusterState n) (j : Fin n) : Prop :=
  ∀ k, (x.nodes j).lastSentEntry = some k → 1 ≤ k ∧ k ≤ logCurrentIndex x.log

/-- Server `i` has gone from `x` to `y`: terms do not fall, nobody becomes candidate or leader in an old term but
    a candidate, and a leader's indices are in its log. -/
structure Goes (i : Fin n) (x y : ClusterState n) : Prop where
  contiguous : Contiguous y.log.list
  term : x.currentTerm ≤ y.currentTerm
  candidate : y.state = .candidate → y.currentTerm = x.currentTerm → x.state = .candidate
  usable : y.state = .leader → ∀ j, j ≠ i → Usable y j
  leader : y.state = .leader → y.currentTerm = x.currentTerm →
    x.state = .candidate ∨ x.state = .leader ∧ ∀ j, j ≠ i → SentInLog x j → SentInLog y j

/-- What is known of a request `q` that a server in state `x` has sent to `j`. -/
structure Requested (x : ClusterState n) (j : Fin n) (q : AppendEntries) : Prop where
  consecutive : Consecutive q.prevLogIndex q.logEntries
  term : q.term ≤ x.currentTerm
  current : q.term = x.currentTerm → x.state ≠ .candidate ∧ (x.state = .leader → SentInLog x j)

section

variable {i : Fin n} {w x y z : ClusterState n}

theorem Goes.refl (hc : Contiguous x.log.list) (hu : x.state = .leader → ∀ j, j ≠ i → Usable x j) : Goes i x x where
  contiguous := hc
  term := le_rfl
  candidate hs _ := hs
  usable := hu
  leader hs _ := .inr ⟨hs, fun _ _ h => h⟩

theorem Goes.last (h : Goes i w x) : Goes i x x := .refl h.contiguous h.usable

theorem Goes.trans (hxy : Goes i x y) (hyz : Goes i y z) : Goes i x z where
  contiguous := hyz.contiguous
  term := hxy.term.trans hyz.term
  candidate hs ht := by
    have heq : z.currentTerm = y.currentTerm := le_antisymm (ht.le.trans hxy.term) hyz.term
    exact hxy.candidate (hyz.candidate hs heq) (heq.symm.trans ht)
  usable := hyz.usable
  leader hs ht := by
    have heq : z.currentTerm = y.currentTerm := le_antisymm (ht.le.trans hxy.term) hyz.term
    rcases hyz.leader hs heq with hcand | ⟨hlead, hsent⟩
    · exact .inl (hxy.candidate hcand (heq.symm.trans ht))
    · rcases hxy.leader hlead (heq.symm.trans ht) with hcand | ⟨hlead', hsent'⟩
      · exact .inl hcand
      · exact .inr ⟨hlead', fun j hj h => hsent j hj (hsent' j hj h)⟩

/-- Nothing that the indices depend on changes. -/
theorem Goes.same (h : Goes i w x) (hlog : y.log = x.log) (hnodes : y.nodes = x.nodes) (hstate : y.state = x.state)
    (hterm : y.currentTerm = x.currentTerm) : Goes i w y := by
  refine h.trans ⟨?_, hterm.ge, ?_, ?_, ?_⟩
  · rw [hlog]
    exact h.contiguous
  · intro hs _
    rwa [← hstate]
  · intro hs j hj
    unfold Usable
    rw [hnodes, hlog]
    exact h.usable (hstate ▸ hs) j hj
  · intro hs _
    refine .inr ⟨hstate ▸ hs, fun j _ hsent => ?_⟩
    unfold SentInLog
    rw [hnodes, hlog]
    exact hsent

/-- The server becomes, or stays, a follower. -/
theorem Goes.follow (hc : Contiguous y.log.list) (hterm : x.currentTerm ≤ y.currentTerm) (hs : y.state = .follower) :
    Goes i x y where
  contiguous := hc
  term := hterm
  candidate h _ := nomatch hs.symm.trans h
  usable h := nomatch hs.symm.trans h
  leader h _ := nomatch hs.symm.trans h

/-- A server that does not lead may change its records. -/
theorem Goes.setNode (h : Goes i w x) (hs : x.state ≠ .leader) (j : Fin n) (node : ClusterNode) :
    Goes i w (x.setNode j node) :=
  h.trans
    { contiguous := h.contiguous
      term := le_rfl
      candidate := fun hc _ => hc
      usable := fun hl => absurd hl hs
      leader := fun hl _ => absurd hl hs }

variable {j : Fin n}

/-- A leader changes the record of a peer: the next index stays usable, the entry last sent in the log. -/
theorem Goes.record (h : Goes i w x) (hs : x.state = .leader) {node : ClusterNode}
    (hu : j ≠ i → 1 ≤ node.nextIndex ∧ node.nextIndex ≤ logCurrentIndex x.log + 1)
    (hsent : SentInLog x j → ∀ k, node.lastSentEntry = some k → 1 ≤ k ∧ k ≤ logCurrentIndex x.log) :
    Goes i w (x.setNode j node) := by
  refine h.trans ⟨h.contiguous, le_rfl, fun hc _ => hc, fun hl k hk => ?_, fun hl _ => .inr ⟨hs, fun k hk => ?_⟩⟩
  · show 1 ≤ (Function.update x.nodes j node k).nextIndex ∧ (Function.update x.nodes j node k).nextIndex ≤ _
    by_cases hkj : k = j
    · subst hkj
      rw [Function.update_self]
      exact hu hk
    · rw [Function.update_of_ne hkj]
      exact h.usable hs k hk
  · show SentInLog x k → ∀ m, (Function.update x.nodes j node k).lastSentEntry = some m → _
    by_cases hkj : k = j
    · subst hkj
      rw [Function.update_self]
      exact hsent
    · rw [Function.update_of_ne hkj]
      exact id

/-- A request stays one that was sent. -/
theorem Requested.goes {q : AppendEntries} (h : Requested x j q) (hxy : Goes i x y) (hj : j ≠ i) :
    Requested y j q where
  consecutive := h.consecutive
  term := h.term.trans hxy.term
  current ht := by
    have heq : q.term = x.currentTerm := le_antisymm h.term (hxy.term.trans ht.ge)
    obtain ⟨hcand, hsent⟩ := h.current heq
    have hsame : y.currentTerm = x.currentTerm := ht.symm.trans heq
    refine ⟨fun hs => hcand (hxy.candidate hs hsame), fun hs => ?_⟩
    rcases hxy.leader hs hsame with hc | ⟨hl, hkeep⟩
    · exact absurd hc hcand
    · exact hkeep j hj (hsent hl)

/-! ### The timer -/

theorem Goes.startElection (h : Goes i w x) (inp : CronInput n) : Goes i w (startElection cfg i inp x).1 := by
  unfold Prez.startElection
  split
  · refine h.trans ⟨h.contiguous, ?_, ?_, nofun, nofun⟩
    · show x.currentTerm ≤ x.currentTerm + 1
      omega
    · -- a new election is in a new term
      intro _ ht
      have ht : x.currentTerm + 1 = x.currentTerm := ht
      omega
  · exact h

/-- A new leader sets every index behind its log. -/
theorem Goes.becomeLeader (h : Goes i w x) : Goes i w (becomeLeader cfg i x) := by
  unfold Prez.becomeLeader
  split
  · rename_i hwin
    refine h.trans ⟨h.contiguous, le_rfl, nofun, fun _ j hj => ?_, fun _ _ => .inl hwin.1⟩
    unfold Usable
    dsimp only
    rw [if_neg hj]
    have := h.contiguous.currentIndex
    dsimp only
    omega
  · exact h

/-- A stretch of a contiguous log has consecutive indices. -/
theorem Contiguous.consecutive {l : List LogEntry} (hl : Contiguous l) :
    ∀ {es : List LogEntry} {k : Nat}, es <+: l.drop k → Consecutive k es := by
  intro es
  induction es with
  | nil => exact fun _ => trivial
  | cons e es ih =>
    intro k h
    obtain ⟨he, htail⟩ := stretch_cons h
    refine ⟨hl _ _ he, ?_⟩
    have := ih htail
    push_cast at this
    exact this

/-- A leader sends a heartbeat: the request starts inside the log. -/
theorem Goes.heartbeat (h : Goes i w x) (hs : x.state = .leader) (hj : j ≠ i) :
    Goes i w (clusterSendAppendEntries cfg i j x).1 ∧
      Requested (clusterSendAppendEntries cfg i j x).1 j (clusterSendAppendEntries cfg i j x).2 := by
  have hu := h.usable hs j hj
  have hlast := h.contiguous.currentIndex
  have hslice : Slice x.log.list (clusterSendAppendEntries cfg i j x).2 :=
    slice_clusterSendAppendEntries h.contiguous hu.1 (by rw [← hlast]; exact hu.2)
  have hconsecutive : Consecutive (clusterSendAppendEntries cfg i j x).2.prevLogIndex
      (clusterSendAppendEntries cfg i j x).2.logEntries := by
    have := h.contiguous.consecutive hslice.stretch
    rwa [Int.toNat_of_nonneg hslice.start] at this
  have hsent : SentInLog (clusterSendAppendEntries cfg i j x).1 j := by
    intro k hk
    change (Function.update x.nodes j _ j).lastSentEntry = some k at hk
    rw [Function.update_self] at hk
    obtain ⟨e, he, rfl⟩ := Option.map_eq_some_iff.mp hk
    -- the last entry of the request is an entry of the log
    obtain ⟨m, hm⟩ := List.getElem?_of_mem ((hslice.stretch.subset (List.mem_of_getLast? he)))
    rw [List.getElem?_drop] at hm
    have hin := (List.getElem?_eq_some_iff.mp hm).1
    have hindex := h.contiguous _ _ hm
    rw [x.log.length_list] at hin
    show 1 ≤ e.index ∧ e.index ≤ logCurrentIndex x.log
    omega
  refine ⟨h.record hs (fun _ => hu) fun _ k hk => hsent k ?_, hconsecutive, le_rfl, fun _ => ⟨?_, fun _ => hsent⟩⟩
  · show (Function.update x.nodes j _ j).lastSentEntry = some k
    rw [Function.update_self]
    exact hk
  · show x.state ≠ .candidate
    rw [hs]
    exact nofun

/-- The heartbeats of one call: what is known of a request when it is sent is still known at the end. -/
theorem Goes.sendHeartbeats : ∀ (js : List (Fin n)) {x : ClusterState n}, (∀ j ∈ js, j ≠ i) → Goes i x x →
    x.state = .leader → Goes i x (sendHeartbeats cfg i js x).1 ∧
      ∀ m ∈ (sendHeartbeats cfg i js x).2, ∃ j q, m = (j, .appendEntries q) ∧ j ≠ i ∧
        Requested (sendHeartbeats cfg i js x).1 j q := by
  intro js
  induction js with
  | nil => exact fun _ h _ => ⟨h, fun _ hm => nomatch hm⟩
  | cons j js ih =>
    intro x hjs h hs
    have hj : j ≠ i := hjs j List.mem_cons_self
    obtain ⟨hmid, hreq⟩ : Goes i x (clusterSendAppendEntries cfg i j x).1 ∧ _ := h.heartbeat hs hj
    obtain ⟨hrest, hout⟩ := ih (fun k hk => hjs k (List.mem_cons_of_mem _ hk)) hmid.last hs
    refine ⟨hmid.trans hrest, fun m hm => ?_⟩
    rcases List.mem_cons.mp hm with rfl | hm
    · exact ⟨j, _, rfl, hj, hreq.goes hrest hj⟩
    · exact hout m hm

/-- What `i` sends in a call of `clusterCron` besides vote requests. -/
theorem Goes.leaderTick (h : Goes i w x) (inp : CronInput n) : Goes i w (leaderTick cfg i inp x).1 ∧
    ∀ m ∈ (leaderTick cfg i inp x).2, ∃ j q, m = (j, .appendEntries q) ∧ j ≠ i ∧
      Requested (leaderTick cfg i inp x).1 j q := by
  unfold Prez.leaderTick
  split
  · rename_i hs
    have hcommit : Goes i w (clusterUpdateCommitIndex x) :=
      h.same (clusterUpdateCommitIndex_log x) (clusterUpdateCommitIndex_nodes x) (clusterUpdateCommitIndex_state x)
        (sameVoter_clusterUpdateCommitIndex x).term
    have hpeers : ∀ j ∈ (List.finRange n).filter fun j => j != i && inp.linked j && inp.due j, j ≠ i := by
      intro j hj
      have := (List.mem_filter.mp hj).2
      simp only [Bool.and_eq_true, bne_iff_ne] at this
      exact this.1.1
    obtain ⟨hrest, hout⟩ : Goes i (clusterUpdateCommitIndex x) (Prez.sendHeartbeats cfg i _ _).1 ∧ _ :=
      Goes.sendHeartbeats _ hpeers hcommit.last (by rw [clusterUpdateCommitIndex_state]; exact hs)
    exact ⟨hcommit.trans hrest, hout⟩
  · exact ⟨h, fun _ hm => nomatch hm⟩

/-! ### Requests and messages -/

/-- A leader that writes does not step back. -/
theorem Goes.write (h : Goes i x x) {e : LogEntry} {log : LogState} (hw : Writes x e log)
    (hy : y = if n = 1 then logCommitIndex { x with log := log } (logCurrentIndex log) else { x with log := log }) :
    Goes i x y := by
  obtain ⟨hlist, hindex⟩ := hw.list h.contiguous
  have hc : Contiguous log.list := by
    rw [hlist]
    exact h.contiguous.concat (by rw [x.log.length_list]; exact hindex)
  have hlen : logCurrentIndex x.log ≤ logCurrentIndex log := by
    rw [h.contiguous.currentIndex, hc.currentIndex, ← x.log.length_list, ← log.length_list, hlist, List.length_append]
    omega
  have hwrite : Goes i x { x with log := log } := by
    refine ⟨hc, le_rfl, fun hs _ => hs, fun hs j hj => ?_, fun hs _ => .inr ⟨hs, fun j _ hsent k hk => ?_⟩⟩
    · have := h.usable hs j hj
      exact ⟨this.1, this.2.trans (Int.add_le_add_right hlen 1)⟩
    · have := hsent k hk
      exact ⟨this.1, this.2.trans hlen⟩
  rw [hy]
  split
  · exact hwrite.same (logCommitIndex_log ..) (logCommitIndex_nodes ..) (logCommitIndex_state ..)
      ((SameVoter.refl _).logCommitIndex _).term
  · exact hwrite

theorem Goes.enterTerm (h : Goes i w x) {t : Int} (ht : x.currentTerm ≤ t) : Goes i w (x.enterTerm t) :=
  h.trans (.follow h.contiguous ht rfl)

theorem Goes.voteOnLog (h : Goes i w x) (vote : RequestVote) : Goes i w (voteOnLog x vote).1 := by
  unfold Prez.voteOnLog
  split
  · exact h
  · exact h.same rfl rfl rfl rfl

/-- A vote request. -/
theorem Goes.requestVote (h : Goes i w x) (vote : RequestVote) : Goes i w (clusterProcessRequestVote x vote).1 := by
  unfold clusterProcessRequestVote
  split
  · exact h
  split
  · rename_i hgt
    exact (h.enterTerm hgt.le).voteOnLog vote
  split
  · exact h
  · exact h.voteOnLog vote

/-- A vote. -/
theorem Goes.responseVote (h : Goes i w x) (vote : ResponseVote) : Goes i w (clusterProcessResponseVote x vote) := by
  unfold clusterProcessResponseVote
  split
  · exact h.same rfl rfl rfl rfl
  split
  · rename_i hgt
    exact h.enterTerm hgt.le
  · exact h

/-- The start of the log is accepted whatever the term says. -/
theorem logVerifyAppend_zero (log : LogState) (term : Int) : logVerifyAppend log 0 term = some true := rfl

theorem followLeader_currentTerm (x : ClusterState n) (entries : AppendEntries) :
    (followLeader x entries).currentTerm = entries.term := by
  unfold followLeader
  split
  · rename_i heq
    exact heq.symm
  · rfl

/-- An append request at a server that does not lead its term. The server follows, and a rejected request of its
    term did not start at the beginning of the log. -/
theorem Goes.appendEntries (h : Goes i x x) {entries : AppendEntries} {response : ResponseAppendEntries}
    (hes : Consecutive entries.prevLogIndex entries.logEntries) (htrunc : TruncOk x entries)
    (hs : entries.term = x.currentTerm → x.state ≠ .leader)
    (hx : clusterProcessAppendEntries x entries true = some (y, response)) :
    Goes i x y ∧ (response.ok = false → entries.term ≤ response.term ∧
      (response.term = entries.term → entries.prevLogIndex ≠ 0)) := by
  obtain ⟨hresponse, ⟨hold, rfl, -⟩ | ⟨hterm, hrest⟩⟩ := clusterProcessAppendEntries_cases hx
  · refine ⟨h, fun _ => ?_⟩
    rw [hresponse]
    exact ⟨hold.le, fun heq => absurd heq hold.ne'⟩
  have hfollows : (followLeader x entries).state = .follower := by
    cases hstate : (followLeader x entries).state with
    | follower => rfl
    | candidate => exact absurd hstate followLeader_state_ne
    | leader =>
      -- a leader stays leader in its own term only
      have hlead := followLeader_leader hstate
      by_cases heq : entries.term = x.currentTerm
      · exact absurd hlead (hs heq)
      · rw [followLeader, if_neg heq] at hstate
        cases hstate
  have hnew := followLeader_currentTerm x entries
  obtain ⟨hverify, rfl, -⟩ | ⟨hverify, log, hlog, hok, rfl⟩ := hrest
  · refine ⟨.follow (by rw [followLeader_log]; exact h.contiguous) (hterm.trans hnew.ge) hfollows, fun _ => ?_⟩
    rw [hresponse]
    refine ⟨hnew.ge, fun _ hzero => ?_⟩
    rw [hzero, logVerifyAppend_zero] at hverify
    cases hverify
  · obtain ⟨hpos, hle⟩ := logVerifyAppend_range hverify
    obtain ⟨prev, hprev⟩ := Int.eq_ofNat_of_zero_le hpos
    rw [hprev] at hes
    obtain ⟨hc, -⟩ := logAppendEntries_keeps h.contiguous hes (by omega) (htrunc ⟨hterm, hverify⟩) hlog
    have hwritten : Goes i x { followLeader x entries with log := log } :=
      .follow hc (hterm.trans hnew.ge) hfollows
    refine ⟨?_, fun hno => Bool.noConfusion (hno.symm.trans hok)⟩
    exact hwritten.same (logCommitIndex_log ..) (logCommitIndex_nodes ..) (logCommitIndex_state ..)
      ((SameVoter.refl _).logCommitIndex _).term

/-- An append response. A leader credits the peer with the entry sent last, or goes one entry back. -/
theorem Goes.responseAppendEntries (h : Goes i w x) {entries : ResponseAppendEntries}
    (hok : x.state = .leader → entries.ok = true → SentInLog x j)
    (hback : x.state = .leader → entries.ok = false → entries.term ≤ x.currentTerm →
      j ≠ i → 1 < (x.nodes j).nextIndex) : Goes i w (clusterProcessResponseAppendEntries x j entries) := by
  unfold clusterProcessResponseAppendEntries
  by_cases hs : x.state = .leader
  · split
    · rename_i hyes
      split
      · rename_i index hindex
        have hrange := hok hs hyes index hindex
        refine h.record hs (fun _ => ?_) fun hsent => hsent
        show 1 ≤ index + 1 ∧ index + 1 ≤ _
        omega
      · exact h
    rename_i hno
    split
    · rename_i hgt
      exact h.enterTerm hgt.le
    · rename_i hle
      refine h.record hs (fun hj => ?_) fun hsent => hsent
      have := hback hs (Bool.eq_false_of_not_eq_true hno) (not_lt.mp hle) hj
      have := h.usable hs j hj
      unfold Usable at this
      show 1 ≤ (x.nodes j).nextIndex - 1 ∧ (x.nodes j).nextIndex - 1 ≤ _
      omega
  · split
    · split
      · exact h.setNode hs ..
      · exact h
    split
    · rename_i hgt
      exact h.enterTerm hgt.le
    · exact h.setNode hs ..

end

/-! ## The cluster -/

/-- The packet is a response to a request that was sent, and if it rejects the request in the term of the request,
    that did not start at the beginning of the log. -/
def Answers (s : Net n) (p : Packet n) (r : ResponseAppendEntries) : Prop :=
  ∃ q ∈ p.answers, (∃ p' ∈ s.sent, p'.src = p.dst ∧ p'.dst = p.src ∧ p'.msg = .appendEntries q) ∧
    (r.ok = false → q.term ≤ r.term ∧ (r.term = q.term → q.prevLogIndex ≠ 0))

/-- **The invariant.** -/
structure Steady (s : Net n) : Prop where
  node : ∀ i, Goes i (s.node i) (s.node i)
  request : ∀ p ∈ s.sent, ∀ q, p.msg = .appendEntries q → p.dst ≠ p.src ∧ Requested (s.node p.src) p.dst q
  response : ∀ p ∈ s.sent, ∀ r, p.msg = .responseAppendEntries r → Answers s p r

/-- Server `i`, in state `y`, may send the packet. -/
def MaySend (s : Net n) (i : Fin n) (y : ClusterState n) (p : Packet n) : Prop :=
  match p.msg with
  | .appendEntries q => p.src = i ∧ p.dst ≠ i ∧ Requested y p.dst q
  | .responseAppendEntries r => Answers s p r
  | _ => True

section

variable {s s' : Net n}
variable {server : Server n} {i : Fin n}

/-- **One server changes**, and sends what it may. -/
theorem Steady.put (hs : Steady s) {rest out : List (Packet n)} (hg : Goes i (s.node i) server.cluster)
    (hout : ∀ p ∈ out, MaySend s i server.cluster p) :
    Steady (s.put i server rest out) where
  node := Net.forall_node_put (P := fun v x => Goes v x x) hg.last fun v _ => hs.node v
  request p hp q hm := by
    rcases List.mem_append.mp hp with hp | hp
    · obtain ⟨hne, hreq⟩ := hs.request p hp q hm
      refine ⟨hne, ?_⟩
      by_cases hi : p.src = i
      · subst hi
        rw [Net.put_node_self]
        exact hreq.goes hg hne
      · rw [Net.put_node_of_ne s hi]
        exact hreq
    · have hsend := hout p hp
      unfold MaySend at hsend
      rw [hm] at hsend
      obtain ⟨hsrc, hdst, hreq⟩ := hsend
      rw [hsrc, Net.put_node_self]
      exact ⟨hdst, hreq⟩
  response p hp r hm := by
    have hmono : ∀ {p r}, Answers s p r → Answers (s.put i server rest out) p r := by
      rintro p r ⟨q, hq, ⟨p', hp', hsame⟩, hrest⟩
      exact ⟨q, hq, ⟨p', List.mem_append_left _ hp', hsame⟩, hrest⟩
    rcases List.mem_append.mp hp with hp | hp
    · exact hmono (hs.response p hp r hm)
    · have hsend := hout p hp
      unfold MaySend at hsend
      rw [hm] at hsend
      exact hmono hsend

/-- A step that sends nothing. -/
theorem Steady.silent (hs : Steady s) {rest : List (Packet n)} (hg : Goes i (s.node i) server.cluster) :
    Steady (s.put i server rest []) :=
  hs.put hg fun _ hp => absurd hp List.not_mem_nil

/-- The timer: vote requests and heartbeats. -/
theorem Goes.clusterCronTail {w x : ClusterState n} (h : Goes i w x) (inp : CronInput n) :
    Goes i w (clusterCronTail cfg i inp x).1 ∧
      ∀ m ∈ (clusterCronTail cfg i inp x).2,
        MaySend s i (clusterCronTail cfg i inp x).1 ⟨i, m.1, m.2, none⟩ := by
  have hstart : Goes i w (Prez.startElection cfg i inp x).1 := h.startElection inp
  have hlead : Goes i w (Prez.becomeLeader cfg i (Prez.startElection cfg i inp x).1) := hstart.becomeLeader
  obtain ⟨htick, hout⟩ : Goes i w (Prez.leaderTick cfg i inp _).1 ∧ _ := hlead.leaderTick inp
  refine ⟨htick, fun m hm => ?_⟩
  change m ∈ (Prez.startElection cfg i inp x).2 ++ (Prez.leaderTick cfg i inp _).2 at hm
  rcases List.mem_append.mp hm with hm | hm
  · -- the requests of an election ask for votes
    unfold Prez.startElection at hm
    split at hm
    · obtain ⟨j, -, rfl⟩ := List.mem_map.mp hm
      trivial
    · cases hm
  · obtain ⟨j, q, rfl, hj, hreq⟩ := hout m hm
    exact ⟨rfl, hj, hreq⟩

theorem Steady.handle (hs : Steady s) {e : Event n} {out : List (Fin n × Message)}
    (h : (s.servers i).handle cfg i e = some (server, out)) :
    Steady (s.put i server s.net (out.map fun m => ⟨i, m.1, m.2, none⟩)) := by
  have hnode := hs.node i
  cases e with
  | cron inp =>
    obtain ⟨server₁, h₁, h⟩ := Option.map_eq_some_iff.mp h
    cases h
    have hcluster := applyLoop_cluster _ h₁
    have happly : Goes i (s.node i) server₁.cluster := by
      rw [hcluster]
      exact hnode.same rfl rfl rfl rfl
    obtain ⟨htail, hout⟩ : Goes i (s.node i) (clusterCronTail cfg i inp server₁.cluster).1 ∧ _ :=
      happly.clusterCronTail inp
    refine hs.put htail fun p hp => ?_
    obtain ⟨m, hm, rfl⟩ := List.mem_map.mp hp
    exact hout m hm
  | connect =>
    cases h
    exact hs.silent hnode
  | disconnect id =>
    cases h
    exact hs.silent hnode
  | request id kind argv =>
    obtain ⟨server', h', heq⟩ := Option.map_eq_some_iff.mp h
    cases heq
    obtain ⟨-, ⟨-, c, rfl⟩ | ⟨htakes, c, cmd, -, -, -, hwrite⟩⟩ := processRequest_cases h'
    · exact hs.silent hnode
    · obtain ⟨e, log, hw, -, hc⟩ := clusterProcessCommand_write (s := (s.servers i).setClient id c) htakes.1 hwrite
      exact hs.silent (hnode.write hw hc)

/-- A packet that is delivered. -/
theorem Steady.receive (hs : Steady s) {h : Hist n} (he : ElectionInv cfg s h) {k : Nat} {fsync : Bool} {p : Packet n}
    {response : Option Message} (hp : s.net[k]? = some p)
    (hok : MessageSteady (s.node p.dst) p.src p.answers fsync p.msg)
    (hr : (s.servers p.dst).receive p.src p.msg fsync = some (server, response)) :
    Steady (s.put p.dst server (s.net.eraseIdx k)
      (response.toList.map fun msg => ⟨p.dst, p.src, msg, answered p.msg⟩)) := by
  have hnet := List.mem_of_getElem? hp
  have hsent := he.wire p hnet
  have hnode := hs.node p.dst
  rcases hm : p.msg with vote | vote | entries | entries
  all_goals
    rw [hm] at hr hok
    unfold Server.receive at hr
  · cases hr
    refine hs.put (hnode.requestVote vote) fun p' hp' => ?_
    cases List.mem_singleton.mp hp'
    trivial
  · cases hr
    exact hs.silent (hnode.responseVote vote)
  · obtain ⟨⟨x, r⟩, hx, heq⟩ := Option.map_eq_some_iff.mp hr
    cases heq
    obtain ⟨htrunc, rfl⟩ := hok
    obtain ⟨hne, hreq⟩ := hs.request p hsent entries hm
    obtain ⟨hgo, hreject⟩ := hnode.appendEntries hreq.consecutive htrunc (he.not_leader hnet hm) hx
    refine hs.put hgo fun p' hp' => ?_
    cases List.mem_singleton.mp hp'
    exact ⟨entries, rfl, ⟨p, hsent, rfl, rfl, hm⟩, hreject⟩
  · cases hr
    obtain ⟨q, hq, ⟨p', hp', hsrc, hdst, hm'⟩, hreject⟩ := hs.response p hsent entries hm
    obtain ⟨-, hreq⟩ := hs.request p' hp' q hm'
    rw [hsrc, hdst] at hreq
    refine hs.silent (hnode.responseAppendEntries (fun hl hyes => ?_) fun hl hno hle hj => ?_)
    · obtain ⟨q', hq', hterm⟩ := (hok hl).1 hyes
      cases Option.mem_unique hq hq'
      exact (hreq.current hterm).2 hl
    · obtain ⟨q', hq', hterm, hprev⟩ := (hok hl).2 hno hle
      cases Option.mem_unique hq hq'
      obtain ⟨hge, hstart⟩ := hreject hno
      -- the rejection is of the leader's own term, so it is about the log
      have := hstart (le_antisymm (hle.trans hterm.ge) hge)
      have := (hnode.usable hl p.src hj).1
      omega

/-- **Every step keeps the invariant.** -/
theorem Steady.step (hs : Steady s) {h : Hist n} (he : ElectionInv cfg s h) {a : Action n} (hok : StepSteady s a)
    (hstep : s.step cfg a = some s') : Steady s' := by
  cases a with
  | event i e =>
    obtain ⟨⟨server, out⟩, hhandle, rfl⟩ := Option.map_eq_some_iff.mp hstep
    exact hs.handle hhandle
  | deliver k fsync =>
    obtain ⟨p, hp, hstep⟩ := Option.bind_eq_some_iff.mp hstep
    obtain ⟨⟨server, response⟩, hreceive, rfl⟩ := Option.map_eq_some_iff.mp hstep
    exact hs.receive he hp (hok p hp) hreceive
  | restart i mem nodes => exact hok.elim

/-- The start. -/
theorem Net.Booted.steady (hs : s.Booted) (hc : ∀ i, Contiguous (s.node i).log.list) : Steady s where
  node i := by
    obtain ⟨nodes, log, hi⟩ := hs.node i
    refine .refl (hc i) fun hl => ?_
    rw [hi] at hl
    cases hl
  request p hp := by
    rw [hs.sent] at hp
    cases hp
  response p hp := by
    rw [hs.sent] at hp
    cases hp

end

/-- A request that starts at the beginning of the log is at most `next_index - 1` rejections away, and is accepted by
    any log. -/
theorem back_in_step {x : ClusterState n} {j : Fin n} (hu : Usable x j) (log : LogState) :
    ∃ count : Nat, count < (x.nodes j).nextIndex ∧
      logVerifyAppend log ((x.nodes j).nextIndex - 1 - count)
        (logGetTerm x.log ((x.nodes j).nextIndex - 1 - count)) = some true := by
  obtain ⟨k, hk⟩ := Int.eq_ofNat_of_zero_le (show 0 ≤ (x.nodes j).nextIndex - 1 by have := hu.1; omega)
  refine ⟨k, by omega, ?_⟩
  rw [hk, sub_self]
  exact logVerifyAppend_zero ..

/-- **Next indices stay usable.** In a run without restarts in which leaders count answers to requests of their own
    term only, and a rejection only if it answers the request before the current next index, the next index of a
    leader for a peer is a position of its log or the one behind it. The next request is then a slice of the log,
    and a peer that rejects requests accepts one before the index has left the log. -/
theorem next_index_usable (cfg : Config n) (hname : ∀ i, (cfg.name i).bytes ≠ []) {s₀ s : Net n} (h₀ : s₀.Booted)
    (hlogs : ∀ i, Contiguous (s₀.node i).log.list) (hr : RunIf cfg StepSteady s₀ s) {i j : Fin n}
    (hs : (s.node i).state = .leader) (hij : j ≠ i) :
    Usable (s.node i) j ∧ Slice (s.node i).log.list (clusterSendAppendEntries cfg i j (s.node i)).2 ∧
      ∀ log : LogState, ∃ count : Nat, count < ((s.node i).nodes j).nextIndex ∧
        logVerifyAppend log (((s.node i).nodes j).nextIndex - 1 - count)
          (logGetTerm (s.node i).log (((s.node i).nodes j).nextIndex - 1 - count)) = some true := by
  have hinv : (∃ h, ElectionInv cfg s h ∧ Unvoted s h) ∧ Steady s := by
    refine RunBy.invariant (P := fun s => (∃ h, ElectionInv cfg s h ∧ Unvoted s h) ∧ Steady s) ?_ hr
      ⟨⟨_, h₀.electionInv, unvoted_start s₀⟩, h₀.steady hlogs⟩
    rintro s a s' hok hstep ⟨⟨h, he⟩, hst⟩
    have hmoves : Moves cfg .none s s' := moves_of_step hok.crashFree (good_of_crashFree hok.crashFree).2 hstep
    obtain ⟨h', he', -⟩ := election_of_moves (t := 0) hname hmoves he
    exact ⟨⟨h', he'⟩, hst.step he.1 hok hstep⟩
  have hu := (hinv.2.node i).usable hs j hij
  have hc := (hinv.2.node i).contiguous
  have hslice : Slice (s.node i).log.list (clusterSendAppendEntries cfg i j (s.node i)).2 :=
    slice_clusterSendAppendEntries hc hu.1 (by rw [← hc.currentIndex]; exact hu.2)
  exact ⟨hu, hslice, fun log => back_in_step hu log⟩

/-- Server 0 leads term 1 and takes a write that it sends to nobody; server 2 deposes it; it wins term 3 with the
    vote of server 1, and sends that server as many heartbeats as asked for. -/
def reelectedRun (heartbeats : Nat) : List (Action 3) :=
  campaignAt 0 [1] :: deliveries 2 ++ [tickAt 0 [], .event 0 .connect, setAt 0, campaignAt 2 [], campaignAt 2 [0]] ++
    deliveries 2 ++ [campaignAt 0 [1]] ++ deliveries 2 ++ List.replicate heartbeats (tickAt 0 [1])

/-- One heartbeat is rejected, and the next one starts at the beginning of the log. -/
theorem next_index_usable_rejected : ∃ s : Net 3, RunIf threeServers StepSteady (Net.fresh 3) s ∧
    (s.node 0).state = .leader ∧ ((s.node 0).nodes 1).nextIndex = 1 ∧ Usable (s.node 0) 1 := by
  obtain ⟨s, hr, hs⟩ := run_of_exec (Net.step threeServers) StepSteady (Net.fresh 3)
    (reelectedRun 1 ++ deliveries 2) (fun s => ((s.node 0).state, ((s.node 0).nodes 1).nextIndex)) (.leader, 1)
    (by decide +kernel)
  rw [Prod.mk.injEq] at hs
  have hu := next_index_usable _ (by decide) (Net.fresh_fresh 3).booted (fun _ => contiguous_nil) hr (j := 1) hs.1
    (by decide)
  exact ⟨s, hr, hs.1, hs.2, hu.1⟩

/-- Two heartbeats are rejected before the leader hears of it, and the next request starts at index -1. -/
theorem next_index_below_log : ∃ s₀ s : Net 3, s₀.Fresh ∧
    RunIf threeServers (fun s a => a.CrashFree ∧ InOrder s a) s₀ s ∧ (s.node 0).state = .leader ∧
      ((s.node 0).nodes 1).nextIndex = 0 ∧
        (clusterSendAppendEntries threeServers 0 1 (s.node 0)).2.prevLogIndex = -1 := by
  obtain ⟨s, hr, hs⟩ := run_of_exec (Net.step threeServers) (fun s a => a.CrashFree ∧ InOrder s a) (Net.fresh 3)
    (reelectedRun 2 ++ deliveries 4) (fun s => ((s.node 0).state, ((s.node 0).nodes 1).nextIndex)) (.leader, 0)
    (by decide +kernel)
  rw [Prod.mk.injEq] at hs
  refine ⟨_, s, Net.fresh_fresh 3, hr, hs.1, hs.2, ?_⟩
  show ((s.node 0).nodes 1).nextIndex - 1 = -1
  rw [hs.2]
  rfl

end Prez
