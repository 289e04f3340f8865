import Prez.Bus.Packet
import Prez.NextIndex

/-!
# `Prez.Bus.Append` — an append request from the leader's log to the peer's handler

`clusterSendAppendEntries` counts a position from the tail of the log and follows the list from there, at most
fifty entries far; sender and receiver compute the length of the frame each on its own. `append_request_received`
goes the whole way: with a next index inside the log, the frame passes the length check of
`clusterProcessPacket`, and its handler gets what the leader's log and state say (`Carries`).
-/

namespace Prez

open Lib

variable {n : Nat} {cfg : Config n} {i j : Fin n} {x : ClusterState n}

/-! ## The entries of a request -/

/-- The entries with an index from a stretch of positions stand next to each other. -/
theorem Contiguous.filter_index {l : List LogEntry} (hl : Contiguous l) (k count : Nat) :
    (l.filter fun e => decide ((k : Int) < e.index ∧ e.index ≤ (k : Int) + count)) = (l.drop k).take count := by
  have hfront : (l.take k).filter (fun e => decide ((k : Int) < e.index ∧ e.index ≤ (k : Int) + count)) = [] := by
    rw [List.filter_eq_nil_iff]
    intro e he
    obtain ⟨m, hm⟩ := List.getElem?_of_mem he
    rw [List.getElem?_take] at hm
    split at hm
    · have := hl _ _ hm
      simp only [decide_eq_true_eq]
      omega
    · cases hm
  have hmiddle : ((l.drop k).take count).filter (fun e => decide ((k : Int) < e.index ∧ e.index ≤ (k : Int) + count)) =
      (l.drop k).take count := by
    rw [List.filter_eq_self]
    intro e he
    obtain ⟨m, hm⟩ := List.getElem?_of_mem he
    rw [List.getElem?_take] at hm
    split at hm
    · rw [List.getElem?_drop] at hm
      have := hl _ _ hm
      simp only [decide_eq_true_eq]
      omega
    · cases hm
  have hback : ((l.drop k).drop count).filter (fun e => decide ((k : Int) < e.index ∧ e.index ≤ (k : Int) + count)) = [] := by
    rw [List.filter_eq_nil_iff]
    intro e he
    obtain ⟨m, hm⟩ := List.getElem?_of_mem he
    rw [List.getElem?_drop, List.getElem?_drop] at hm
    have := hl _ _ hm
    simp only [decide_eq_true_eq]
    omega
  calc l.filter _ = (l.take k ++ ((l.drop k).take count ++ (l.drop k).drop count)).filter _ := by
        rw [List.take_append_drop, List.take_append_drop]
    _ = (l.drop k).take count := by
        rw [List.filter_append, List.filter_append, hfront, hmiddle, hback, List.nil_append, List.append_nil]

/-- What the leader `i` has to tell peer `j`. -/
structure Carries (cfg : Config n) (i j : Fin n) (x : ClusterState n) (q : AppendEntries) : Prop where
  term : q.term = x.currentTerm
  leaderid : q.leaderid = (cfg.name i).bytes
  prevLogIndex : q.prevLogIndex = (x.nodes j).nextIndex - 1
  /-- the term of the entry before, 0 at the start of the log -/
  prevLogTerm : q.prevLogIndex = 0 ∧ q.prevLogTerm = 0 ∨
    ∃ e ∈ x.log.list, e.index = q.prevLogIndex ∧ e.term = q.prevLogTerm
  leaderCommitIndex : q.leaderCommitIndex = x.commitIndex
  /-- fifty entries from the next index on, or all there are -/
  logEntries : q.logEntries = x.log.list.filter fun e => decide ((x.nodes j).nextIndex ≤ e.index ∧
    e.index ≤ min (logCurrentIndex x.log) ((x.nodes j).nextIndex + 49))

/-- The numbers of a state are `long long`s. -/
structure ClusterState.Longs (x : ClusterState n) : Prop where
  currentTerm : LongLong x.currentTerm
  commitIndex : LongLong x.commitIndex
  nextIndex : ∀ j, LongLong (x.nodes j).nextIndex
  entries : ∀ e ∈ x.log.list, LongLong e.index ∧ LongLong e.term

theorem logGetTerm_zero (log : LogState) : logGetTerm log 0 = 0 := by
  rw [logGetTerm, getLogEntry, getLogNode_eq, if_neg (by omega), if_neg (by omega)]
  rfl

/-- **What a request carries.** -/
theorem carries_clusterSendAppendEntries (hc : Contiguous x.log.list) (hu : Usable x j) :
    Carries cfg i j x (clusterSendAppendEntries cfg i j x).2 := by
  obtain ⟨h1, h2⟩ := hu
  have hlast := hc.currentIndex
  obtain ⟨k, hk⟩ : ∃ k : Nat, (x.nodes j).nextIndex = k + 1 := ⟨((x.nodes j).nextIndex - 1).toNat, by omega⟩
  have hprev : (clusterSendAppendEntries cfg i j x).2.prevLogIndex = k := by
    show (x.nodes j).nextIndex - 1 = k
    omega
  have hprevTerm : (clusterSendAppendEntries cfg i j x).2.prevLogTerm = logGetTerm x.log k := by
    show logGetTerm x.log ((x.nodes j).nextIndex - 1) = _
    rw [hk, Int.add_sub_cancel]
  refine ⟨rfl, rfl, rfl, ?_, rfl, ?_⟩
  · rw [hprev, hprevTerm]
    rcases Nat.eq_zero_or_pos k with rfl | hpos
    · exact .inl ⟨rfl, logGetTerm_zero x.log⟩
    · obtain ⟨e, he, ht⟩ := logGetTerm_in x.log hpos (by omega)
      refine .inr ⟨e, List.mem_of_getElem? he, ?_, ht⟩
      have := hc _ _ he
      omega
  · show entriesFrom x.log (x.nodes j).nextIndex = _
    rw [hk, entriesFrom_eq hc (by omega), ← hc.filter_index]
    apply List.filter_congr
    intro e he
    -- an entry of the log is at most its last one
    obtain ⟨m, hm⟩ := List.getElem?_of_mem he
    have hin := (List.getElem?_eq_some_iff.mp hm).1
    have hindex := hc _ _ hm
    rw [x.log.length_list] at hin
    rw [decide_eq_decide, logMaxEntriesPerRequest]
    omega

/-! ## The way to the handler -/

/-- It fits its packet. -/
theorem sendable_clusterSendAppendEntries (cfg : Config n) (i j : Fin n) (x : ClusterState n) :
    (Message.appendEntries (clusterSendAppendEntries cfg i j x).2).Sendable := by
  refine ⟨(cfg.name i).nulFree, (cfg.name i).fits, ?_⟩
  show (entriesFrom x.log (x.nodes j).nextIndex).length ≤ logMaxEntriesPerRequest
  unfold entriesFrom
  split
  · split
    · exact List.length_take_le ..
    · exact Nat.zero_le _
  · exact Nat.zero_le _

theorem Carries.longs {q : AppendEntries} (h : Carries cfg i j x q) (hu : Usable x j) (hl : x.Longs) : (Message.appendEntries q).Longs := by
  have hnext := hl.nextIndex j
  have hu := hu.1
  have hprev : LongLong q.prevLogIndex := by
    rw [h.prevLogIndex]
    unfold LongLong at hnext ⊢
    omega
  refine ⟨h.term ▸ hl.currentTerm, hprev, ?_, h.leaderCommitIndex ▸ hl.commitIndex, fun e he => ?_⟩
  · rcases h.prevLogTerm with ⟨-, hzero⟩ | ⟨e, he, -, ht⟩
    · rw [hzero]
      decide
    · rw [← ht]
      exact (hl.entries e he).2
  · rw [h.logEntries] at he
    exact hl.entries e (List.mem_filter.mp he).1

/-- **Append requests.** With a contiguous log and a next index inside it, the request that the leader builds is a
    frame that passes the length check of the peer, on any link and with any bytes behind it; its handler gets the
    previous index and term, the leader's term and commit index, and the entries from the next index on. The
    entry remembered as last sent is the last of them. -/
theorem append_request_received (cfg : Config n) (i j : Fin n) {x : ClusterState n} (hc : Contiguous x.log.list)
    (hu : Usable x j) (hl : x.Longs) :
    ∃ q, (clusterSendAppendEntries cfg i j x).2 = q ∧ Carries cfg i j x q ∧
      ((clusterSendAppendEntries cfg i j x).1.nodes j).lastSentEntry = q.logEntries.getLast?.map (·.index) ∧
      ∃ hs : (Message.appendEntries q).Sendable, ∀ (behind : Nat → UInt8) (sender : CStr 40) (port : Nat) (beyond : Bytes),
        ((Message.appendEntries q).frame behind sender port hs).bytes.length = logEntriesOffset + logEntrySize *
          packetCount (((Message.appendEntries q).frame behind sender port hs).bytes ++ beyond) ∧
        ∀ (link : Option (Fin n)) (y : Server n) (fsync : Bool),
          (clusterProcessPacket link ((Message.appendEntries q).frame behind sender port hs) beyond y fsync).result =
            (clusterProcessAppendEntries y.cluster q fsync).map fun r =>
              ({ y with cluster := r.1 }, some (.responseAppendEntries r.2)) := by
  have hcarries : Carries cfg i j x (clusterSendAppendEntries cfg i j x).2 := carries_clusterSendAppendEntries hc hu
  have hs := sendable_clusterSendAppendEntries cfg i j x
  refine ⟨_, rfl, hcarries, ?_, hs, fun behind sender port beyond => ⟨?_, fun link y fsync => ?_⟩⟩
  · show (Function.update x.nodes j _ j).lastSentEntry = _
    rw [Function.update_self]
    rfl
  · show ((Message.appendEntries _).bytes behind sender port).length = logEntriesOffset + logEntrySize *
      packetCount ((Message.appendEntries _).bytes behind sender port ++ beyond)
    rw [(Message.length_le behind sender port hs).1, packetCount_bytes behind sender port beyond hs]
    simp only [Message.bodyLength, clusterMsgMinLen, logEntriesOffset]
    omega
  · rw [clusterProcessPacket_sent behind sender port beyond link hs (hcarries.longs hu hl)]
    rfl

/-- A leader with two entries, of which its peers are to get the second. -/
def leaderOfTwo : ClusterState 3 :=
  { clusterInit (fun _ => ⟨none, 2, 0⟩) (logOf [setA 1 1, setA 2 1]) with state := .leader }

/-- The second entry is sent, behind the first. -/
theorem append_request_received_second :
    (clusterSendAppendEntries threeServers 0 1 leaderOfTwo).2.logEntries = [setA 2 1] ∧
      Carries threeServers 0 1 leaderOfTwo (clusterSendAppendEntries threeServers 0 1 leaderOfTwo).2 := by
  have hc : Contiguous [setA 1 1, setA 2 1] := contiguous_nil.append (by decide)
  have hentries : ∀ e ∈ leaderOfTwo.log.list, LongLong e.index ∧ LongLong e.term := by decide +kernel
  have hu : Usable leaderOfTwo 1 := ⟨by decide, by decide +kernel⟩
  obtain ⟨q, rfl, hq, -⟩ := append_request_received threeServers 0 1 (x := leaderOfTwo) hc hu
    ⟨by decide +kernel, by decide, by decide +kernel, hentries⟩
  exact ⟨by decide +kernel, hq⟩

end Prez
