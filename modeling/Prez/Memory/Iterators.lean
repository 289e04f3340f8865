import Prez.Memory.Process
import Prez.Moves
import Prez.Dict.Keys
import Prez.Dict.Safe

/-!
# `Prez.Memory.Iterators` — the iterators that `clusterCron` opens

`clusterCron` walks through the table of nodes with safe iterators: to reconnect, to ask for votes, to reset the indices when
it becomes leader, to collect the match indices and to send heartbeats. Here the table is the dictionary of `Prez.Dict`, whose
values are the numbers of the node records, and each phase is the loop that the source has.

A loop over a safe iterator is a fold over the entries (`dictEach_eq`), and with its release it leaves the table as it was
(`dictEachReleased_eq`). The loop of a new leader has no release: its iterator stays open for good, and `_dictRehashStep` does
nothing any more. `cron_iterators` says that a call leaves the count as it was exactly if it does not make the server leader.
-/

namespace Prez

open Lib

/-! ## Loops over a table -/

section

variable {K V σ : Type}

/-- `while((de = dictNext(di)) != NULL)`, with the body of the loop. -/
def dictEachLoop (T : DictType K) (body : σ → V → σ) :
    Nat → Dict K V → DictIterator K → σ → Option (Dict K V × DictIterator K × σ)
  | 0, _, _, _ => none
  | fuel + 1, d, di, s =>
    (dictNext T d di).bind fun (d, di, de) =>
    match de with
    | none => some (d, di, s)
    | some e => dictEachLoop T body fuel d di (body s e.2)

/-- The loop from `dictGetSafeIterator` on: a turn for each entry, and one for the end. -/
def dictEach (T : DictType K) (body : σ → V → σ) (d : Dict K V) (s : σ) : Option (Dict K V × DictIterator K × σ) :=
  dictEachLoop T body (dictSize d + 1) d dictGetSafeIterator s

/-- The same with `dictReleaseIterator` behind it. -/
def dictEachReleased (T : DictType K) (body : σ → V → σ) (d : Dict K V) (s : σ) : Option (Dict K V × σ) :=
  (dictEach T body d s).map fun (d, di, s) => (dictReleaseIterator d di, s)

variable {T : DictType K} {d : Dict K V}

/-- From a call of `dictNext` on, the loop visits what is ahead. -/
theorem dictEachLoop_arrives (hT : T.Lawful) (hw : d.Wf T) (body : σ → V → σ) (p : List (K × V)) :
    ∀ {fuel : Nat} {d₀ : Dict K V} {di : DictIterator K} {bound : Nat ×ₗ Nat ×ₗ Nat} (s : σ),
      Arrives d p bound (dictNext T d₀ di) → p.length < fuel →
      ∃ di', di'.Started ∧ dictEachLoop T body fuel d₀ di s = some (d, di', (p.map Prod.snd).foldl body s) := by
  induction p with
  | nil =>
    intro fuel d₀ di bound s harr hfuel
    obtain ⟨fuel, rfl⟩ := Nat.exists_eq_add_one_of_ne_zero (Nat.ne_of_gt hfuel)
    obtain ⟨di', hnext, hstarted⟩ := harr
    exact ⟨di', hstarted, by rw [dictEachLoop, hnext]; rfl⟩
  | cons e p ih =>
    intro fuel d₀ di bound s harr hfuel
    obtain ⟨fuel, rfl⟩ := Nat.exists_eq_add_one_of_ne_zero (Nat.ne_of_gt (Nat.zero_lt_of_lt hfuel))
    obtain ⟨di', i, b, c, hnext, hat, rfl, -⟩ := harr
    obtain ⟨di'', hstarted, hloop⟩ := ih (body s e.2) (hat.dictNext hT hw) (Nat.lt_of_succ_lt_succ hfuel)
    exact ⟨di'', hstarted, by rw [dictEachLoop, hnext]; exact hloop⟩

theorem dictSize_eq (hw : d.Wf T) : dictSize d = d.entries.length := by
  rw [dictSize, hw.old.used, hw.new.used, Dict.entries, List.length_append]

/-- **A loop is a fold over the entries**, and its iterator is open. -/
theorem dictEach_eq (hT : T.Lawful) (hw : d.Wf T) (hcount : d.iterators + 1 < 2 ^ 31) (body : σ → V → σ) (s : σ) :
    ∃ di, di.Started ∧ dictEach T body d s =
      some ({ d with iterators := d.iterators + 1 }, di, (d.entries.map Prod.snd).foldl body s) := by
  have hw' : ({ d with iterators := d.iterators + 1 } : Dict K V).Wf T :=
    ⟨hw.table, hw.idle, hw.range, hw.moved, hw.distinct⟩
  refine dictEachLoop_arrives hT hw' body d.entries s (dictNext_first hw hcount) ?_
  rw [dictSize_eq hw]
  exact Nat.lt_succ_self _

/-- The counter is an `int`. -/
theorem dictEach_overflow (hcount : ¬ d.iterators + 1 < 2 ^ 31) (body : σ → V → σ) (s : σ) : dictEach T body d s = none := by
  have hopen : dictIterOpen d (dictGetSafeIterator : DictIterator K) = none := by
    rw [dictIterOpen, if_pos ⟨rfl, rfl⟩, if_neg hcount]
  have hnext : dictNext T d dictGetSafeIterator = none := by
    rw [dictNext, dictNextLoop, dictNextTurn]
    change ((dictIterOpen d dictGetSafeIterator).bind _).bind _ = none
    rw [hopen]
    rfl
  rw [dictEach, dictEachLoop, hnext]
  rfl

/-- **With its release a loop leaves the table as it was.** -/
theorem dictEachReleased_eq (hT : T.Lawful) (hw : d.Wf T) (hcount : d.iterators + 1 < 2 ^ 31) (body : σ → V → σ) (s : σ) :
    dictEachReleased T body d s = some (d, (d.entries.map Prod.snd).foldl body s) := by
  obtain ⟨di, hstarted, heach⟩ := dictEach_eq hT hw hcount body s
  have hrelease : dictReleaseIterator { d with iterators := d.iterators + 1 } di = d := by
    unfold DictIterator.Started at hstarted
    rw [dictReleaseIterator, if_pos hstarted]
    exact congrArg (Dict.mk _ _ _) (Int.add_sub_cancel _ _)
  rw [dictEachReleased, heach, Option.map_some]
  dsimp only
  rw [hrelease]

theorem dictEachReleased_overflow (hcount : ¬ d.iterators + 1 < 2 ^ 31) (body : σ → V → σ) (s : σ) :
    dictEachReleased T body d s = none := by
  rw [dictEachReleased, dictEach_overflow hcount]
  rfl

end

/-! ### Rehashing -/

section

variable {K V : Type} {T : DictType K}

theorem rehashBucket_iterators {d d' : Dict K V} (h : rehashBucket T d = some d') : d'.iterators = d.iterators := by
  unfold rehashBucket at h
  split at h
  · cases h
  · obtain ⟨ib, -, h⟩ := Option.bind_eq_some_iff.mp h
    split at h
    · cases h
    · obtain ⟨ht1, -, rfl⟩ := Option.map_eq_some_iff.mp h
      rfl

theorem rehashLoop_iterators (k : Nat) : ∀ {d : Dict K V} {r : Dict K V × Bool}, rehashLoop T k d = some r →
    r.1.iterators = d.iterators := by
  induction k with
  | zero =>
    intro d r h
    cases h
    rfl
  | succ k ih =>
    intro d r h
    rw [rehashLoop] at h
    split at h
    · cases h
      rfl
    · obtain ⟨d₁, hbucket, h⟩ := Option.bind_eq_some_iff.mp h
      rw [ih h, rehashBucket_iterators hbucket]

theorem dictRehashStep_iterators {d d' : Dict K V} (h : dictRehashStep T d = some d') : d'.iterators = d.iterators := by
  unfold dictRehashStep at h
  split at h
  · obtain ⟨r, hrehash, rfl⟩ := Option.map_eq_some_iff.mp h
    unfold dictRehash at hrehash
    split at hrehash
    · cases hrehash
      rfl
    · exact rehashLoop_iterators _ hrehash
  · cases h
    rfl

/-- A lookup leaves the counter alone. -/
theorem dictFind_iterators {d : Dict K V} {key : K} {r : Dict K V × Option (DictSide × (K × V))}
    (h : dictFind T d key = some r) : r.1.iterators = d.iterators := by
  unfold dictFind at h
  split at h
  · cases h
    rfl
  · obtain ⟨d₁, hstep, h⟩ := Option.bind_eq_some_iff.mp h
    obtain ⟨o, -, rfl⟩ := Option.map_eq_some_iff.mp h
    exact dictRehashStep_iterators hstep

theorem dictExpand_iterators (d : Dict K V) (size : Nat) : (dictExpand d size).1.iterators = d.iterators := by
  unfold dictExpand
  dsimp only
  split_ifs <;> rfl

/-- Nor does an insertion change it. -/
theorem dictAdd_iterators {canResize : Bool} {d : Dict K V} {key : K} {val : V} {r : Dict K V × Bool}
    (h : dictAdd T canResize d key val = some r) : r.1.iterators = d.iterators := by
  obtain ⟨d₁, hstep, h⟩ := Option.bind_eq_some_iff.mp h
  have hexpand : (dictExpandIfNeeded canResize d₁).1.iterators = d.iterators := by
    rw [← dictRehashStep_iterators hstep]
    unfold dictExpandIfNeeded
    split_ifs
    · rfl
    · exact dictExpand_iterators d₁ 4
    · exact dictExpand_iterators d₁ _
    · rfl
  dsimp only at h
  split at h
  · cases h
    exact hexpand
  · obtain ⟨index, -, h⟩ := Option.bind_eq_some_iff.mp h
    split at h
    · cases h
      exact hexpand
    · split at h
      · cases h
      · obtain ⟨table, -, rfl⟩ := Option.map_eq_some_iff.mp h
        exact setHt_iterators.trans hexpand

/-- With no iterator open a step of incremental rehashing is made. -/
theorem dictRehashStep_open {d : Dict K V} (h0 : d.iterators = 0) : dictRehashStep T d = (dictRehash T d 1).map Prod.fst := by
  unfold dictRehashStep
  cases hr : dictIsRehashing d with
  | true => rw [if_pos (by rw [h0]; rfl)]
  | false =>
    rw [if_neg (by rw [Bool.false_and]; exact Bool.false_ne_true), dictRehash, hr]
    rfl

end

/-! ## The phases of `clusterCron` -/

/-- `clusterNodesDictType`. -/
abbrev nodesType (seed : UInt32) : DictType SdsKey := ServerDict.clusterNodes.dictType seed

theorem nodesType_lawful (seed : UInt32) : (nodesType seed).Lawful where
  keyEq := ServerDict.clusterNodes.keyEq seed
  hash_eq h := by rw [(dictSdsKeyCompare_iff _ _).mp h]

variable {n : Nat}

/-- `server.cluster->nodes`. -/
abbrev NodeDict (n : Nat) := Dict SdsKey (Fin n)

namespace Process

def setCluster (p : Process n) (cluster : ClusterState n) : Process n := { p with server := { p.server with cluster } }

def setRecord (p : Process n) (j : Fin n) (r : NodeRecord) : Process n :=
  { p with records := Function.update p.records j r }

/-- The body of the first loop: a node without a link is dialled. -/
def dialNode (inp : TickInput n) (p : Process n) (j : Fin n) : Process n :=
  if p.skipped j then p
  else if p.link j then p
  else if inp.connects j then p.setRecord j { p.records j with link := true, lastActivityTime := inp.dialTime j }
  else p

/-- The body of `clusterBroadcastMessage`. -/
def askNode (p : Process n) (vote : RequestVote) (sent : List (Fin n × Message)) (j : Fin n) : List (Fin n × Message) :=
  if !p.link j then sent
  else if isMyself (p.records j).flags then sent
  else sent ++ [(j, .requestVote vote)]

/-- The body of the loop of a new leader. -/
def leadNode (lastLogIndex : Int) (p : Process n) (j : Fin n) : Process n :=
  if p.skipped j then p
  else p.setCluster (p.server.cluster.setNode j
    { p.server.cluster.nodes j with nextIndex := lastLogIndex + 1, matchIndex := 0 })

/-- The body of the last loop. -/
def beatNode (cfg : Config n) (i : Fin n) (inp : TickInput n) (s : Process n × List (Fin n × Message)) (j : Fin n) :
    Process n × List (Fin n × Message) :=
  if s.1.skipped j then s
  else if !s.1.link j then s
  else if s.1.due inp j then
    let p := s.1.setRecord j { s.1.records j with lastActivityTime := inp.sendTime j }
    let (cluster, entries) := clusterSendAppendEntries cfg i j p.server.cluster
    (p.setCluster cluster, s.2 ++ [(j, .appendEntries entries)])
  else s

end Process

section

variable (cfg : Config n) (i : Fin n) (seed : UInt32)

/-- The election timeout, with `clusterSendRequestVote` and its broadcast. -/
def timeoutPhase (inp : TickInput n) (p : Process n) (nodes : NodeDict n) :
    Option (Process n × NodeDict n × List (Fin n × Message)) :=
  if p.server.cluster.state ≠ .leader ∧ p.timeout inp = true then
    let cluster :=
      { p.server.cluster with state := .candidate, leader := [], votedFor := cstr (cfg.serverName i), votesGranted := 1 }
    let (cluster, vote) := clusterSendRequestVote cfg i cluster
    let p := { p.setCluster cluster with lastActivityTime := inp.electionTime }
    (dictEachReleased (nodesType seed) (p.askNode vote) nodes []).map fun (nodes, sent) => (p, nodes, sent)
  else some (p, nodes, [])

/-- A candidate with enough votes becomes leader. -/
def candidatePhase (p : Process n) (nodes : NodeDict n) : Option (Process n × NodeDict n) :=
  if p.server.cluster.state = .candidate ∧ quorumSize (dictSize nodes) ≤ p.server.cluster.votesGranted then
    let p := p.setCluster { p.server.cluster with state := .leader, leader := cstr (cfg.serverName i) }
    let lastLogIndex := logCurrentIndex p.server.cluster.log
    -- there is no `dictReleaseIterator` behind this loop
    (dictEach (nodesType seed) (Process.leadNode lastLogIndex) nodes p).map fun (nodes, _, p) => (p, nodes)
  else some (p, nodes)

/-- `clusterUpdateCommitIndex()`; the array is read past its end if it is empty. -/
def commitPhase (p : Process n) (nodes : NodeDict n) : Option (Process n × NodeDict n) := do
  let cluster := p.server.cluster
  let (nodes, logIndices) ←
    dictEachReleased (nodesType seed) (fun l j => l ++ [(cluster.nodes j).matchIndex]) nodes []
  let commitIndex ← (sortIndices logIndices).reverse[quorumSize (dictSize nodes) - 1]?
  if commitIndex > cluster.commitIndex ∧ cluster.currentTerm = logGetTerm cluster.log commitIndex then
    some (p.setCluster { cluster with commitIndex }, nodes)
  else some (p, nodes)

/-- The last part: the commit index and the heartbeats of a leader. -/
def leaderPhase (inp : TickInput n) (p : Process n) (nodes : NodeDict n) :
    Option (Process n × NodeDict n × List (Fin n × Message)) :=
  if p.server.cluster.state = .leader then do
    let (p, nodes) ← commitPhase seed p nodes
    let (nodes, p, sent) ← dictEachReleased (nodesType seed) (Process.beatNode cfg i inp) nodes (p, [])
    some (p, nodes, sent)
  else some (p, nodes, [])

/-- `clusterCron()`: the process, the table of nodes and the messages sent. -/
def cronNodes (inp : TickInput n) (p : Process n) (nodes : NodeDict n) :
    Option (Process n × NodeDict n × List (Fin n × Message)) := do
  let (nodes, p) ← dictEachReleased (nodesType seed) (Process.dialNode inp) nodes p
  let server ← applyLoop (p.server.cluster.commitIndex - p.server.cluster.lastApplied).toNat p.server
  let (p, nodes, requests) ← timeoutPhase cfg i seed inp { p with server } nodes
  let (p, nodes) ← candidatePhase cfg i seed p nodes
  let (p, nodes, heartbeats) ← leaderPhase cfg i seed inp p nodes
  some (p, nodes, requests ++ heartbeats)

end

/-! ## Every node once

In a table with every node in it the loops do to the records what `Prez.Memory.Process` says of all of them at once. -/

/-- A loop that changes one element after another, each depending on itself alone. -/
theorem foldl_update {ι α : Type} [DecidableEq ι] (f : ι → α → α) (js : List ι) (hnd : js.Nodup) (r : ι → α) :
    js.foldl (fun r j => Function.update r j (f j (r j))) r = fun j => if j ∈ js then f j (r j) else r j := by
  induction js generalizing r with
  | nil => rfl
  | cons k js ih =>
    obtain ⟨hk, hnd⟩ := List.nodup_cons.mp hnd
    rw [List.foldl_cons, ih hnd]
    funext j
    by_cases hj : j = k
    · subst hj
      rw [if_neg hk, if_pos List.mem_cons_self, Function.update_self]
    · rw [Function.update_of_ne hj]
      by_cases hjs : j ∈ js
      · rw [if_pos hjs, if_pos (List.mem_cons_of_mem _ hjs)]
      · rw [if_neg hjs, if_neg fun hmem => (List.mem_cons.mp hmem).elim hj hjs]

/-- What the first loop makes of a record. -/
def dialRecord (inp : TickInput n) (j : Fin n) (r : NodeRecord) : NodeRecord :=
  if !isSkipped r.flags && !r.link && inp.connects j then { r with link := true, lastActivityTime := inp.dialTime j } else r

theorem dialNode_eq (inp : TickInput n) (p : Process n) (j : Fin n) :
    p.dialNode inp j = { p with records := Function.update p.records j (dialRecord inp j (p.records j)) } := by
  unfold Process.dialNode dialRecord Process.skipped Process.link Process.setRecord
  cases isSkipped (p.records j).flags <;> cases (p.records j).link <;> cases inp.connects j <;> simp

/-- **The first loop dials as `Process.dial` does.** -/
theorem dialAll_eq (inp : TickInput n) {js : List (Fin n)} (hjs : js.Perm (List.finRange n)) (p : Process n) :
    js.foldl (Process.dialNode inp) p = p.dial inp := by
  have hfold : ∀ (js : List (Fin n)) (p : Process n), js.foldl (Process.dialNode inp) p =
      { p with records := js.foldl (fun r j => Function.update r j (dialRecord inp j (r j))) p.records } := by
    intro js
    induction js with
    | nil => exact fun p => rfl
    | cons j js ih =>
      intro p
      rw [List.foldl_cons, ih, dialNode_eq]
      rfl
  rw [hfold, foldl_update _ js (hjs.nodup_iff.mpr (List.nodup_finRange n))]
  have hrecords : (fun j => if j ∈ js then dialRecord inp j (p.records j) else p.records j) = (p.dial inp).records := by
    funext j
    rw [if_pos (hjs.mem_iff.mpr (List.mem_finRange j))]
    rfl
  rw [hrecords]
  rfl

/-- What the loop of a new leader makes of the indices of a node. -/
def leadIndices (index : Int) (skipped : Bool) (node : ClusterNode) : ClusterNode :=
  if skipped then node else { node with nextIndex := index + 1, matchIndex := 0 }

theorem leadNode_eq (index : Int) (p : Process n) (j : Fin n) :
    p.leadNode index j = p.setCluster { p.server.cluster with
      nodes := Function.update p.server.cluster.nodes j (leadIndices index (p.skipped j) (p.server.cluster.nodes j)) } := by
  unfold Process.leadNode leadIndices
  split
  · rw [Function.update_eq_self]
    rfl
  · rfl

/-- **The loop of a new leader sets the indices as `becomeLeaderAt` does.** -/
theorem leadAll_eq (index : Int) {js : List (Fin n)} (hjs : js.Perm (List.finRange n)) (p : Process n) :
    js.foldl (Process.leadNode index) p = p.setCluster { p.server.cluster with
      nodes := fun j => leadIndices index (p.skipped j) (p.server.cluster.nodes j) } := by
  have hfold : ∀ (js : List (Fin n)) (p : Process n), js.foldl (Process.leadNode index) p = p.setCluster { p.server.cluster with
      nodes := js.foldl (fun r j => Function.update r j (leadIndices index (p.skipped j) (r j))) p.server.cluster.nodes } := by
    intro js
    induction js with
    | nil => exact fun p => rfl
    | cons j js ih =>
      intro p
      rw [List.foldl_cons, ih, leadNode_eq]
      rfl
  rw [hfold, foldl_update (fun j => leadIndices index (p.skipped j)) js (hjs.nodup_iff.mpr (List.nodup_finRange n))]
  have hnodes : (fun j => if j ∈ js then leadIndices index (p.skipped j) (p.server.cluster.nodes j)
      else p.server.cluster.nodes j) = fun j => leadIndices index (p.skipped j) (p.server.cluster.nodes j) := by
    funext j
    exact if_pos (hjs.mem_iff.mpr (List.mem_finRange j))
  rw [hnodes]

/-- **A new leader is that of `Process.cronTail`.** -/
theorem candidatePhase_eq (cfg : Config n) (i : Fin n) {seed : UInt32} {p : Process n} {nodes : NodeDict n}
    (hw : nodes.Wf (nodesType seed)) (hcount : nodes.iterators + 1 < 2 ^ 31)
    (hall : (nodes.entries.map Prod.snd).Perm (List.finRange n)) :
    (candidatePhase cfg i seed p nodes).map Prod.fst =
      some (p.setCluster (becomeLeaderAt cfg i p.skipped p.server.cluster)) := by
  have hsize : dictSize nodes = n := by
    have hlen := hall.length_eq
    rw [List.length_map, List.length_finRange, ← dictSize_eq hw] at hlen
    exact hlen
  unfold candidatePhase becomeLeaderAt
  rw [hsize]
  split
  · dsimp only
    obtain ⟨di, -, heach⟩ := dictEach_eq (nodesType_lawful seed) hw hcount
      (Process.leadNode (logCurrentIndex p.server.cluster.log))
      (p.setCluster { p.server.cluster with state := .leader, leader := cstr (cfg.serverName i) })
    rw [leadAll_eq _ hall] at heach
    rw [Option.map_map]
    exact congrArg (Option.map _) heach
  · rfl

/-! ## What a call leaves open -/

/-- The call makes the server leader: a candidate has the votes, or its own vote is enough when the timeout makes it one. -/
def TakesLead (inp : TickInput n) (p : Process n) (nodes : NodeDict n) : Prop :=
  if p.server.cluster.state ≠ .leader ∧ p.timeout inp = true then quorumSize (dictSize nodes) ≤ 1
  else p.server.cluster.state = .candidate ∧ quorumSize (dictSize nodes) ≤ p.server.cluster.votesGranted
deriving Decidable

section

variable (cfg : Config n) (i : Fin n) {seed : UInt32} (inp : TickInput n) (p : Process n) {nodes : NodeDict n}

theorem dialNode_keeps (j : Fin n) :
    (p.dialNode inp j).server = p.server ∧ (p.dialNode inp j).lastActivityTime = p.lastActivityTime := by
  unfold Process.dialNode
  split_ifs <;> exact ⟨rfl, rfl⟩

theorem dialAll_keeps (js : List (Fin n)) :
    ∀ p : Process n, (js.foldl (Process.dialNode inp) p).server = p.server ∧
      (js.foldl (Process.dialNode inp) p).lastActivityTime = p.lastActivityTime := by
  induction js with
  | nil => exact fun p => ⟨rfl, rfl⟩
  | cons j js ih =>
    intro p
    obtain ⟨hserver, htime⟩ := ih (p.dialNode inp j)
    obtain ⟨hserver', htime'⟩ := dialNode_keeps inp p j
    exact ⟨hserver.trans hserver', htime.trans htime'⟩

theorem leadAll_state (index : Int) (js : List (Fin n)) :
    ∀ p : Process n, (js.foldl (Process.leadNode index) p).server.cluster.state = p.server.cluster.state := by
  induction js with
  | nil => exact fun p => rfl
  | cons j js ih =>
    intro p
    rw [List.foldl_cons, ih, Process.leadNode]
    split <;> rfl

/-- The loop that collects the match indices. -/
theorem collect_eq {α β : Type} (f : α → β) (l : List α) (acc : List β) :
    l.foldl (fun acc a => acc ++ [f a]) acc = acc ++ l.map f := by
  induction l generalizing acc with
  | nil => exact (List.append_nil acc).symm
  | cons a l ih => rw [List.foldl_cons, ih, List.append_assoc, List.map_cons, List.singleton_append]

/-- A leader cannot open an iterator with the counter at its end. -/
theorem leaderPhase_overflow (hcount : ¬ nodes.iterators + 1 < 2 ^ 31) (hlead : p.server.cluster.state = .leader) :
    leaderPhase cfg i seed inp p nodes = none := by
  have hcommit : commitPhase seed p nodes = none := by
    unfold commitPhase
    dsimp only
    rw [dictEachReleased_overflow hcount]
    rfl
  rw [leaderPhase, if_pos hlead, hcommit]
  rfl

/-- Without room for another iterator the call does not get far. -/
theorem cronNodes_overflow (hcount : ¬ nodes.iterators + 1 < 2 ^ 31) : cronNodes cfg i seed inp p nodes = none := by
  unfold cronNodes
  rw [dictEachReleased_overflow hcount]
  rfl

variable (hw : nodes.Wf (nodesType seed)) (hcount : nodes.iterators + 1 < 2 ^ 31)

include hw hcount

theorem commitPhase_nodes (hne : dictSize nodes ≠ 0) :
    ∃ p', commitPhase seed p nodes = some (p', nodes) := by
  have heach := dictEachReleased_eq (nodesType_lawful seed) hw hcount
    (fun l j => l ++ [(p.server.cluster.nodes j).matchIndex]) []
  rw [collect_eq] at heach
  -- there is an index for each node, and the quorum is not larger than their number
  have hlen : quorumSize (dictSize nodes) - 1 <
      (sortIndices ([] ++ (nodes.entries.map Prod.snd).map fun j => (p.server.cluster.nodes j).matchIndex)).reverse.length := by
    rw [List.length_reverse, sortIndices, List.length_insertionSort, List.nil_append, List.length_map, List.length_map,
      ← dictSize_eq hw, quorumSize]
    omega
  unfold commitPhase
  dsimp only
  rw [heach]
  dsimp only [Option.bind_eq_bind, Option.bind_some]
  rw [List.getElem?_eq_getElem hlen, Option.bind_some]
  split
  · exact ⟨_, rfl⟩
  · exact ⟨_, rfl⟩

theorem leaderPhase_nodes (hne : dictSize nodes ≠ 0) :
    ∃ p' sent, leaderPhase cfg i seed inp p nodes = some (p', nodes, sent) := by
  unfold leaderPhase
  split
  · obtain ⟨p', hcommit⟩ := commitPhase_nodes p hw hcount hne
    have hbeat := dictEachReleased_eq (nodesType_lawful seed) hw hcount (Process.beatNode cfg i inp) (p', [])
    rw [hcommit]
    dsimp only [Option.bind_eq_bind, Option.bind_some]
    rw [hbeat]
    exact ⟨_, _, rfl⟩
  · exact ⟨p, [], rfl⟩

/-- The timeout leaves the table alone; it makes a candidate with one vote. -/
theorem timeoutPhase_nodes :
    ∃ p' sent, timeoutPhase cfg i seed inp p nodes = some (p', nodes, sent) ∧
      ((p'.server.cluster.state = .candidate ∧ quorumSize (dictSize nodes) ≤ p'.server.cluster.votesGranted) ↔
        TakesLead inp p nodes) := by
  unfold timeoutPhase TakesLead
  split
  · dsimp only
    rw [dictEachReleased_eq (nodesType_lawful seed) hw hcount]
    exact ⟨_, _, rfl, fun h => h.2, fun h => ⟨rfl, h⟩⟩
  · exact ⟨p, [], rfl, Iff.rfl⟩

/-- A new leader leaves an iterator open. -/
theorem candidatePhase_nodes :
    (p.server.cluster.state = .candidate ∧ quorumSize (dictSize nodes) ≤ p.server.cluster.votesGranted →
      ∃ p', candidatePhase cfg i seed p nodes = some (p', { nodes with iterators := nodes.iterators + 1 }) ∧
        p'.server.cluster.state = .leader) ∧
    (¬(p.server.cluster.state = .candidate ∧ quorumSize (dictSize nodes) ≤ p.server.cluster.votesGranted) →
      candidatePhase cfg i seed p nodes = some (p, nodes)) := by
  constructor
  · intro h
    rw [candidatePhase, if_pos h]
    dsimp only
    obtain ⟨di, -, heach⟩ := dictEach_eq (nodesType_lawful seed) hw hcount
      (Process.leadNode (logCurrentIndex p.server.cluster.log))
      (p.setCluster { p.server.cluster with state := .leader, leader := cstr (cfg.serverName i) })
    refine ⟨_, congrArg (Option.map _) heach, ?_⟩
    rw [leadAll_state]
    rfl
  · intro h
    rw [candidatePhase, if_neg h]

/-- The apply loop of the call gets to its end. -/
def AppliesAll (p : Process n) : Prop :=
  (applyLoop (p.server.cluster.commitIndex - p.server.cluster.lastApplied).toNat p.server).isSome = true

/-- The call up to its timeout leaves the table alone, and knows by then whether the server becomes leader. -/
theorem cronNodes_timeout (happly : AppliesAll p) :
    ∃ p₁ requests, ((p₁.server.cluster.state = .candidate ∧ quorumSize (dictSize nodes) ≤ p₁.server.cluster.votesGranted) ↔
        TakesLead inp p nodes) ∧
      cronNodes cfg i seed inp p nodes = (candidatePhase cfg i seed p₁ nodes).bind fun (p, nodes) =>
        (leaderPhase cfg i seed inp p nodes).bind fun (p, nodes, heartbeats) => some (p, nodes, requests ++ heartbeats) := by
  obtain ⟨server, hserver⟩ := Option.isSome_iff_exists.mp happly
  have hcluster := applyLoop_cluster _ hserver
  obtain ⟨hkeep, htime⟩ := dialAll_keeps inp (nodes.entries.map Prod.snd) p
  generalize hp : (nodes.entries.map Prod.snd).foldl (Process.dialNode inp) p = dialled at hkeep htime
  obtain ⟨p₁, requests, hphase, hiff⟩ := timeoutPhase_nodes cfg i inp { dialled with server } hw hcount
  refine ⟨p₁, requests, hiff.trans ?_, ?_⟩
  · have htimeout : ({ dialled with server } : Process n).timeout inp = p.timeout inp := by
      unfold Process.timeout
      dsimp only
      rw [htime]
    unfold TakesLead
    rw [htimeout]
    dsimp only
    rw [hcluster]
  · unfold cronNodes
    rw [dictEachReleased_eq (nodesType_lawful seed) hw hcount, hp]
    dsimp only [Option.bind_eq_bind, Option.bind_some]
    rw [hkeep, hserver, Option.bind_some, hphase]
    rfl

/-- A call that returns has applied what it had to. -/
theorem cronNodes_applies {r : Process n × NodeDict n × List (Fin n × Message)}
    (hcron : cronNodes cfg i seed inp p nodes = some r) : AppliesAll p := by
  unfold cronNodes at hcron
  rw [dictEachReleased_eq (nodesType_lawful seed) hw hcount] at hcron
  dsimp only [Option.bind_eq_bind, Option.bind_some] at hcron
  rw [(dialAll_keeps inp (nodes.entries.map Prod.snd) p).1] at hcron
  obtain ⟨server, hserver, -⟩ := Option.bind_eq_some_iff.mp hcron
  exact Option.isSome_iff_exists.mpr ⟨server, hserver⟩

/-- **A call that does not make the server leader** gives the table back as it was. -/
theorem cronNodes_stays (hne : dictSize nodes ≠ 0) (happly : AppliesAll p) (hstay : ¬ TakesLead inp p nodes) :
    ∃ p' sent, cronNodes cfg i seed inp p nodes = some (p', nodes, sent) := by
  obtain ⟨p₁, requests, hiff, hcron⟩ := cronNodes_timeout cfg i inp p hw hcount happly
  have hcandidate := (candidatePhase_nodes cfg i p₁ hw hcount).2 fun h => hstay (hiff.mp h)
  obtain ⟨p', sent, hleader⟩ := leaderPhase_nodes cfg i inp p₁ hw hcount hne
  refine ⟨p', requests ++ sent, ?_⟩
  rw [hcron, hcandidate, Option.bind_some]
  dsimp only
  rw [hleader]
  rfl

/-- **A call that makes the server leader** leaves an iterator open, if it gets to its end. -/
theorem cronNodes_leads (hne : dictSize nodes ≠ 0) (happly : AppliesAll p) (hlead : TakesLead inp p nodes) :
    ∀ r, cronNodes cfg i seed inp p nodes = some r → r.2.1.iterators = nodes.iterators + 1 := by
  intro r hr
  obtain ⟨p₁, requests, hiff, hcron⟩ := cronNodes_timeout cfg i inp p hw hcount happly
  obtain ⟨p₂, hcandidate, hstate⟩ := (candidatePhase_nodes cfg i p₁ hw hcount).1 (hiff.mpr hlead)
  rw [hcron, hcandidate, Option.bind_some] at hr
  by_cases hcount' : nodes.iterators + 1 + 1 < 2 ^ 31
  · have hw' : ({ nodes with iterators := nodes.iterators + 1 } : NodeDict n).Wf (nodesType seed) :=
      ⟨hw.table, hw.idle, hw.range, hw.moved, hw.distinct⟩
    obtain ⟨p', sent, hleader⟩ := leaderPhase_nodes cfg i inp p₂ hw' hcount' hne
    dsimp only at hr
    rw [hleader] at hr
    cases hr
    rfl
  · dsimp only at hr
    rw [leaderPhase_overflow cfg i inp p₂ hcount' hstate] at hr
    cases hr

end

/-! ## Runs -/

/-- What happens to a server with its table of nodes: an event of the process, or a lookup of a name. -/
inductive CronEvent (n : Nat) where
  | event (ev : ProcessEvent n)
  | lookup (name : SdsKey)

/-- One event. -/
def nodeStep (cfg : Config n) (i : Fin n) (seed : UInt32) (s : Process n × NodeDict n) :
    CronEvent n → Option (Process n × NodeDict n)
  | .event (.tick inp) => (cronNodes cfg i seed inp s.1 s.2).map fun (p, nodes, _) => (p, nodes)
  | .event ev => (s.1.step cfg i ev).map fun (p, _) => (p, s.2)
  | .lookup name => (dictFind (nodesType seed) s.2 name).map fun (nodes, _) => (s.1, nodes)

/-- The event does not make the server leader. -/
def CronEvent.Stays (s : Process n × NodeDict n) : CronEvent n → Prop
  | .event (.tick inp) => ¬ TakesLead inp s.1 s.2
  | _ => True

/-- No iterator is open, and the table has the server's own node. -/
structure Idle (seed : UInt32) (nodes : NodeDict n) : Prop where
  wf : nodes.Wf (nodesType seed)
  nonempty : dictSize nodes ≠ 0
  closed : nodes.iterators = 0

theorem Idle.step {cfg : Config n} {i : Fin n} {seed : UInt32} {s s' : Process n × NodeDict n} {ev : CronEvent n}
    (hs : Idle seed s.2) (hstay : ev.Stays s) (hstep : nodeStep cfg i seed s ev = some s') : Idle seed s'.2 := by
  cases ev with
  | lookup name =>
    obtain ⟨r, hfind, rfl⟩ := Option.map_eq_some_iff.mp hstep
    obtain ⟨d', o, hfind', hmoved, -, -⟩ := dictFind_spec (nodesType_lawful seed) hs.wf name
    obtain rfl : (d', o) = r := Option.some.inj (hfind'.symm.trans hfind)
    refine ⟨hmoved.wf, ?_, (dictFind_iterators hfind).trans hs.closed⟩
    rw [dictSize_eq hmoved.wf, hmoved.perm.length_eq, ← dictSize_eq hs.wf]
    exact hs.nonempty
  | event ev =>
    cases ev with
    | tick inp =>
      obtain ⟨r, hcron, rfl⟩ := Option.map_eq_some_iff.mp hstep
      have hcount : s.2.iterators + 1 < 2 ^ 31 := by
        rw [hs.closed]
        decide
      obtain ⟨p', sent, hcron'⟩ := cronNodes_stays cfg i inp s.1 hs.wf hcount hs.nonempty (cronNodes_applies cfg i inp s.1 hs.wf hcount hcron) hstay
      obtain rfl : (p', s.2, sent) = r := Option.some.inj (hcron'.symm.trans hcron)
      exact hs
    | _ =>
      simp only [nodeStep, Option.map_eq_some_iff] at hstep
      obtain ⟨r, -, rfl⟩ := hstep
      exact hs

/-- **The iterators of the timer.** For every state of the server and every table of nodes, a call whose log entries can be
    applied leaves the number of open iterators as it was exactly if there is room for one more and the call does not make the
    server leader. In every run without such a call no iterator is open between two events, and a step of incremental
    rehashing is made when one is due. -/
theorem cron_iterators (cfg : Config n) (i : Fin n) (seed : UInt32) :
    (∀ (inp : TickInput n) (p : Process n) (nodes : NodeDict n), nodes.Wf (nodesType seed) → dictSize nodes ≠ 0 →
      AppliesAll p →
      ((∃ p' nodes' sent, cronNodes cfg i seed inp p nodes = some (p', nodes', sent) ∧ nodes'.iterators = nodes.iterators) ↔
        nodes.iterators + 1 < 2 ^ 31 ∧ ¬ TakesLead inp p nodes)) ∧
    ∀ s s' : Process n × NodeDict n, Idle seed s.2 → RunBy (nodeStep cfg i seed) (fun s ev => ev.Stays s) s s' →
      s'.2.iterators = 0 ∧
        dictRehashStep (nodesType seed) s'.2 = (dictRehash (nodesType seed) s'.2 1).map Prod.fst := by
  refine ⟨fun inp p nodes hw hne happly => ⟨?_, ?_⟩, fun s s' hs hrun => ?_⟩
  · rintro ⟨p', nodes', sent, hcron, hsame⟩
    have hcount : nodes.iterators + 1 < 2 ^ 31 := by
      by_contra hfull
      rw [cronNodes_overflow cfg i inp p hfull] at hcron
      cases hcron
    refine ⟨hcount, fun hlead => ?_⟩
    have hopen : nodes'.iterators = nodes.iterators + 1 := cronNodes_leads cfg i inp p hw hcount hne happly hlead _ hcron
    omega
  · rintro ⟨hcount, hstay⟩
    obtain ⟨p', sent, hcron⟩ := cronNodes_stays cfg i inp p hw hcount hne happly hstay
    exact ⟨p', nodes, sent, hcron, rfl⟩
  · have hidle : Idle seed s'.2 :=
      hrun.invariant (P := fun s => Idle seed s.2) (fun _ _ _ hstay hstep hs => hs.step hstay hstep) hs
    exact ⟨hidle.closed, dictRehashStep_open hidle.closed⟩

/-- The names of three nodes, added to an empty table. -/
def threeNames : List (DictOp SdsKey (Fin 3)) :=
  [.add true ⟨[97], by decide⟩ 0, .add true ⟨[98], by decide⟩ 1, .add true ⟨[99], by decide⟩ 2]

/-- A tick shortly after the last one, with no peer to connect to. -/
def quietInput : TickInput 3 :=
  ⟨0, 0, 150, 50, fun _ => false, fun _ => 0, 0, fun _ => 0, fun _ => 0⟩

/-- A server that has just come up. -/
def freshProcess : Process 3 := Process.boot true 0 LogState.empty 0 ⟨fun _ => ⟨0, 0, none, 0, 0⟩, fun _ => 0⟩

/-- A candidate that a peer has voted for. -/
def wonElection : Process 3 :=
  freshProcess.setCluster { freshProcess.server.cluster with state := .candidate, currentTerm := 1, votesGranted := 2 }

/-- A tick with every peer within reach and every heartbeat due. -/
def busyInput : TickInput 3 :=
  ⟨100, 0, 150, 50, fun _ => true, fun _ => 0, 100, fun _ => 100, fun _ => 100⟩

/-- A leader whose entry has reached its peers. -/
def leadingProcess : Process 3 :=
  freshProcess.setCluster { freshProcess.server.cluster with
    state := .leader, currentTerm := 1, log := logAppend .empty (setA 1 1),
    nodes := fun j => ⟨none, 2, if j = 0 then 0 else 1⟩ }

/-- The leader dials its peers, commits the entry and sends two heartbeats. -/
theorem cron_iterators_leader :
    ∃ nodes m, DictRun (nodesType 5381) nodes m ∧ nodes.iterators = 0 ∧
      ∃ p' nodes' sent, cronNodes threeServers 0 5381 busyInput leadingProcess nodes = some (p', nodes', sent) ∧
        nodes'.iterators = nodes.iterators ∧ p'.server.cluster.commitIndex = 1 ∧ sent.length = 2 := by
  obtain ⟨⟨nodes, m⟩, hrun, hvalues⟩ := run_of_exec (dictStep (nodesType 5381)) (fun s op => op.Small (nodesType 5381) s.1)
    (dictCreate, fun _ => none) threeNames
    (fun s => (s.1.iterators, dictSize s.1, decide (TakesLead busyInput leadingProcess s.1),
      (cronNodes threeServers 0 5381 busyInput leadingProcess s.1).map fun r =>
        (r.1.server.cluster.commitIndex, r.2.2.length))) (0, 3, false, some (1, 2)) (by decide +kernel)
  simp only [Prod.mk.injEq] at hvalues
  obtain ⟨hclosed, hsize, hstay, hcron⟩ := hvalues
  have hw := (DictRun.inv (nodesType_lawful 5381) hrun).1
  obtain ⟨p', nodes', sent, hcron', hsame⟩ :=
    ((cron_iterators threeServers 0 5381).1 busyInput leadingProcess nodes hw (by omega) rfl).mpr
      ⟨by omega, of_decide_eq_false hstay⟩
  rw [hcron'] at hcron
  obtain ⟨hcommit, hsent⟩ := Prod.mk.inj (Option.some.inj hcron)
  exact ⟨nodes, m, hrun, hclosed, p', nodes', sent, hcron', hsame, hcommit, hsent⟩

theorem candidatePhase_eq_won : ∃ nodes : NodeDict 3, (candidatePhase threeServers 0 5381 wonElection nodes).map Prod.fst =
    some (wonElection.setCluster (becomeLeaderAt threeServers 0 wonElection.skipped wonElection.server.cluster)) := by
  obtain ⟨⟨nodes, m⟩, hrun, hvalues⟩ := run_of_exec (dictStep (nodesType 5381)) (fun s op => op.Small (nodesType 5381) s.1)
    (dictCreate, fun _ => none) threeNames
    (fun s => (s.1.iterators, decide ((s.1.entries.map Prod.snd).Perm (List.finRange 3)))) (0, true) (by decide +kernel)
  obtain ⟨hclosed, hall⟩ := Prod.mk.inj hvalues
  exact ⟨nodes, candidatePhase_eq _ _ (DictRun.inv (nodesType_lawful 5381) hrun).1 (by dsimp only at hclosed; omega)
    (of_decide_eq_true hall)⟩

/-- The winner of an election leaves an iterator open. -/
theorem cron_iterators_leak :
    ∃ nodes m, DictRun (nodesType 5381) nodes m ∧ nodes.iterators = 0 ∧
      ∃ p' nodes' sent, cronNodes threeServers 0 5381 quietInput wonElection nodes = some (p', nodes', sent) ∧
        nodes'.iterators = 1 := by
  obtain ⟨⟨nodes, m⟩, hrun, hvalues⟩ := run_of_exec (dictStep (nodesType 5381)) (fun s op => op.Small (nodesType 5381) s.1)
    (dictCreate, fun _ => none) threeNames
    (fun s => (s.1.iterators, (cronNodes threeServers 0 5381 quietInput wonElection s.1).map fun r => r.2.1.iterators))
    (0, some 1) (by decide +kernel)
  obtain ⟨hclosed, hcron⟩ := Prod.mk.inj hvalues
  obtain ⟨⟨p', nodes', sent⟩, hcron, hopen⟩ := Option.map_eq_some_iff.mp hcron
  exact ⟨nodes, m, hrun, hclosed, p', nodes', sent, hcron, hopen⟩

end Prez
