import Prez.Refinement

/-!
# `Prez.Client.Pending` — clients that wait for an index

A leader that takes a write puts its client into `proc_clients` under the index of the entry, and
`logApply` looks there for the client to run and answer. This module follows one client from the write to
the reply. `clusterCron` is taken apart for that: each turn of its apply loop is a step of its own, so that
a statement can speak of the state in which an index is applied.

`Owing` runs a node together with the list of the indices that are owed a reply, kept by the rules of the
protocol and not by the table. `write_replied` says that the table agrees with that list, as long as the
steps meet `ReplyOk`; `pending_clients_live` says which disconnects leave only live clients in the table.
-/

namespace Prez

open Lib

variable {n : Nat} {cfg : Config n} {i : Fin n}

/-! ## Single steps -/

/-- What happens at a node, requests apart. -/
inductive CoreEvent (n : Nat) where
  /-- one turn of the loop of `clusterCron` that applies the log -/
  | apply
  /-- the rest of `clusterCron` -/
  | tail (inp : CronInput n)
  | connect
  | disconnect (id : Nat)
  | message (j : Fin n) (msg : Message) (fsync : Bool)

/-- One turn of the apply loop. -/
def Server.applyNext (s : Server n) : Option (Server n) :=
  logApply { s with cluster := { s.cluster with lastApplied := s.cluster.lastApplied + 1 } } (s.cluster.lastApplied + 1)

def Server.core (cfg : Config n) (i : Fin n) (s : Server n) : CoreEvent n → Option (Server n)
  | .apply => if s.cluster.lastApplied < s.cluster.commitIndex then s.applyNext else none
  | .tail inp =>
    if s.cluster.commitIndex ≤ s.cluster.lastApplied then
      some { s with cluster := (clusterCronTail cfg i inp s.cluster).1 }
    else none
  | .connect => s.next cfg i (.event .connect)
  | .disconnect id => s.next cfg i (.event (.disconnect id))
  | .message j msg fsync => s.next cfg i (.message j msg fsync)

/-- What happens at a node, with whole requests. -/
inductive FineEvent (n : Nat) where
  | core (a : CoreEvent n)
  | request (id : Nat) (kind : ReqType) (argv : List Bytes)

def Server.fine (cfg : Config n) (i : Fin n) (s : Server n) : FineEvent n → Option (Server n)
  | .core a => s.core cfg i a
  | .request id kind argv => processRequest s id kind argv

/-- The single step of an event that is one; `clusterCron` is not. -/
def NodeEvent.single? : NodeEvent n → Option (FineEvent n)
  | .event (.cron _) => none
  | .event .connect => some (.core .connect)
  | .event (.request id kind argv) => some (.request id kind argv)
  | .event (.disconnect id) => some (.core (.disconnect id))
  | .message j msg fsync => some (.core (.message j msg fsync))

section

variable {ok : Server n → FineEvent n → Prop}

/-- The apply loop, turn by turn. -/
theorem applyLoop_run (hok : ∀ s : Server n, ok s (.core .apply)) : ∀ {count : Nat} {s s' : Server n},
    count ≤ (s.cluster.commitIndex - s.cluster.lastApplied).toNat → applyLoop count s = some s' →
    RunBy (Server.fine cfg i) ok s s' ∧
      s'.cluster = { s.cluster with lastApplied := s.cluster.lastApplied + count } := by
  intro count
  induction count with
  | zero =>
    intro s s' _ h
    cases h
    exact ⟨.refl, by simp⟩
  | succ count ih =>
    intro s s' hle h
    obtain ⟨s₁, h₁, h⟩ := Option.bind_eq_some_iff.mp h
    have hcluster := (logApply_cluster h₁).1
    have hstep : s.fine cfg i (.core .apply) = some s₁ := by
      rw [Server.fine, Server.core, if_pos (by omega)]
      exact h₁
    obtain ⟨hrun, hlast⟩ := ih (by rw [hcluster]; dsimp only; omega) h
    refine ⟨.head ⟨_, hok s, hstep⟩ hrun, ?_⟩
    rw [hlast, hcluster]
    simp only [Nat.cast_add, Nat.cast_one]
    congr 1
    omega

/-- Every event of a node is a run of single steps. -/
theorem fine_of_next {s s' : Server n} {a : NodeEvent n} (happly : ∀ s : Server n, ok s (.core .apply))
    (htail : ∀ (s : Server n) inp, ok s (.core (.tail inp))) (hsingle : ∀ b, a.single? = some b → ok s b)
    (h : s.next cfg i a = some s') : RunBy (Server.fine cfg i) ok s s' := by
  have hone : ∀ b, a.single? = some b → s.fine cfg i b = some s' → RunBy (Server.fine cfg i) ok s s' :=
    fun b hb hs => .single ⟨b, hsingle b hb, hs⟩
  cases a with
  | message j msg fsync => exact hone _ rfl h
  | event e =>
    cases e with
    | connect => exact hone _ rfl h
    | disconnect id => exact hone _ rfl h
    | request id kind argv =>
      refine hone _ rfl ?_
      obtain ⟨⟨s₁, out⟩, h₁, rfl⟩ := Option.map_eq_some_iff.mp h
      obtain ⟨s₂, h₂, heq⟩ := Option.map_eq_some_iff.mp h₁
      cases heq
      exact h₂
    | cron inp =>
      obtain ⟨⟨s₁, out⟩, h₁, rfl⟩ := Option.map_eq_some_iff.mp h
      obtain ⟨s₂, h₂, heq⟩ := Option.map_eq_some_iff.mp h₁
      have hs₁ : { s₂ with cluster := (clusterCronTail cfg i inp s₂.cluster).1 } = s₁ := congrArg Prod.fst heq
      obtain ⟨hrun, hlast⟩ := applyLoop_run (i := i) happly le_rfl h₂
      refine hrun.tail ⟨.core (.tail inp), htail s₂ inp, ?_⟩
      rw [Server.fine, Server.core, if_pos (by rw [hlast]; dsimp only; omega), hs₁]

/-- **Runs of a node are runs of single steps**, under a condition that asks nothing of `clusterCron`. -/
theorem fine_of_run {s s' : Server n} (happly : ∀ s : Server n, ok s (.core .apply))
    (htail : ∀ (s : Server n) inp, ok s (.core (.tail inp)))
    (hr : NodeRunIf cfg i (fun s a => ∀ b, a.single? = some b → ok s b) s s') : RunBy (Server.fine cfg i) ok s s' := by
  induction hr with
  | refl => exact .refl
  | tail _ hstep ih =>
    obtain ⟨a, ha, hs⟩ := hstep
    exact ih.trans (fine_of_next happly htail ha hs)

end

/-! ## What a step does to clients and table -/

/-- The client is run, answered and reset, and its index leaves the table. -/
structure Called (s s' : Server n) (index : Int) (id : Nat) : Prop where
  waiting : s.procClients.lookup index = some id
  client : ∃ c r, s.clients id = some c ∧ (∀ cmd, c.cmd = some cmd → r = replies s.db cmd.proc c.argv) ∧
    s'.clients = Function.update s.clients id (some (resetClient { c with reply := c.reply ++ r }))
  table : s'.procClients = s.procClients.filter fun p => p.1 ≠ index

/-- Clients and table stay as they are. -/
structure Untouched (s s' : Server n) : Prop where
  clients : s'.clients = s.clients
  nextClient : s'.nextClient = s.nextClient
  procClients : s'.procClients = s.procClients

variable {s s' : Server n} {id : Nat}

theorem call_spec (h : call s id = some s') :
    s'.nextClient = s.nextClient ∧ s'.procClients = s.procClients ∧
      ∃ c r, s.clients id = some c ∧ (∀ cmd, c.cmd = some cmd → r = replies s.db cmd.proc c.argv) ∧
        s'.clients = Function.update s.clients id (some (resetClient { c with reply := c.reply ++ r })) := by
  obtain ⟨c, hc, rfl⟩ := Option.map_eq_some_iff.mp h
  cases hcmd : c.cmd with
  | none => exact ⟨rfl, rfl, c, [], hc, by rw [hcmd]; exact nofun, by rw [List.append_nil]; rfl⟩
  | some cmd =>
    refine ⟨rfl, rfl, c, replies s.db cmd.proc c.argv, hc, fun cmd' h => ?_, rfl⟩
    rw [hcmd] at h
    cases h
    rfl

/-- The client that the next turn of the apply loop calls. -/
def Server.called (s : Server n) : Option Nat :=
  (getLogEntry s.cluster.log (s.cluster.lastApplied + 1)).bind fun _ => waitingClient s (s.cluster.lastApplied + 1)

/-- **One turn of the apply loop.** The cluster state moves on by one index. A leader calls the client that is
    in the table under that index, if there is an entry; nothing else is done to any client. -/
theorem applyNext_cases (h : s.applyNext = some s') :
    s'.cluster = { s.cluster with lastApplied := s.cluster.lastApplied + 1 } ∧ s'.nextClient = s.nextClient ∧
      (s.called = none ∧ Untouched s s' ∨
        ∃ id, s.called = some id ∧ Called s s' (s.cluster.lastApplied + 1) id) := by
  have hcluster := (logApply_cluster h).1
  refine ⟨hcluster, ?_⟩
  unfold Server.applyNext logApply at h
  dsimp only at h
  unfold Server.called
  split at h
  · rename_i hentry
    cases h
    exact ⟨rfl, .inl ⟨by rw [hentry]; rfl, rfl, rfl, rfl⟩⟩
  · rename_i en hentry
    rw [hentry, Option.bind_some]
    split at h
    · rename_i id hwait
      obtain ⟨s₁, h₁, rfl⟩ := Option.map_eq_some_iff.mp h
      obtain ⟨hnext, htable, hclient⟩ := call_spec h₁
      refine ⟨hnext, .inr ⟨id, hwait, ?_, hclient, by rw [← htable]⟩⟩
      unfold waitingClient at hwait
      split at hwait
      · exact hwait
      · cases hwait
    · rename_i hwait
      cases applyText_eq h
      exact ⟨rfl, .inl ⟨hwait, rfl, rfl, rfl⟩⟩

theorem clusterProcessAppendEntries_lastApplied {x y : ClusterState n} {entries : AppendEntries} {fsync : Bool}
    {response : ResponseAppendEntries} (h : clusterProcessAppendEntries x entries fsync = some (y, response)) :
    y.lastApplied = x.lastApplied := by
  obtain ⟨-, rfl⟩ | ⟨-, log, commitIndex, rfl⟩ := clusterProcessAppendEntries_frame h
  · rfl
  · exact followLeader_lastApplied ..

/-- A message changes the cluster state alone, and not `last_applied`. -/
theorem receive_cluster {j : Fin n} {msg : Message} {fsync : Bool} (h : (s.receive j msg fsync).map (·.1) = some s') :
    ∃ x : ClusterState n, s' = { s with cluster := x } ∧ x.lastApplied = s.cluster.lastApplied := by
  obtain ⟨⟨s₁, response⟩, h₁, rfl⟩ := Option.map_eq_some_iff.mp h
  cases msg with
  | requestVote vote =>
    cases h₁
    exact ⟨_, rfl, (StepsBack.requestVote ..).lastApplied⟩
  | responseVote vote =>
    cases h₁
    exact ⟨_, rfl, (StepsBack.responseVote ..).lastApplied⟩
  | appendEntries entries =>
    obtain ⟨⟨x, r⟩, hx, heq⟩ := Option.map_eq_some_iff.mp h₁
    cases heq
    exact ⟨x, rfl, clusterProcessAppendEntries_lastApplied hx⟩
  | responseAppendEntries entries =>
    cases h₁
    exact ⟨_, rfl, (StepsBack.responseAppendEntries ..).lastApplied⟩

/-- The only write command is `set`. -/
theorem eq_setCmd_of_isWrite {argv : List Bytes} {cmd : PrezCommand} (hwrite : isWrite argv = true)
    (hcheck : checkCommand argv = some cmd) : cmd = setCmd := by
  rw [isWrite, hcheck] at hwrite
  cases argv with
  | nil => cases hcheck
  | cons name args =>
    rcases lookupCommand_mem (Option.filter_eq_some_iff.mp hcheck).1 with rfl | rfl | rfl
    · cases hwrite
    · rfl
    · cases hwrite

/-- In a cluster of more than one node the client joins the table, unless somebody has its place. -/
theorem clusterProcessCommand_waits {cmd : PrezCommand} {argv : List Bytes} (hn : n ≠ 1)
    (hnone : s.procClients.lookup (logCurrentIndex s.cluster.log + 1) = none)
    (h : clusterProcessCommand s id cmd argv = some s') :
    ∃ log, s' = { s with cluster := { s.cluster with log },
                         procClients := (logCurrentIndex s.cluster.log + 1, id) :: s.procClients } := by
  obtain ⟨name, -, h⟩ := Option.bind_eq_some_iff.mp h
  obtain ⟨command, -, h⟩ := Option.bind_eq_some_iff.mp h
  obtain ⟨log, -, h⟩ := Option.bind_eq_some_iff.mp h
  rw [if_neg hn] at h
  cases h
  exact ⟨log, if_pos hnone⟩

/-! ## What is owed -/

/-- A node and the writes it took as leader: the index of each and the client it took it from, as long as the
    node stays leader, the client stays connected and the index is not applied. -/
structure Owing (n : Nat) where
  server : Server n
  owed : List (Int × Nat)

/-- What is owed after an event, the role apart. -/
def Owing.after (o : Owing n) : FineEvent n → List (Int × Nat)
  | .request id _ argv =>
    if o.server.cluster.state = .leader ∧ isWrite argv = true then
      (logCurrentIndex o.server.cluster.log + 1, id) :: o.owed
    else o.owed
  | .core .apply => o.owed.filter fun p => p.1 ≠ o.server.cluster.lastApplied + 1
  | .core (.disconnect id) => o.owed.filter fun p => p.2 ≠ id
  | .core _ => o.owed

def Owing.next (cfg : Config n) (i : Fin n) (o : Owing n) (a : FineEvent n) : Option (Owing n) :=
  (o.server.fine cfg i a).map fun s => ⟨s, if s.cluster.state = .leader then o.after a else []⟩

/-- A leader does not hear from a client that waits. A write it takes is a `set` of three arguments, the node
    is not alone, and nobody stands in the table under the index of the new entry. -/
def ReplyOk (s : Server n) : FineEvent n → Prop
  | .request id _ argv => s.cluster.state = .leader →
      ¬ Waits s id ∧ (isWrite argv = true → n ≠ 1 ∧ argv.length = 3 ∧
        s.procClients.lookup (logCurrentIndex s.cluster.log + 1) = none)
  | .core _ => True

/-- A run of a node with what it owes, whose steps all meet `ReplyOk`. -/
abbrev OwingRun (cfg : Config n) (i : Fin n) : Owing n → Owing n → Prop :=
  RunBy (Owing.next cfg i) fun o => ReplyOk o.server

/-- Every run of single steps that meet the condition is a run with what is owed. -/
theorem owing_of_run (hr : RunBy (Server.fine cfg i) ReplyOk s s') (owed : List (Int × Nat)) :
    ∃ owed', OwingRun cfg i ⟨s, owed⟩ ⟨s', owed'⟩ := by
  induction hr with
  | refl => exact ⟨owed, .refl⟩
  | @tail s₁ s₂ _ hstep ih =>
    obtain ⟨a, ha, hs⟩ := hstep
    obtain ⟨owed₁, hr₁⟩ := ih
    have hnext : Owing.next cfg i ⟨s₁, owed₁⟩ a =
        some ⟨s₂, if s₂.cluster.state = .leader then Owing.after ⟨s₁, owed₁⟩ a else []⟩ := by
      rw [Owing.next, hs, Option.map_some]
    exact ⟨_, hr₁.tail ⟨a, ha, hnext⟩⟩

/-- The runs of the node itself are among them. -/
theorem owing_of_node_run (hr : NodeRunIf cfg i (fun s a => ∀ b, a.single? = some b → ReplyOk s b) s s')
    (owed : List (Int × Nat)) : ∃ owed', OwingRun cfg i ⟨s, owed⟩ ⟨s', owed'⟩ :=
  owing_of_run (fine_of_run (fun _ => trivial) (fun _ _ => trivial) hr) owed

instance (s : Server n) : ∀ a, Decidable (ReplyOk s a)
  | .request _ _ _ => inferInstanceAs (Decidable (_ → _))
  | .core _ => isTrue trivial

/-! ## The table agrees -/

/-- The client is in the table, holds a `set` of three arguments and is there for no other index. -/
structure Debt (s : Server n) (index : Int) (id : Nat) : Prop where
  listed : s.procClients.lookup index = some id
  holds : ∃ c, s.clients id = some c ∧ c.cmd = some setCmd ∧ c.argv.length = 3
  alone : ∀ p ∈ s.procClients, s.cluster.lastApplied < p.1 → p.2 = id → p.1 = index

theorem Debt.waits {s : Server n} {index : Int} (h : Debt s index id) (hlt : s.cluster.lastApplied < index) :
    Waits s id := ⟨_, mem_of_lookup h.listed, hlt, rfl⟩

/-- What a step must leave alone. -/
theorem Debt.keep {index : Int} (h : Debt s index id) (hla : s.cluster.lastApplied ≤ s'.cluster.lastApplied)
    (hclient : s'.clients id = s.clients id) (hlisted : s'.procClients.lookup index = s.procClients.lookup index)
    (htable : ∀ p ∈ s'.procClients, p.2 = id → p ∈ s.procClients) : Debt s' index id where
  listed := hlisted.trans h.listed
  holds := by
    rw [hclient]
    exact h.holds
  alone p hp hlt heq := h.alone p (htable p hp heq) (by omega) heq

/-- The table and the list agree. -/
structure OwingInv (o : Owing n) : Prop where
  ids : ∀ id c, o.server.clients id = some c → id < o.server.nextClient
  leader : o.owed ≠ [] → o.server.cluster.state = .leader
  debts : ∀ p ∈ o.owed, o.server.cluster.lastApplied < p.1 → Debt o.server p.1 p.2

theorem OwingInv.boot (nodes : Fin n → ClusterNode) (log : LogState) :
    OwingInv ⟨Server.boot (clusterInit nodes log), []⟩ where
  ids _ _ h := nomatch h
  leader h := absurd rfl h
  debts _ h := nomatch h

theorem lookup_filter_ne {table : List (Int × Nat)} {index k : Int} (hne : index ≠ k) :
    (table.filter fun p => p.1 ≠ k).lookup index = table.lookup index := by
  induction table with
  | nil => rfl
  | cons p table ih =>
    obtain ⟨j, id⟩ := p
    by_cases hj : j = k
    · subst hj
      rw [List.filter_cons_of_neg (by simp), ih, List.lookup_cons, beq_false_of_ne hne]
    · rw [List.filter_cons_of_pos (by simpa using hj), List.lookup_cons, List.lookup_cons, ih]

namespace OwingInv

variable {o : Owing n} {s' : Server n}

/-- Applying an index leaves alone what is owed for later ones. -/
theorem apply (hi : OwingInv o) (h : o.server.applyNext = some s') :
    (∀ id c, s'.clients id = some c → id < s'.nextClient) ∧
      ∀ p ∈ o.owed, s'.cluster.lastApplied < p.1 → Debt s' p.1 p.2 := by
  obtain ⟨hcluster, hnext, hcases⟩ := applyNext_cases h
  have hla : s'.cluster.lastApplied = o.server.cluster.lastApplied + 1 := by rw [hcluster]
  rw [hnext, hla]
  rcases hcases with ⟨-, hsame⟩ | ⟨id, -, hcalled⟩
  · refine ⟨by rw [hsame.clients]; exact hi.ids, fun p hp hlt => ?_⟩
    refine (hi.debts p hp (by omega)).keep (by omega) (by rw [hsame.clients]) (by rw [hsame.procClients]) ?_
    rw [hsame.procClients]
    exact fun q hq _ => hq
  · obtain ⟨c, r, hc, -, hclients⟩ := hcalled.client
    refine ⟨fun id' c' hc' => ?_, fun p hp hlt => ?_⟩
    · rw [hclients] at hc'
      by_cases heq : id' = id
      · rw [heq]
        exact hi.ids id c hc
      · rw [Function.update_of_ne heq] at hc'
        exact hi.ids id' c' hc'
    · have hdebt := hi.debts p hp (by omega)
      -- the client that is called waits for the index applied, and for no other
      have hne : p.2 ≠ id := fun heq => by
        have hindex := hdebt.alone _ (mem_of_lookup hcalled.waiting) (by dsimp only; omega) heq.symm
        dsimp only at hindex
        omega
      refine hdebt.keep (by omega) (by rw [hclients, Function.update_of_ne hne]) ?_ ?_
      · rw [hcalled.table, lookup_filter_ne (by omega)]
      · rw [hcalled.table]
        exact fun q hq _ => List.mem_of_mem_filter hq

variable {id : Nat}

/-- A request of a client that does not wait leaves alone what is owed to others. -/
theorem setClient (hi : OwingInv o) (hfree : ¬ Waits o.server id) (c : Client) :
    ∀ p ∈ o.owed, o.server.cluster.lastApplied < p.1 → Debt (o.server.setClient id c) p.1 p.2 := by
  intro p hp hlt
  have hdebt := hi.debts p hp hlt
  have hne : p.2 ≠ id := fun heq => hfree (heq ▸ hdebt.waits hlt)
  exact hdebt.keep le_rfl (Function.update_of_ne hne ..) rfl fun q hq _ => hq

theorem setClient_ids (hi : OwingInv o) {c₀ : Client} (hc₀ : o.server.clients id = some c₀) (c : Client) :
    ∀ id' c', (o.server.setClient id c).clients id' = some c' → id' < o.server.nextClient := by
  intro id' c' hc'
  by_cases heq : id' = id
  · rw [heq]
    exact hi.ids id c₀ hc₀
  · exact hi.ids id' c' ((Function.update_of_ne heq ..).symm.trans hc')

/-- The cluster state changes, `last_applied` does not. -/
theorem still (hi : OwingInv o) {x : ClusterState n} (hla : x.lastApplied = o.server.cluster.lastApplied) :
    ∀ p ∈ o.owed, x.lastApplied < p.1 → Debt { o.server with cluster := x } p.1 p.2 := by
  intro p hp hlt
  rw [hla] at hlt
  exact (hi.debts p hp hlt).keep hla.ge rfl rfl fun q hq _ => hq

/-- A write that is taken adds its own debt. -/
theorem write (hi : OwingInv o) {c : Client} (hfree : ¬ Waits o.server id) (hcmd : c.cmd = some setCmd)
    (hlen : c.argv.length = 3) {index : Int} (hnone : o.server.procClients.lookup index = none) (log : LogState)
    {p : Int × Nat} (hp : p ∈ (index, id) :: o.owed) (hlt : o.server.cluster.lastApplied < p.1) :
    Debt { o.server.setClient id c with cluster := { o.server.cluster with log },
                                        procClients := (index, id) :: o.server.procClients } p.1 p.2 := by
  rcases List.mem_cons.mp hp with rfl | hp
  · refine ⟨by simp, ⟨c, Function.update_self .., hcmd, hlen⟩, fun q hq hql heq => ?_⟩
    rcases List.mem_cons.mp hq with rfl | hq
    · rfl
    · exact absurd ⟨q, hq, hql, heq⟩ hfree
  · have hne : p.2 ≠ id := fun heq => hfree (heq ▸ (hi.debts p hp hlt).waits hlt)
    have hindex : p.1 ≠ index := fun heq => by
      have := (hi.debts p hp hlt).listed
      rw [heq, hnone] at this
      cases this
    refine (hi.setClient hfree c p hp hlt).keep le_rfl rfl ?_ fun q hq heq => ?_
    · rw [List.lookup_cons, beq_false_of_ne hindex]
      rfl
    · rcases List.mem_cons.mp hq with rfl | hq
      · exact absurd heq.symm hne
      · exact hq

/-- **Every step that meets its condition keeps the agreement.** -/
theorem step {o' : Owing n} {a : FineEvent n} (hi : OwingInv o) (hok : ReplyOk o.server a)
    (hnext : o.next cfg i a = some o') : OwingInv o' := by
  obtain ⟨s', h, rfl⟩ := Option.map_eq_some_iff.mp hnext
  -- a node that is no leader owes nothing
  suffices hkeep : (∀ id c, s'.clients id = some c → id < s'.nextClient) ∧
      (s'.cluster.state = .leader → ∀ p ∈ o.after a, s'.cluster.lastApplied < p.1 → Debt s' p.1 p.2) by
    refine ⟨hkeep.1, fun hne => ?_, fun p hp => ?_⟩
    · by_contra hstate
      rw [if_neg hstate] at hne
      exact hne rfl
    · by_cases hstate : s'.cluster.state = .leader
      · rw [if_pos hstate] at hp
        exact hkeep.2 hstate p hp
      · rw [if_neg hstate] at hp
        cases hp
  cases a with
  | request id kind argv =>
    obtain ⟨⟨c₀, hc₀⟩, ⟨hnot, c, rfl⟩ | ⟨htakes, c, cmd, rfl, hcmd, hcheck, h⟩⟩ := processRequest_cases h
    · rw [show o.after (.request id kind argv) = o.owed from if_neg hnot]
      exact ⟨hi.setClient_ids hc₀ c, fun hleader => hi.setClient (hok hleader).1 c⟩
    · obtain ⟨hfree, hw⟩ := hok htakes.1
      obtain ⟨hn, hlen, hnone⟩ := hw htakes.2
      obtain ⟨log, rfl⟩ := clusterProcessCommand_waits (s := o.server.setClient id c) hn hnone h
      rw [eq_setCmd_of_isWrite htakes.2 hcheck] at hcmd
      rw [show o.after (.request id kind c.argv) = _ :: o.owed from if_pos htakes]
      exact ⟨hi.setClient_ids hc₀ c, fun _ p hp hlt => hi.write hfree hcmd hlen hnone log hp hlt⟩
  | core a =>
    cases a with
    | apply =>
      simp only [Server.fine, Server.core] at h
      split at h
      · obtain ⟨hids, hdebts⟩ := hi.apply h
        exact ⟨hids, fun _ p hp => hdebts p (List.mem_of_mem_filter hp)⟩
      · cases h
    | tail inp =>
      simp only [Server.fine, Server.core] at h
      split at h
      · cases h
        exact ⟨hi.ids, fun _ p hp hlt => hi.still (clusterCronTail_frame ..).2.1 p hp hlt⟩
      · cases h
    | connect =>
      cases h
      refine ⟨fun id c hc => ?_, fun _ p hp hlt => ?_⟩
      · by_cases heq : id = o.server.nextClient
        · rw [heq]
          exact Nat.lt_succ_self _
        · exact Nat.lt_succ_of_lt (hi.ids id c ((Function.update_of_ne heq ..).symm.trans hc))
      · have hdebt := hi.debts p hp hlt
        obtain ⟨c, hc, -⟩ := hdebt.holds
        have hne : p.2 ≠ o.server.nextClient := (hi.ids _ c hc).ne
        exact hdebt.keep le_rfl (Function.update_of_ne hne ..) rfl fun q hq _ => hq
    | disconnect id =>
      cases h
      refine ⟨fun id' c hc => ?_, fun _ p hp hlt => ?_⟩
      · by_cases heq : id' = id
        · subst heq
          exact nomatch (Function.update_self ..).symm.trans hc
        · exact hi.ids id' c ((Function.update_of_ne heq ..).symm.trans hc)
      · obtain ⟨hp, hne⟩ := List.mem_filter.mp hp
        refine (hi.debts p hp hlt).keep le_rfl (Function.update_of_ne ?_ ..) rfl fun q hq _ => hq
        simpa using hne
    | message j msg fsync =>
      obtain ⟨x, rfl, hla⟩ := receive_cluster h
      exact ⟨hi.ids, fun _ p hp hlt => hi.still hla p hp hlt⟩

end OwingInv

/-! ## The reply -/

/-- Applying an index that is owed answers its client. -/
theorem Debt.reply {s : Server n} {en : LogEntryNode} (h : Debt s (s.cluster.lastApplied + 1) id)
    (hleader : s.cluster.state = .leader) (hentry : getLogEntry s.cluster.log (s.cluster.lastApplied + 1) = some en) :
    ∃ s' c, s.applyNext = some s' ∧ s.clients id = some c ∧
      s'.clients = Function.update s.clients id (some (resetClient { c with reply := c.reply ++ [ascii "+OK\r\n"] })) := by
  obtain ⟨c, hc, hcmd, hlen⟩ := h.holds
  have hreplies : replies s.db setCmd.proc c.argv = [ascii "+OK\r\n"] := by
    simp only [replies, setCmd, hlen, ne_eq, not_true_eq_false, if_false, List.nil_append]
  unfold Server.applyNext logApply
  simp only [hentry, waitingClient, hleader, if_true, h.listed, call, hc, Option.map_some, hcmd, hreplies]
  exact ⟨_, c, rfl, rfl, rfl⟩

/-- **Every replicated write is answered.** In a run whose steps all meet `ReplyOk`: when `logApply` gets to an
    index whose entry was written for a client that is still connected, and the node has been leader since, that
    client gets one reply and is reset, and nothing happens to any other client. -/
theorem write_replied (cfg : Config n) (i : Fin n) (nodes : Fin n → ClusterNode) (log : LogState) (o : Owing n)
    (hr : OwingRun cfg i ⟨Server.boot (clusterInit nodes log), []⟩ o) (id : Nat)
    (howed : (o.server.cluster.lastApplied + 1, id) ∈ o.owed)
    (hcommit : o.server.cluster.lastApplied < o.server.cluster.commitIndex) (en : LogEntryNode)
    (hentry : getLogEntry o.server.cluster.log (o.server.cluster.lastApplied + 1) = some en) :
    ∃ s' c, o.server.fine cfg i (.core .apply) = some s' ∧ o.server.clients id = some c ∧
      s'.clients = Function.update o.server.clients id
        (some (resetClient { c with reply := c.reply ++ [ascii "+OK\r\n"] })) := by
  have hi : OwingInv o := hr.invariant (fun _ _ _ hok h hi => hi.step hok h) (.boot nodes log)
  have hdebt := hi.debts _ howed (by dsimp only; omega)
  obtain ⟨s', c, happly, hc, hclients⟩ := hdebt.reply (hi.leader (List.ne_nil_of_mem howed)) hentry
  refine ⟨s', c, ?_, hc, hclients⟩
  simp only [Server.fine, Server.core, if_pos hcommit, happly]

def soloServer : Config 1 := letters 1 (by decide)

def setRequest (args : List String) : FineEvent n := .request 0 .inline (("set" :: args).map ascii)

/-- `clusterCron` behind the apply loop, as `cronEvent`. -/
def tailEvent (timeout : Bool) : FineEvent n := .core (.tail ⟨timeout, fun _ => true, fun _ => true⟩)

def grantEvent : FineEvent 3 := .core (.message 1 (.responseVote ⟨1, true⟩) true)

/-- The node is elected and a client connects. -/
def electedRun : List (FineEvent 3) := [tailEvent true, grantEvent, tailEvent false, .core .connect]

/-- The first entry reaches both peers and is committed. -/
def commitRun : List (FineEvent 3) :=
  [tailEvent false, .core (.message 1 (.responseAppendEntries ⟨1, 1, 0, true⟩) true),
    .core (.message 2 (.responseAppendEntries ⟨1, 1, 0, true⟩) true), tailEvent false]

/-- A node that has just come up without a log file and owes nothing. -/
def freshOwing (n : Nat) : Owing n := ⟨Server.boot (clusterInit (fun _ => ⟨none, 0, 0⟩) LogState.empty), []⟩

/-- The replies that client 0 has got. -/
def Server.firstReplies (s : Server n) : Option (List Bytes) := (s.clients 0).map (·.reply)

theorem write_replied_set :
    ∃ (o : Owing 3) (s' : Server 3), o.server.fine threeServers 0 (.core .apply) = some s' ∧
      o.server.firstReplies = some [] ∧ s'.firstReplies = some [ascii "+OK\r\n"] := by
  obtain ⟨o, hr, ho⟩ := run_of_exec (Owing.next threeServers 0) (fun o => ReplyOk o.server) (freshOwing 3)
    (electedRun ++ [setRequest ["a", "1"]] ++ commitRun)
    (fun o => decide ((o.server.cluster.lastApplied + 1, 0) ∈ o.owed ∧
      o.server.cluster.lastApplied < o.server.cluster.commitIndex ∧
      (getLogEntry o.server.cluster.log (o.server.cluster.lastApplied + 1)).isSome = true ∧
      o.server.firstReplies = some [])) true (by decide +kernel)
  obtain ⟨howed, hcommit, hentry, hnone⟩ := of_decide_eq_true ho
  obtain ⟨en, hen⟩ := Option.isSome_iff_exists.mp hentry
  obtain ⟨s', c, hs', hc, hclients⟩ := write_replied threeServers 0 _ _ o hr 0 howed hcommit en hen
  refine ⟨o, s', hs', hnone, ?_⟩
  rw [Server.firstReplies, hc] at hnone
  rw [Server.firstReplies, hclients, Function.update_self]
  simp only [Option.map_some, Option.some.injEq] at hnone ⊢
  rw [resetClient, hnone]
  rfl

/-- What was owed before a turn of the apply loop, the index applied and the replies of client 0 after it. -/
structure TurnView where
  owed : List (Int × Nat)
  index : Int
  replies : Option (List Bytes)
deriving DecidableEq

def applyView (cfg : Config n) (i : Fin n) (o : Owing n) : Option TurnView :=
  (o.server.fine cfg i (.core .apply)).map fun s => ⟨o.owed, s.cluster.lastApplied, s.firstReplies⟩

/-- A node on its own never answers: the client does not get into the table. A `set` of four arguments is
    answered twice. Of two writes that a client pipelines, the second is run at the index of the first, and the
    index of the second is applied without a reply. -/
theorem write_not_answered_once :
    (∃ o, RunBy (Owing.next soloServer 0) (fun _ _ => True) (freshOwing 1) o ∧
      applyView soloServer 0 o = some ⟨[(1, 0)], 1, some []⟩) ∧
    (∃ o, RunBy (Owing.next threeServers 0) (fun _ _ => True) (freshOwing 3) o ∧
      applyView threeServers 0 o = some ⟨[(1, 0)], 1, some [ascii "-ERR syntax error\r\n", ascii "+OK\r\n"]⟩) ∧
    ∃ o, RunBy (Owing.next threeServers 0) (fun _ _ => True) (freshOwing 3) o ∧
      o.server.firstReplies = some [ascii "+OK\r\n"] ∧
      applyView threeServers 0 o = some ⟨[(2, 0)], 2, some [ascii "+OK\r\n"]⟩ := by
  refine ⟨?_, ?_, ?_⟩
  · exact run_of_exec (Owing.next soloServer 0) (fun _ _ => True) (freshOwing 1)
      [tailEvent true, .core .connect, setRequest ["a", "1"]] (applyView soloServer 0) _ (by decide +kernel)
  · exact run_of_exec (Owing.next threeServers 0) (fun _ _ => True) (freshOwing 3)
      (electedRun ++ [setRequest ["a", "1", "2"]] ++ commitRun) (applyView threeServers 0) _ (by decide +kernel)
  · obtain ⟨o, hr, ho⟩ := run_of_exec (Owing.next threeServers 0) (fun _ _ => True) (freshOwing 3)
      (electedRun ++ [setRequest ["a", "1"], setRequest ["b", "2"]] ++ commitRun ++ [.core .apply])
      (fun o => (o.server.firstReplies, applyView threeServers 0 o))
      (some [ascii "+OK\r\n"], some ⟨[(2, 0)], 2, some [ascii "+OK\r\n"]⟩) (by decide +kernel)
    rw [Prod.mk.injEq] at ho
    exact ⟨o, hr, ho⟩

/-! ## Clients that leave -/

/-- Every client in the table is connected. -/
def TableLive (s : Server n) : Prop := ∀ p ∈ s.procClients, ∃ c, s.clients p.2 = some c

/-- A client that stands in the table does not leave. -/
def LeaveOk (s : Server n) : FineEvent n → Prop
  | .core (.disconnect id) => ∀ p ∈ s.procClients, p.2 ≠ id
  | _ => True

instance (s : Server n) : ∀ a, Decidable (LeaveOk s a)
  | .core (.disconnect id) => inferInstanceAs (Decidable (∀ p ∈ s.procClients, p.2 ≠ id))
  | .core .apply | .core (.tail _) | .core .connect | .core (.message ..) | .request .. => instDecidableTrue

namespace TableLive

variable {s s' : Server n}

theorem setClient (h : TableLive s) (id : Nat) (c : Client) : TableLive (s.setClient id c) := by
  intro p hp
  by_cases heq : p.2 = id
  · exact ⟨c, by rw [heq]; exact Function.update_self ..⟩
  · obtain ⟨c', hc'⟩ := h p hp
    exact ⟨c', (Function.update_of_ne heq ..).trans hc'⟩

theorem clusterProcessCommand (h : TableLive s) {id : Nat} {c : Client} (hc : s.clients id = some c)
    {cmd : PrezCommand} {argv : List Bytes} (hs : Prez.clusterProcessCommand s id cmd argv = some s') :
    TableLive s' := by
  obtain ⟨name, -, hs⟩ := Option.bind_eq_some_iff.mp hs
  obtain ⟨command, -, hs⟩ := Option.bind_eq_some_iff.mp hs
  obtain ⟨log, -, hs⟩ := Option.bind_eq_some_iff.mp hs
  split at hs
  · cases hs
    exact h
  · cases hs
    rcases addProcClient_cases _ _ id with heq | heq <;> rw [heq]
    · intro p hp
      rcases List.mem_cons.mp hp with rfl | hp
      · exact ⟨c, hc⟩
      · exact h p hp
    · exact h

theorem disconnect_iff (h : TableLive s) (id : Nat) :
    TableLive { s with clients := Function.update s.clients id none } ↔ ∀ p ∈ s.procClients, p.2 ≠ id := by
  constructor
  · rintro hlive p hp rfl
    obtain ⟨c, hc⟩ := hlive p hp
    exact nomatch (Function.update_self ..).symm.trans hc
  · intro hne p hp
    obtain ⟨c, hc⟩ := h p hp
    exact ⟨c, (Function.update_of_ne (hne p hp) ..).trans hc⟩

theorem step {a : FineEvent n} (h : TableLive s) (hok : LeaveOk s a) (hs : s.fine cfg i a = some s') :
    TableLive s' := by
  cases a with
  | request id kind argv =>
    obtain ⟨-, ⟨-, c, rfl⟩ | ⟨-, c, cmd, -, -, -, hs⟩⟩ := processRequest_cases hs
    · exact h.setClient id c
    · exact (h.setClient id c).clusterProcessCommand (Function.update_self ..) hs
  | core a =>
    cases a with
    | apply =>
      simp only [Server.fine, Server.core] at hs
      split at hs
      · obtain ⟨-, -, ⟨-, hsame⟩ | ⟨id, -, hcalled⟩⟩ := applyNext_cases hs
        · rw [TableLive, hsame.clients, hsame.procClients]
          exact h
        · -- the client that was called is still there
          obtain ⟨c, r, -, -, hclients⟩ := hcalled.client
          rw [TableLive, hclients, hcalled.table]
          exact fun p hp => h.setClient id _ p (List.mem_of_mem_filter hp)
      · cases hs
    | tail inp =>
      simp only [Server.fine, Server.core] at hs
      split at hs
      · cases hs
        exact h
      · cases hs
    | connect =>
      cases hs
      exact h.setClient _ _
    | disconnect id =>
      cases hs
      exact (h.disconnect_iff id).mpr hok
    | message j msg fsync =>
      obtain ⟨x, rfl, -⟩ := receive_cluster hs
      exact h

end TableLive

/-- **Pending clients are live**, in every run in which no client leaves while it stands in the table; and one
    that leaves while it does leaves a dangling pointer behind. -/
theorem pending_clients_live (cfg : Config n) (i : Fin n) (nodes : Fin n → ClusterNode) (log : LogState) (s : Server n)
    (hr : RunBy (Server.fine cfg i) LeaveOk (Server.boot (clusterInit nodes log)) s) :
    TableLive s ∧ ∀ id s', s.fine cfg i (.core (.disconnect id)) = some s' →
      (TableLive s' ↔ LeaveOk s (.core (.disconnect id))) := by
  have hlive : TableLive s := hr.invariant (fun _ _ _ hok hs h => TableLive.step h hok hs) fun p hp => nomatch hp
  refine ⟨hlive, fun id s' hs => ?_⟩
  cases hs
  exact hlive.disconnect_iff id

theorem pending_clients_live_write :
    ∃ s : Server 3, s.procClients = [(1, 0)] ∧ TableLive s := by
  obtain ⟨s, hr, hs⟩ := run_of_exec (Server.fine threeServers 0) LeaveOk (freshOwing 3).server
    (electedRun ++ [setRequest ["a", "1"], .core .connect, .core (.disconnect 1)]) (·.procClients) [(1, 0)]
    (by decide +kernel)
  exact ⟨s, hs, (pending_clients_live threeServers 0 _ _ s hr).1⟩

/-- A client writes and leaves. Its entry is committed, and `logApply` runs a client that has been freed. -/
theorem pending_client_dangles :
    ∃ s : Server 3, RunBy (Server.fine threeServers 0) (fun _ _ => True) (freshOwing 3).server s ∧
      ¬ TableLive s ∧ s.cluster.lastApplied < s.cluster.commitIndex ∧
      s.fine threeServers 0 (.core .apply) = none := by
  obtain ⟨s, hr, hs⟩ := run_of_exec (Server.fine threeServers 0) (fun _ _ => True) (freshOwing 3).server
    (electedRun ++ [setRequest ["a", "1"], .core (.disconnect 0)] ++ commitRun)
    (fun s => decide (s.procClients = [(1, 0)] ∧ (s.clients 0).isNone = true ∧
      s.cluster.lastApplied < s.cluster.commitIndex ∧ (s.fine threeServers 0 (.core .apply)).isNone = true))
    true (by decide +kernel)
  obtain ⟨htable, hgone, hcommit, hcrash⟩ := of_decide_eq_true hs
  refine ⟨s, hr, fun hlive => ?_, hcommit, Option.isNone_iff_eq_none.mp hcrash⟩
  obtain ⟨c, hc⟩ := hlive (1, 0) (by rw [htable]; exact List.mem_cons_self ..)
  dsimp only at hc
  rw [hc] at hgone
  cases hgone

end Prez
