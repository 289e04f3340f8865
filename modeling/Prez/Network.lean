import Prez.Server
import Prez.Log.Recovery
import Prez.Lib.Run

/-!
# `Prez.Network` — a cluster of servers and the packets between them

The servers of one node table and the messages in flight. A message is delivered at most once and may be
lost (never delivered). Any message in flight may be delivered next; `InOrder` singles out the runs in which
each connection keeps its order: a node's requests to a peer travel on one connection, the peer's responses
to them come back on the same one.

A response packet also records the request it answers. No handler reads that; the properties of the
replication protocol are about it, since the response itself does not say what it answers.
-/

namespace Prez

open Lib

variable {n : Nat}

/-- A message in flight. `answers` is the request that an append response answers. -/
structure Packet (n : Nat) where
  src : Fin n
  dst : Fin n
  msg : Message
  answers : Option AppendEntries
deriving DecidableEq

/-- The servers, the packets in flight, and every packet ever sent. -/
structure Net (n : Nat) where
  servers : Fin n → Server n
  net : List (Packet n)
  sent : List (Packet n)

/-- The cluster state of a server. -/
def Net.node (s : Net n) (i : Fin n) : ClusterState n := (s.servers i).cluster

/-- Server `i` changes, packets leave the wire and others are sent. -/
def Net.put (s : Net n) (i : Fin n) (server : Server n) (rest out : List (Packet n)) : Net n where
  servers := Function.update s.servers i server
  net := rest ++ out
  sent := s.sent ++ out

/-- The request that a response to `msg` answers. -/
def answered : Message → Option AppendEntries
  | .appendEntries entries => some entries
  | _ => none

/-! ## Steps -/

/-- One step of the cluster. -/
inductive Action (n : Nat) where
  /-- an event at one server -/
  | event (i : Fin n) (e : Event n)
  /-- delivery of the packet at a position of the wire -/
  | deliver (k : Nat) (fsync : Bool)
  /-- a server stops and starts again through `clusterInit` -/
  | restart (i : Fin n) (mem : Nat → LoadedEntry) (nodes : Fin n → ClusterNode)

/-- A step, if it has a defined result. -/
def Net.step (cfg : NodeTable n) (s : Net n) : Action n → Option (Net n)
  | .event i e =>
    ((s.servers i).handle cfg i e).map fun (server, out) =>
      s.put i server s.net (out.map fun (j, msg) => ⟨i, j, msg, none⟩)
  | .deliver k fsync =>
    (s.net[k]?).bind fun p =>
      ((s.servers p.dst).receive p.src p.msg fsync).map fun (server, response) =>
        s.put p.dst server (s.net.eraseIdx k)
          (response.toList.map fun msg => ⟨p.dst, p.src, msg, answered p.msg⟩)
  | .restart i mem nodes =>
    (reloadLog mem (s.node i).log.file).map fun log =>
      s.put i (Server.boot (clusterInit nodes log)) s.net []

/-- The step is not a restart. -/
def Action.CrashFree : Action n → Prop
  | .restart .. => False
  | _ => True

/-- Requests travel on the connection of their sender, responses on that of their receiver. -/
def Message.isRequest : Message → Bool
  | .requestVote _ => true
  | .appendEntries _ => true
  | _ => false

/-- Two packets of one connection, in the same direction. -/
def Packet.sameLink (p q : Packet n) : Bool :=
  p.src == q.src && p.dst == q.dst && p.msg.isRequest == q.msg.isRequest

/-- The step delivers the oldest packet of its connection. -/
def InOrder (s : Net n) : Action n → Prop
  | .deliver k _ => ∀ p, s.net[k]? = some p → ∀ q ∈ s.net.take k, p.sameLink q = false
  | _ => True

/-! ## Runs -/

/-- A run of steps that all meet a condition. -/
abbrev RunIf (cfg : NodeTable n) (ok : Net n → Action n → Prop) : Net n → Net n → Prop := RunBy (Net.step cfg) ok

/-- Every server has come up on a log file of its own, nothing is in flight. -/
structure Net.Booted (s : Net n) : Prop where
  servers : ∀ i, ∃ nodes log, s.servers i = Server.boot (clusterInit nodes log)
  net : s.net = []
  sent : s.sent = []

/-- Every server has come up without a log file. -/
structure Net.Fresh (s : Net n) : Prop where
  servers : ∀ i, ∃ nodes, s.servers i = Server.boot (clusterInit nodes LogState.empty)
  net : s.net = []
  sent : s.sent = []

theorem Net.Fresh.booted {s : Net n} (h : s.Fresh) : s.Booted where
  servers i := by
    obtain ⟨nodes, hn⟩ := h.servers i
    exact ⟨nodes, LogState.empty, hn⟩
  net := h.net
  sent := h.sent

/-! ## Executing runs -/

instance : ∀ a : Action n, Decidable a.CrashFree
  | .event .. | .deliver .. => instDecidableTrue
  | .restart .. => isFalse id

instance (s : Net n) : ∀ a : Action n, Decidable (InOrder s a)
  | .event .. | .restart .. => instDecidableTrue
  | .deliver k _ =>
    match hk : s.net[k]? with
    | none => isTrue fun _ hp => nomatch hk.symm.trans hp
    | some p => decidable_of_iff (∀ q ∈ s.net.take k, p.sameLink q = false)
        ⟨fun hall _ hp' => Option.some.inj (hk.symm.trans hp') ▸ hall, fun hall => hall p hk⟩

/-! ### Clusters to run -/

/-- A name of one letter. -/
def letter (k : Fin 26) : CStr 40 :=
  ⟨[UInt8.ofNat (97 + k)], by revert k; decide, by revert k; decide⟩

/-- A node table with the names `a`, `b`, `c` and so on. -/
def letters (n : Nat) (hn : n ≤ 26) : Config n where
  name i := letter (i.castLE hn)
  serverName i := (letter (i.castLE hn)).bytes
  self i := beq_self_eq_true _
  alone i j hij := by
    have hinj : ∀ k l : Fin 26, strcaseEq (letter l).bytes (letter k).bytes = true → l = k := by decide
    exact Fin.castLE_injective hn (hinj _ _ hij)

-- the servers of these clusters are written as numerals
instance neZero_three : NeZero 3 := ⟨by decide⟩

instance neZero_five : NeZero 5 := ⟨by decide⟩

def threeServers : Config 3 := letters 3 (by decide)

def fiveServers : Config 5 := letters 5 (by decide)

/-- Servers that have just come up without log files. -/
def Net.fresh (n : Nat) : Net n where
  servers _ := Server.boot (clusterInit (fun _ => ⟨none, 0, 0⟩) LogState.empty)
  net := []
  sent := []

theorem Net.fresh_fresh (n : Nat) : (Net.fresh n).Fresh := ⟨fun _ => ⟨_, rfl⟩, rfl, rfl⟩

/-- `clusterCron` at server `i` with links to the given peers, after the election timeout. -/
def campaignAt (i : Fin n) (peers : List (Fin n)) : Action n :=
  .event i (.cron ⟨true, fun j => peers.contains j, fun _ => false⟩)

/-- `clusterCron` at server `i`, with heartbeats due for the given peers. -/
def tickAt (i : Fin n) (peers : List (Fin n)) : Action n :=
  .event i (.cron ⟨false, fun j => peers.contains j, fun _ => true⟩)

/-- The first client of server `i` sends `set a 1`. -/
def setAt (i : Fin n) : Action n := .event i (.request 0 .inline [ascii "set", ascii "a", ascii "1"])

/-- Server `i` restarts; what it finds in fresh memory is zero. -/
def restartAt (i : Fin n) : Action n := .restart i (fun _ => ⟨0, 0, [], []⟩) fun _ => ⟨none, 0, 0⟩

/-- Delivery of the oldest packets, one after the other. -/
def deliveries (count : Nat) : List (Action n) := List.replicate count (.deliver 0 true)

end Prez
