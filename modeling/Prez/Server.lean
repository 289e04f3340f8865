import Prez.Codec
import Prez.Cluster.Protocol

/-!
# `Prez.Server` — one server: clients, keyspace and the apply loop

What `prez.c`, `networking.c` and `log.c` do around the cluster state. A client's request is parsed into
`c->argv` and goes through `processCommand`; a write on a leader is turned into a log entry and the client is
left waiting in `proc_clients`, its arguments in place, until `clusterCron` applies the index. Every other
node applies the text of the entry.

A step without result (`none`) is one after which the process does not go on as the source says: a failed
assertion, a NULL dereference, a read of freed or uninitialised memory.
-/

namespace Prez

open Lib

variable {n : Nat}

/-! ## Clients -/

/-- `PREZ_REQ_INLINE`, `PREZ_REQ_MULTIBULK`. -/
inductive ReqType where
  | inline
  | multibulk
deriving DecidableEq

/-- The fields of `prezClient` that a request goes through; `reply` collects the replies. -/
structure Client where
  argv : List Bytes
  cmd : Option PrezCommand
  reqtype : Option ReqType
  reply : List Bytes

/-- `createClient()`. -/
def Client.new : Client := ⟨[], none, none, []⟩

/-- `resetClient(c)`. -/
def resetClient (c : Client) : Client := { c with argv := [], cmd := none, reqtype := none }

/-- The bytes of an ASCII literal. -/
def ascii (s : String) : Bytes := s.toList.map fun c => UInt8.ofNat c.toNat

/-- `addReplySds(c, ...)` and its siblings. -/
def addReply (c : Client) (text : Bytes) : Client := { c with reply := c.reply ++ [text] }

/-- `addReplyErrorFormat`: line breaks inside the message become blanks. -/
def addReplyErrorFormat (c : Client) (message : Bytes) : Client :=
  addReply c (ascii "-ERR " ++ message.map (fun b => if b = 13 ∨ b = 10 then 32 else b) ++ [13, 10])

/-! ## The server -/

/-- The keyspace `server.db[0]`. -/
abbrev Keyspace := Bytes → Option Bytes

/-- One server. `executed` records the entry that each call of `logApply` fetched, in order. -/
structure Server (n : Nat) where
  cluster : ClusterState n
  db : Keyspace
  clients : Nat → Option Client
  nextClient : Nat
  procClients : List (Int × Nat)
  executed : List (Option LogEntry)

/-- A server after `clusterInit()`. -/
def Server.boot (cluster : ClusterState n) : Server n :=
  ⟨cluster, fun _ => none, fun _ => none, 0, [], []⟩

def Server.setClient (s : Server n) (id : Nat) (c : Client) : Server n :=
  { s with clients := Function.update s.clients id (some c) }

/-! ## Commands -/

/-- `setKey(db, key, val)`. -/
def setKey (db : Keyspace) (key val : Bytes) : Keyspace := Function.update db key (some val)

/-- What a command does to the keyspace; `config` does nothing to it. -/
def execute (db : Keyspace) (proc : Proc) (argv : List Bytes) : Keyspace :=
  match proc, argv with
  | .set, _ :: key :: val :: _ => setKey db key val
  | _, _ => db

/-- `addReplyBulk` of a string. -/
def bulkReply (b : Bytes) : Bytes := ascii "$" ++ decimal b.length ++ [13, 10] ++ b ++ [13, 10]

/-- The replies of a command to its client. A `set` with more than three arguments replies twice; the
    replies of `config` are in `Prez.Config.Reply`. -/
def replies (db : Keyspace) (proc : Proc) (argv : List Bytes) : List Bytes :=
  match proc with
  | .set => (if argv.length ≠ 3 then [ascii "-ERR syntax error\r\n"] else []) ++ [ascii "+OK\r\n"]
  | .get =>
    match argv with
    | _ :: key :: _ => [(db key).elim (ascii "$-1\r\n") bulkReply]
    | _ => []
  | .config => []

/-- `call(c)`; a client that has been freed has no result. -/
def call (s : Server n) (id : Nat) : Option (Server n) :=
  (s.clients id).map fun c =>
    match c.cmd with
    | none => s.setClient id (resetClient c)
    | some cmd =>
      let c' := { c with reply := c.reply ++ replies s.db cmd.proc c.argv }
      { s with db := execute s.db cmd.proc c.argv }.setClient id (resetClient c')

/-! ## Applying the log -/

/-- `logApply` on the text of an entry: `cmd->proc(NULL, oargv, argc)`. Empty arguments are never stored
    in `oargv`, `get` and `config` use the client they are not given. -/
def applyText (s : Server n) (text : Bytes) : Option (Server n) :=
  match sdssplitargs text with
  | none => some s
  | some argv =>
    if argv.head?.getD [] = [] then none
    else
      match lookupCommand (argv.head?.getD []) with
      | none => some s
      | some cmd =>
        if arityOk cmd argv.length = false then some s
        else if [] ∈ argv then none
        else if cmd.proc = .set then some { s with db := execute s.db cmd.proc argv }
        else none

/-- The client that waits for an index, on a leader. -/
def waitingClient (s : Server n) (index : Int) : Option Nat :=
  if s.cluster.state = .leader then s.procClients.lookup index else none

/-- `logApply(index)`. -/
def logApply (s : Server n) (index : Int) : Option (Server n) :=
  match getLogEntry s.cluster.log index with
  | none => some { s with executed := s.executed ++ [none] }
  | some en =>
    let s := { s with executed := s.executed ++ [some en.logEntry] }
    match waitingClient s index with
    | some id =>
      (call s id).map fun s => { s with procClients := s.procClients.filter fun p => p.1 ≠ index }
    | none => applyText s en.logEntry.command.bytes

/-- The loop `while (commit_index > last_applied)`; it runs once for every index in between. -/
def applyLoop : (count : Nat) → Server n → Option (Server n)
  | 0, s => some s
  | count + 1, s =>
    let s := { s with cluster := { s.cluster with lastApplied := s.cluster.lastApplied + 1 } }
    (logApply s s.cluster.lastApplied).bind (applyLoop count)

/-- `clusterCron()`. -/
def clusterCron (cfg : NodeTable n) (i : Fin n) (inp : CronInput n) (s : Server n) :
    Option (Server n × List (Fin n × Message)) :=
  (applyLoop (s.cluster.commitIndex - s.cluster.lastApplied).toNat s).map fun s =>
    let (cluster, out) := clusterCronTail cfg i inp s.cluster
    ({ s with cluster }, out)

/-! ## Requests -/

/-- `processCommand` returns `PREZ_ERR`: a leader has taken a write. -/
def TakesWrite (s : Server n) (argv : List Bytes) : Prop := s.cluster.state = .leader ∧ isWrite argv = true
deriving Decidable

/-- `dictAdd(proc_clients, index, c)`: an index that is already there keeps its client. -/
def addProcClient (s : Server n) (index : Int) (id : Nat) : Server n :=
  if s.procClients.lookup index = none then { s with procClients := (index, id) :: s.procClients } else s

/-- The client joins the table, or the table stays as it is. -/
theorem addProcClient_cases (s : Server n) (index : Int) (id : Nat) :
    addProcClient s index id = { s with procClients := (index, id) :: s.procClients } ∨
      addProcClient s index id = s := by
  unfold addProcClient
  split
  · exact .inl rfl
  · exact .inr rfl

/-- The name field of an entry; the names of the table are short. -/
def commandName (cmd : PrezCommand) : Option (CStr 40) := CStr.ofBytes? 40 cmd.name

/-- `clusterProcessCommand(c)`. -/
def clusterProcessCommand (s : Server n) (id : Nat) (cmd : PrezCommand) (argv : List Bytes) :
    Option (Server n) := do
  let name ← commandName cmd
  let command ← commandField argv
  let entry : LogEntry := ⟨logCurrentIndex s.cluster.log + 1, s.cluster.currentTerm, name, command⟩
  let log ← logWriteEntry s.cluster.log entry
  let s := { s with cluster := { s.cluster with log } }
  if n = 1 then
    some { s with cluster := logCommitIndex s.cluster (logCurrentIndex s.cluster.log) }
  else some (addProcClient s entry.index id)

/-- `processCommand(c)`, with the `resetClient` of its caller: only a write taken by a leader leaves the
    client as it is. -/
def processCommand (s : Server n) (id : Nat) (c : Client) : Option (Server n) :=
  let name := c.argv.head?.getD []
  match lookupCommand name with
  | none =>
    let c := addReplyErrorFormat c (ascii "unknown command '" ++ cstr name ++ ascii "'")
    some (s.setClient id (resetClient c))
  | some cmd =>
    let c := { c with cmd := some cmd }
    if arityOk cmd c.argv.length = false then
      let c := addReplyErrorFormat c (ascii "wrong number of arguments for '" ++ cmd.name ++ ascii "' command")
      some (s.setClient id (resetClient c))
    else if cmd.write then
      match s.cluster.state with
      | .candidate =>
        let c := addReply c (ascii "-CLUSTERDOWN Leader not elected.Command not accepted\r\n")
        some (s.setClient id (resetClient c))
      | .follower =>
        let c := addReply c (ascii "-ASK " ++ cstr s.cluster.leader ++ [13, 10])
        some (s.setClient id (resetClient c))
      | .leader => clusterProcessCommand (s.setClient id c) id cmd c.argv
    else call (s.setClient id c) id

/-- One request out of the query buffer of a client, as `processInputBuffer` hands it on. A client keeps its
    request type until it is reset; a multibulk request on a client that still has arguments fails an
    assertion; an empty request resets the client. -/
def processRequest (s : Server n) (id : Nat) (kind : ReqType) (argv : List Bytes) : Option (Server n) :=
  (s.clients id).bind fun c =>
    if c.reqtype ≠ none ∧ c.reqtype ≠ some kind then none
    else if kind = .multibulk ∧ c.argv ≠ [] then none
    else if argv = [] then some (s.setClient id (resetClient c))
    else processCommand s id { c with argv, reqtype := some kind }

/-! ## Events -/

/-- What can happen at a server, messages of the cluster bus apart. -/
inductive Event (n : Nat) where
  | cron (inp : CronInput n)
  | connect
  | request (id : Nat) (kind : ReqType) (argv : List Bytes)
  | disconnect (id : Nat)

/-- One event: the new state and the messages sent. `freeClient` leaves `proc_clients` alone. -/
def Server.handle (cfg : NodeTable n) (i : Fin n) (s : Server n) :
    Event n → Option (Server n × List (Fin n × Message))
  | .cron inp => clusterCron cfg i inp s
  | .connect => some ({ s.setClient s.nextClient Client.new with nextClient := s.nextClient + 1 }, [])
  | .request id kind argv => (processRequest s id kind argv).map fun s => (s, [])
  | .disconnect id => some ({ s with clients := Function.update s.clients id none }, [])

/-- A message of the cluster bus from peer `j`: the new state and the response. -/
def Server.receive (s : Server n) (j : Fin n) (msg : Message) (fsync : Bool) :
    Option (Server n × Option Message) :=
  match msg with
  | .requestVote vote =>
    let (cluster, response) := clusterProcessRequestVote s.cluster vote
    some ({ s with cluster }, some (.responseVote response))
  | .responseVote vote => some ({ s with cluster := clusterProcessResponseVote s.cluster vote }, none)
  | .appendEntries entries =>
    (clusterProcessAppendEntries s.cluster entries fsync).map fun (cluster, response) =>
      ({ s with cluster }, some (.responseAppendEntries response))
  | .responseAppendEntries entries =>
    some ({ s with cluster := clusterProcessResponseAppendEntries s.cluster j entries }, none)

end Prez
