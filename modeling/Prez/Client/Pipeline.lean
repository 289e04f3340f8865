import Prez.Client.Input
import Prez.Client.Pending

/-!
# `Prez.Client.Pipeline` — parsing while a write is pending

A node with the bytes of its clients: `Piped` adds to every client what `networking.c` keeps for the parser,
and a request is no longer an event but what a turn of `processInputBuffer` finds in the query buffer. The
parser and a pending write share the argument vector of the client. `processCommand` leaves the client as it
is after a write it took, and the loop goes on parsing into it.

`pipelined_requests` is what holds when no turn is taken for a client that has a command pending;
`pipelined_request_runs_over` is what happens otherwise.
-/

namespace Prez

open Lib

variable {n : Nat} {cfg : Config n} {i : Fin n}

/-! ## A node with query buffers -/

/-- The fields of `prezClient` for the parser that `Client` does not have. -/
structure Input where
  querybuf : Bytes
  multibulklen : Nat
  bulklen : Int
  closeAfterReply : Bool

def Input.new : Input := ⟨[], 0, -1, false⟩

/-- `resetClient(c)`, as far as it concerns these fields. -/
def Input.reset (x : Input) : Input := { x with multibulklen := 0, bulklen := -1 }

/-- The parser works on the fields of the client itself. -/
def parserOf (c : Client) (x : Input) : Parser :=
  ⟨x.querybuf, c.reqtype, c.argv, x.multibulklen, x.bulklen, x.closeAfterReply, []⟩

def Parser.input (p : Parser) : Input := ⟨p.querybuf, p.multibulklen, p.bulklen, p.closeAfterReply⟩

/-- The client after the parser has worked on it, with the protocol errors it was sent. -/
def Parser.client (p : Parser) (c : Client) : Client :=
  p.errors.foldl addReplyErrorFormat { c with argv := p.argv, reqtype := p.reqtype }

structure Piped (n : Nat) where
  server : Server n
  inputs : Nat → Input

/-- A new state of the server and of the input of one client. -/
def Piped.put (st : Piped n) (server : Server n) (id : Nat) (x : Input) : Piped n :=
  ⟨server, Function.update st.inputs id x⟩

/-- What happens at a node, with the bytes that clients send. -/
inductive PipeEvent (n : Nat) where
  | core (a : CoreEvent n)
  /-- `read` returned some bytes -/
  | read (id : Nat) (chunk : Bytes)
  /-- one turn of the loop of `processInputBuffer` -/
  | turn (id : Nat)

/-- One turn of the loop of `processInputBuffer` for a client that has bytes in its buffer. -/
def Piped.turn (st : Piped n) (id : Nat) : Option (Piped n) :=
  (st.server.clients id).bind fun c =>
  if (st.inputs id).querybuf = [] then none
  else
    (parseTurn (parserOf c (st.inputs id))).bind fun (p, ok) =>
    if !ok then some (st.put (st.server.setClient id (p.client c)) id p.input)
    else if p.argv = [] then some (st.put (st.server.setClient id (resetClient (p.client c))) id p.input.reset)
    else
      (processCommand st.server id (p.client c)).map fun server =>
        st.put server id (if TakesWrite st.server p.argv then p.input else p.input.reset)

/-- What an event other than input does to the fields of the parser: `call` resets its client. -/
def Piped.inputsAfter (st : Piped n) : CoreEvent n → Nat → Input
  | .apply => st.server.called.elim st.inputs fun id => Function.update st.inputs id (st.inputs id).reset
  | .connect => Function.update st.inputs st.server.nextClient .new
  | _ => st.inputs

def Piped.next (cfg : Config n) (i : Fin n) (st : Piped n) : PipeEvent n → Option (Piped n)
  | .core a => (st.server.core cfg i a).map fun server => ⟨server, st.inputsAfter a⟩
  | .turn id => st.turn id
  | .read id chunk =>
    (st.server.clients id).bind fun c =>
    let x := st.inputs id
    if chunk = [] ∨ readLen (parserOf c x) < chunk.length then none
    else if (x.querybuf ++ chunk).length > maxQuerybufLen then
      -- `freeClient`
      some { st with server := { st.server with clients := Function.update st.server.clients id none } }
    else some (st.put st.server id { x with querybuf := x.querybuf ++ chunk })

/-- A turn is taken for a client that has no command pending, or finds no whole line behind an inline one. -/
def PipeOk (st : Piped n) : PipeEvent n → Prop
  | .turn id => ∀ c ∈ st.server.clients id, c.cmd = none ∨
      c.reqtype = some .inline ∧ strchr 10 (st.inputs id).querybuf = none
  | _ => True

instance (st : Piped n) : ∀ ev, Decidable (PipeOk st ev)
  | .turn id => inferInstanceAs (Decidable (∀ c ∈ st.server.clients id, _))
  | .core _ | .read .. => instDecidableTrue

/-! ## The parser between turns -/

/-- Between two turns, with no command pending: the arguments of the last request are gone, and a request that
    has begun has its first byte in the buffer or the number of its arguments in the client. -/
structure Between (p : Parser) : Prop where
  new : p.reqtype = none → p.argv = [] ∧ p.multibulklen = 0
  inline : p.reqtype = some .inline → p.argv = []
  first : p.closeAfterReply = false → p.reqtype = some .multibulk → p.multibulklen = 0 →
    p.argv = [] ∧ p.querybuf.head? = some 42

variable {p : Parser} {c : Client} {s s' : Server n} {id : Nat}

theorem Between.closing (hclose : p.closeAfterReply = true) (htype : p.reqtype = some .multibulk) :
    Between p where
  new h := absurd (htype.symm.trans h) nofun
  inline h := absurd (htype.symm.trans h) nofun
  first h := absurd (hclose.symm.trans h) nofun

/-- The loop over the arguments keeps the type of the request, and sets the flag when it fails. -/
def BulkEnd.Keeps (p : Parser) : BulkEnd → Prop
  | .stop p' _ => p'.reqtype = p.reqtype
  | .error p' => p'.reqtype = p.reqtype ∧ p'.closeAfterReply = true

def BulkLen.Keeps (p : Parser) : BulkLen → Prop
  | .known p' _ => p'.reqtype = p.reqtype
  | .wait => True
  | .error p' => p'.reqtype = p.reqtype ∧ p'.closeAfterReply = true

theorem readBulkLen_keeps (p : Parser) (pos : Nat) : (readBulkLen p pos).Keeps p := by
  unfold readBulkLen
  split
  · rfl
  split
  · split
    · exact ⟨rfl, rfl⟩
    · trivial
  split
  · trivial
  split
  · exact ⟨rfl, rfl⟩
  split
  · exact ⟨rfl, rfl⟩
  split_ifs
  · exact ⟨rfl, rfl⟩
  · rfl
  · rfl

theorem readBulks_keeps : ∀ (todo : Nat) (p : Parser) (pos : Nat), (readBulks todo p pos).Keeps p := by
  intro todo
  induction todo with
  | zero => exact fun p pos => rfl
  | succ todo ih =>
    intro p pos
    have hlen := readBulkLen_keeps p pos
    rw [readBulks]
    cases hread : readBulkLen p pos with
    | wait => rfl
    | error p' =>
      rw [hread] at hlen
      exact hlen
    | known p' pos' =>
      rw [hread] at hlen
      have htake : (takeBulk todo p' pos').1.reqtype = p'.reqtype := by
        unfold takeBulk
        split <;> rfl
      have hnext := ih (takeBulk todo p' pos').1 (takeBulk todo p' pos').2
      dsimp only
      split
      · exact hlen
      · cases hend : readBulks todo (takeBulk todo p' pos').1 (takeBulk todo p' pos').2 with
        | stop q qpos =>
          rw [hend] at hnext
          exact (hnext.trans htake).trans hlen
        | error q =>
          rw [hend] at hnext
          exact ⟨(hnext.1.trans htake).trans hlen, hnext.2⟩

/-- A turn that gives no request leaves the parser between turns, and has no protocol error after a request. -/
def TurnKeeps : Parser × Bool → Prop
  | (p, true) => p.reqtype ≠ none
  | (p, false) => Between p

theorem finishBulks_between {e : BulkEnd} (h : e.Keeps p) (htype : p.reqtype = some .multibulk) :
    TurnKeeps (finishBulks e) := by
  cases e with
  | error p' => exact .closing h.2 (h.1.trans htype)
  | stop p' pos =>
    rw [finishBulks]
    have htype' : p'.reqtype = some .multibulk := Eq.trans h htype
    cases hmore : p'.multibulklen == 0 with
    | true => exact fun hnone => absurd (htype'.symm.trans hnone) nofun
    | false =>
      have hne : p'.multibulklen ≠ 0 := by simpa using hmore
      exact ⟨fun hnone => absurd (htype'.symm.trans hnone) nofun, fun hin => absurd (htype'.symm.trans hin) nofun,
        fun _ _ h0 => absurd h0 hne⟩

theorem processMultibulkBuffer_between (htype : p.reqtype = some .multibulk)
    (hfirst : p.multibulklen = 0 → p.argv = [] ∧ p.querybuf.head? = some 42) :
    ∃ r, processMultibulkBuffer p = some r ∧ TurnKeeps r := by
  unfold processMultibulkBuffer
  split
  · exact ⟨_, rfl, finishBulks_between (readBulks_keeps ..) htype⟩
  · rename_i h0
    obtain ⟨hargv, hhead⟩ := hfirst (not_not.mp h0)
    rw [if_neg (not_not.mpr hargv)]
    -- waiting for the first line
    have hwait : Between p := ⟨fun hnone => absurd (htype.symm.trans hnone) nofun, fun _ => hargv, fun _ _ _ => ⟨hargv, hhead⟩⟩
    split
    · split
      · exact ⟨_, rfl, .closing rfl htype⟩
      · exact ⟨_, rfl, hwait⟩
    · split
      · exact ⟨_, rfl, hwait⟩
      · rw [if_neg (not_not.mpr hhead)]
        split
        · exact ⟨_, rfl, .closing rfl htype⟩
        · split
          · exact ⟨_, rfl, .closing rfl htype⟩
          · split
            · exact ⟨_, rfl, fun hnone => absurd (htype.symm.trans hnone) nofun⟩
            · exact ⟨_, rfl, finishBulks_between (readBulks_keeps ..) htype⟩

theorem processInlineBuffer_between (htype : p.reqtype = some .inline) (hargv : p.argv = []) :
    TurnKeeps (processInlineBuffer p) := by
  have hkeep : ∀ q : Parser, q.reqtype = some .inline → q.argv = [] → Between q := fun q hq hnil =>
    ⟨fun hnone => absurd (hq.symm.trans hnone) nofun, fun _ => hnil, fun _ hmulti => absurd (hq.symm.trans hmulti) nofun⟩
  unfold processInlineBuffer
  split
  · split
    · exact hkeep _ htype hargv
    · exact hkeep _ htype hargv
  · dsimp only
    split
    · exact hkeep _ htype hargv
    · exact fun hnone => absurd (htype.symm.trans hnone) nofun

/-- **No assertion of the parser fails** on a client that has no command pending. -/
theorem parseTurn_between (h : Between p) : ∃ r, parseTurn p = some r ∧ TurnKeeps r := by
  unfold parseTurn
  split
  · exact ⟨_, rfl, h⟩
  · rename_i hopen
    have hopen' : p.closeAfterReply = false := by simpa using hopen
    cases htype : p.reqtype with
    | some kind =>
      cases kind with
      | inline => exact ⟨_, rfl, processInlineBuffer_between htype (h.inline htype)⟩
      | multibulk => exact processMultibulkBuffer_between htype (h.first hopen' htype)
    | none =>
      obtain ⟨hargv, hmulti⟩ := h.new htype
      dsimp only
      split
      · rename_i hhead
        exact processMultibulkBuffer_between rfl fun _ => ⟨hargv, hhead⟩
      · exact ⟨_, rfl, processInlineBuffer_between rfl hargv⟩

theorem Between.append (h : Between p) (chunk : Bytes) :
    Between { p with querybuf := p.querybuf ++ chunk } where
  new := h.new
  inline := h.inline
  first hopen htype h0 := by
    obtain ⟨hargv, hhead⟩ := h.first hopen htype h0
    refine ⟨hargv, ?_⟩
    rw [List.head?_append, hhead]
    rfl

theorem Between.reset (c : Client) (x : Input) : Between (parserOf (resetClient c) x.reset) :=
  ⟨fun _ => ⟨rfl, rfl⟩, fun _ => rfl, fun _ h => nomatch h⟩

/-! ## What a turn does to its client -/

/-- The client is reset, and the table stays as it is. -/
structure Answered (s s' : Server n) (id : Nat) : Prop where
  clients : ∃ c, s'.clients = Function.update s.clients id (some (resetClient c))
  nextClient : s'.nextClient = s.nextClient
  procClients : s'.procClients = s.procClients

/-- The client keeps its arguments with a command, and may have joined the table. -/
structure Taken (s s' : Server n) (id : Nat) (c : Client) : Prop where
  clients : ∃ cmd, s'.clients = Function.update s.clients id (some { c with cmd := some cmd })
  nextClient : s'.nextClient = s.nextClient
  procClients : s'.procClients = s.procClients ∨ ∃ index, s'.procClients = (index, id) :: s.procClients

theorem clusterProcessCommand_taken {cmd : PrezCommand}
    (h : clusterProcessCommand (s.setClient id { c with cmd := some cmd }) id cmd c.argv = some s') :
    Taken s s' id c := by
  obtain ⟨name, -, h⟩ := Option.bind_eq_some_iff.mp h
  obtain ⟨command, -, h⟩ := Option.bind_eq_some_iff.mp h
  obtain ⟨log, -, h⟩ := Option.bind_eq_some_iff.mp h
  split at h
  · cases h
    exact ⟨⟨cmd, rfl⟩, rfl, .inl rfl⟩
  · cases h
    rcases addProcClient_cases _ _ id with heq | heq <;> rw [heq]
    · exact ⟨⟨cmd, rfl⟩, rfl, .inr ⟨_, rfl⟩⟩
    · exact ⟨⟨cmd, rfl⟩, rfl, .inl rfl⟩

/-- **What `processCommand` does to clients**: it answers and the caller resets the client, or it takes a write. -/
theorem processCommand_client (hne : c.argv ≠ []) (h : processCommand s id c = some s') :
    ¬ TakesWrite s c.argv ∧ Answered s s' id ∨ TakesWrite s c.argv ∧ Taken s s' id c := by
  obtain ⟨hnot, c', rfl⟩ | ⟨htakes, cmd, -, h⟩ := processCommand_cases hne h
  · exact .inl ⟨hnot, ⟨c', rfl⟩, rfl, rfl⟩
  · exact .inr ⟨htakes, clusterProcessCommand_taken h⟩

/-! ## Whole requests -/

/-- What the parser leaves alone in the client. -/
theorem Parser.client_fields (p : Parser) (c : Client) :
    (p.client c).cmd = c.cmd ∧ (p.client c).argv = p.argv ∧ (p.client c).reqtype = p.reqtype := by
  have hfold : ∀ (errors : List Bytes) (c : Client), (errors.foldl addReplyErrorFormat c).cmd = c.cmd ∧
      (errors.foldl addReplyErrorFormat c).argv = c.argv ∧ (errors.foldl addReplyErrorFormat c).reqtype = c.reqtype := by
    intro errors
    induction errors with
    | nil => exact fun c => ⟨rfl, rfl, rfl⟩
    | cons e errors ih => exact fun c => ih (addReplyErrorFormat c e)
  exact hfold p.errors _

theorem setClient_setClient (s : Server n) (id : Nat) (a b : Client) :
    (s.setClient id a).setClient id b = s.setClient id b := by
  simp only [Server.setClient, Function.update_idem]

/-- What the client was before does not matter to `processCommand`. -/
theorem processCommand_setClient (s : Server n) (id : Nat) (a c : Client) :
    processCommand (s.setClient id a) id c = processCommand s id c := by
  simp only [processCommand, setClient_setClient]
  rfl

/-- **A turn that finds a request does with it what `processRequest` does**, on the server whose client is between
    requests. -/
theorem turn_processRequest {st st' : Piped n} {kind : ReqType} (hc : st.server.clients id = some c)
    (hparse : parseTurn (parserOf c (st.inputs id)) = some (p, true)) (hkind : p.reqtype = some kind)
    (h : st.turn id = some st') :
    processRequest (st.server.setClient id { p.client c with argv := [], reqtype := none }) id kind p.argv =
      some st'.server := by
  obtain ⟨-, hargv, htype⟩ := p.client_fields c
  rw [Piped.turn, hc, Option.bind_some] at h
  split at h
  · cases h
  rw [hparse, Option.bind_some] at h
  simp only [Bool.not_true, Bool.false_eq_true, if_false] at h
  have hself : (st.server.setClient id { p.client c with argv := [], reqtype := none }).clients id =
      some { p.client c with argv := [], reqtype := none } := Function.update_self ..
  rw [processRequest, hself, Option.bind_some]
  simp only [ne_eq, not_true_eq_false, false_and, and_false, if_false]
  split at h
  · rename_i hnil
    cases h
    rw [if_pos hnil, setClient_setClient]
    rfl
  · rename_i hne
    obtain ⟨server, hserver, rfl⟩ := Option.map_eq_some_iff.mp h
    have hclient : { p.client c with argv := p.argv, reqtype := some kind } = p.client c := by
      rw [← hargv, ← hkind, ← htype]
    rw [if_neg hne, processCommand_setClient, hclient]
    exact hserver

/-! ## The invariant -/

/-- A client without a command is between turns; one that waits has a command, and waits for one index. -/
structure PipeInv (st : Piped n) : Prop where
  between : ∀ id c, st.server.clients id = some c → c.cmd = none → Between (parserOf c (st.inputs id))
  held : ∀ p ∈ st.server.procClients, ∀ c, st.server.clients p.2 = some c → c.cmd ≠ none
  apart : ∀ p ∈ st.server.procClients, ∀ q ∈ st.server.procClients, p.2 = q.2 → p.1 = q.1
  known : ∀ p ∈ st.server.procClients, p.2 < st.server.nextClient
  ids : ∀ id c, st.server.clients id = some c → id < st.server.nextClient

/-- A node that has just come up. -/
def Piped.boot (cluster : ClusterState n) : Piped n := ⟨Server.boot cluster, fun _ => .new⟩

theorem PipeInv.boot (cluster : ClusterState n) : PipeInv (Piped.boot cluster) where
  between _ _ h := nomatch h
  held _ h := nomatch h
  apart _ h := nomatch h
  known _ h := nomatch h
  ids _ _ h := nomatch h

theorem parserOf_client (h : Between p) : Between (parserOf (p.client c) p.input) := by
  obtain ⟨-, hargv, htype⟩ := p.client_fields c
  refine ⟨fun hnone => ?_, fun hin => ?_, fun hopen hmulti h0 => ?_⟩
  · exact ⟨hargv.trans (h.new (htype.symm.trans hnone)).1, (h.new (htype.symm.trans hnone)).2⟩
  · exact hargv.trans (h.inline (htype.symm.trans hin))
  · exact ⟨hargv.trans (h.first hopen (htype.symm.trans hmulti) h0).1, (h.first hopen (htype.symm.trans hmulti) h0).2⟩

namespace PipeInv

variable {st : Piped n}
variable {id : Nat} {server : Server n} {c : Client} {st' : Piped n}

section

variable (hi : PipeInv st)

include hi

/-- A change of one client and its input. -/
theorem update {x : Input}
    (hclients : server.clients = Function.update st.server.clients id (some c))
    (hnext : server.nextClient = st.server.nextClient) (hid : id < st.server.nextClient)
    (hbetween : c.cmd = none → Between (parserOf c x))
    (htable : server.procClients = st.server.procClients ∧ (c.cmd = none → ∀ p ∈ st.server.procClients, p.2 ≠ id) ∨
      c.cmd ≠ none ∧ (∀ p ∈ st.server.procClients, p.2 ≠ id) ∧
        ∃ index, server.procClients = (index, id) :: st.server.procClients) : PipeInv (st.put server id x) := by
  have hold : ∀ k c', k ≠ id → server.clients k = some c' → st.server.clients k = some c' := fun k c' hk hc' => by
    rwa [hclients, Function.update_of_ne hk] at hc'
  have hself : ∀ c', server.clients id = some c' → c' = c := fun c' hc' => by
    rw [hclients, Function.update_self] at hc'
    exact (Option.some.inj hc').symm
  refine ⟨fun k c' hc' hcmd => ?_, fun p hp c' hc' => ?_, fun p hp q hq heq => ?_, fun p hp => ?_, fun k c' hc' => ?_⟩
  · by_cases hk : k = id
    · subst hk
      rw [hself c' hc'] at hcmd ⊢
      simp only [Piped.put, Function.update_self]
      exact hbetween hcmd
    · simp only [Piped.put, Function.update_of_ne hk]
      exact hi.between k c' (hold k c' hk hc') hcmd
  · by_cases hk : p.2 = id
    · have hc := hself c' (hk ▸ hc')
      rw [hc]
      rcases htable with ⟨htable, hfree⟩ | ⟨hcmd, -⟩
      · rw [Piped.put, htable] at hp
        exact fun hnone => hfree hnone p hp hk
      · exact hcmd
    · rcases htable with ⟨htable, -⟩ | ⟨-, -, index, htable⟩
      · rw [Piped.put, htable] at hp
        exact hi.held p hp c' (hold _ c' hk hc')
      · rw [Piped.put, htable] at hp
        rcases List.mem_cons.mp hp with rfl | hp
        · exact absurd rfl hk
        · exact hi.held p hp c' (hold _ c' hk hc')
  · rcases htable with ⟨htable, -⟩ | ⟨-, hfree, index, htable⟩
    · rw [Piped.put, htable] at hp hq
      exact hi.apart p hp q hq heq
    · rw [Piped.put, htable] at hp hq
      rcases List.mem_cons.mp hp with rfl | hp <;> rcases List.mem_cons.mp hq with rfl | hq
      · rfl
      · exact absurd heq.symm (hfree q hq)
      · exact absurd heq (hfree p hp)
      · exact hi.apart p hp q hq heq
  · rw [Piped.put, hnext]
    rcases htable with ⟨htable, -⟩ | ⟨-, -, index, htable⟩
    · rw [Piped.put, htable] at hp
      exact hi.known p hp
    · rw [Piped.put, htable] at hp
      rcases List.mem_cons.mp hp with rfl | hp
      · exact hid
      · exact hi.known p hp
  · rw [Piped.put, hnext]
    by_cases hk : k = id
    · rw [hk]
      exact hid
    · exact hi.ids k c' (hold k c' hk hc')

/-- Other parts of the server change. -/
theorem still (h : Untouched st.server server) : PipeInv ⟨server, st.inputs⟩ := by
  refine ⟨?_, ?_, ?_, ?_, ?_⟩ <;> dsimp only
  · rw [h.clients]
    exact hi.between
  · rw [h.clients, h.procClients]
    exact hi.held
  · rw [h.procClients]
    exact hi.apart
  · rw [h.procClients, h.nextClient]
    exact hi.known
  · rw [h.clients, h.nextClient]
    exact hi.ids

/-- A client leaves. -/
theorem leave (id : Nat) :
    PipeInv { st with server := { st.server with clients := Function.update st.server.clients id none } } := by
  have hold : ∀ k c, Function.update st.server.clients id none k = some c → st.server.clients k = some c := by
    intro k c hc
    by_cases hk : k = id
    · subst hk
      exact nomatch (Function.update_self ..).symm.trans hc
    · exact (Function.update_of_ne hk ..).symm.trans hc
  exact ⟨fun k c hc => hi.between k c (hold k c hc), fun p hp c hc => hi.held p hp c (hold _ c hc), hi.apart, hi.known,
    fun k c hc => hi.ids k c (hold k c hc)⟩

/-- A client that has no command is not in the table. -/
theorem free (hc : st.server.clients id = some c) (hcmd : c.cmd = none) :
    ∀ p ∈ st.server.procClients, p.2 ≠ id := by
  rintro p hp rfl
  exact hi.held p hp c hc hcmd

/-- The parser of a client that may take a turn: no assertion fails, and one with a command keeps it. -/
theorem parse (hc : st.server.clients id = some c) (hok : PipeOk st (.turn id)) :
    ∃ p ok, parseTurn (parserOf c (st.inputs id)) = some (p, ok) ∧
      (c.cmd = none ∧ TurnKeeps (p, ok) ∨ c.cmd ≠ none ∧ ok = false ∧ p.argv = c.argv) := by
  rcases hok c hc with hcmd | ⟨htype, hline⟩
  · obtain ⟨⟨p, ok⟩, hturn, hkeeps⟩ := parseTurn_between (hi.between id c hc hcmd)
    exact ⟨p, ok, hturn, .inl ⟨hcmd, hkeeps⟩⟩
  · by_cases hcmd : c.cmd = none
    · obtain ⟨⟨p, ok⟩, hturn, hkeeps⟩ := parseTurn_between (hi.between id c hc hcmd)
      exact ⟨p, ok, hturn, .inl ⟨hcmd, hkeeps⟩⟩
    · unfold parseTurn
      split
      · exact ⟨_, _, rfl, .inr ⟨hcmd, rfl, rfl⟩⟩
      · have htype' : (parserOf c (st.inputs id)).reqtype = some .inline := htype
        have hline' : strchr 10 (parserOf c (st.inputs id)).querybuf = none := hline
        simp only [htype', processInlineBuffer, hline']
        split
        · exact ⟨_, _, rfl, .inr ⟨hcmd, rfl, rfl⟩⟩
        · exact ⟨_, _, rfl, .inr ⟨hcmd, rfl, rfl⟩⟩

/-- **One turn of the parser.** -/
theorem turn (hok : PipeOk st (.turn id)) (h : st.turn id = some st') : PipeInv st' := by
  obtain ⟨c, hc, h⟩ := Option.bind_eq_some_iff.mp h
  split at h
  · cases h
  obtain ⟨p, ok, hturn, hcases⟩ := hi.parse hc hok
  rw [hturn, Option.bind_some] at h
  have hid := hi.ids id c hc
  obtain ⟨hpcmd, hpargv, -⟩ := p.client_fields c
  rcases hcases with ⟨hcmd, hkeeps⟩ | ⟨hcmd, rfl, -⟩
  · have hfree := hi.free hc hcmd
    cases ok with
    | false =>
      cases h
      exact hi.update rfl rfl hid (fun _ => parserOf_client hkeeps) (.inl ⟨rfl, fun _ => hfree⟩)
    | true =>
      simp only [Bool.not_true, Bool.false_eq_true, if_false] at h
      split at h
      · cases h
        exact hi.update rfl rfl hid (fun _ => Between.reset ..) (.inl ⟨rfl, fun _ => hfree⟩)
      · rename_i hne
        obtain ⟨server, hserver, rfl⟩ := Option.map_eq_some_iff.mp h
        rw [← hpargv] at hne
        rcases processCommand_client hne hserver with ⟨hnot, hanswered⟩ | ⟨-, htaken⟩
        · obtain ⟨c', hclients⟩ := hanswered.clients
          rw [hpargv] at hnot
          rw [if_neg hnot]
          exact hi.update hclients hanswered.nextClient hid (fun _ => Between.reset ..)
            (.inl ⟨hanswered.procClients, fun _ => hfree⟩)
        · obtain ⟨cmd, hclients⟩ := htaken.clients
          refine hi.update hclients htaken.nextClient hid nofun ?_
          rcases htaken.procClients with hsame | hadded
          · exact .inl ⟨hsame, nofun⟩
          · exact .inr ⟨nofun, hfree, hadded⟩
  · cases h
    exact hi.update rfl rfl hid (fun hnone => absurd (hpcmd.symm.trans hnone) hcmd)
      (.inl ⟨rfl, fun hnone => absurd (hpcmd.symm.trans hnone) hcmd⟩)

/-- A turn of the apply loop: the client that was called starts anew, and it is in the table no more. -/
theorem apply (h : st.server.applyNext = some server) :
    PipeInv ⟨server, st.inputsAfter .apply⟩ := by
  obtain ⟨-, hnext, ⟨hnone, hsame⟩ | ⟨id, hid, hcalled⟩⟩ := applyNext_cases h
  · rw [Piped.inputsAfter, hnone]
    exact hi.still hsame
  · rw [Piped.inputsAfter, hid]
    obtain ⟨c, r, hc, -, hclients⟩ := hcalled.client
    have hmem := mem_of_lookup hcalled.waiting
    -- first the index leaves the table, then the client is changed
    have hdel : PipeInv { st with server := { st.server with procClients := server.procClients } } := by
      have hsub : ∀ p ∈ server.procClients, p ∈ st.server.procClients := by
        rw [hcalled.table]
        exact fun p hp => List.mem_of_mem_filter hp
      exact ⟨hi.between, fun p hp => hi.held p (hsub p hp), fun p hp q hq => hi.apart p (hsub p hp) q (hsub q hq),
        fun p hp => hi.known p (hsub p hp), hi.ids⟩
    refine hdel.update hclients hnext (hi.ids id c hc) (fun _ => Between.reset ..) (.inl ⟨rfl, fun _ p hp heq => ?_⟩)
    dsimp only at hp
    rw [hcalled.table] at hp
    obtain ⟨hp, hne⟩ := List.mem_filter.mp hp
    have hindex := hi.apart p hp _ hmem heq
    simp [hindex] at hne

/-- **Every step that meets its condition keeps the invariant.** -/
theorem step {ev : PipeEvent n} (hok : PipeOk st ev) (h : st.next cfg i ev = some st') :
    PipeInv st' := by
  cases ev with
  | turn id => exact hi.turn hok h
  | read id chunk =>
    obtain ⟨c, hc, h⟩ := Option.bind_eq_some_iff.mp h
    dsimp only at h
    split at h
    · cases h
    split at h
    · cases h
      exact hi.leave id
    · cases h
      refine hi.update (Function.update_eq_self_iff.mpr hc.symm).symm rfl (hi.ids id c hc) (fun hcmd => ?_)
        (.inl ⟨rfl, hi.free hc⟩)
      exact (hi.between id c hc hcmd).append chunk
  | core a =>
    obtain ⟨server, hs, rfl⟩ := Option.map_eq_some_iff.mp h
    cases a with
    | apply =>
      simp only [Server.core] at hs
      split at hs
      · exact hi.apply hs
      · cases hs
    | tail inp =>
      simp only [Server.core] at hs
      split at hs
      · cases hs
        exact hi.still ⟨rfl, rfl, rfl⟩
      · cases hs
    | connect =>
      cases hs
      have hgrow : PipeInv { st with server := { st.server with nextClient := st.server.nextClient + 1 } } :=
        ⟨hi.between, hi.held, hi.apart, fun p hp => Nat.lt_succ_of_lt (hi.known p hp),
          fun id c hc => Nat.lt_succ_of_lt (hi.ids id c hc)⟩
      exact hgrow.update rfl rfl (Nat.lt_succ_self _) (fun _ => Between.reset Client.new Input.new)
        (.inl ⟨rfl, fun _ p hp => (hi.known p hp).ne⟩)
    | disconnect id =>
      cases hs
      exact hi.leave id
    | message j msg fsync =>
      obtain ⟨x, rfl, -⟩ := receive_cluster hs
      exact hi.still ⟨rfl, rfl, rfl⟩

/-- A step leaves a client with a pending command alone, unless it runs that command or frees the client. -/
theorem keeps {ev : PipeEvent n} (hok : PipeOk st ev) (h : st.next cfg i ev = some st')
    (hc : st.server.clients id = some c) (hcmd : c.cmd ≠ none) :
    (∃ c', st'.server.clients id = some c' ∧ c'.cmd = c.cmd ∧ c'.argv = c.argv) ∨
      (ev = .core .apply ∧ st.server.called = some id) ∨ st'.server.clients id = none := by
  have hsame : st'.server.clients id = st.server.clients id →
      ∃ c', st'.server.clients id = some c' ∧ c'.cmd = c.cmd ∧ c'.argv = c.argv :=
    fun heq => ⟨c, heq.trans hc, rfl, rfl⟩
  have hfreed : ∀ k, st'.server.clients = Function.update st.server.clients k none →
      (∃ c', st'.server.clients id = some c' ∧ c'.cmd = c.cmd ∧ c'.argv = c.argv) ∨
        (ev = .core .apply ∧ st.server.called = some id) ∨ st'.server.clients id = none := by
    intro k hk
    by_cases hid : id = k
    · subst hid
      exact .inr (.inr (by rw [hk, Function.update_self]))
    · exact .inl (hsame (by rw [hk, Function.update_of_ne hid]))
  cases ev with
  | turn k =>
    left
    obtain ⟨c', hc', h⟩ := Option.bind_eq_some_iff.mp h
    split at h
    · cases h
    obtain ⟨p, ok, hturn, hcases⟩ := hi.parse hc' hok
    rw [hturn, Option.bind_some] at h
    by_cases hk : id = k
    · subst hk
      rw [hc] at hc'
      cases hc'
      rcases hcases with ⟨hnone, -⟩ | ⟨-, rfl, hargv⟩
      · exact absurd hnone hcmd
      · cases h
        obtain ⟨hpcmd, hpargv, -⟩ := p.client_fields c
        exact ⟨p.client c, Function.update_self .., hpcmd, hpargv.trans hargv⟩
    · refine hsame ?_
      have hother : ∀ v, Function.update st.server.clients k v id = st.server.clients id := fun v =>
        Function.update_of_ne hk ..
      cases ok with
      | false =>
        cases h
        exact hother _
      | true =>
        simp only [Bool.not_true, Bool.false_eq_true, if_false] at h
        split at h
        · cases h
          exact hother _
        · rename_i hne
          obtain ⟨server, hserver, rfl⟩ := Option.map_eq_some_iff.mp h
          rw [← (p.client_fields c').2.1] at hne
          rcases processCommand_client hne hserver with ⟨-, hanswered⟩ | ⟨-, htaken⟩
          · obtain ⟨_, hclients⟩ := hanswered.clients
            exact (congrFun hclients id).trans (hother _)
          · obtain ⟨_, hclients⟩ := htaken.clients
            exact (congrFun hclients id).trans (hother _)
  | read k chunk =>
    obtain ⟨c', hc', h⟩ := Option.bind_eq_some_iff.mp h
    dsimp only at h
    split at h
    · cases h
    split at h
    · cases h
      exact hfreed k rfl
    · cases h
      exact .inl (hsame rfl)
  | core a =>
    obtain ⟨server, hs, rfl⟩ := Option.map_eq_some_iff.mp h
    cases a with
    | apply =>
      simp only [Server.core] at hs
      split at hs
      · obtain ⟨-, -, ⟨-, huntouched⟩ | ⟨k, hcalled, hcall⟩⟩ := applyNext_cases hs
        · exact .inl (hsame (congrFun huntouched.clients id))
        · by_cases hk : id = k
          · exact .inr (.inl ⟨rfl, by rw [hcalled, hk]⟩)
          · obtain ⟨_, _, -, -, hclients⟩ := hcall.client
            exact .inl (hsame ((congrFun hclients id).trans (Function.update_of_ne hk ..)))
      · cases hs
    | tail inp =>
      simp only [Server.core] at hs
      split at hs
      · cases hs
        exact .inl (hsame rfl)
      · cases hs
    | connect =>
      cases hs
      exact .inl (hsame (Function.update_of_ne (hi.ids id c hc).ne ..))
    | disconnect k =>
      cases hs
      exact hfreed k rfl
    | message j msg fsync =>
      obtain ⟨x, rfl, -⟩ := receive_cluster hs
      exact .inl (hsame rfl)

end

end PipeInv

/-! ## Whole runs -/

/-- **Pipelined requests.** In a run in which no turn of the parser is taken for a client with a pending command:
    no assertion of the parser fails, whatever the bytes; every client in `proc_clients` has a command; and the
    command of a client and its arguments stay what they are until `logApply` runs them, or the client is
    freed. -/
theorem pipelined_requests (cfg : Config n) (i : Fin n) (cluster : ClusterState n) (st : Piped n)
    (hr : RunBy (Piped.next cfg i) PipeOk (Piped.boot cluster) st) :
    (∀ id c, st.server.clients id = some c → PipeOk st (.turn id) →
      (parseTurn (parserOf c (st.inputs id))).isSome = true) ∧
    (∀ p ∈ st.server.procClients, ∀ c, st.server.clients p.2 = some c → c.cmd ≠ none) ∧
    ∀ ev st', PipeOk st ev → st.next cfg i ev = some st' → ∀ id c, st.server.clients id = some c → c.cmd ≠ none →
      (∃ c', st'.server.clients id = some c' ∧ c'.cmd = c.cmd ∧ c'.argv = c.argv) ∨
        (ev = .core .apply ∧ st.server.called = some id) ∨ st'.server.clients id = none := by
  have hi : PipeInv st := hr.invariant (fun _ _ _ hok h hi => PipeInv.step hi hok h) (.boot cluster)
  refine ⟨fun id c hc hok => ?_, hi.held, fun ev st' hok h id c hc hcmd => hi.keeps hok h hc hcmd⟩
  obtain ⟨p, ok, hturn, -⟩ := hi.parse hc hok
  rw [hturn]
  rfl

/-- The node is elected and a client connects. -/
def pipeElected : List (PipeEvent 3) :=
  [.core (.tail ⟨true, fun _ => true, fun _ => true⟩), .core (.message 1 (.responseVote ⟨1, true⟩) true),
    .core (.tail ⟨false, fun _ => true, fun _ => true⟩), .core .connect]

def freshPiped : Piped 3 := Piped.boot (clusterInit (fun _ => ⟨none, 0, 0⟩) LogState.empty)

/-- `set a 1` in the multi-bulk format. -/
def setBytes : Bytes := ascii "*3\r\n$3\r\nset\r\n$1\r\na\r\n$1\r\n1\r\n"

/-- What client 0 holds: its command, its arguments, and the table. -/
structure HeldView where
  cmd : Option PrezCommand
  argv : List Bytes
  table : List (Int × Nat)
deriving DecidableEq

def Piped.heldView (st : Piped n) : Option HeldView :=
  (st.server.clients 0).map fun c => ⟨c.cmd, c.argv, st.server.procClients⟩

theorem pipelined_requests_set :
    ∃ st : Piped 3, st.heldView = some ⟨some setCmd, [ascii "set", ascii "a", ascii "1"], [(1, 0)]⟩ ∧
      ∀ p ∈ st.server.procClients, ∀ c, st.server.clients p.2 = some c → c.cmd ≠ none := by
  obtain ⟨st, hr, hst⟩ := run_of_exec (Piped.next threeServers 0) PipeOk freshPiped
    (pipeElected ++ [.read 0 (setBytes.take 20), .turn 0, .read 0 (setBytes.drop 20), .turn 0]) Piped.heldView
    (some ⟨some setCmd, [ascii "set", ascii "a", ascii "1"], [(1, 0)]⟩) (by decide +kernel)
  exact ⟨st, hst, (pipelined_requests threeServers 0 _ st hr).2.1⟩

/-- Two writes of a client in one read. The turn behind the first fails the assertion `c->argc == 0`. With inline
    requests the second takes the place of the first, which is still in the table. -/
theorem pipelined_request_runs_over :
    (∃ st : Piped 3, RunBy (Piped.next threeServers 0) (fun _ _ => True) freshPiped st ∧
      st.heldView = some ⟨some setCmd, [ascii "set", ascii "a", ascii "1"], [(1, 0)]⟩ ∧
      (st.inputs 0).querybuf = setBytes ∧
      ((st.server.clients 0).bind fun c => parseTurn (parserOf c (st.inputs 0))) = none) ∧
    ∃ st st' : Piped 3, RunBy (Piped.next threeServers 0) (fun _ _ => True) freshPiped st ∧
      st.heldView = some ⟨some setCmd, [ascii "set", ascii "a", ascii "1"], [(1, 0)]⟩ ∧
      st.next threeServers 0 (.turn 0) = some st' ∧ st'.heldView = some ⟨none, [], [(1, 0)]⟩ := by
  constructor
  · obtain ⟨st, hr, hst⟩ := run_of_exec (Piped.next threeServers 0) (fun _ _ => True) freshPiped
      (pipeElected ++ [.read 0 (setBytes ++ setBytes), .turn 0])
      (fun st => decide (st.heldView = some ⟨some setCmd, [ascii "set", ascii "a", ascii "1"], [(1, 0)]⟩ ∧
        (st.inputs 0).querybuf = setBytes ∧
        ((st.server.clients 0).bind fun c => parseTurn (parserOf c (st.inputs 0))).isNone = true)) true
      (by decide +kernel)
    obtain ⟨hheld, hbuf, hfails⟩ := of_decide_eq_true hst
    exact ⟨st, hr, hheld, hbuf, Option.isNone_iff_eq_none.mp hfails⟩
  · obtain ⟨st, hr, hst⟩ := run_of_exec (Piped.next threeServers 0) (fun _ _ => True) freshPiped
      (pipeElected ++ [.read 0 (ascii "set a 1\r\nget a\r\n"), .turn 0])
      (fun st => decide (st.heldView = some ⟨some setCmd, [ascii "set", ascii "a", ascii "1"], [(1, 0)]⟩ ∧
        (st.next threeServers 0 (.turn 0)).map (·.heldView) = some (some ⟨none, [], [(1, 0)]⟩))) true
      (by decide +kernel)
    obtain ⟨hheld, hnext⟩ := of_decide_eq_true hst
    obtain ⟨st', hst', hview⟩ := Option.map_eq_some_iff.mp hnext
    exact ⟨st, st', hr, hheld, hst', hview⟩

end Prez
