import Prez.Election.Safety

/-!
# `Prez.Matching` — logs and the entries on the wire

`LogInv` ties the logs of the servers, and the entries that append requests carry, to the history: a log is
the history's log, a request for votes tells the log its sender stood with, and an append request with entries
carries a stretch of its leader's log. It is kept by every run in which the first conflict that an accepted
request finds is never at the last position of the log (`TruncOk`), because there `logTruncate` keeps the
entry it should remove.

From the invariant follow log matching and the append-only law for leaders.
-/

namespace Prez

open Lib

variable {n : Nat} {cfg : Config n} {g : Guard} {s s' : Net n} {h h' : Hist n}

/-! ## The invariant -/

/-- The term of the last entry, 0 for an empty log. -/
def lastTerm (l : List LogEntry) : Int := (l.getLast?.map (·.term)).getD 0

/-- The server's log is the one of the history, and a candidate stands with it. -/
structure Holder (h : Hist n) (v : Fin n) (x : ClusterState n) : Prop where
  log_eq : h.log v = x.log.list
  wf : LogWf x.log
  candidate : x.state = .candidate → h.cand v (h.term v) = some (h.log v)

/-- A request for votes describes the log its sender stood with, and the entries of an append request, if it has
    any, are a stretch of the leader's log. -/
def Quotes (h : Hist n) (p : Packet n) : Prop :=
  match p.msg with
  | .requestVote vote =>
    ∃ l, h.cand p.src vote.term = some l ∧ vote.lastLogIndex = l.length ∧ vote.lastLogTerm = lastTerm l
  | .appendEntries entries => entries.logEntries ≠ [] → Slice (h.llog entries.term) entries
  | _ => True

/-- **The invariant of logs.** -/
structure LogInv (s : Net n) (h : Hist n) : Prop where
  inv : h.Inv LogEntry.term
  node : ∀ v, Holder h v (s.node v)
  sent : ∀ p ∈ s.sent, Quotes h p
  contiguous : ∀ v, Contiguous (h.log v)
  contiguous_llog : ∀ t, Contiguous (h.llog t)
  term_nonneg : ∀ v, 0 ≤ h.term v
  /-- the first election is in term 1 -/
  vote_pos : ∀ {v t c}, h.vote v t = some c → 0 < t
  cand_pos : ∀ {c t l}, h.cand c t = some l → 0 < t

theorem LogInv.log_eq (hl : LogInv s h) (v : Fin n) : h.log v = (s.node v).log.list := (hl.node v).log_eq

/-- A vote request describes a log that its sender stood with. -/
theorem LogInv.request (hl : LogInv s h) (p : Packet n) (hp : p ∈ s.sent) (vote : RequestVote)
    (hm : p.msg = .requestVote vote) :
    ∃ l, h.cand p.src vote.term = some l ∧ vote.lastLogIndex = l.length ∧ vote.lastLogTerm = lastTerm l := by
  have hq := hl.sent p hp
  rwa [Quotes, hm] at hq

/-- A request with entries is a stretch of its leader's log. -/
theorem LogInv.slices (hl : LogInv s h) (p : Packet n) (hp : p ∈ s.sent) (entries : AppendEntries)
    (hm : p.msg = .appendEntries entries) (hne : entries.logEntries ≠ []) : Slice (h.llog entries.term) entries := by
  have hq := hl.sent p hp
  rw [Quotes, hm] at hq
  exact hq hne

theorem LogInv.contiguous_node (hl : LogInv s h) (v : Fin n) : Contiguous (s.node v).log.list := by
  rw [← hl.log_eq]
  exact hl.contiguous v

variable {server : Server n} {log : LogState} {entries : AppendEntries} {i : Fin n} {k : Nat} {p : Packet n}
variable {v : Fin n}

/-- Two logs that have an entry of one term at one position agree up to it. -/
theorem LogInv.match_llog (hl : LogInv s h) (v : Fin n) (t : Int) {x y : LogEntry}
    (hx : (s.node v).log.list[k]? = some x) (hy : (h.llog t)[k]? = some y) (ht : x.term = y.term) :
    (s.node v).log.list.take (k + 1) = (h.llog t).take (k + 1) := by
  rw [← hl.log_eq] at hx ⊢
  exact (hl.inv.genuine_log v).take_eq (hl.inv.genuine_llog t) hx hy ht

theorem lastTerm_eq (log : LogState) : logCurrentTerm log = lastTerm log.list := logCurrentTerm_eq log

/-! ## Slices -/

/-- A stretch stays one when the log grows. -/
theorem Slice.mono {ll ll' : List LogEntry} (hs : Slice ll entries) (hle : ll <+: ll') :
    Slice ll' entries where
  start := hs.start
  fits := hs.fits.trans hle.length_le
  stretch := by
    obtain ⟨r, rfl⟩ := hle
    rw [List.drop_append]
    exact hs.stretch.trans (List.prefix_append ..)
  prevTerm hpos := by
    obtain ⟨e, he, ht⟩ := hs.prevTerm hpos
    exact ⟨e, getElem?_of_isPrefix hle he, ht⟩

/-- What was said of a log stays true while candidates stay and the logs of the terms grow. -/
theorem Quotes.mono (hq : Quotes h p) (hcand : ∀ {c t l}, h.cand c t = some l → h'.cand c t = some l)
    (hllog : ∀ t, h.llog t <+: h'.llog t) : Quotes h' p := by
  unfold Quotes at hq ⊢
  split at hq
  · obtain ⟨l, hc, hdesc⟩ := hq
    exact ⟨l, hcand hc, hdesc⟩
  · exact fun hne => (hq hne).mono (hllog _)
  · trivial

/-- Inside the log, `logGetTerm` is the term of the entry. -/
theorem logGetTerm_in (log : LogState) (hk : 0 < k) (hle : k ≤ logLength log) :
    ∃ e, log.list[k - 1]? = some e ∧ e.term = logGetTerm log k := by
  have hlt : k - 1 < log.logEntries.length := by
    unfold logLength at hle
    omega
  refine ⟨log.logEntries[k - 1].logEntry, ?_, ?_⟩
  · rw [log.getElem?_list, List.getElem?_eq_getElem hlt]
    rfl
  · rw [logGetTerm, getLogEntry_in (by omega) (by omega), show ((k : Int) - 1).toNat = k - 1 by omega,
      List.getElem?_eq_getElem hlt]

/-- The loop of `clusterSendAppendEntries` inside the log. -/
theorem entriesFrom_eq (hc : Contiguous log.list) (hk : k ≤ logLength log) :
    entriesFrom log (k + 1) = (log.list.drop k).take logMaxEntriesPerRequest := by
  unfold entriesFrom
  rw [hc.currentIndex]
  split
  · rw [getLogNode_eq, if_pos (by omega), show ((k : Int) + 1 - 1).toNat = k by omega]
  · rw [List.drop_of_length_le (by rw [log.length_list]; omega), List.take_nil]

/-- Entries are read inside the log only. -/
theorem entriesFrom_ne_nil (hc : Contiguous log.list) {next : Int} (hne : entriesFrom log next ≠ []) :
    1 ≤ next ∧ next ≤ logLength log := by
  unfold entriesFrom at hne
  rw [hc.currentIndex] at hne
  split at hne
  · rename_i hle
    refine ⟨?_, hle⟩
    by_contra hlt
    rw [getLogNode_eq, if_neg (by omega), if_neg (by omega)] at hne
    exact hne rfl
  · exact absurd rfl hne

/-- An append request that starts inside the log, or right behind it, carries a stretch of it. -/
theorem slice_clusterSendAppendEntries {i j : Fin n} {x : ClusterState n} (hc : Contiguous x.log.list)
    (h1 : 1 ≤ (x.nodes j).nextIndex) (h2 : (x.nodes j).nextIndex ≤ logLength x.log + 1) :
    Slice x.log.list (clusterSendAppendEntries cfg i j x).2 := by
  obtain ⟨k, hk⟩ : ∃ k : Nat, (x.nodes j).nextIndex = k + 1 := ⟨((x.nodes j).nextIndex - 1).toNat, by omega⟩
  have hkl : k ≤ logLength x.log := by omega
  have hprev : (clusterSendAppendEntries cfg i j x).2.prevLogIndex = k := by
    show (x.nodes j).nextIndex - 1 = k
    omega
  have hent : (clusterSendAppendEntries cfg i j x).2.logEntries =
      (x.log.list.drop k).take logMaxEntriesPerRequest := by
    show entriesFrom x.log (x.nodes j).nextIndex = _
    rw [hk, entriesFrom_eq hc hkl]
  refine ⟨by omega, ?_, ?_, ?_⟩
  · rw [hprev, hent, Int.toNat_natCast, List.length_take, List.length_drop, x.log.length_list]
    omega
  · rw [hprev, hent, Int.toNat_natCast]
    exact List.take_prefix ..
  · rw [hprev, Int.toNat_natCast]
    intro hpos
    obtain ⟨e, he, ht⟩ := logGetTerm_in x.log (by omega : 0 < k) hkl
    refine ⟨e, he, ht.trans ?_⟩
    show logGetTerm x.log k = logGetTerm x.log ((x.nodes j).nextIndex - 1)
    rw [hk, Int.add_sub_cancel]

/-! ## Moves that leave the logs alone -/

/-- A change of one server that keeps its log. -/
theorem LogInv.still (hl : LogInv s h) {rest out : List (Packet n)} (hlog : server.cluster.log = (s.node i).log)
    (hstate : server.cluster.state = .candidate → (s.node i).state = .candidate) (hout : ∀ p ∈ out, Quotes h p) :
    LogInv (s.put i server rest out) h :=
  { hl with
    node := Net.forall_node_put ⟨by rw [hlog]; exact hl.log_eq i, by rw [hlog]; exact (hl.node i).wf,
      fun hc => (hl.node i).candidate (hstate hc)⟩ fun v _ => hl.node v
    sent := Net.forall_sent_put hl.sent hout }

theorem quotes_nil : ∀ p ∈ ([] : List (Packet n)), Quotes h p := List.forall_mem_nil _

theorem quotes_response (p : Packet n) (r : ResponseAppendEntries) :
    ∀ q ∈ [p.reply (.responseAppendEntries r)], Quotes h q := by
  intro q hq
  rw [List.mem_singleton.mp hq]
  trivial

theorem quotes_vote (p : Packet n) (r : ResponseVote) : ∀ q ∈ [p.reply (.responseVote r)], Quotes h q := by
  intro q hq
  rw [List.mem_singleton.mp hq]
  trivial

/-- The leader's log is the log of its term. -/
theorem LogInv.leader_llog (hi : ElectionInv cfg s h) (hl : LogInv s h) (hs : (s.node i).state = .leader) :
    h.llog (s.node i).currentTerm = (s.node i).log.list := by
  rw [← hi.term_eq, ← hl.log_eq]
  exact (hl.inv.leader_log (hi.leader i hs) rfl).symm

/-- A heartbeat quotes the leader's log. -/
theorem LogInv.heartbeat (hi : ElectionInv cfg s h) (hl : LogInv s h) {i j : Fin n} (hs : (s.node i).state = .leader)
    (hb : Becomes s i (clusterSendAppendEntries cfg i j (s.node i)).1 server) :
    LogInv (s.put i server s.net
      [⟨i, j, .appendEntries (clusterSendAppendEntries cfg i j (s.node i)).2, none⟩]) h := by
  refine hl.still (by rw [hb.cluster]; rfl) (by rw [hb.cluster]; exact id) ?_
  intro p hp
  rw [List.mem_singleton.mp hp]
  intro hne
  have hc := hl.contiguous_node i
  obtain ⟨h1, h2⟩ := entriesFrom_ne_nil hc hne
  -- the leader's list is the log of its term, and the entries are a stretch of the list
  rw [show (clusterSendAppendEntries cfg i j (s.node i)).2.term = (s.node i).currentTerm from rfl,
    hl.leader_llog hi hs]
  exact slice_clusterSendAppendEntries hc h1 (by omega)

/-! ## Elections -/

/-- A server enters a higher term. -/
theorem LogInv.enter (hi : ElectionInv cfg s h) (hl : LogInv s h) {t : Int} (ht : (s.node i).currentTerm < t)
    (hb : Becomes s i ((s.node i).enterTerm t) server) : LogInv (s.put i server s.net []) (h.raise i t) := by
  have hstill : LogInv (s.put i server s.net []) h :=
    hl.still (by rw [hb.cluster]; rfl) (by rw [hb.cluster]; exact nofun) quotes_nil
  have hle : h.term i ≤ t := by
    rw [hi.term_eq]
    exact ht.le
  refine { hstill with
    inv := hl.inv.raise hle
    node := Net.forall_node_put ⟨?_, ?_, ?_⟩ fun v hv => ⟨hl.log_eq v, (hl.node v).wf, ?_⟩
    term_nonneg := fun v => (hl.term_nonneg v).trans (History.le_raise_term hle v) }
  · exact (hstill.log_eq i).trans (by rw [Net.put_node_self])
  · rw [hb.cluster]
    exact (hl.node i).wf
  · rw [hb.cluster]
    exact nofun
  · rw [h.raise_term_of_ne hv]
    exact (hl.node v).candidate

/-- The test of `clusterProcessRequestVote` compares length and last term of the two logs. -/
theorem LogInv.upToDate (hl : LogInv s h) {l : List LogEntry} {vote : RequestVote}
    (hlen : vote.lastLogIndex = l.length) (hlast : vote.lastLogTerm = lastTerm l)
    (hidx : logCurrentIndex (s.node v).log ≤ vote.lastLogIndex)
    (hterm : logCurrentTerm (s.node v).log ≤ vote.lastLogTerm) : History.UpToDate LogEntry.term (h.log v) l := by
  intro e₁ he₁
  rw [(hl.contiguous_node v).currentIndex, ← LogState.length_list, ← hl.log_eq, hlen, Nat.cast_le] at hidx
  rw [lastTerm_eq, ← hl.log_eq, hlast, lastTerm, he₁] at hterm
  have hpos : 0 < (h.log v).length := List.length_pos_of_mem (List.mem_of_getLast? he₁)
  obtain ⟨e₂, he₂⟩ : ∃ e₂, l.getLast? = some e₂ :=
    ⟨_, List.getLast?_eq_some_getLast (List.length_pos_iff.mp (hpos.trans_le hidx))⟩
  rw [lastTerm, he₂] at hterm
  -- the code asks for both comparisons, up to date needs the second one only between equal terms
  rcases (show e₁.term ≤ e₂.term from hterm).lt_or_eq with hlt | heq
  · exact ⟨e₂, he₂, .inl hlt⟩
  · exact ⟨e₂, he₂, .inr ⟨heq, hidx⟩⟩

/-- A server votes for a log that is up to date. -/
theorem LogInv.grant (hi : ElectionInv cfg s h) (hl : LogInv s h) {vote : RequestVote} (hp : s.net[k]? = some p)
    (hm : p.msg = .requestVote vote) (ht : vote.term = (s.node p.dst).currentTerm)
    (hidx : logCurrentIndex (s.node p.dst).log ≤ vote.lastLogIndex)
    (hterm : logCurrentTerm (s.node p.dst).log ≤ vote.lastLogTerm)
    (hb : Becomes s p.dst { s.node p.dst with votedFor := vote.candidateid } server) :
    LogInv (s.put p.dst server (s.net.eraseIdx k)
      [p.reply (.responseVote (clusterSendResponseVote (s.node p.dst) true))]) (h.grant p.dst p.src) := by
  have hstill : LogInv (s.put p.dst server (s.net.eraseIdx k)
      [p.reply (.responseVote (clusterSendResponseVote (s.node p.dst) true))]) h :=
    hl.still (by rw [hb.cluster]) (by rw [hb.cluster]; exact id) (quotes_vote p _)
  obtain ⟨l, hcand, hlen, hlast⟩ := hl.request p (hi.wire p (List.mem_of_getElem? hp)) vote hm
  have hup := hl.upToDate hlen hlast hidx hterm
  rw [ht, ← hi.term_eq] at hcand
  refine { hstill with
    inv := hl.inv.grant hcand hup
    node := fun v => { hstill.node v with }
    vote_pos := fun hv => ?_ }
  rcases setCell_some hv with ⟨-, rfl, -⟩ | ⟨-, hv⟩
  · exact hl.cand_pos hcand
  · exact hl.vote_pos hv

/-- A server stands with its log. -/
theorem LogInv.campaign (hi : ElectionInv cfg s h) (hl : LogInv s h) {inp : CronInput n}
    (hs : (s.node i).state ≠ .leader) (ht : inp.timeout = true)
    (hb : Becomes s i (startElection cfg i inp (s.node i)).1 server) :
    LogInv (s.put i server s.net (voteRequests cfg i inp (s.node i)))
      ((h.raise i ((s.node i).currentTerm + 1)).stand i) := by
  have hreq {p : Packet n} (hp : p ∈ voteRequests cfg i inp (s.node i)) := mem_voteRequests hs ht hp
  generalize voteRequests cfg i inp (s.node i) = out at hreq
  have hterm := hi.term_eq i
  set t := (s.node i).currentTerm + 1 with htdef
  have hlt : h.term i < t := by omega
  have hself : (h.raise i t).term i = t := h.raise_term_self i t
  have hlog : (s.node i).log = server.cluster.log := by rw [hb.cluster, startElection, if_pos ⟨hs, ht⟩]; rfl
  have hcand : ((h.raise i t).stand i).cand = setCell h.cand i t (some (h.log i)) := by
    rw [History.stand, hself]
    rfl
  -- `i` had not stood in the new term before
  have hmono : ∀ {c t' l}, h.cand c t' = some l → ((h.raise i t).stand i).cand c t' = some l := by
    intro c t' l hc
    rw [hcand, setCell_of_ne]
    · exact hc
    · rintro ⟨rfl, rfl⟩
      exact not_le.mpr hlt (hl.inv.cand_term hc).1
  constructor
  case inv =>
    -- nobody has voted for `i` in a term that it has not reached
    refine (hl.inv.raise hlt.le).stand ?_ ?_
    · intro w hw
      rw [hself] at hw
      exact not_le.mpr hlt (hi.vote_term hw).2
    · intro e he
      rw [hself]
      exact (hl.inv.log_term i e he).trans_lt hlt
  case node =>
    refine Net.forall_node_put ⟨?_, ?_, fun _ => ?_⟩ fun v hv => ⟨hl.log_eq v, (hl.node v).wf, fun hc => ?_⟩
    · rw [← hlog]
      exact hl.log_eq i
    · rw [← hlog]
      exact (hl.node i).wf
    · rw [hcand, show ((h.raise i t).stand i).term i = t from hself, setCell_same]
      rfl
    · rw [show ((h.raise i t).stand i).term v = h.term v from h.raise_term_of_ne hv t]
      exact hmono ((hl.node v).candidate hc)
  case sent =>
    refine Net.forall_sent_put (fun p hp => (hl.sent p hp).mono hmono fun _ => List.prefix_rfl) fun p hp => ?_
    -- the request describes the log with which `i` stands
    obtain ⟨rfl, -, hmsg⟩ := hreq hp
    rw [Quotes, hmsg]
    refine ⟨h.log p.src, by rw [hcand, setCell_same], ?_, ?_⟩
    · rw [hl.log_eq, LogState.length_list]
      exact (hl.contiguous_node p.src).currentIndex
    · rw [hl.log_eq, ← lastTerm_eq]
  case contiguous => exact hl.contiguous
  case contiguous_llog => exact hl.contiguous_llog
  case term_nonneg => exact fun v => (hl.term_nonneg v).trans (History.le_raise_term hlt.le v)
  case vote_pos =>
    intro v t' c hv
    rw [campaign_vote] at hv
    rcases setCell_some hv with ⟨-, rfl, -⟩ | ⟨-, hv⟩
    · exact (hl.term_nonneg i).trans_lt hlt
    · exact hl.vote_pos hv
  case cand_pos =>
    intro c t' l hc
    rw [hcand] at hc
    rcases setCell_some hc with ⟨-, rfl, -⟩ | ⟨-, hc⟩
    · exact (hl.term_nonneg i).trans_lt hlt
    · exact hl.cand_pos hc

/-- The log of the winner is what its term starts with. -/
theorem LogInv.elect (hi : ElectionInv cfg s h) (hl : LogInv s h) (hs : (s.node i).state = .candidate)
    (hq : quorumSize n ≤ (s.node i).votesGranted) (hb : Becomes s i (becomeLeader cfg i (s.node i)) server) :
    LogInv (s.put i server s.net []) (h.elect i) := by
  have hx : server.cluster = becomeLeader cfg i (s.node i) := hb.cluster
  rw [becomeLeader, if_pos ⟨hs, hq⟩] at hx
  have hstill : LogInv (s.put i server s.net []) h :=
    hl.still (by rw [hx]) (by rw [hx]; intro hc; cases hc) quotes_nil
  have hnone := hi.unled hs hq
  have hext := hl.inv.extends_elect hnone
  refine { hstill with
    -- the votes counted are votes of different voters
    inv := hl.inv.elect hnone ((hl.node i).candidate hs) (hi.quorum hs hq) fun v hv => mem_voters.mp hv
    node := fun v => { hstill.node v with }
    sent := fun p hp => (hstill.sent p hp).mono id hext.llog
    contiguous_llog := ?_ }
  · intro t
    by_cases ht : t = h.term i
    · rw [ht, show (h.elect i).llog (h.term i) = h.log i from Function.update_self ..]
      exact hl.contiguous i
    · rw [show (h.elect i).llog t = h.llog t from Function.update_of_ne ht ..]
      exact hl.contiguous_llog t

/-! ## Writes -/

/-- What a leader's write does to its log. -/
theorem Writes.list {x : ClusterState n} {e : LogEntry} (hw : Writes x e log) (hc : Contiguous x.log.list) :
    log.list = x.log.list ++ [e] ∧ e.index = logLength x.log + 1 := by
  have hindex : e.index = logLength x.log + 1 := by rw [hw.index, hc.currentIndex]
  have hlog := hw.log
  rw [logWriteEntry_next hc hindex] at hlog
  cases hlog
  exact ⟨list_logAppend .., hindex⟩

/-- A leader that has written keeps its role; its log is the new one. -/
theorem Becomes.of_write
    (hb : Becomes s i (if n = 1 then logCommitIndex { s.node i with log := log } (logCurrentIndex log)
      else { s.node i with log := log }) server) :
    server.cluster.log = log ∧ server.cluster.state = (s.node i).state := by
  rw [hb.cluster]
  split
  · exact ⟨logCommitIndex_log .., logCommitIndex_state ..⟩
  · exact ⟨rfl, rfl⟩

/-- A leader writes an entry. -/
theorem LogInv.write (hi : ElectionInv cfg s h) (hl : LogInv s h) {e : LogEntry} (hw : Writes (s.node i) e log)
    (hlog : server.cluster.log = log) (hstate : server.cluster.state = (s.node i).state) :
    LogInv (s.put i server s.net []) (h.append i e) := by
  obtain ⟨hlist, hindex⟩ := hw.list (hl.contiguous_node i)
  have hled := hi.leader i hw.leader
  have hext := hl.inv.extends_append i e
  have hself : (h.append i e).log i = h.log i ++ [e] := Function.update_self ..
  have hother : ∀ {v}, v ≠ i → (h.append i e).log v = h.log v := fun hv => Function.update_of_ne hv ..
  have hcon : Contiguous (h.log i ++ [e]) := by
    refine (hl.contiguous i).concat ?_
    rw [hindex, hl.log_eq, LogState.length_list]
  constructor
  case inv => exact hl.inv.append hled (by rw [hw.term, hi.term_eq])
  case node =>
    refine Net.forall_node_put ⟨?_, ?_, fun hc => ?_⟩ fun v hv => ⟨?_, (hl.node v).wf, ?_⟩
    · rw [hself, hlog, hlist, hl.log_eq]
    · rw [hlog]
      exact logWriteEntry_wf (hl.node i).wf hw.log
    · rw [hstate, hw.leader] at hc
      cases hc
    · rw [hother hv]
      exact hl.log_eq v
    · rw [hother hv]
      exact (hl.node v).candidate
  case sent => exact Net.forall_sent_put (fun p hp => (hl.sent p hp).mono id hext.llog) quotes_nil
  case term_nonneg => exact hl.term_nonneg
  case vote_pos => exact hl.vote_pos
  case cand_pos => exact hl.cand_pos
  case contiguous =>
    intro v
    by_cases hv : v = i
    · rw [hv, hself]
      exact hcon
    · rw [hother hv]
      exact hl.contiguous v
  case contiguous_llog =>
    intro t
    by_cases ht : t = h.term i
    · rw [ht, show (h.append i e).llog (h.term i) = h.llog (h.term i) ++ [e] from Function.update_self ..,
        ← hl.inv.leader_log hled rfl]
      exact hcon
    · rw [show (h.append i e).llog t = h.llog t from Function.update_of_ne ht ..]
      exact hl.contiguous_llog t

/-! ## Accepted requests -/

/-- What an accepted request that carries a stretch of the leader's log does to the log. -/
theorem LogInv.took (hl : LogInv s h) (hs : Slice (h.llog entries.term) entries) (ha : Accepts (s.node v) entries)
    (hok : TruncOk (s.node v) entries) (hlog : logAppendEntries (s.node v).log entries.logEntries = some log) :
    Took (s.node v).log (h.llog entries.term) entries.logEntries
      (entries.prevLogIndex.toNat + entries.logEntries.length) log := by
  have hprev : entries.prevLogIndex = (entries.prevLogIndex.toNat : Int) := (Int.toNat_of_nonneg hs.start).symm
  -- log matching between the follower's log and the log of the term
  have hmatch : ∀ (k : Nat) (x y : LogEntry), (s.node v).log.list[k]? = some x →
      (h.llog entries.term)[k]? = some y → x.term = y.term →
      (s.node v).log.list.take (k + 1) = (h.llog entries.term).take (k + 1) :=
    fun k x y hx hy ht => hl.match_llog v _ hx hy ht
  have hverify := ha.2
  rw [hprev] at hverify
  obtain ⟨hagree, hle⟩ := logVerifyAppend_agree hmatch (fun hpos => hs.prevTerm (by omega)) hverify
  exact logAppendEntries_took (hl.contiguous_llog _) _ (hl.contiguous_node v) hmatch hagree hle hs.stretch
    (hok ha) hlog

/-- A request without entries leaves the log alone. -/
theorem LogInv.untouched (hi : ElectionInv cfg s h) (hl : LogInv s h) (hp : p ∈ s.net)
    (hm : p.msg = .appendEntries entries) (hs : ¬ Slice (h.llog entries.term) entries)
    (hlog : logAppendEntries (s.node p.dst).log entries.logEntries = some log) : log = (s.node p.dst).log := by
  have hnil : entries.logEntries = [] := by
    by_contra hne
    exact hs (hl.slices p (hi.wire p hp) entries hm hne)
  rw [hnil] at hlog
  cases hlog
  rfl

/-- A follower takes over what the leader sent. -/
theorem LogInv.take (hi : ElectionInv cfg s h) (hl : LogInv s h) {r : ResponseAppendEntries}
    (hh : Recorded h p.dst entries log.list h') (hp : s.net[k]? = some p) (hm : p.msg = .appendEntries entries)
    (ht : entries.term = (s.node p.dst).currentTerm) (ha : Accepts (s.node p.dst) entries)
    (hlog : logAppendEntries (s.node p.dst).log entries.logEntries = some log) (hok : TruncOk (s.node p.dst) entries)
    (hnew : server.cluster.log = log) (hstate : server.cluster.state ≠ .candidate) :
    LogInv (s.put p.dst server (s.net.eraseIdx k) [p.reply (.responseAppendEntries r)]) h' := by
  have hmem : p ∈ s.net := List.mem_of_getElem? hp
  rcases hh with ⟨hs, rfl⟩ | ⟨hs, rfl⟩
  · have htook := hl.took hs ha hok hlog
    have htv : entries.term = h.term p.dst := ht.trans (hi.term_eq _).symm
    obtain ⟨hled, hne⟩ := hi.append p (hi.wire p hmem) entries hm
    set m := entries.prevLogIndex.toNat + entries.logEntries.length with hmdef
    have hself : (h.accept p.dst m log.list).log p.dst = log.list := Function.update_self ..
    have hother : ∀ {v}, v ≠ p.dst → (h.accept p.dst m log.list).log v = h.log v :=
      fun hv => Function.update_of_ne hv ..
    constructor
    case inv =>
      have hfits := hs.fits
      rw [htv] at hled htook hfits
      refine hl.inv.accept hled hne hfits ?_
      rw [hl.log_eq]
      exact htook.takes
    case node =>
      refine Net.forall_node_put ⟨?_, ?_, fun hc => absurd hc hstate⟩ fun v hv => ⟨?_, (hl.node v).wf, ?_⟩
      · rw [hself, hnew]
      · rw [hnew]
        exact logAppendEntries_wf _ (hl.node _).wf hlog
      · rw [hother hv]
        exact hl.log_eq v
      · rw [hother hv]
        exact (hl.node v).candidate
    case sent => exact Net.forall_sent_put hl.sent (quotes_response p r)
    case term_nonneg => exact hl.term_nonneg
    case vote_pos => exact hl.vote_pos
    case cand_pos => exact hl.cand_pos
    case contiguous =>
      intro v
      by_cases hv : v = p.dst
      · rw [hv, hself]
        exact htook.contiguous (hl.contiguous_node _) (hl.contiguous_llog _)
      · rw [hother hv]
        exact hl.contiguous v
    case contiguous_llog => exact hl.contiguous_llog
  · have hold := hl.untouched hi hmem hm hs hlog
    exact hl.still (hnew.trans hold) (fun hc => absurd hc hstate) (quotes_response p r)

/-! ## All moves -/

/-- **Every move keeps the invariant**, if the moves truncate as they should. -/
theorem LogInv.move (hg : g.trunc = true) (hi : ElectionInv cfg s h) (hl : LogInv s h)
    (hm : Move cfg g s h s' h') : LogInv s' h' := by
  cases hm with
  | idle i server hb => exact hl.still (by rw [hb.cluster]) (by rw [hb.cluster]; exact id) quotes_nil
  | apply i server hlt hc he => exact hl.still (by rw [hc]) (by rw [hc]; exact id) quotes_nil
  | enter i server t ht hb => exact hl.enter hi ht hb
  | campaign i server inp hs ht hb => exact hl.campaign hi hs ht hb
  | elect i server hs hq hb => exact hl.elect hi hs hq hb
  | commit i server hs _ hb =>
    refine hl.still (by rw [hb.cluster, clusterUpdateCommitIndex_log]) (fun hc => ?_) quotes_nil
    rcases (sameVoter_clusterUpdateCommitIndex (s.node i)).state with hst | hst
    · rw [← hst, ← hb.cluster]
      exact hc
    · rw [hb.cluster, hst] at hc
      cases hc
  | heartbeat i j server hs hj hb => exact hl.heartbeat hi hs hb
  | write i server e log hw hb => exact hl.write hi hw (Becomes.of_write hb).1 (Becomes.of_write hb).2
  | deny k p vote server hp hm hb =>
    exact hl.still (by rw [hb.cluster]) (by rw [hb.cluster]; exact id) (quotes_vote p _)
  | grant k p vote server hp hm ht hv hidx hterm hb => exact hl.grant hi hp hm ht hidx hterm hb
  | count k p vote server hp hm hgr ht hb =>
    exact hl.still (by rw [hb.cluster]) (by rw [hb.cluster]; exact id) quotes_nil
  | ignore k p server hp hb => exact hl.still (by rw [hb.cluster]) (by rw [hb.cluster]; exact id) quotes_nil
  | stale k p entries server hp hm hb =>
    exact hl.still (by rw [hb.cluster]) (by rw [hb.cluster]; exact id) (quotes_response p _)
  | refuse k p entries server hp hm ht hb =>
    refine hl.still (by rw [hb.cluster, followLeader_log]) (fun hc => ?_) (quotes_response p _)
    rw [hb.cluster] at hc
    exact absurd hc followLeader_state_ne
  | unsynced k p entries server log _ hh hp hm ht ha hlog hok hb =>
    refine hl.take hi hh hp hm ht ha hlog (hok hg) (by rw [hb.cluster]) ?_
    rw [hb.cluster]
    exact followLeader_state_ne
  | accept k p entries server log _ hh hp hm ht ha hlog hok hgc hb =>
    refine hl.take hi hh hp hm ht ha hlog (hok hg) (by rw [hb.cluster, logCommitIndex_log]) ?_
    rw [hb.cluster, logCommitIndex_state]
    exact followLeader_state_ne
  | credit k p entries server index hp hm hok hlast hresp hb =>
    exact hl.still (by rw [hb.cluster]; rfl) (by rw [hb.cluster]; exact id) quotes_nil
  | retreat k p server hp hb =>
    exact hl.still (by rw [hb.cluster]; rfl) (by rw [hb.cluster]; exact id) quotes_nil

theorem Recorded.extends {l : List LogEntry} (hh : Recorded h v entries l h') : h.Extends h' := by
  rcases hh with ⟨-, rfl⟩ | ⟨-, rfl⟩
  · exact History.extends_accept ..
  · exact .refl _

/-- What has happened stays in the history. -/
theorem LogInv.extends_of_move (hi : ElectionInv cfg s h) (hl : LogInv s h) (hm : Move cfg g s h s' h') :
    h.Extends h' := by
  cases hm with
  | enter i server t ht hb => exact History.extends_raise (by rw [hi.term_eq]; exact ht.le)
  | campaign i server inp hs ht hb =>
    refine (History.extends_raise ?_).trans (History.extends_stand i)
    rw [hi.term_eq]
    omega
  | elect i server hs hq hb => exact hl.inv.extends_elect (hi.unled hs hq)
  | write i server e log hw hb => exact hl.inv.extends_append i e
  | grant k p vote server hp hm ht hv hidx hterm hb => exact History.extends_grant ..
  | unsynced k p entries server log _ hh => exact hh.extends
  | accept k p entries server log _ hh => exact hh.extends
  | _ => exact .refl h

/-! ## Runs -/

/-- Everything that is kept by runs that truncate as they should. -/
structure Logged (cfg : Config n) (s : Net n) (h : Hist n) : Prop where
  election : ElectionInv cfg s h
  unvoted : Unvoted s h
  logs : LogInv s h

/-- **Every move keeps the three together.** -/
theorem Logged.move (hname : ∀ i, (cfg.name i).bytes ≠ []) (hg : g.trunc = true) (hi : Logged cfg s h)
    (hm : Move cfg g s h s' h') : Logged cfg s' h' where
  election := hi.election.move (hi.unvoted.free hi.election) hm
  unvoted := hi.unvoted.move hi.election hname hm
  logs := hi.logs.move hg hi.election hm

theorem Net.Fresh.list {s : Net n} (hs : s.Fresh) (v : Fin n) : (s.node v).log.list = [] := by
  obtain ⟨nodes, hboot⟩ := hs.servers v
  rw [Net.node, hboot]
  rfl

/-- Nothing has happened yet. -/
theorem inv_start (hs : ∀ v, (s.node v).log.list = []) : (History.start s).Inv LogEntry.term where
  log_term v e he := by
    rw [show (History.start s).log v = [] from hs v] at he
    cases he
  vote_term hv := nomatch hv
  led_term hl := nomatch hl
  cand_term hc := nomatch hc
  elog_term _ _ he := nomatch he
  grown _ := ⟨[], rfl, fun _ he => nomatch he⟩
  unled _ := ⟨rfl, fun _ => rfl⟩
  genuine_log v k e hk := by
    rw [show (History.start s).log v = [] from hs v] at hk
    cases hk
  genuine_cand hc := nomatch hc
  genuine_elog _ _ _ hk := nomatch hk
  leader_log hl := nomatch hl
  ack_le _ _ := le_rfl
  ack_term ha := absurd ha (lt_irrefl 0)
  ack_log _ := List.nil_prefix
  kept ha := absurd (ha.1.trans_le ha.2) (lt_irrefl _)
  promised hv := nomatch hv
  elected hl := nomatch hl

/-- The start. -/
theorem Net.Fresh.logged {s : Net n} (hs : s.Fresh) : Logged cfg s (History.start s) where
  election := hs.booted.electionInv
  unvoted := unvoted_start s
  logs :=
    { inv := inv_start hs.list
      node := fun v => by
        obtain ⟨nodes, hboot⟩ := hs.servers v
        refine ⟨rfl, ?_, ?_⟩ <;> rw [Net.node, hboot]
        · exact logWf_empty
        · intro hc
          cases hc
      sent := fun p hp => by
        rw [hs.sent] at hp
        cases hp
      term_nonneg := fun v => by
        obtain ⟨nodes, hboot⟩ := hs.servers v
        show 0 ≤ (s.node v).currentTerm
        rw [Net.node, hboot]
        exact le_rfl
      vote_pos := fun hv => nomatch hv
      cand_pos := fun hc => nomatch hc
      contiguous := fun v => by
        rw [show (History.start s).log v = [] from hs.list v]
        exact contiguous_nil
      contiguous_llog := fun _ => contiguous_nil }

/-- Every conflict is removed as it should be. -/
def Guard.truncation : Guard := ⟨true, false, false⟩

/-- **So does every run.** -/
theorem logged_of_moves (hname : ∀ i, (cfg.name i).bytes ≠ []) (hg : g.trunc = true) (hm : Moves cfg g s s')
    (hi : Logged cfg s h) : ∃ h', Logged cfg s' h' ∧ h.Extends h' := by
  refine hm.invariant (P := fun s h' => Logged cfg s h' ∧ h.Extends h') ?_ ⟨hi, .refl h⟩
  rintro s₁ h₁ s₂ h₂ ⟨hl, hext⟩ hmove
  exact ⟨hl.move hname hg hmove, hext.trans (hl.logs.extends_of_move hl.election hmove)⟩

/-! ## Log matching -/

/-- Wherever the lists have an entry of the same index and term, they are the same up to that entry. -/
def Matches (l l' : List LogEntry) : Prop :=
  ∀ (a b : Nat) (e₁ e₂ : LogEntry), l[a]? = some e₁ → l'[b]? = some e₂ → e₁.index = e₂.index →
    e₁.term = e₂.term → l.take (a + 1) = l'.take (b + 1)

/-- **Log matching** for any two servers. -/
theorem LogInv.matches (hl : LogInv s h) (i j : Fin n) : Matches (s.node i).log.list (s.node j).log.list := by
  intro a b e₁ e₂ he₁ he₂ hindex hterm
  have hab : a = b := by
    have h₁ := hl.contiguous_node i a e₁ he₁
    have h₂ := hl.contiguous_node j b e₂ he₂
    omega
  subst hab
  rw [← hl.log_eq] at he₁ he₂ ⊢
  rw [← hl.log_eq]
  exact hl.inv.logs_match he₁ he₂ hterm

/-- **Log matching.** In a run without restarts in which no accepted request finds its first conflict at the
    last entry of the log, the logs of any two servers match. -/
theorem log_matching (cfg : Config n) (hname : ∀ i, (cfg.name i).bytes ≠ []) {s₀ s : Net n} (h₀ : s₀.Fresh)
    (hr : RunIf cfg (Good cfg .truncation) s₀ s) (i j : Fin n) :
    Matches (s.node i).log.list (s.node j).log.list := by
  obtain ⟨h, hl, -⟩ := logged_of_moves hname rfl (moves_of_run hr) h₀.logged
  exact hl.logs.matches i j

/-- One leader, and its entry on two servers. -/
theorem log_matching_replicated : ∃ s : Net 3,
    RunIf threeServers (Good threeServers .truncation) (Net.fresh 3) s ∧
      (s.node 0).log.list = [setA 1 1] ∧ (s.node 1).log.list = [setA 1 1] ∧
        Matches (s.node 0).log.list (s.node 1).log.list := by
  obtain ⟨s, hr, hs⟩ := run_of_exec (Net.step threeServers) (Good threeServers .truncation)
    (Net.fresh 3)
    (campaignAt 0 [1] :: deliveries 2 ++ [tickAt 0 [], .event 0 .connect, setAt 0, tickAt 0 [1]] ++ deliveries 1)
    (fun s => ((s.node 0).log.list, (s.node 1).log.list)) ([setA 1 1], [setA 1 1]) (by decide +kernel)
  rw [Prod.mk.injEq] at hs
  exact ⟨s, hr, hs.1, hs.2, log_matching _ (by decide) (Net.fresh_fresh 3) hr 0 1⟩

/-- A leader of term 1 has one entry of its own; the leader of term 2 sends another for the same index. The
    conflict is at the last position, so both entries stay and the second is out of place. -/
def shiftRun : List (Action 3) :=
  campaignAt 0 [2] :: deliveries 2 ++ [tickAt 0 [], .event 0 .connect, setAt 0] ++
    [campaignAt 1 [], campaignAt 1 [2]] ++ deliveries 2 ++
    [tickAt 1 [], .event 1 .connect, setAt 1, tickAt 1 [0]] ++ deliveries 1

theorem logs_shifted : ∃ s₀ s : Net 3, s₀.Fresh ∧
    RunIf threeServers (fun s a => a.CrashFree ∧ InOrder s a) s₀ s ∧
      ¬ Matches (s.node 0).log.list (s.node 1).log.list := by
  obtain ⟨s, hr, hs⟩ := run_of_exec (Net.step threeServers) (fun s a => a.CrashFree ∧ InOrder s a)
    (Net.fresh 3) shiftRun (fun s => ((s.node 0).log.list, (s.node 1).log.list))
    ([setA 1 1, setA 1 2], [setA 1 2]) (by decide +kernel)
  rw [Prod.mk.injEq] at hs
  refine ⟨_, s, Net.fresh_fresh 3, hr, fun hmatch => ?_⟩
  rw [hs.1, hs.2] at hmatch
  exact absurd (hmatch 1 0 _ _ rfl rfl rfl rfl) (by decide)

/-! ## Leaders only append -/

/-- A write handled by `clusterProcessCommand` adds one entry at the end. -/
def ExtendsByOne (x : ClusterState n) (y : ClusterState n) : Prop :=
  ∃ e, y.log.list = x.log.list ++ [e] ∧ e.index = logCurrentIndex x.log + 1 ∧ e.term = x.currentTerm

/-- A command makes the log one entry longer. -/
theorem LogInv.extendsByOne (hl : LogInv s h) (hs : (s.node i).state = .leader) {id : Nat} {cmd : PrezCommand}
    {argv : List Bytes} {server server' : Server n} (hserver : server.cluster = s.node i)
    (hc : clusterProcessCommand server id cmd argv = some server') : ExtendsByOne (s.node i) server'.cluster := by
  obtain ⟨e, log, hw, -, hcluster⟩ := clusterProcessCommand_write (hserver ▸ hs) hc
  rw [hserver] at hw hcluster
  have hlog : server'.cluster.log = log := by
    rw [hcluster]
    split
    · exact logCommitIndex_log ..
    · rfl
  refine ⟨e, ?_, hw.index, hw.term⟩
  rw [hlog]
  exact (hw.list (hl.contiguous_node i)).1

/-- **Leaders only append.** In a run without restarts in which no accepted request finds its first conflict
    at the last entry of the log, a step of the cluster that leaves a leader in office only appends to its log,
    and a client's write appends exactly one entry. -/
theorem leader_append_only (cfg : Config n) (hname : ∀ i, (cfg.name i).bytes ≠ []) {s₀ s s' : Net n}
    (h₀ : s₀.Fresh) (hr : RunIf cfg (Good cfg .truncation) s₀ s) {a : Action n} (ha : Good cfg .truncation s a)
    (hstep : s.step cfg a = some s') {i : Fin n} (hi : (s.node i).state = .leader)
    (hi' : (s'.node i).state = .leader) (ht : (s'.node i).currentTerm = (s.node i).currentTerm) :
    (s.node i).log.list <+: (s'.node i).log.list ∧
      ∀ id cmd argv server server', server.cluster = s.node i →
        clusterProcessCommand server id cmd argv = some server' → ExtendsByOne (s.node i) server'.cluster := by
  obtain ⟨h, hl, -⟩ := logged_of_moves hname rfl (moves_of_run hr) h₀.logged
  obtain ⟨h', hl', hext⟩ := logged_of_moves hname rfl (moves_of_step ha.1 ha.2 hstep) hl
  refine ⟨?_, fun _ _ _ _ _ hserver hc => hl.logs.extendsByOne hi hserver hc⟩
  rw [← hl.logs.leader_llog hl.election hi, ← hl'.logs.leader_llog hl'.election hi', ht]
  exact hext.llog _

/-- A leader with one entry takes a second one. -/
theorem leader_append_only_write : ∃ s s' : Net 3,
    RunIf threeServers (Good threeServers .truncation) (Net.fresh 3) s ∧
      s.step threeServers (setAt 0) = some s' ∧ (s.node 0).log.list <+: (s'.node 0).log.list := by
  obtain ⟨s, hr, hs⟩ := run_of_exec (Net.step threeServers) (Good threeServers .truncation)
    (Net.fresh 3) (campaignAt 0 [1] :: deliveries 2 ++ [tickAt 0 [], .event 0 .connect, setAt 0])
    (fun s => ((s.node 0).state, (s.node 0).currentTerm, (s.step threeServers (setAt 0)).map fun s' =>
      ((s'.node 0).state, (s'.node 0).currentTerm))) (.leader, 1, some (.leader, 1)) (by decide +kernel)
  simp only [Prod.mk.injEq] at hs
  obtain ⟨hlead, hterm, hnext⟩ := hs
  obtain ⟨s', hstep, hs'⟩ := Option.map_eq_some_iff.mp hnext
  rw [Prod.mk.injEq] at hs'
  exact ⟨s, s', hr, hstep, (leader_append_only (a := setAt 0) _ (by decide) (Net.fresh_fresh 3) hr ⟨trivial, trivial⟩
    hstep hlead hs'.1 (hs'.2.trans hterm.symm)).1⟩

/-- Server 0 collects entries of three leaders, the second of them out of place: `1/1`, `1/2`, `3/4`, `2/5`.
    It becomes leader of term 6 with `logCurrentIndex() = 2`. -/
def misplacedRun : List (Action 5) :=
  campaignAt 1 [3, 4] :: deliveries 4 ++ [tickAt 1 [], .event 1 .connect, setAt 1, tickAt 1 [0]] ++ deliveries 2 ++
    [campaignAt 2 [], campaignAt 2 [3, 4]] ++ deliveries 4 ++
    [tickAt 2 [], .event 2 .connect, setAt 2, tickAt 2 [0]] ++ deliveries 2 ++
    [setAt 2, campaignAt 3 [2]] ++ deliveries 2 ++ [campaignAt 2 [3, 4]] ++ deliveries 4 ++
    [tickAt 2 [], setAt 2, tickAt 2 [0]] ++ deliveries 2 ++
    [tickAt 1 [3]] ++ deliveries 2 ++ [campaignAt 1 [3, 4]] ++ deliveries 4 ++
    [tickAt 1 [], setAt 1, tickAt 1 [0]] ++ deliveries 2 ++
    [campaignAt 0 [3, 4]] ++ deliveries 4 ++ [tickAt 0 [], .event 0 .connect]

/-- The leader's own write then has index 3, conflicts with `3/4` and cuts the leader's log. -/
theorem leader_truncates : ∃ s₀ s s' : Net 5, s₀.Fresh ∧
    RunIf fiveServers (fun s a => a.CrashFree ∧ InOrder s a) s₀ s ∧
      s.step fiveServers (setAt 0) = some s' ∧ (s.node 0).state = .leader ∧
        (s'.node 0).state = .leader ∧ (s'.node 0).currentTerm = (s.node 0).currentTerm ∧
          ¬ (s.node 0).log.list <+: (s'.node 0).log.list := by
  obtain ⟨s, hr, hs⟩ := run_of_exec (Net.step fiveServers) (fun s a => a.CrashFree ∧ InOrder s a)
    (Net.fresh 5) misplacedRun
    (fun s => (((s.node 0).state, (s.node 0).currentTerm, (s.node 0).log.list),
      (s.step fiveServers (setAt 0)).map fun s' =>
        ((s'.node 0).state, (s'.node 0).currentTerm, (s'.node 0).log.list)))
    ((.leader, 6, [setA 1 1, setA 1 2, setA 3 4, setA 2 5]), some (.leader, 6, [setA 1 1, setA 1 2, setA 3 6]))
    (by decide +kernel)
  simp only [Prod.mk.injEq] at hs
  obtain ⟨⟨hlead, hterm, hlist⟩, hnext⟩ := hs
  obtain ⟨s', hstep, hs'⟩ := Option.map_eq_some_iff.mp hnext
  simp only [Prod.mk.injEq] at hs'
  refine ⟨_, s, s', Net.fresh_fresh 5, hr, hstep, hlead, hs'.1, hs'.2.1.trans hterm.symm, ?_⟩
  rw [hlist, hs'.2.2]
  decide

end Prez
