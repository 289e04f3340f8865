import Prez.Moves

/-!
# `Prez.Election.Invariant` — votes and leaders

`ElectionInv` ties votes in memory and on the wire to the history: a vote is given once per term, the
candidate's counter and the granted votes on their way to it together never exceed the number of its voters,
and a leader has a quorum of them. A vote response carries no sender, so a voter must not answer one
candidate twice: that is the field `once`. Nothing here depends on logs.

Here the invariant is carried over the steps that matter to it: one that no vote takes part in
(`ElectionInv.quiet`), a higher term, an election timeout, a granted vote, a victory. `Free` is what a granted
vote needs: the voter has not voted in its term, although it has no vote in memory.
-/

namespace Prez

open Lib

variable {n : Nat} {cfg : Config n} {g : Guard} {s s' : Net n} {h h' : Hist n}

/-! ## The invariant -/

/-- A vote request from `c` to `v` in term `t`. -/
def asks (c v : Fin n) (t : Int) (p : Packet n) : Bool :=
  match p.msg with
  | .requestVote vote => p.src == c && p.dst == v && vote.term == t
  | _ => false

/-- A vote for `i` in term `t`. -/
def grants (i : Fin n) (t : Int) (p : Packet n) : Bool :=
  match p.msg with
  | .responseVote vote => vote.voteGranted && p.dst == i && vote.term == t
  | _ => false

/-- Those who voted for `c` in term `t`. -/
def voters (h : Hist n) (c : Fin n) (t : Int) : Finset (Fin n) := {v | h.vote v t = some c}

/-- `votedFor` of server `v` holds the name of `c`: as in the node table, or its own as in the
    configuration. -/
def Names (cfg : Config n) (v c : Fin n) (votedFor : Bytes) : Prop :=
  c ≠ v ∧ votedFor = (cfg.name c).bytes ∨ c = v ∧ votedFor = cstr (cfg.serverName v)

/-- What server `v`, in state `x`, says of the history. -/
structure Elector (cfg : Config n) (h : Hist n) (v : Fin n) (x : ClusterState n) : Prop where
  term_eq : h.term v = x.currentTerm
  voted : x.votedFor ≠ [] → ∃ c, h.vote v (h.term v) = some c ∧ Names cfg v c x.votedFor
  candidate : x.state = .candidate → h.vote v (h.term v) = some v ∧ h.led (h.term v) ≠ some v
  leader : x.state = .leader → h.led (h.term v) = some v

/-- What a packet that was sent says of it. -/
def Vouched (cfg : Config n) (h : Hist n) (p : Packet n) : Prop :=
  match p.msg with
  | .requestVote vote => p.src ≠ p.dst ∧ vote.candidateid = (cfg.name p.src).bytes ∧ vote.term ≤ h.term p.src
  | .responseVote vote => vote.voteGranted = true → h.vote p.src vote.term = some p.dst
  | .appendEntries entries => h.led entries.term = some p.src ∧ p.src ≠ p.dst
  | .responseAppendEntries _ => True

/-- **The invariant of elections.** -/
structure ElectionInv (cfg : Config n) (s : Net n) (h : Hist n) : Prop where
  node : ∀ v, Elector cfg h v (s.node v)
  sent : ∀ p ∈ s.sent, Vouched cfg h p
  wire : ∀ p ∈ s.net, p ∈ s.sent
  vote_term : ∀ {v t c}, h.vote v t = some c → t ≤ h.term v ∧ t ≤ h.term c
  /-- a candidate asks a voter at most once in a term -/
  once : ∀ {c v}, c ≠ v → ∀ t, s.net.countP (asks c v t) + (if h.vote v t = some c then 1 else 0) ≤ 1
  /-- votes counted and votes on their way come from different voters -/
  tally : ∀ i, (s.node i).state = .candidate →
    (s.node i).votesGranted + s.net.countP (grants i (h.term i)) ≤ (voters h i (h.term i)).card
  elected : ∀ {t c}, h.led t = some c → t ≤ h.term c ∧ IsQuorum (voters h c t)

section

variable (hi : ElectionInv cfg s h)

include hi

theorem ElectionInv.term_eq (v : Fin n) : h.term v = (s.node v).currentTerm :=
  (hi.node v).term_eq

theorem ElectionInv.leader (v : Fin n) : (s.node v).state = .leader → h.led (h.term v) = some v :=
  (hi.node v).leader

/-- A vote request names its sender. -/
theorem ElectionInv.request (p : Packet n) (hp : p ∈ s.sent) (vote : RequestVote) (hm : p.msg = .requestVote vote) :
    p.src ≠ p.dst ∧ vote.candidateid = (cfg.name p.src).bytes ∧ vote.term ≤ h.term p.src := by
  have := hi.sent p hp
  unfold Vouched at this
  rwa [hm] at this

/-- A granted vote was given. -/
theorem ElectionInv.granted (p : Packet n) (hp : p ∈ s.sent) (vote : ResponseVote)
    (hm : p.msg = .responseVote vote) : vote.voteGranted = true → h.vote p.src vote.term = some p.dst := by
  have := hi.sent p hp
  unfold Vouched at this
  rwa [hm] at this

/-- An append request comes from the leader of its term. -/
theorem ElectionInv.append (p : Packet n) (hp : p ∈ s.sent) (entries : AppendEntries)
    (hm : p.msg = .appendEntries entries) : h.led entries.term = some p.src ∧ p.src ≠ p.dst := by
  have := hi.sent p hp
  unfold Vouched at this
  rwa [hm] at this

/-- Nobody that could grant a vote in its term has given one before. -/
def Free (s : Net n) (h : Hist n) : Prop :=
  ∀ p ∈ s.net, ∀ vote, p.msg = .requestVote vote → vote.term = (s.node p.dst).currentTerm →
    (s.node p.dst).votedFor = [] → logCurrentTerm (s.node p.dst).log ≤ vote.lastLogTerm →
      h.vote p.dst vote.term = none

/-- **Election safety**, in one history: a term has one leader. -/
theorem ElectionInv.leader_unique {i j : Fin n} (hl : (s.node i).state = .leader)
    (hj : h.led (s.node i).currentTerm = some j) : i = j := by
  have := hi.leader i hl
  rw [hi.term_eq, hj] at this
  exact (Option.some.inj this).symm

end

/-- Terms do not fall, and votes and leaders stay. -/
structure Grows (h h' : Hist n) : Prop where
  term : ∀ v, h.term v ≤ h'.term v
  vote : ∀ {v t c}, h.vote v t = some c → h'.vote v t = some c
  led : ∀ {t c}, h.led t = some c → h'.led t = some c

theorem Vouched.mono {p : Packet n} (hp : Vouched cfg h p) (hg : Grows h h') : Vouched cfg h' p := by
  revert hp
  unfold Vouched
  split
  · exact fun ⟨hne, hid, hterm⟩ => ⟨hne, hid, hterm.trans (hg.term _)⟩
  · exact fun hvote hgr => hg.vote (hvote hgr)
  · exact fun ⟨hled, hne⟩ => ⟨hg.led hled, hne⟩
  · exact id

/-- A server in the same state, which does not win its term. -/
theorem Elector.mono {v : Fin n} {x : ClusterState n} (hx : Elector cfg h v x) (hg : Grows h h')
    (hterm : h'.term v = h.term v) (hled : h'.led (h.term v) = some v → h.led (h.term v) = some v) :
    Elector cfg h' v x := by
  constructor <;> rw [hterm]
  case term_eq => exact hx.term_eq
  case voted =>
    intro hne
    obtain ⟨c, hc, hname⟩ := hx.voted hne
    exact ⟨c, hg.vote hc, hname⟩
  case candidate => exact fun hs => ⟨hg.vote (hx.candidate hs).1, fun hl => (hx.candidate hs).2 (hled hl)⟩
  case leader => exact fun hs => hg.led (hx.leader hs)

/-! ## Moves without votes -/

/-- A packet that gives no vote and asks for none; an append request comes from the leader of its term. -/
def Inert (h : Hist n) (p : Packet n) : Prop :=
  match p.msg with
  | .requestVote _ => False
  | .responseVote vote => vote.voteGranted = false
  | .appendEntries entries => h.led entries.term = some p.src ∧ p.src ≠ p.dst
  | .responseAppendEntries _ => True

/-- Server `i` becomes `x`, the wire becomes `rest ++ out`, and no vote is given or asked for. -/
structure Quiet (s : Net n) (h : Hist n) (i : Fin n) (x : ClusterState n) (rest out : List (Packet n)) :
    Prop where
  term : x.currentTerm = (s.node i).currentTerm
  votedFor : x.votedFor = (s.node i).votedFor
  state : x.state = (s.node i).state ∨ x.state = .follower
  wire : rest.Sublist s.net
  tally : x.state = .candidate → ∀ t, t = (s.node i).currentTerm →
    x.votesGranted + rest.countP (grants i t) ≤ (s.node i).votesGranted + s.net.countP (grants i t)
  out : ∀ p ∈ out, Inert h p

variable {i : Fin n} {server : Server n} {rest out : List (Packet n)} {p : Packet n} {inp : CronInput n}
variable {x : ClusterState n} {vote : RequestVote} {t : Int}

theorem Inert.vouched (hp : Inert h p) : Vouched cfg h p := by
  revert hp
  unfold Inert Vouched
  split
  · exact False.elim
  · exact fun hno hgr => absurd (hgr.symm.trans hno) (by decide)
  · exact id
  · exact id

theorem Inert.asks (hp : Inert h p) (c v : Fin n) (t : Int) : asks c v t p = false := by
  unfold Inert at hp
  unfold Prez.asks
  split at hp <;> simp_all

theorem Inert.grants (hp : Inert h p) (i : Fin n) (t : Int) : grants i t p = false := by
  unfold Inert at hp
  unfold Prez.grants
  split at hp <;> simp_all

theorem countP_asks_inert {out : List (Packet n)} (hout : ∀ p ∈ out, Inert h p) (c v : Fin n) (t : Int) :
    out.countP (asks c v t) = 0 := by
  rw [List.countP_eq_zero]
  intro p hp
  rw [(hout p hp).asks]
  exact Bool.false_ne_true

theorem countP_grants_inert {out : List (Packet n)} (hout : ∀ p ∈ out, Inert h p) (i : Fin n) (t : Int) :
    out.countP (grants i t) = 0 := by
  rw [List.countP_eq_zero]
  intro p hp
  rw [(hout p hp).grants]
  exact Bool.false_ne_true

/-- A history that differs in logs and acknowledgements only. -/
structure SameVotes (h h' : Hist n) : Prop where
  term : h'.term = h.term
  vote : h'.vote = h.vote
  led : h'.led = h.led

theorem SameVotes.grows (hh : SameVotes h h') : Grows h h' := by
  obtain ⟨hterm, hvote, hled⟩ := hh
  exact ⟨fun v => by rw [hterm], fun hv => by rwa [hvote], fun hl => by rwa [hled]⟩

theorem SameVotes.refl (h : Hist n) : SameVotes h h := ⟨rfl, rfl, rfl⟩

theorem sameVotes_append (h : Hist n) (i : Fin n) (e : LogEntry) : SameVotes h (h.append i e) := ⟨rfl, rfl, rfl⟩

theorem Recorded.sameVotes {v : Fin n} {entries : AppendEntries} {l : List LogEntry}
    (hh : Recorded h v entries l h') : SameVotes h h' := by
  rcases hh with ⟨-, rfl⟩ | ⟨-, rfl⟩ <;> exact ⟨rfl, rfl, rfl⟩

/-- The part of a server that elections look at is the same, or the server has stepped back. -/
theorem Quiet.node (hq : Quiet s h i server.cluster rest out) (v : Fin n) : let x := (s.put i server rest out).node v
    x.currentTerm = (s.node v).currentTerm ∧ x.votedFor = (s.node v).votedFor ∧
      (x.state = (s.node v).state ∨ x.state = .follower) := by
  by_cases hv : v = i
  · subst hv
    rw [Net.put_node_self]
    exact ⟨hq.term, hq.votedFor, hq.state⟩
  · rw [Net.put_node_of_ne s hv]
    exact ⟨rfl, rfl, .inl rfl⟩

theorem Quiet.countP_grants (hq : Quiet s h i server.cluster rest out) (v : Fin n)
    (hc : ((s.put i server rest out).node v).state = .candidate) :
    ((s.put i server rest out).node v).votesGranted +
        (s.put i server rest out).net.countP (grants v (s.node v).currentTerm) ≤
      (s.node v).votesGranted + s.net.countP (grants v (s.node v).currentTerm) := by
  rw [Net.put_net, List.countP_append, countP_grants_inert hq.out]
  by_cases hv : v = i
  · subst hv
    rw [Net.put_node_self] at hc ⊢
    exact hq.tally hc _ rfl
  · rw [Net.put_node_of_ne s hv]
    have := hq.wire.countP_le (p := grants v (s.node v).currentTerm)
    omega

/-- What is on the wire after a move was sent, before or by it. -/
theorem wire_put (hw : ∀ p ∈ s.net, p ∈ s.sent) (hrest : rest.Sublist s.net) :
    ∀ p ∈ (s.put i server rest out).net, p ∈ (s.put i server rest out).sent := by
  intro p hp
  rcases List.mem_append.mp hp with hp | hp
  · exact List.mem_append_left _ (hw p (hrest.subset hp))
  · exact List.mem_append_right _ hp

/-- What was sent stays true, and so is what is sent now. -/
theorem sent_put (hs : ∀ p ∈ s.sent, Vouched cfg h p) (hg : Grows h h') (hout : ∀ p ∈ out, Vouched cfg h' p) :
    ∀ p ∈ (s.put i server rest out).sent, Vouched cfg h' p :=
  Net.forall_sent_put (fun p hp => (hs p hp).mono hg) hout

/-- **A move without votes keeps the invariant.** -/
theorem ElectionInv.quiet (hi : ElectionInv cfg s h) (hq : Quiet s h i server.cluster rest out)
    (hh : SameVotes h h') : ElectionInv cfg (s.put i server rest out) h' := by
  have hg := hh.grows
  obtain ⟨hterm, hvote, hled⟩ := hh
  have hvoters : ∀ c t, voters h' c t = voters h c t := by
    intro c t
    unfold voters
    rw [hvote]
  constructor
  case node =>
    intro v
    obtain ⟨hx, hvoted, hstate⟩ := hq.node v
    refine (Elector.mk ?_ ?_ ?_ ?_ : Elector cfg h v _).mono hg (by rw [hterm]) (by rw [hled]; exact id)
    · rw [hx]
      exact hi.term_eq v
    · rw [hvoted]
      exact (hi.node v).voted
    -- a role other than follower was there before
    · rcases hstate with hs | hs <;> rw [hs]
      · exact (hi.node v).candidate
      · exact nofun
    · rcases hstate with hs | hs <;> rw [hs]
      · exact hi.leader v
      · exact nofun
  case sent => exact sent_put hi.sent hg fun p hp => (hq.out p hp).vouched.mono hg
  case wire => exact wire_put hi.wire hq.wire
  case vote_term =>
    rw [hterm, hvote]
    exact hi.vote_term
  case once =>
    intro c v hcv t
    rw [hvote, Net.put_net, List.countP_append, countP_asks_inert hq.out]
    have hle := hq.wire.countP_le (p := asks c v t)
    exact (Nat.add_le_add_right hle _).trans (hi.once hcv t)
  case tally =>
    intro v hv
    have hs : (s.node v).state = .candidate := by
      rcases (hq.node v).2.2 with hs | hs
      · rw [← hs]
        exact hv
      · cases hs.symm.trans hv
    have htally := hi.tally v hs
    rw [hvoters, hterm]
    rw [hi.term_eq] at htally ⊢
    exact (hq.countP_grants v hv).trans htally
  case elected =>
    intro t c hc
    rw [hled] at hc
    rw [hvoters, hterm]
    exact hi.elected hc

/-! ## A higher term -/

/-- A server that steps back, with or without a higher term, and has no vote in memory. -/
theorem ElectionInv.stepBack (hi : ElectionInv cfg s h) (ht : (s.node i).currentTerm ≤ t)
    (hterm : server.cluster.currentTerm = t) (hvoted : server.cluster.votedFor = [])
    (hstate : server.cluster.state = .follower) : ElectionInv cfg (s.put i server s.net []) (h.raise i t) := by
  have hg : Grows h (h.raise i t) := ⟨History.le_raise_term (by rw [hi.term_eq]; exact ht), id, id⟩
  have hself : (h.raise i t).term i = t := h.raise_term_self i t
  have hother : ∀ v, v ≠ i → (h.raise i t).term v = h.term v := fun v hv => h.raise_term_of_ne hv t
  have hnode : (s.put i server s.net []).node i = server.cluster := Net.put_node_self ..
  have hnet : (s.put i server s.net []).net = s.net := List.append_nil _
  constructor
  case node =>
    refine Net.forall_node_put (P := Elector cfg (h.raise i t)) ?_ fun v hv => (hi.node v).mono hg (hother v hv) id
    refine ⟨hself.trans hterm.symm, fun hne => absurd hvoted hne, ?_, ?_⟩ <;> rw [hstate] <;> exact nofun
  case sent => exact sent_put hi.sent hg (List.forall_mem_nil _)
  case wire => exact wire_put hi.wire (.refl _)
  case vote_term => exact fun hvote => (hi.vote_term hvote).imp (·.trans (hg.term _)) (·.trans (hg.term _))
  case once =>
    rw [hnet]
    exact hi.once
  case tally =>
    intro v hv
    by_cases hvi : v = i
    · subst hvi
      rw [hnode, hstate] at hv
      cases hv
    · rw [Net.put_node_of_ne s hvi] at hv ⊢
      rw [hother v hvi, hnet]
      exact hi.tally v hv
  case elected => exact fun hc => (hi.elected hc).imp_left (·.trans (hg.term _))

/-! ## The election timeout -/

/-- The requests of an election, one to each linked peer. -/
def voteRequests (cfg : Config n) (i : Fin n) (inp : CronInput n) (x : ClusterState n) : List (Packet n) :=
  (startElection cfg i inp x).2.map fun (j, msg) => ⟨i, j, msg, none⟩

theorem voteRequests_eq (hs : x.state ≠ .leader) (ht : inp.timeout = true) :
    voteRequests cfg i inp x = ((List.finRange n).filter fun j => inp.linked j && j != i).map fun j =>
      ⟨i, j, .requestVote ⟨x.currentTerm + 1, (cfg.name i).bytes, logCurrentIndex x.log, logCurrentTerm x.log⟩,
        none⟩ := by
  rw [voteRequests, startElection, if_pos ⟨hs, ht⟩]
  simp [clusterSendRequestVote]

theorem mem_voteRequests (hs : x.state ≠ .leader) (ht : inp.timeout = true) (hp : p ∈ voteRequests cfg i inp x) :
    p.src = i ∧ p.dst ≠ i ∧ p.msg =
      .requestVote ⟨x.currentTerm + 1, (cfg.name i).bytes, logCurrentIndex x.log, logCurrentTerm x.log⟩ := by
  rw [voteRequests_eq hs ht] at hp
  obtain ⟨j, hj, rfl⟩ := List.mem_map.mp hp
  have hji := (List.mem_filter.mp hj).2
  rw [Bool.and_eq_true, bne_iff_ne] at hji
  exact ⟨rfl, hji.2, rfl⟩

theorem countP_asks_voteRequests (hs : x.state ≠ .leader) (ht : inp.timeout = true) (c v : Fin n) (t : Int) :
    (voteRequests cfg i inp x).countP (asks c v t) ≤ 1 := by
  rw [voteRequests_eq hs ht, List.countP_map]
  calc _ ≤ List.countP (· == v) ((List.finRange n).filter fun j => inp.linked j && j != i) := by
        refine List.countP_mono_left fun j _ hj => ?_
        simp only [Function.comp_apply, asks, Bool.and_eq_true] at hj
        exact hj.1.2
    _ ≤ List.countP (· == v) (List.finRange n) := List.filter_sublist.countP_le
    _ ≤ 1 := List.nodup_iff_count_le_one.mp (List.nodup_finRange n) v

theorem mem_voters {c v : Fin n} : v ∈ voters h c t ↔ h.vote v t = some c := by
  rw [voters, Finset.mem_filter]
  exact and_iff_right (Finset.mem_univ v)

/-- Votes of `h` are votes of `h'`, so a candidate keeps its voters. -/
theorem voters_mono (hmono : ∀ {v t c}, h.vote v t = some c → h'.vote v t = some c) (c : Fin n) (t : Int) :
    voters h c t ⊆ voters h' c t := by
  intro v hv
  rw [mem_voters] at hv ⊢
  exact hmono hv

/-- The history after the election timeout of `i`. -/
theorem campaign_vote (h : Hist n) (i : Fin n) (t : Int) :
    ((h.raise i t).stand i).vote = setCell h.vote i t (some i) := by
  rw [History.stand, h.raise_term_self]
  rfl

/-- Nobody is asked for a vote in a term that the candidate has not reached. -/
theorem ElectionInv.no_asks (hi : ElectionInv cfg s h) {c : Fin n} (ht : h.term c < t) (v : Fin n) :
    s.net.countP (asks c v t) = 0 := by
  rw [List.countP_eq_zero]
  intro p hp hasks
  unfold asks at hasks
  split at hasks
  · rename_i vote hm
    simp only [Bool.and_eq_true, beq_iff_eq] at hasks
    have hreached := (hi.request p (hi.wire p hp) vote hm).2.2
    rw [hasks.1.1, hasks.2] at hreached
    exact not_le.mpr ht hreached
  · cases hasks

/-- Nobody has granted a vote in a term that the candidate has not reached. -/
theorem ElectionInv.no_grants (hi : ElectionInv cfg s h) (ht : h.term i < t) : s.net.countP (grants i t) = 0 := by
  rw [List.countP_eq_zero]
  intro p hp hgr
  unfold grants at hgr
  split at hgr
  · rename_i vote hm
    simp only [Bool.and_eq_true, beq_iff_eq] at hgr
    have hvote := hi.granted p (hi.wire p hp) vote hm hgr.1.1
    rw [hgr.1.2, hgr.2] at hvote
    exact not_le.mpr ht (hi.vote_term hvote).2
  · cases hgr

/-- A server stands in a new term. -/
theorem ElectionInv.campaign (hi : ElectionInv cfg s h) (hs : (s.node i).state ≠ .leader) (ht : inp.timeout = true)
    (hb : Becomes s i (startElection cfg i inp (s.node i)).1 server) :
    ElectionInv cfg (s.put i server s.net (voteRequests cfg i inp (s.node i)))
      ((h.raise i ((s.node i).currentTerm + 1)).stand i) := by
  have hreq {p : Packet n} (hp : p ∈ voteRequests cfg i inp (s.node i)) := mem_voteRequests hs ht hp
  have hone : ∀ c v t, (voteRequests cfg i inp (s.node i)).countP (asks c v t) ≤ 1 :=
    countP_asks_voteRequests hs ht
  generalize voteRequests cfg i inp (s.node i) = out at hreq hone
  have hterm := hi.term_eq i
  set t := (s.node i).currentTerm + 1 with htdef
  set h' := (h.raise i t).stand i with hh'
  have hlt : h.term i < t := by omega
  have hself : h'.term i = t := h.raise_term_self i t
  have hother : ∀ v, v ≠ i → h'.term v = h.term v := fun v hv => h.raise_term_of_ne hv t
  have hvote : h'.vote = setCell h.vote i t (some i) := campaign_vote h i t
  -- nobody has voted for `i` in the new term, and `i` has not voted in it
  have hnone : ∀ v, h.vote v t ≠ some i := fun v hv => not_le.mpr hlt (hi.vote_term hv).2
  have hfree : ∀ c, h.vote i t ≠ some c := fun c hv => not_le.mpr hlt (hi.vote_term hv).1
  have hmono : ∀ {v t' c}, h.vote v t' = some c → h'.vote v t' = some c := by
    intro v t' c hv
    rw [hvote, setCell_of_ne]
    · exact hv
    · rintro ⟨rfl, rfl⟩
      exact hfree c hv
  have hg : Grows h h' := ⟨History.le_raise_term hlt.le, hmono, id⟩
  have hx : server.cluster = { s.node i with
      state := .candidate, leader := [], votedFor := cstr (cfg.serverName i), votesGranted := 1,
      currentTerm := t } := by
    rw [hb.cluster, startElection, if_pos ⟨hs, ht⟩]
    rfl
  have hnode : (s.put i server s.net out).node i = _ := (Net.put_node_self ..).trans hx
  constructor
  case node =>
    refine Net.forall_node_put (P := Elector cfg h') ?_ fun v hv => (hi.node v).mono hg (hother v hv) id
    have hown : h'.vote i t = some i := by rw [hvote, setCell_same]
    constructor <;> rw [hself, hx]
    case voted => exact fun _ => ⟨i, hown, .inr ⟨rfl, rfl⟩⟩
    -- a leader of the new term would have reached it
    case candidate => exact fun _ => ⟨hown, fun hl => not_le.mpr hlt (hi.elected hl).1⟩
    case leader =>
      intro hl
      cases hl
  case sent =>
    refine sent_put hi.sent hg fun p hp => ?_
    obtain ⟨rfl, hdst, hmsg⟩ := hreq hp
    unfold Vouched
    rw [hmsg]
    exact ⟨hdst.symm, rfl, hself.ge⟩
  case wire => exact wire_put hi.wire (.refl _)
  case vote_term =>
    intro v t' c hv
    rw [hvote] at hv
    rcases setCell_some hv with ⟨rfl, rfl, rfl⟩ | ⟨-, hv⟩
    · exact ⟨hself.ge, hself.ge⟩
    · exact (hi.vote_term hv).imp (·.trans (hg.term v)) (·.trans (hg.term c))
  case once =>
    intro c v hcv t'
    rw [Net.put_net, List.countP_append]
    have hold := hi.once hcv t'
    by_cases hnew : c = i ∧ t' = t
    · obtain ⟨rfl, rfl⟩ := hnew
      -- the requests of the new term are all among the ones sent now
      have hvn : h'.vote v t ≠ some c := by
        rw [hvote, setCell_of_ne _ _ fun hv => hcv hv.1.symm]
        exact hnone v
      rw [hi.no_asks hlt, if_neg hvn, Nat.zero_add, Nat.add_zero]
      exact hone c v t
    -- any other candidate or term: the requests sent now do not count
    · have hzero : out.countP (asks c v t') = 0 := by
        rw [List.countP_eq_zero]
        intro p hp hasks
        obtain ⟨hsrc, -, hm⟩ := hreq hp
        unfold asks at hasks
        rw [hm] at hasks
        simp only [Bool.and_eq_true, beq_iff_eq] at hasks
        exact hnew ⟨hasks.1.1.symm.trans hsrc, hasks.2.symm⟩
      have hsame : (h'.vote v t' = some c) ↔ (h.vote v t' = some c) := by
        refine ⟨fun hv => ?_, hmono⟩
        rw [hvote] at hv
        rcases setCell_some hv with ⟨rfl, rfl, rfl⟩ | ⟨-, hv⟩
        · exact absurd rfl hcv
        · exact hv
      rw [hzero, if_congr hsame rfl rfl]
      exact hold
  case tally =>
    intro v hv
    -- requests are no votes
    have hout : ∀ t', out.countP (grants v t') = 0 := by
      intro t'
      rw [List.countP_eq_zero]
      intro p hp hgr
      unfold grants at hgr
      rw [(hreq hp).2.2] at hgr
      cases hgr
    rw [Net.put_net, List.countP_append, hout]
    by_cases hvi : v = i
    · subst hvi
      -- the candidate starts with its own vote and none is on its way
      rw [hself, hi.no_grants hlt, hnode]
      refine Finset.card_pos.mpr ⟨v, ?_⟩
      rw [mem_voters, hvote, setCell_same]
    · rw [Net.put_node_of_ne s hvi] at hv ⊢
      rw [hother v hvi]
      exact (hi.tally v hv).trans (Finset.card_le_card (voters_mono hmono v _))
  case elected => exact fun hc => (hi.elected hc).imp (·.trans (hg.term _)) (·.mono (voters_mono hmono _ _))

/-! ## A vote is granted -/

theorem name_injective (cfg : Config n) {c c' : Fin n} (hname : (cfg.name c).bytes = (cfg.name c').bytes) : c = c' :=
  cfg.alone c' c (by rw [hname]; exact cfg.self c')

theorem name_ne_serverName (cfg : Config n) {c v : Fin n} (hcv : c ≠ v) :
    (cfg.name c).bytes ≠ cstr (cfg.serverName v) := by
  intro hname
  refine hcv (cfg.alone v c ?_)
  rw [hname, strcaseEq, cstr_eq_self (zero_notMem_cstr _)]
  exact beq_self_eq_true _

/-- A request on the wire is asked of its receiver. -/
theorem asks_self (hm : p.msg = .requestVote vote) : asks p.src p.dst vote.term p = true := by
  unfold asks
  rw [hm]
  simp

theorem countP_eraseIdx {α : Type*} {q : α → Bool} {a : α} : ∀ {l : List α} {k : Nat}, l[k]? = some a →
    l.countP q = (l.eraseIdx k).countP q + if q a then 1 else 0 := by
  intro l
  induction l with
  | nil =>
    intro k hk
    cases hk
  | cons b l ih =>
    intro k hk
    cases k with
    | zero =>
      cases hk
      rw [List.eraseIdx_zero, List.tail_cons, List.countP_cons]
    | succ k =>
      rw [List.eraseIdx_cons_succ, List.countP_cons, List.countP_cons, ih hk]
      omega

/-- A server that is about to grant a vote has not voted in its term. -/
theorem ElectionInv.unvoted (hi : ElectionInv cfg s h) (hf : Free s h) (hp : p ∈ s.net)
    (hm : p.msg = .requestVote vote) (ht : vote.term = (s.node p.dst).currentTerm)
    (hv : (s.node p.dst).votedFor = [] ∨ (s.node p.dst).votedFor = vote.candidateid)
    (hl : logCurrentTerm (s.node p.dst).log ≤ vote.lastLogTerm) : h.vote p.dst vote.term = none := by
  obtain ⟨hne, hid, -⟩ := hi.request p (hi.wire p hp) vote hm
  by_cases hempty : (s.node p.dst).votedFor = []
  · exact hf p hp vote hm ht hempty hl
  · have hname := hv.resolve_left hempty
    obtain ⟨c, hc, hwho⟩ := (hi.node p.dst).voted hempty
    rw [hname, hid] at hwho
    rcases hwho with ⟨hcv, hcn⟩ | ⟨-, hself⟩
    · -- a second answer to the same candidate: its one request is still on the wire
      rw [← name_injective cfg hcn, hi.term_eq, ← ht] at hc
      have honce := hi.once hne vote.term
      rw [if_pos hc] at honce
      have : 0 < s.net.countP (asks p.src p.dst vote.term) := List.countP_pos_iff.mpr ⟨p, hp, asks_self hm⟩
      omega
    · exact absurd hself (name_ne_serverName cfg hne)

/-- A granted vote adds a voter. -/
theorem card_voters_grant {v c : Fin n} (ht : h.term v = t) (hnone : h.vote v t = none)
    (hmono : ∀ {v' t' c'}, h.vote v' t' = some c' → (h.grant v c).vote v' t' = some c') :
    (voters h c t).card + 1 ≤ (voters (h.grant v c) c t).card := by
  have hnew : v ∉ voters h c t := by
    rw [mem_voters, hnone]
    exact nofun
  have hins : insert v (voters h c t) ⊆ voters (h.grant v c) c t := by
    refine Finset.insert_subset ?_ (voters_mono hmono c t)
    rw [mem_voters, ← ht]
    exact setCell_same ..
  rw [← Finset.card_insert_of_notMem hnew]
  exact Finset.card_le_card hins

/-- A server votes for one candidate. -/
theorem ElectionInv.grant (hi : ElectionInv cfg s h) {k : Nat} (hnone : h.vote p.dst vote.term = none)
    (hp : s.net[k]? = some p) (hm : p.msg = .requestVote vote) (ht : vote.term = (s.node p.dst).currentTerm)
    (hb : Becomes s p.dst { s.node p.dst with votedFor := vote.candidateid } server) :
    ElectionInv cfg (s.put p.dst server (s.net.eraseIdx k)
      [p.reply (.responseVote (clusterSendResponseVote (s.node p.dst) true))]) (h.grant p.dst p.src) := by
  have hmem : p ∈ s.net := List.mem_of_getElem? hp
  obtain ⟨hne, hid, hsrc⟩ := hi.request p (hi.wire p hmem) vote hm
  have htv : h.term p.dst = vote.term := (hi.term_eq _).trans ht.symm
  set reply := p.reply (.responseVote (clusterSendResponseVote (s.node p.dst) true)) with hreply
  have hrm : reply.msg = .responseVote ⟨vote.term, true⟩ := by
    rw [ht]
    rfl
  set h' := h.grant p.dst p.src with hh'
  have hterm : h'.term = h.term := rfl
  have hvote : h'.vote = setCell h.vote p.dst vote.term (some p.src) := by rw [← htv]; rfl
  have hmono : ∀ {v t c}, h.vote v t = some c → h'.vote v t = some c := by
    intro v t c hv
    rw [hvote, setCell_of_ne]
    · exact hv
    · rintro ⟨rfl, rfl⟩
      rw [hnone] at hv
      cases hv
  have hg : Grows h h' := ⟨fun _ => le_rfl, hmono, id⟩
  have hnode : ∀ v, ((s.put p.dst server (s.net.eraseIdx k) [reply]).node v).state = (s.node v).state ∧
      ((s.put p.dst server (s.net.eraseIdx k) [reply]).node v).votesGranted = (s.node v).votesGranted := by
    intro v
    by_cases hv : v = p.dst
    · rw [hv, Net.put_node_self, hb.cluster]
      exact ⟨rfl, rfl⟩
    · rw [Net.put_node_of_ne s hv]
      exact ⟨rfl, rfl⟩
  constructor
  case node =>
    refine Net.forall_node_put (P := Elector cfg h') ?_ fun v _ => (hi.node v).mono hg rfl id
    have hx := (hi.node p.dst).mono hg rfl id
    rw [hb.cluster]
    refine ⟨hx.term_eq, fun _ => ⟨p.src, ?_, .inl ⟨hne, hid⟩⟩, hx.candidate, hx.leader⟩
    rw [hterm, htv, hvote, setCell_same]
  case sent =>
    refine sent_put hi.sent hg fun q hq => ?_
    rw [List.mem_singleton.mp hq, Vouched, hrm]
    intro _
    rw [hvote]
    exact setCell_same ..
  case wire => exact wire_put hi.wire (List.eraseIdx_sublist ..)
  case vote_term =>
    intro v t c hv
    rw [hvote] at hv
    rcases setCell_some hv with ⟨rfl, rfl, rfl⟩ | ⟨-, hv⟩
    · exact ⟨htv.ge, hsrc⟩
    · exact hi.vote_term hv
  case once =>
    intro c v hcv t
    have hout : [reply].countP (asks c v t) = 0 := by
      rw [List.countP_singleton, asks, hrm]
      rfl
    have hold := hi.once hcv t
    rw [countP_eraseIdx hp] at hold
    rw [Net.put_net, List.countP_append, hout]
    by_cases hv : h'.vote v t = some c
    · rw [if_pos hv]
      rw [hvote] at hv
      rcases setCell_some hv with ⟨rfl, rfl, rfl⟩ | ⟨-, hv⟩
      -- the vote takes the place of the request, which leaves the wire
      · rw [asks_self hm] at hold
        simp only [if_true] at hold
        omega
      · rw [if_pos hv] at hold
        omega
    · rw [if_neg hv]
      omega
  case tally =>
    intro v hv
    rw [(hnode v).1] at hv
    have hold := hi.tally v hv
    rw [countP_eraseIdx hp, grants, hm] at hold
    simp only [Bool.false_eq_true, if_false, add_zero] at hold
    rw [(hnode v).2, Net.put_net, List.countP_append, List.countP_singleton, hterm]
    by_cases hfor : grants v (h.term v) reply = true
    · -- the new voter was not among the candidate's voters
      rw [if_pos hfor]
      unfold grants at hfor
      rw [hrm] at hfor
      simp only [Bool.true_and, Bool.and_eq_true, beq_iff_eq] at hfor
      obtain ⟨rfl, hcur⟩ := hfor
      rw [← hcur] at hold ⊢
      exact (Nat.add_le_add_right hold 1).trans (card_voters_grant htv hnone hmono)
    · rw [if_neg hfor]
      exact hold.trans (Finset.card_le_card (voters_mono hmono v _))
  case elected => exact fun hc => (hi.elected hc).imp_right (·.mono (voters_mono hmono _ _))

/-! ## A candidate wins -/

theorem isQuorum_of_quorumSize {Q : Finset (Fin n)} (hQ : quorumSize n ≤ Q.card) : IsQuorum Q := by
  unfold IsQuorum
  rw [Fintype.card_fin]
  unfold quorumSize at hQ
  omega

section

variable (hi : ElectionInv cfg s h) (hs : (s.node i).state = .candidate) (hq : quorumSize n ≤ (s.node i).votesGranted)

include hi hs hq

/-- The voters of a candidate that has enough votes are a quorum. -/
theorem ElectionInv.quorum : IsQuorum (voters h i (h.term i)) := by
  have := hi.tally i hs
  exact isQuorum_of_quorumSize (by omega)

/-- A candidate with enough votes is the first leader of its term. -/
theorem ElectionInv.unled : h.led (h.term i) = none := by
  rw [Option.eq_none_iff_forall_ne_some]
  intro c hc
  obtain ⟨v, hv, hv'⟩ := (hi.quorum hs hq).inter (hi.elected hc).2
  rw [mem_voters] at hv hv'
  cases hv.symm.trans hv'
  exact ((hi.node i).candidate hs).2 hc

/-- A quorum of votes makes one leader. -/
theorem ElectionInv.elect (hb : Becomes s i (becomeLeader cfg i (s.node i)) server) :
    ElectionInv cfg (s.put i server s.net []) (h.elect i) := by
  have hnone := hi.unled hs hq
  have hself : (h.elect i).led (h.term i) = some i := Function.update_self ..
  have helse : ∀ {t}, t ≠ h.term i → (h.elect i).led t = h.led t := fun ht => Function.update_of_ne ht ..
  -- the term had no leader, so no other leader is replaced
  have hold : ∀ {t c}, h.led t = some c → (h.elect i).led t = some c := by
    intro t c hc
    rw [← hc]
    refine helse ?_
    rintro rfl
    rw [hnone] at hc
    cases hc
  have hg : Grows h (h.elect i) := ⟨fun _ => le_rfl, id, hold⟩
  have hx : server.cluster = becomeLeader cfg i (s.node i) := hb.cluster
  rw [becomeLeader, if_pos ⟨hs, hq⟩] at hx
  have hnode : (s.put i server s.net []).node i = _ := (Net.put_node_self ..).trans hx
  have hnet : (s.put i server s.net []).net = s.net := List.append_nil _
  constructor
  case node =>
    refine Net.forall_node_put (P := Elector cfg (h.elect i)) ?_ fun v hv => (hi.node v).mono hg rfl fun hl => ?_
    · rw [hx]
      exact ⟨hi.term_eq i, (hi.node i).voted, fun hc => (by cases hc), fun _ => hself⟩
    · by_cases ht : h.term v = h.term i
      · rw [ht, hself] at hl
        exact absurd (Option.some.inj hl).symm hv
      · rwa [helse ht] at hl
  case sent => exact sent_put hi.sent hg (List.forall_mem_nil _)
  case wire => exact wire_put hi.wire (.refl _)
  case vote_term => exact hi.vote_term
  case once =>
    rw [hnet]
    exact hi.once
  case tally =>
    intro v hv
    rw [hnet]
    by_cases hvi : v = i
    · subst hvi
      rw [hnode] at hv
      cases hv
    · rw [Net.put_node_of_ne s hvi] at hv ⊢
      exact hi.tally v hv
  case elected =>
    intro t c hc
    by_cases ht : t = h.term i
    · subst ht
      cases hself.symm.trans hc
      exact ⟨le_rfl, hi.quorum hs hq⟩
    · rw [helse ht] at hc
      exact hi.elected hc

end

end Prez
