import Prez.Matching

/-!
# `Prez.Restart` — what survives a restart

A restarted server reads its log file back (`reloadLog_eq`) and takes its term from the last entry; its vote is
gone. A vote given in a term of which the log has no entry can therefore be given again, and the term itself
goes back. When the log ends with an entry of the current term nothing is lost: the term is the same, and the
log refuses every further candidate of the term, because a candidate's log ends in an earlier one (`Sealed`).
-/

namespace Prez

open Lib

variable {n : Nat} {cfg : Config n} {g : Guard} {s s' : Net n} {h h' : Hist n}

/-! ## Sealed terms -/

/-- A server without a vote in memory has not voted in its term, or its log ends with an entry of it. -/
def Sealed (s : Net n) (h : Hist n) : Prop :=
  ∀ v, (s.node v).votedFor = [] →
    h.vote v (h.term v) = none ∨ logCurrentTerm (s.node v).log = (s.node v).currentTerm

/-- A server that would vote again has not voted. -/
theorem Sealed.free (hi : ElectionInv cfg s h) (hl : LogInv s h) (hs : Sealed s h) : Free s h := by
  intro p hp vote hm ht hv hlast
  rcases hs p.dst hv with hnone | hsealed
  · rw [ht, ← hi.term_eq]
    exact hnone
  · -- the candidate's log ends before the term, the voter's does not
    exfalso
    obtain ⟨l, hcand, -, hlt⟩ := hl.request p (hi.wire p hp) vote hm
    rw [hsealed, ← ht, hlt, lastTerm] at hlast
    cases hle : l.getLast? with
    | none =>
      rw [hle] at hlast
      exact absurd (hl.cand_pos hcand) (not_lt.mpr hlast)
    | some e =>
      rw [hle] at hlast
      exact absurd ((hl.inv.cand_term hcand).2 e (List.mem_of_getLast? hle)) (not_lt.mpr hlast)

/-- What a move does to the log of `v`: nothing, it writes an entry of its term, or it takes over entries of
    the leader of its term. -/
theorem LogInv.log_of_move (hg : g.trunc = true) (hi : ElectionInv cfg s h) (hl : LogInv s h)
    (hm : Move cfg g s h s' h') (v : Fin n) :
    h'.log v = h.log v ∨ (∃ e, e.term = h.term v ∧ h'.log v = h.log v ++ [e]) ∨
      ∃ k, History.Takes (h.log v) (h.llog (h.term v)) k (h'.log v) := by
  have htake : ∀ {p : Packet n} {entries log}, Recorded h p.dst entries log.list h' →
      entries.term = (s.node p.dst).currentTerm → Accepts (s.node p.dst) entries →
      logAppendEntries (s.node p.dst).log entries.logEntries = some log → TruncOk (s.node p.dst) entries →
      h'.log v = h.log v ∨ ∃ k, History.Takes (h.log v) (h.llog (h.term v)) k (h'.log v) := by
    intro p entries log hh ht ha hlog hok
    rcases hh with ⟨hs, rfl⟩ | ⟨-, rfl⟩
    · by_cases hv : v = p.dst
      · subst hv
        refine .inr ⟨entries.prevLogIndex.toNat + entries.logEntries.length, ?_⟩
        have htook := (hl.took hs ha hok hlog).takes
        rw [ht, ← hi.term_eq, ← hl.log_eq] at htook
        rw [show (h.accept p.dst _ log.list).log p.dst = log.list from Function.update_self ..]
        exact htook
      · exact .inl (Function.update_of_ne hv ..)
    · exact .inl rfl
  cases hm with
  | write i server e log hw hb =>
    by_cases hv : v = i
    · subst hv
      exact .inr (.inl ⟨e, by rw [hw.term, hi.term_eq], Function.update_self ..⟩)
    · exact .inl (Function.update_of_ne hv ..)
  | unsynced k p entries server log _ hh hp hmsg ht ha hlog hok hb =>
    exact (htake hh ht ha hlog (hok hg)).imp_right .inr
  | accept k p entries server log _ hh hp hmsg ht ha hlog hok hgc hb =>
    exact (htake hh ht ha hlog (hok hg)).imp_right .inr
  | _ => exact .inl rfl

/-- A log that ends with an entry of the leader's term goes on with such entries. -/
theorem last_of_grown {t : Int} (hinv : h.Inv LogEntry.term) {l l' : List LogEntry} {e : LogEntry}
    (he : l.getLast? = some e) (ht : e.term = t) (hll' : l <+: l') (hl' : l' <+: h.llog t) : lastTerm l' = t := by
  have hmem : e ∈ l' := hll'.subset (List.mem_of_getLast? he)
  have hnot : e ∉ h.elog t := fun hin => absurd ht (hinv.elog_term t e hin).ne
  obtain ⟨own, hown, hterm⟩ := hinv.grown t
  rw [hown] at hl'
  rcases prefix_append_cases hl' with ⟨hshort, -⟩ | ⟨own', rfl, hown'⟩
  · exact absurd (hshort.subset hmem) hnot
  · have hne : own' ≠ [] := by
      rintro rfl
      rw [List.append_nil] at hmem
      exact hnot hmem
    rw [lastTerm, List.getLast?_append_of_ne_nil _ hne, List.getLast?_eq_some_getLast hne]
    exact hterm _ (hown'.subset (List.getLast_mem hne))

/-- **Every move keeps the seal.** -/
theorem Sealed.move (hname : ∀ i, (cfg.name i).bytes ≠ []) (hg : g.trunc = true) (hi : ElectionInv cfg s h)
    (hl : LogInv s h) (hs : Sealed s h) (hm : Move cfg g s h s' h') : Sealed s' h' := by
  have hi' := hi.move (hs.free hi hl) hm
  have hl' := hl.move hg hi hm
  intro v hv
  rcases hi.voter_of_move hname hm v with hne | hnone | ⟨hvf, hvote, hterm⟩
  · exact absurd hv hne
  · exact .inl hnone
  rw [hvote, hterm, ← hi'.term_eq, hterm, lastTerm_eq, ← hl'.log_eq]
  by_cases hnone : h.vote v (h.term v) = none
  · exact .inl hnone
  right
  have hseal := (hs v (hvf ▸ hv)).resolve_left hnone
  rw [lastTerm_eq, ← hl.log_eq, ← hi.term_eq] at hseal
  -- the log is not empty, since the term of a vote is positive
  obtain ⟨c, hc⟩ := Option.ne_none_iff_exists'.mp hnone
  have hpos := hl.vote_pos hc
  obtain ⟨e, he, het⟩ : ∃ e, (h.log v).getLast? = some e ∧ e.term = h.term v := by
    cases hlast : (h.log v).getLast? with
    | none =>
      rw [lastTerm, hlast] at hseal
      exact absurd hseal hpos.ne
    | some e =>
      rw [lastTerm, hlast] at hseal
      exact ⟨e, rfl, hseal⟩
  -- the log stays, grows by an entry of the term, or takes over a stretch of the log of the term
  rcases hl.log_of_move hg hi hm v with hsame | ⟨e', het', happ⟩ | ⟨k, htakes⟩
  · rw [hsame]
    exact hseal
  · rw [happ, lastTerm, List.getLast?_concat]
    exact het'
  · have hin : h.log v <+: h.llog (h.term v) := het ▸ (hl.inv.genuine_log v).prefix_llog he
    have hkeep := htakes.common _ List.prefix_rfl hin
    rcases htakes.source with hsame | hpre
    · rw [hsame]
      exact hseal
    · exact last_of_grown hl.inv he het hkeep hpre

/-! ## Restarts -/

/-- A restart finds a log that ends with an entry of the current term, or a server that has not left the term
    it came up with; and the numbers in the log are `long long`s. -/
def RestartOk (s : Net n) : Action n → Prop
  | .restart i _ _ => logCurrentTerm (s.node i).log = (s.node i).currentTerm ∧
    ∀ e ∈ (s.node i).log.list, e.InRange
  | _ => True

instance (s : Net n) : ∀ a, Decidable (RestartOk s a)
  | .restart .. => inferInstanceAs (Decidable (_ ∧ _))
  | .event .. | .deliver .. => instDecidableTrue

/-- The steps of a run with such restarts in which conflicts are removed as they should be. -/
def Durable (cfg : Config n) (s : Net n) (a : Action n) : Prop := StepOk cfg .truncation s a ∧ RestartOk s a
deriving Decidable

/-- Everything that is kept by such runs. -/
structure Durably (cfg : Config n) (s : Net n) (h : Hist n) : Prop where
  election : ElectionInv cfg s h
  logs : LogInv s h
  sealedTerms : Sealed s h

/-- A restart brings the server up with its log. -/
theorem LogInv.restart (hl : LogInv s h) {i : Fin n} {mem : Nat → LoadedEntry} {nodes : Fin n → ClusterNode}
    (hrange : ∀ e ∈ (s.node i).log.list, e.InRange) (hstep : s.step cfg (.restart i mem nodes) = some s') :
    s' = s.put i (Server.boot (clusterInit nodes (s.node i).log)) s.net [] := by
  rw [Net.step, reloadLog_eq mem (hl.node i).wf hrange] at hstep
  exact (Option.some.inj hstep).symm

/-- **A restart** keeps the invariants. -/
theorem Durably.restart (hd : Durably cfg s h) {i : Fin n} {mem : Nat → LoadedEntry} {nodes : Fin n → ClusterNode}
    (hok : RestartOk s (.restart i mem nodes)) (hstep : s.step cfg (.restart i mem nodes) = some s') :
    Durably cfg s' h := by
  obtain ⟨hterm, hrange⟩ := hok
  rw [hd.logs.restart hrange hstep]
  -- to the history, coming up in the same term is nothing at all
  have hraise : h.raise i (s.node i).currentTerm = h := by
    rw [History.raise, ← hd.election.term_eq, Function.update_eq_self]
  have hback : ElectionInv cfg (s.put i (Server.boot (clusterInit nodes (s.node i).log)) s.net []) _ :=
    hd.election.stepBack le_rfl hterm rfl rfl
  rw [hraise] at hback
  refine ⟨hback, hd.logs.still rfl (by intro hc; cases hc) quotes_nil, ?_⟩
  intro v hv
  by_cases hvi : v = i
  · subst hvi
    rw [Net.put_node_self]
    exact .inr rfl
  · rw [Net.put_node_of_ne s hvi] at hv ⊢
    exact hd.sealedTerms v hv

theorem Durably.step (hname : ∀ i, (cfg.name i).bytes ≠ []) (hd : Durably cfg s h) {a : Action n}
    (ha : Durable cfg s a) (hstep : s.step cfg a = some s') : ∃ h', Durably cfg s' h' ∧ h.Extends h' := by
  have hmoves : a.CrashFree → ∃ h', Durably cfg s' h' ∧ h.Extends h' := by
    intro hcf
    refine (moves_of_step hcf ha.1 hstep).invariant (P := fun s h' => Durably cfg s h' ∧ h.Extends h') ?_
      ⟨hd, .refl h⟩
    rintro s₁ h₁ s₂ h₂ ⟨⟨hi, hl, hs⟩, hext⟩ hm
    exact ⟨⟨hi.move (hs.free hi hl) hm, hl.move rfl hi hm, hs.move hname rfl hi hl hm⟩,
      hext.trans (hl.extends_of_move hi hm)⟩
  cases a with
  | event i e => exact hmoves trivial
  | deliver k fsync => exact hmoves trivial
  | restart i mem nodes => exact ⟨h, hd.restart ha.2 hstep, .refl h⟩

/-- **The invariants of a run with restarts.** -/
theorem Durably.run (hname : ∀ i, (cfg.name i).bytes ≠ []) (hd : Durably cfg s h)
    (hr : RunIf cfg (Durable cfg) s s') : ∃ h', Durably cfg s' h' ∧ h.Extends h' := by
  induction hr with
  | refl => exact ⟨h, hd, .refl h⟩
  | tail _ hstep ih =>
    obtain ⟨a, ha, hstep⟩ := hstep
    obtain ⟨h₁, hd₁, hext₁⟩ := ih
    obtain ⟨h₂, hd₂, hext₂⟩ := hd₁.step hname ha hstep
    exact ⟨h₂, hd₂, hext₁.trans hext₂⟩

theorem Net.Fresh.durably {s : Net n} (hs : s.Fresh) : Durably cfg s (History.start s) := by
  have hlogged : Logged cfg s (History.start s) := hs.logged
  exact ⟨hlogged.election, hlogged.logs, fun _ _ => .inl rfl⟩

/-! ## Durability of terms and votes -/

/-- Over the whole run, nobody has granted its vote to two candidates in one term. -/
def VotesOnce (s : Net n) : Prop :=
  ∀ p ∈ s.sent, ∀ q ∈ s.sent, ∀ a b, p.msg = .responseVote a → q.msg = .responseVote b →
    a.voteGranted = true → b.voteGranted = true → p.src = q.src → a.term = b.term → p.dst = q.dst

theorem ElectionInv.votesOnce (hi : ElectionInv cfg s h) : VotesOnce s := by
  intro p hp q hq a b ha hb hga hgb hsrc hterm
  have h₁ := hi.granted p hp a ha hga
  have h₂ := hi.granted q hq b hb hgb
  rw [hsrc, hterm] at h₁
  exact Option.some.inj (h₁.symm.trans h₂)

/-- **Terms and votes are durable** in a run whose restarts all find a log that ends with an entry of the
    current term and in which conflicts are removed as they should be. A further restart keeps the term exactly
    under that condition. -/
theorem durable_term_and_vote (cfg : Config n) (hname : ∀ i, (cfg.name i).bytes ≠ []) {s₀ s₁ s₂ : Net n}
    (h₀ : s₀.Fresh) (hr₁ : RunIf cfg (Durable cfg) s₀ s₁) (hr₂ : RunIf cfg (Durable cfg) s₁ s₂) :
    (∀ v, (s₁.node v).currentTerm ≤ (s₂.node v).currentTerm) ∧ VotesOnce s₂ ∧
      ∀ i mem nodes s₃, (∀ e ∈ (s₂.node i).log.list, e.InRange) →
        s₂.step cfg (.restart i mem nodes) = some s₃ →
          ((s₂.node i).currentTerm ≤ (s₃.node i).currentTerm ↔
            logCurrentTerm (s₂.node i).log = (s₂.node i).currentTerm) := by
  obtain ⟨h₁, hd₁, -⟩ := (h₀.durably).run hname hr₁
  obtain ⟨h₂, hd₂, hext⟩ := hd₁.run hname hr₂
  refine ⟨fun v => ?_, hd₂.election.votesOnce, ?_⟩
  · rw [← hd₁.election.term_eq, ← hd₂.election.term_eq]
    exact hext.term v
  · intro i mem nodes s₃ hrange hstep
    rw [hd₂.logs.restart hrange hstep, Net.put_node_self]
    show (s₂.node i).currentTerm ≤ logCurrentTerm (s₂.node i).log ↔ _
    -- no entry of the log is of a later term
    have hle : logCurrentTerm (s₂.node i).log ≤ (s₂.node i).currentTerm := by
      rw [lastTerm_eq, ← hd₂.logs.log_eq, ← hd₂.election.term_eq, lastTerm]
      cases hlast : (h₂.log i).getLast? with
      | none => exact hd₂.logs.term_nonneg i
      | some e => exact hd₂.logs.inv.log_term i e (List.mem_of_getLast? hlast)
    exact ⟨fun hge => le_antisymm hle hge, fun heq => heq.ge⟩

/-- Server 1 votes for server 0 and takes an entry of the term from it. After a restart it has forgotten the vote
    but not the term, and it refuses server 2, whose log is empty. -/
theorem durable_term_and_vote_voter : ∃ s₁ s₂ : Net 3,
    RunIf threeServers (Durable threeServers) (Net.fresh 3) s₁ ∧ RunIf threeServers (Durable threeServers) s₁ s₂ ∧
      (s₁.node 1).votedFor = ascii "a" ∧ (s₂.node 1).votedFor = [] ∧
      s₂.sent.getLast? = some ⟨1, 2, .responseVote ⟨1, false⟩, none⟩ ∧
      (s₁.node 1).currentTerm ≤ (s₂.node 1).currentTerm ∧ VotesOnce s₂ := by
  obtain ⟨s₁, hr₁, hs₁⟩ := run_of_exec (β := Bytes × Option (Bytes × Option (Packet 3))) (Net.step threeServers)
    (Durable threeServers) (Net.fresh 3)
    (campaignAt 0 [1] :: deliveries 2 ++ [tickAt 0 [], .event 0 .connect, setAt 0, tickAt 0 [1]] ++ deliveries 2)
    (fun s₁ => ((s₁.node 1).votedFor, (execIf (Net.step threeServers) (fun s a => decide (Durable threeServers s a)) s₁
      [restartAt 1, campaignAt 2 [1], .deliver 0 true]).map fun s₂ => ((s₂.node 1).votedFor, s₂.sent.getLast?)))
    (ascii "a", some ([], some ⟨1, 2, .responseVote ⟨1, false⟩, none⟩)) (by decide +kernel)
  rw [Prod.mk.injEq] at hs₁
  obtain ⟨s₂, hexec, hs₂⟩ := Option.map_eq_some_iff.mp hs₁.2
  rw [Prod.mk.injEq] at hs₂
  have hr₂ := execIf_run (fun _ _ => of_decide_eq_true) hexec
  obtain ⟨hterm, honce, -⟩ := durable_term_and_vote _ (by decide) (Net.fresh_fresh 3) hr₁ hr₂
  exact ⟨s₁, s₂, hr₁, hr₂, hs₁.1, hs₂.1, hs₂.2, hterm 1, honce⟩

/-- Server 2 votes for server 0 in term 1 with an empty log and restarts: its term goes back to 0, and it
    votes for server 1 in term 1 as well. -/
theorem vote_lost_by_restart : ∃ s₀ s₁ s₂ s₃ : Net 3, s₀.Fresh ∧
    RunIf threeServers (fun _ _ => True) s₀ s₁ ∧
    s₁.step threeServers (restartAt 2) = some s₂ ∧
    s₂.step threeServers (.deliver 0 true) = some s₃ ∧
      (s₂.node 2).currentTerm < (s₁.node 2).currentTerm ∧ ¬ VotesOnce s₃ := by
  obtain ⟨s₁, hr, hs⟩ := run_of_exec (β := Int × Option (Int × Option (List (Packet 3))))
    (Net.step threeServers) (fun _ _ => True) (Net.fresh 3) [campaignAt 0 [2], campaignAt 1 [2], .deliver 0 true]
    (fun s => ((s.node 2).currentTerm, (s.step threeServers (restartAt 2)).map fun s' =>
      ((s'.node 2).currentTerm, (s'.step threeServers (.deliver 0 true)).map fun s'' => s''.sent.drop 2)))
    (1, some (0, some [⟨2, 0, .responseVote ⟨1, true⟩, none⟩, ⟨2, 1, .responseVote ⟨1, true⟩, none⟩]))
    (by decide +kernel)
  rw [Prod.mk.injEq] at hs
  obtain ⟨hterm₁, hnext⟩ := hs
  obtain ⟨s₂, hstep₂, hs₂⟩ := Option.map_eq_some_iff.mp hnext
  rw [Prod.mk.injEq] at hs₂
  obtain ⟨hterm₂, hlast⟩ := hs₂
  obtain ⟨s₃, hstep₃, hsent⟩ := Option.map_eq_some_iff.mp hlast
  refine ⟨_, s₁, s₂, s₃, Net.fresh_fresh 3, hr, hstep₂, hstep₃, by omega, fun honce => ?_⟩
  have hin : ∀ p ∈ s₃.sent.drop 2, p ∈ s₃.sent := fun p hp => List.mem_of_mem_drop hp
  rw [hsent] at hin
  have hsame := honce ⟨2, 0, .responseVote ⟨1, true⟩, none⟩ (hin _ (by simp))
    ⟨2, 1, .responseVote ⟨1, true⟩, none⟩ (hin _ (by simp)) _ _ rfl rfl rfl rfl rfl rfl
  exact absurd hsame (by decide)

end Prez
