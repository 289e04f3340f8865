import Prez.Lib.Quorum
import Prez.Lib.Prefix
import Mathlib.Order.Basic

/-!
# `Lib.History` — the history of a replicated log

What a cluster that elects leaders by majority and lets leaders replicate a log has done so far, seen from
outside: who voted for whom in which term, who led a term, what the leader's log was when it was elected and
how far it has grown, and how much of a leader's log each node has acknowledged. Nodes `N`, terms `T` and
entries `E` are arbitrary; there are no messages and no program.

The history changes by six moves (`raise`, `stand`, `grant`, `elect`, `append`, `accept`). `Inv` collects what
the moves preserve, and `Lib.Consensus` draws the conclusions: log matching, leader completeness and the
agreement of everything committed.
-/

namespace Lib

variable {N T E : Type*}

/-- A two-argument table with one cell changed. -/
def setCell [DecidableEq N] [DecidableEq T] {α : Type*} (f : N → T → α) (v : N) (t : T) (x : α) : N → T → α :=
  fun w s => if w = v ∧ s = t then x else f w s

variable {α : Type*}

@[simp] theorem setCell_same [DecidableEq N] [DecidableEq T] (f : N → T → α) (v : N) (t : T) (x : α) :
    setCell f v t x v t = x := by simp [setCell]

theorem setCell_of_ne [DecidableEq N] [DecidableEq T] (f : N → T → α) {v w : N} {t s : T} (x : α)
    (h : ¬(w = v ∧ s = t)) : setCell f v t x w s = f w s := by simp [setCell, h]

/-- A filled cell is the changed one or an old one. -/
theorem setCell_some [DecidableEq N] [DecidableEq T] {f : N → T → Option α} {v w : N} {t s : T} {x y : α}
    (h : setCell f v t (some x) w s = some y) : (w = v ∧ s = t ∧ y = x) ∨ (¬(w = v ∧ s = t) ∧ f w s = some y) := by
  by_cases hcell : w = v ∧ s = t
  · obtain ⟨rfl, rfl⟩ := hcell
    rw [setCell_same] at h
    exact .inl ⟨rfl, rfl, (Option.some.inj h).symm⟩
  · rw [setCell_of_ne _ _ hcell] at h
    exact .inr ⟨hcell, h⟩

/-- What holds of the changed cell and of the others holds of every cell. -/
theorem forall_setCell [DecidableEq N] [DecidableEq T] {f : N → T → α} {v : N} {t : T} {x : α} (P : N → T → α → Prop)
    (hcell : P v t x) (hother : ∀ w s, ¬(w = v ∧ s = t) → P w s (f w s)) (w : N) (s : T) :
    P w s (setCell f v t x w s) := by
  by_cases h : w = v ∧ s = t
  · obtain ⟨rfl, rfl⟩ := h
    rw [setCell_same]
    exact hcell
  · rw [setCell_of_ne _ _ h]
    exact hother w s h

/-- Votes, leaders, logs and acknowledgements so far. -/
structure History (N T E : Type*) where
  /-- the term of a node -/
  term : N → T
  /-- the candidate a node voted for in a term -/
  vote : N → T → Option N
  /-- the leader of a term -/
  led : T → Option N
  /-- the log of a node -/
  log : N → List E
  /-- the log a node stood for election with -/
  cand : N → T → Option (List E)
  /-- the log of a term's leader when it was elected -/
  elog : T → List E
  /-- the log of a term's leader, as far as it got in that term -/
  llog : T → List E
  /-- how much of the leader's log a node has acknowledged in a term -/
  ack : N → T → Nat

namespace History

/-! ## Moves -/

section Moves

variable [DecidableEq N] [LinearOrder T]

/-- `v` enters a later term. -/
def raise (h : History N T E) (v : N) (t : T) : History N T E :=
  { h with term := Function.update h.term v t }

omit [LinearOrder T] in
theorem raise_term_self (h : History N T E) (v : N) (t : T) : (h.raise v t).term v = t := Function.update_self ..

omit [LinearOrder T] in
theorem raise_term_of_ne (h : History N T E) {v w : N} (hw : w ≠ v) (t : T) : (h.raise v t).term w = h.term w :=
  Function.update_of_ne hw ..

theorem le_raise_term {h : History N T E} {v : N} {t : T} (ht : h.term v ≤ t) (w : N) :
    h.term w ≤ (h.raise v t).term w := by
  by_cases hw : w = v
  · subst hw
    rw [raise_term_self]
    exact ht
  · rw [raise_term_of_ne h hw]

/-- `v` stands for election in its term and votes for itself. -/
def stand (h : History N T E) (v : N) : History N T E :=
  { h with
    vote := setCell h.vote v (h.term v) (some v)
    cand := setCell h.cand v (h.term v) (some (h.log v)) }

/-- `v` votes for `c` in its term. -/
def grant (h : History N T E) (v c : N) : History N T E :=
  { h with vote := setCell h.vote v (h.term v) (some c) }

/-- `c` becomes the leader of its term. -/
def elect (h : History N T E) (c : N) : History N T E :=
  { h with
    led := Function.update h.led (h.term c) (some c)
    elog := Function.update h.elog (h.term c) (h.log c)
    llog := Function.update h.llog (h.term c) (h.log c) }

/-- The leader `c` of its term appends an entry. -/
def append (h : History N T E) (c : N) (e : E) : History N T E :=
  { h with
    log := Function.update h.log c (h.log c ++ [e])
    llog := Function.update h.llog (h.term c) (h.llog (h.term c) ++ [e])
    ack := setCell h.ack c (h.term c) ((h.llog (h.term c)).length + 1) }

/-- `v` takes over the first `k` entries of the leader of its term; its log becomes `l`. -/
def accept (h : History N T E) (v : N) (k : Nat) (l : List E) : History N T E :=
  { h with
    log := Function.update h.log v l
    ack := setCell h.ack v (h.term v) (max (h.ack v (h.term v)) k) }

end Moves

/-! ## The invariant -/

/-- The first `i` entries of the leader of term `t`. -/
def ledTake (h : History N T E) (t : T) (i : Nat) : List E := (h.llog t).take i

/-- Every entry of `l` stands in `l` as it stands in the log of the leader of its term. -/
def Genuine (tm : E → T) (h : History N T E) (l : List E) : Prop :=
  ∀ k e, l[k]? = some e → l.take (k + 1) <+: h.llog (tm e)

/-- Every leader elected strictly between two terms started with the given entries. -/
def Chain [LT T] (h : History N T E) (p : List E) (t t' : T) : Prop :=
  ∀ s, t < s → s < t' → h.led s ≠ none → p <+: h.elog s

/-- What an acknowledgement beyond the inherited log promises: `(t, i)` with `i` in the part of the log that
    the leader of `t` wrote itself. -/
def Acked (h : History N T E) (v : N) (t : T) (i : Nat) : Prop :=
  (h.elog t).length < i ∧ i ≤ h.ack v t

/-- What `v` acknowledged in terms before `t'` is in `l`, if the leaders in between had it. -/
def Promised [LT T] (h : History N T E) (v : N) (t' : T) (l : List E) : Prop :=
  ∀ t i, t < t' → h.Acked v t i → h.Chain (h.ledTake t i) t t' → h.ledTake t i <+: l

/-- **The invariant of the history.** -/
structure Inv [Fintype N] [LinearOrder T] (tm : E → T) (h : History N T E) : Prop where
  log_term : ∀ v, ∀ e ∈ h.log v, tm e ≤ h.term v
  vote_term : ∀ {v t c}, h.vote v t = some c → t ≤ h.term v ∧ t ≤ h.term c
  led_term : ∀ {t c}, h.led t = some c → t ≤ h.term c
  cand_term : ∀ {c t l}, h.cand c t = some l → t ≤ h.term c ∧ ∀ e ∈ l, tm e < t
  elog_term : ∀ t, ∀ e ∈ h.elog t, tm e < t
  grown : ∀ t, ∃ own, h.llog t = h.elog t ++ own ∧ ∀ e ∈ own, tm e = t
  unled : ∀ {t}, h.led t = none → h.llog t = [] ∧ ∀ v, h.ack v t = 0
  genuine_log : ∀ v, Genuine tm h (h.log v)
  genuine_cand : ∀ {c t l}, h.cand c t = some l → Genuine tm h l
  genuine_elog : ∀ t, Genuine tm h (h.elog t)
  leader_log : ∀ {t c}, h.led t = some c → h.term c = t → h.log c = h.llog t
  ack_le : ∀ v t, h.ack v t ≤ (h.llog t).length
  ack_term : ∀ {v t}, 0 < h.ack v t → t ≤ h.term v
  /-- while it stays in the term, a node keeps what it acknowledged -/
  ack_log : ∀ v, h.ledTake (h.term v) (h.ack v (h.term v)) <+: h.log v
  /-- a node keeps what it acknowledged as long as later leaders had it -/
  kept : ∀ {v t i}, h.Acked v t i →
    (∀ s, t < s → s ≤ h.term v → h.led s ≠ none → h.ledTake t i <+: h.elog s) →
      h.ledTake t i <+: h.log v
  /-- a candidate has what its voters acknowledged, if the leaders in between had it -/
  promised : ∀ {v t' c l}, h.vote v t' = some c → h.cand c t' = some l → h.led t' = none → h.Promised v t' l
  /-- so has a leader what the quorum that elected it acknowledged -/
  elected : ∀ {t' c}, h.led t' = some c → ∃ Q : Finset N, IsQuorum Q ∧ ∀ v ∈ Q, t' ≤ h.term v ∧ h.Promised v t' (h.elog t')

/-! ## Reading the invariant -/

section Reading

variable {h : History N T E} {tm : E → T}
variable {l : List E} {t : T}

/-- A genuine log is a prefix of the log of the leader of its last term. -/
theorem Genuine.prefix_llog (hg : Genuine tm h l) {e : E} (he : l.getLast? = some e) : l <+: h.llog (tm e) := by
  have hne : l ≠ [] := by
    rintro rfl
    cases he
  have hpos : 0 < l.length := List.length_pos_iff.mpr hne
  have hk : l[l.length - 1]? = some e := by
    rw [← List.getLast?_eq_getElem?]
    exact he
  have := hg _ _ hk
  rwa [Nat.sub_add_cancel hpos, List.take_length] at this

/-- A prefix of a genuine log is genuine. -/
theorem Genuine.of_isPrefix {l l' : List E} (hg : Genuine tm h l) (hpre : l' <+: l) : Genuine tm h l' := by
  obtain ⟨r, rfl⟩ := hpre
  intro k e hk
  have hlt : k < l'.length := (List.getElem?_eq_some_iff.mp hk).1
  have := hg k e (by rw [List.getElem?_append_left hlt]; exact hk)
  rwa [List.take_append_of_le_length hlt] at this

/-- Genuine logs stay genuine when leaders' logs grow. -/
theorem Genuine.mono {h' : History N T E} (hle : ∀ t, h.llog t <+: h'.llog t) (hg : Genuine tm h l) :
    Genuine tm h' l :=
  fun k e hk => (hg k e hk).trans (hle _)

/-- A promise stands where the acknowledgements mean what they meant. -/
theorem Promised.mono [LT T] {h' : History N T E} {v : N} {t' : T} (hp : h.Promised v t' l)
    (hold : ∀ {t i}, t < t' → h'.Acked v t i → h.Acked v t i ∧ h'.ledTake t i = h.ledTake t i)
    (hchain : ∀ {p t}, h'.Chain p t t' → h.Chain p t t') : h'.Promised v t' l := by
  intro t i htt' ha hc
  obtain ⟨ha', htake⟩ := hold htt' ha
  rw [htake] at hc ⊢
  exact hp t i htt' ha' (hchain hc)

variable [LinearOrder T]

/-- `l₂` is at least as up to date as `l₁`: its last entry has a later term, or the same one in a log that
    is no shorter. -/
def UpToDate (tm : E → T) (l₁ l₂ : List E) : Prop :=
  ∀ e₁, l₁.getLast? = some e₁ → ∃ e₂, l₂.getLast? = some e₂ ∧
    (tm e₁ < tm e₂ ∨ tm e₁ = tm e₂ ∧ l₁.length ≤ l₂.length)

variable [Fintype N]

/-- The leader of a term only has entries of that term or earlier ones. -/
theorem Inv.llog_term (hi : h.Inv tm) {e : E} (he : e ∈ h.llog t) : tm e ≤ t := by
  obtain ⟨own, hown, hterm⟩ := hi.grown t
  rw [hown] at he
  rcases List.mem_append.mp he with he | he
  · exact (hi.elog_term t e he).le
  · exact (hterm e he).le

theorem Inv.elog_isPrefix (hi : h.Inv tm) (t : T) : h.elog t <+: h.llog t := by
  obtain ⟨own, hown, -⟩ := hi.grown t
  exact ⟨own, hown.symm⟩

theorem Inv.llog_ne_nil (hi : h.Inv tm) (hl : h.llog t ≠ []) : h.led t ≠ none :=
  fun hled => hl (hi.unled hled).1

/-- A prefix of the leader's log that ends in an entry of the term reaches beyond the inherited part. -/
theorem Inv.elog_isPrefix_of_last (hi : h.Inv tm) {e : E} (hl : l <+: h.llog t) (he : l.getLast? = some e)
    (ht : tm e = t) : h.elog t <+: l := by
  rcases List.prefix_or_prefix_of_prefix (hi.elog_isPrefix t) hl with hp | hp
  · exact hp
  · have hmem : e ∈ h.elog t := hp.subset (List.mem_of_getLast? he)
    exact absurd ht (hi.elog_term t e hmem).ne

/-- The leaders' logs are genuine. -/
theorem Inv.genuine_llog (hi : h.Inv tm) (t : T) : Genuine tm h (h.llog t) := by
  intro k e hk
  obtain ⟨own, hown, hterm⟩ := hi.grown t
  have hsplit := hk
  rw [hown] at hsplit
  rcases Nat.lt_or_ge k (h.elog t).length with hlt | hge
  · rw [List.getElem?_append_left hlt] at hsplit
    rw [hown, List.take_append_of_le_length hlt]
    exact hi.genuine_elog t k e hsplit
  · rw [List.getElem?_append_right hge] at hsplit
    rw [hterm e (List.mem_of_getElem? hsplit)]
    exact List.take_prefix ..

/-- An acknowledged entry of the leader's own has the leader's term. -/
theorem Inv.acked_last (hi : h.Inv tm) {v : N} {i : Nat} (ha : h.Acked v t i) : ∃ e ∈ h.ledTake t i, tm e = t := by
  obtain ⟨own, hown, hterm⟩ := hi.grown t
  have hlen : i ≤ (h.llog t).length := ha.2.trans (hi.ack_le v t)
  have hpos : i - 1 < (h.llog t).length := by have := ha.1; omega
  refine ⟨(h.llog t)[i - 1], ?_, ?_⟩
  · rw [ledTake, List.mem_take_iff_getElem]
    exact ⟨i - 1, by have := ha.1; omega, rfl⟩
  · apply hterm
    have hge : (h.elog t).length ≤ i - 1 := by have := ha.1; omega
    simp only [hown, List.getElem_append_right hge]
    exact List.getElem_mem _

/-- **Voting carries acknowledged entries on.** If a voter's log has what it acknowledged, an up-to-date
    candidate has it too. -/
theorem Inv.carry (hi : h.Inv tm) {v : N} {t t' : T} {i : Nat} (hack : h.Acked v t i) (hv : h.ledTake t i <+: h.log v)
    (hg : Genuine tm h l) (hl : ∀ e ∈ l, tm e < t') (hup : UpToDate tm (h.log v) l)
    (hchain : h.Chain (h.ledTake t i) t t') : h.ledTake t i <+: l := by
  obtain ⟨x, hx, hxt⟩ := hi.acked_last hack
  obtain ⟨e₁, he₁⟩ : ∃ e₁, (h.log v).getLast? = some e₁ := by
    have hne : h.log v ≠ [] := List.ne_nil_of_mem (hv.subset hx)
    exact ⟨_, List.getLast?_eq_some_getLast hne⟩
  have hlast : t ≤ tm e₁ := by
    rw [← hxt]
    exact hi.llog_term (((hi.genuine_log v).prefix_llog he₁).subset (hv.subset hx))
  obtain ⟨e₂, he₂, hcmp⟩ := hup e₁ he₁
  have hl₂ := hg.prefix_llog he₂
  have hts : t ≤ tm e₂ := by
    rcases hcmp with hlt | ⟨heq, -⟩
    · exact (hlast.trans_lt hlt).le
    · exact heq ▸ hlast
  rcases hts.eq_or_lt with heq | hlt
  · -- both logs end in the term of the entry: the longer one contains the shorter
    rcases hcmp with hlt | ⟨heq', hlen⟩
    · exact absurd (hlast.trans_lt hlt) (heq ▸ lt_irrefl _)
    · have h₁ := (hi.genuine_log v).prefix_llog he₁
      rw [heq'] at h₁
      exact hv.trans (prefix_of_length_le h₁ hl₂ hlen)
  · -- the candidate's log ends in a later term, whose leader already had the entries
    have hled : h.led (tm e₂) ≠ none :=
      hi.llog_ne_nil fun hnil => by
        rw [hnil, List.prefix_nil] at hl₂
        rw [hl₂] at he₂
        cases he₂
    have hin := hchain _ hlt (hl e₂ (List.mem_of_getLast? he₂)) hled
    exact hin.trans (hi.elog_isPrefix_of_last hl₂ he₂ rfl)

/-- In a term without a leader, a node still has what it acknowledged if the leaders in between had it. -/
theorem Inv.kept_of_chain (hi : h.Inv tm) {v : N} {i : Nat} (hled : h.led (h.term v) = none) (hack : h.Acked v t i)
    (hchain : h.Chain (h.ledTake t i) t (h.term v)) : h.ledTake t i <+: h.log v := by
  refine hi.kept hack fun s h1 h2 h3 => hchain s h1 (lt_of_le_of_ne h2 ?_) h3
  rintro rfl
  exact h3 hled

end Reading

/-! ## What an election leaves alone -/

section Elect

variable [LinearOrder T] {tm : E → T} {h : History N T E} {c : N}
variable {t : T}

theorem elect_llog_of_ne (ht : t ≠ h.term c) : (h.elect c).llog t = h.llog t := Function.update_of_ne ht ..

theorem elect_elog_of_ne (ht : t ≠ h.term c) : (h.elect c).elog t = h.elog t := Function.update_of_ne ht ..

theorem elect_led_of_ne (ht : t ≠ h.term c) : (h.elect c).led t = h.led t := Function.update_of_ne ht ..

/-- The term had no leader, so no log has entries of it. -/
theorem Genuine.elect {l : List E} (hg : Genuine tm h l) (hnil : h.llog (h.term c) = []) :
    Genuine tm (h.elect c) l := by
  intro k e hk
  have hpre := hg k e hk
  have hne : tm e ≠ h.term c := by
    intro heq
    rw [heq, hnil, List.prefix_nil, List.take_eq_nil_iff] at hpre
    rcases hpre with h0 | rfl
    · omega
    · simp at hk
  rw [elect_llog_of_ne hne]
  exact hpre

/-- Acknowledgements are of other terms, so they mean what they meant. -/
theorem Acked.of_elect {v : N} {i : Nat} (ha : (h.elect c).Acked v t i) (hack0 : ∀ v, h.ack v (h.term c) = 0) :
    h.Acked v t i ∧ (h.elect c).ledTake t i = h.ledTake t i := by
  have hne : t ≠ h.term c := by
    rintro rfl
    have hle : i ≤ h.ack v (h.term c) := ha.2
    have := ha.1
    rw [hack0 v] at hle
    omega
  have ha' := ha
  rw [Acked, elect_elog_of_ne hne] at ha'
  exact ⟨ha', by rw [ledTake, elect_llog_of_ne hne, ledTake]⟩

/-- Leaders that were there before inherited what they inherited. -/
theorem prefix_elog_of_elect (hled : h.led (h.term c) = none) {s : T} {p : List E}
    (hp : (h.elect c).led s ≠ none → p <+: (h.elect c).elog s) (hs : h.led s ≠ none) : p <+: h.elog s := by
  have hne : s ≠ h.term c := by
    rintro rfl
    exact hs hled
  rw [elect_led_of_ne hne, elect_elog_of_ne hne] at hp
  exact hp hs

end Elect

/-! ## The moves preserve it -/

section Preserve

variable [Fintype N] [DecidableEq N] [LinearOrder T] {tm : E → T} {h : History N T E}

/-- A higher term. What a node acknowledged in lower ones is the business of `kept` from now on. -/
theorem Inv.raise (hi : h.Inv tm) {v : N} {t : T} (ht : h.term v ≤ t) : (h.raise v t).Inv tm := by
  have hterm : ∀ w, h.term w ≤ (h.raise v t).term w := le_raise_term ht
  have hself : (h.raise v t).term v = t := h.raise_term_self v t
  have hother : ∀ {w}, w ≠ v → (h.raise v t).term w = h.term w := fun hw => h.raise_term_of_ne hw t
  refine
    { hi with
      log_term := fun w e he => (hi.log_term w e he).trans (hterm w)
      vote_term := fun hv => ⟨(hi.vote_term hv).1.trans (hterm _), (hi.vote_term hv).2.trans (hterm _)⟩
      led_term := fun hl => (hi.led_term hl).trans (hterm _)
      cand_term := fun hc => ⟨(hi.cand_term hc).1.trans (hterm _), (hi.cand_term hc).2⟩
      leader_log := ?leader_log
      ack_term := fun ha => (hi.ack_term ha).trans (hterm _)
      ack_log := ?ack_log
      kept := fun ha hs => hi.kept ha fun s h1 h2 => hs s h1 (h2.trans (hterm _))
      elected := ?elected }
  case leader_log =>
    intro t' c hled hc
    by_cases hcv : c = v
    · -- a leader of the new term cannot have been behind it
      subst hcv
      rw [hself] at hc
      subst hc
      exact hi.leader_log hled (le_antisymm ht (hi.led_term hled))
    · rw [hother hcv] at hc
      exact hi.leader_log hled hc
  case ack_log =>
    intro w
    by_cases hw : w = v
    · subst hw
      rw [hself]
      rcases ht.eq_or_lt with heq | hlt
      · rw [← heq]
        exact hi.ack_log w
      -- nothing can have been acknowledged in a term not entered yet
      · have hzero : h.ack w t = 0 := by
          by_contra hpos
          exact absurd (hi.ack_term (Nat.pos_of_ne_zero hpos)) (not_le.mpr hlt)
        show (h.llog t).take (h.ack w t) <+: h.log w
        rw [hzero]
        exact List.nil_prefix
    · rw [hother hw]
      exact hi.ack_log w
  case elected =>
    intro t' c hled
    obtain ⟨Q, hQ, hq⟩ := hi.elected hled
    exact ⟨Q, hQ, fun w hw => ⟨(hq w hw).1.trans (hterm w), (hq w hw).2⟩⟩

/-- A node stands for election: its log is what it promises to lead with, and it votes for itself. -/
theorem Inv.stand (hi : h.Inv tm) {v : N} (hfresh : ∀ w, h.vote w (h.term v) ≠ some v)
    (hlog : ∀ e ∈ h.log v, tm e < h.term v) : (h.stand v).Inv tm := by
  refine
    { hi with
      vote_term := ?vote_term
      cand_term := ?cand_term
      genuine_cand := ?genuine_cand
      promised := ?promised }
  case vote_term =>
    intro w t c hv
    rcases setCell_some hv with ⟨rfl, rfl, rfl⟩ | ⟨-, hv⟩
    · exact ⟨le_rfl, le_rfl⟩
    · exact hi.vote_term hv
  case cand_term =>
    intro c t l hc
    rcases setCell_some hc with ⟨rfl, rfl, rfl⟩ | ⟨-, hc⟩
    · exact ⟨le_rfl, hlog⟩
    · exact hi.cand_term hc
  case genuine_cand =>
    intro c t l hc
    rcases setCell_some hc with ⟨rfl, rfl, rfl⟩ | ⟨-, hc⟩
    · exact hi.genuine_log c
    · exact hi.genuine_cand hc
  case promised =>
    intro w t' c l hv hc hled
    rcases setCell_some hv with ⟨rfl, rfl, rfl⟩ | ⟨-, hv'⟩
    · -- the candidate's own vote
      rcases setCell_some hc with ⟨-, -, rfl⟩ | ⟨hcell, -⟩
      · exact fun t i _ => hi.kept_of_chain hled
      · exact absurd ⟨rfl, rfl⟩ hcell
    -- a vote given before, which cannot be for the new candidacy
    · rcases setCell_some hc with ⟨rfl, rfl, -⟩ | ⟨-, hc⟩
      · exact absurd hv' (hfresh w)
      · exact hi.promised hv' hc hled

/-- A vote for an up-to-date candidate. -/
theorem Inv.grant (hi : h.Inv tm) {v c : N} {l : List E} (hcand : h.cand c (h.term v) = some l)
    (hup : UpToDate tm (h.log v) l) : (h.grant v c).Inv tm := by
  refine { hi with vote_term := ?vote_term, promised := ?promised }
  case vote_term =>
    intro w t d hv
    rcases setCell_some hv with ⟨rfl, rfl, rfl⟩ | ⟨-, hv⟩
    · exact ⟨le_rfl, (hi.cand_term hcand).1⟩
    · exact hi.vote_term hv
  case promised =>
    intro w t' d l' hv hc hled
    rcases setCell_some hv with ⟨rfl, rfl, rfl⟩ | ⟨-, hv⟩
    -- the new vote: the voter still has what it acknowledged, and the candidate is up to date
    · intro t i _ hack hchain
      have hll : l' = l := Option.some.inj (hc.symm.trans hcand)
      subst hll
      exact hi.carry hack (hi.kept_of_chain hled hack hchain) (hi.genuine_cand hcand) (hi.cand_term hcand).2 hup hchain
    · exact hi.promised hv hc hled

omit [DecidableEq N] in
/-- A candidate wins a term that had no leader; its log is what it inherits. -/
theorem Inv.elect (hi : h.Inv tm) {c : N} (hled : h.led (h.term c) = none)
    (hcand : h.cand c (h.term c) = some (h.log c)) {Q : Finset N} (hQ : IsQuorum Q)
    (hvotes : ∀ v ∈ Q, h.vote v (h.term c) = some c) : (h.elect c).Inv tm := by
  have hllog : (h.elect c).llog (h.term c) = h.log c := Function.update_self ..
  have helog : (h.elect c).elog (h.term c) = h.log c := Function.update_self ..
  have hled' : (h.elect c).led (h.term c) = some c := Function.update_self ..
  obtain ⟨hnil, hack0⟩ := hi.unled hled
  have hpromised : ∀ {v t' l}, h.Promised v t' l → (h.elect c).Promised v t' l := fun hp =>
    hp.mono (fun _ hack => hack.of_elect hack0) fun hchain s h1 h2 => prefix_elog_of_elect hled (hchain s h1 h2)
  refine
    { hi with
      led_term := ?led_term
      elog_term := (Function.forall_update_iff h.elog fun t l => ∀ e ∈ l, tm e < t).mpr
        ⟨(hi.cand_term hcand).2, fun t _ => hi.elog_term t⟩
      grown := ?grown
      unled := ?unled
      genuine_log := fun v => (hi.genuine_log v).elect hnil
      genuine_cand := fun hc => (hi.genuine_cand hc).elect hnil
      genuine_elog := (Function.forall_update_iff h.elog fun _ l => Genuine tm (h.elect c) l).mpr
        ⟨(hi.genuine_log c).elect hnil, fun t _ => (hi.genuine_elog t).elect hnil⟩
      leader_log := ?leader_log
      ack_le := fun v => (Function.forall_update_iff h.llog fun t l => h.ack v t ≤ l.length).mpr
        ⟨(hack0 v).le.trans (Nat.zero_le _), fun t _ => hi.ack_le v t⟩
      ack_log := ?ack_log
      kept := ?kept
      promised := ?promised
      elected := ?elected }
  case led_term =>
    intro t d hd
    by_cases ht : t = h.term c
    · subst ht
      rw [hled'] at hd
      cases hd
      exact le_rfl
    · rw [elect_led_of_ne ht] at hd
      exact hi.led_term hd
  case grown =>
    intro t
    by_cases ht : t = h.term c
    · subst ht
      exact ⟨[], by rw [hllog, helog, List.append_nil], by simp⟩
    · rw [elect_llog_of_ne ht, elect_elog_of_ne ht]
      exact hi.grown t
  case unled =>
    intro t ht
    have hne : t ≠ h.term c := by
      rintro rfl
      rw [hled'] at ht
      cases ht
    rw [elect_led_of_ne hne] at ht
    rw [elect_llog_of_ne hne]
    exact hi.unled ht
  case leader_log =>
    intro t d hd hdt
    by_cases ht : t = h.term c
    · subst ht
      rw [hled'] at hd
      cases hd
      exact hllog.symm
    · rw [elect_led_of_ne ht] at hd
      rw [elect_llog_of_ne ht]
      exact hi.leader_log hd hdt
  case ack_log =>
    intro v
    show ((h.elect c).llog (h.term v)).take (h.ack v (h.term v)) <+: h.log v
    by_cases ht : h.term v = h.term c
    · rw [ht, hack0 v]
      exact List.nil_prefix
    · rw [elect_llog_of_ne ht]
      exact hi.ack_log v
  case kept =>
    intro v t i hack hs
    obtain ⟨hack', htake⟩ := hack.of_elect hack0
    rw [htake] at hs ⊢
    exact hi.kept hack' fun s h1 h2 => prefix_elog_of_elect hled (hs s h1 h2)
  case promised =>
    intro v t' d l hv hc ht'
    have hne : t' ≠ h.term c := by
      rintro rfl
      rw [hled'] at ht'
      cases ht'
    rw [elect_led_of_ne hne] at ht'
    exact hpromised (hi.promised hv hc ht')
  case elected =>
    intro t' d hd
    by_cases ht : t' = h.term c
    · -- the new leader: its voters' promises become those of its quorum
      subst ht
      rw [helog]
      exact ⟨Q, hQ, fun v hv => ⟨(hi.vote_term (hvotes v hv)).1, hpromised (hi.promised (hvotes v hv) hcand hled)⟩⟩
    · rw [elect_led_of_ne ht] at hd
      obtain ⟨Q', hQ', hq'⟩ := hi.elected hd
      rw [elect_elog_of_ne ht]
      exact ⟨Q', hQ', fun v hv => ⟨(hq' v hv).1, hpromised (hq' v hv).2⟩⟩

/-- A leader writes an entry of its own term. -/
theorem Inv.append (hi : h.Inv tm) {c : N} {e : E} (hled : h.led (h.term c) = some c) (he : tm e = h.term c) :
    (h.append c e).Inv tm := by
  have hown : h.log c = h.llog (h.term c) := hi.leader_log hled rfl
  have hllog : (h.append c e).llog (h.term c) = h.llog (h.term c) ++ [e] := Function.update_self ..
  have hllog_ne : ∀ {t}, t ≠ h.term c → (h.append c e).llog t = h.llog t := fun ht => Function.update_of_ne ht ..
  have hlog : (h.append c e).log c = h.log c ++ [e] := Function.update_self ..
  have hlog_ne : ∀ {v}, v ≠ c → (h.append c e).log v = h.log v := fun hv => Function.update_of_ne hv ..
  have hack_ne : ∀ {v t}, ¬(v = c ∧ t = h.term c) → (h.append c e).ack v t = h.ack v t :=
    fun hcell => setCell_of_ne _ _ hcell
  have hgrow : ∀ t, h.llog t <+: (h.append c e).llog t :=
    (Function.forall_update_iff h.llog fun t l => h.llog t <+: l).mpr ⟨List.prefix_append .., fun _ _ => List.prefix_rfl⟩
  have hlog_grow : ∀ v, h.log v <+: (h.append c e).log v :=
    (Function.forall_update_iff h.log fun v l => h.log v <+: l).mpr ⟨List.prefix_append .., fun _ _ => List.prefix_rfl⟩
  -- old acknowledgements mean what they meant
  have hacked : ∀ {v t i}, ¬(v = c ∧ t = h.term c) → (h.append c e).Acked v t i →
      h.Acked v t i ∧ (h.append c e).ledTake t i = h.ledTake t i := by
    intro v t i hcell ha
    have ha' : h.Acked v t i := ⟨ha.1, by rw [← hack_ne hcell]; exact ha.2⟩
    exact ⟨ha', take_of_isPrefix (hgrow t) (ha'.2.trans (hi.ack_le v t))⟩
  -- the new acknowledgement is of the current term, and a promise is about earlier ones
  have hpromised : ∀ {w t' l}, t' ≤ h.term w → h.Promised w t' l → (h.append c e).Promised w t' l := by
    refine fun ht' hp => hp.mono (fun htt' => hacked ?_) id
    rintro ⟨rfl, rfl⟩
    exact ht'.not_gt htt'
  refine
    { hi with
      log_term := (Function.forall_update_iff h.log fun v l => ∀ x ∈ l, tm x ≤ h.term v).mpr
        ⟨?log_term, fun v _ => hi.log_term v⟩
      grown := ?grown
      unled := ?unled
      genuine_log := (Function.forall_update_iff h.log fun _ l => Genuine tm (h.append c e) l).mpr
        ⟨?genuine_log, fun v _ => (hi.genuine_log v).mono hgrow⟩
      genuine_cand := fun hc => (hi.genuine_cand hc).mono hgrow
      genuine_elog := fun t => (hi.genuine_elog t).mono hgrow
      leader_log := ?leader_log
      ack_le := forall_setCell (fun _ t n => n ≤ ((h.append c e).llog t).length) ?ack_le
        fun v t _ => (hi.ack_le v t).trans (hgrow t).length_le
      ack_term := fun {v t} => forall_setCell (fun v t n => 0 < n → t ≤ h.term v) (fun _ => le_rfl)
        (fun _ _ _ => hi.ack_term) v t
      ack_log := ?ack_log
      kept := ?kept
      promised := fun hv hc ht' => hpromised (hi.vote_term hv).1 (hi.promised hv hc ht')
      elected := ?elected }
  case log_term =>
    intro x hx
    rcases List.mem_append.mp hx with hx | hx
    · exact hi.log_term c x hx
    · rw [List.mem_singleton.mp hx]
      exact he.le
  case grown =>
    intro t
    obtain ⟨own, hsplit, hterm⟩ := hi.grown t
    by_cases ht : t = h.term c
    · subst ht
      refine ⟨own ++ [e], ?_, ?_⟩
      · rw [hllog, hsplit, List.append_assoc]
        rfl
      · intro x hx
        rcases List.mem_append.mp hx with hx | hx
        · exact hterm x hx
        · rw [List.mem_singleton.mp hx]
          exact he
    · exact ⟨own, by rw [hllog_ne ht]; exact hsplit, hterm⟩
  case unled =>
    intro t ht
    have hne : t ≠ h.term c := by
      rintro rfl
      rw [show (h.append c e).led (h.term c) = h.led (h.term c) from rfl, hled] at ht
      cases ht
    refine ⟨by rw [hllog_ne hne]; exact (hi.unled ht).1, fun v => ?_⟩
    rw [hack_ne fun hcell => hne hcell.2]
    exact (hi.unled ht).2 v
  case genuine_log =>
    intro k x hk
    rcases Nat.lt_trichotomy k (h.log c).length with hlt | heq | hgt
    · rw [List.getElem?_append_left hlt] at hk
      rw [List.take_append_of_le_length hlt]
      exact (hi.genuine_log c k x hk).trans (hgrow _)
    · rw [heq, List.getElem?_append_right le_rfl, Nat.sub_self, List.getElem?_cons_zero] at hk
      cases hk
      rw [he, hllog, ← hown]
      exact List.take_prefix ..
    -- there is nothing behind the new entry
    · rw [List.getElem?_eq_none (by simp; omega)] at hk
      cases hk
  case leader_log =>
    intro t d hd hdt
    -- another leader has another term, and neither of its logs has changed
    by_cases hdc : d = c
    · subst hdc
      rw [← show h.term d = t from hdt, hlog, hllog, hown]
    · have hne : t ≠ h.term c := by
        rintro rfl
        exact hdc (Option.some.inj ((show h.led (h.term c) = some d from hd).symm.trans hled))
      rw [hlog_ne hdc, hllog_ne hne]
      exact hi.leader_log hd hdt
  case ack_le =>
    rw [hllog, List.length_append]
    exact le_rfl
  case ack_log =>
    intro v
    show ((h.append c e).llog (h.term v)).take ((h.append c e).ack v (h.term v)) <+: (h.append c e).log v
    by_cases hv : v = c
    · subst hv
      rw [hlog, hllog, hown]
      exact List.take_prefix ..
    · rw [hack_ne fun hcell => hv hcell.1, take_of_isPrefix (hgrow _) (hi.ack_le v _), hlog_ne hv]
      exact hi.ack_log v
  case kept =>
    intro v t i ha hs
    by_cases hcell : v = c ∧ t = h.term c
    · obtain ⟨rfl, rfl⟩ := hcell
      rw [ledTake, hllog, hlog, hown]
      exact List.take_prefix ..
    · obtain ⟨ha', htake⟩ := hacked hcell ha
      rw [htake] at hs ⊢
      exact (hi.kept ha' hs).trans (hlog_grow v)
  case elected =>
    intro t' d hd
    obtain ⟨Q, hQ, hq⟩ := hi.elected hd
    exact ⟨Q, hQ, fun w hw => ⟨(hq w hw).1, hpromised (hq w hw).1 (hq w hw).2⟩⟩

/-- What a follower may make of its log when it takes over `k` entries of the leader's log `ll`. -/
structure Takes (old ll : List E) (k : Nat) (new : List E) : Prop where
  /-- what both had in common stays -/
  common : ∀ p, p <+: old → p <+: ll → p <+: new
  /-- the entries are there -/
  taken : ll.take k <+: new
  /-- nothing else comes in -/
  source : new = old ∨ new <+: ll

/-- A node takes over entries of the leader of its term and acknowledges them. -/
theorem Inv.accept (hi : h.Inv tm) {v c : N} {k : Nat} {l : List E} (hled : h.led (h.term v) = some c)
    (hcv : c ≠ v) (hk : k ≤ (h.llog (h.term v)).length) (hl : Takes (h.log v) (h.llog (h.term v)) k l) :
    (h.accept v k l).Inv tm := by
  have hlog : (h.accept v k l).log v = l := Function.update_self ..
  have hlog_ne : ∀ {w}, w ≠ v → (h.accept v k l).log w = h.log w := fun hw => Function.update_of_ne hw ..
  have hack : (h.accept v k l).ack v (h.term v) = max (h.ack v (h.term v)) k := setCell_same ..
  have hack_ne : ∀ {w t}, ¬(w = v ∧ t = h.term v) → (h.accept v k l).ack w t = h.ack w t :=
    fun hcell => setCell_of_ne _ _ hcell
  have hacked : ∀ {w t i}, ¬(w = v ∧ t = h.term v) → (h.accept v k l).Acked w t i →
      h.Acked w t i ∧ h.ledTake t i = h.ledTake t i := by
    intro w t i hcell ha
    exact ⟨⟨ha.1, by rw [← hack_ne hcell]; exact ha.2⟩, rfl⟩
  -- the new acknowledgement is of the current term, and a promise is about earlier ones
  have hpromised : ∀ {w t' l}, t' ≤ h.term w → h.Promised w t' l → (h.accept v k l).Promised w t' l := by
    refine fun ht' hp => hp.mono (fun htt' => hacked ?_) id
    rintro ⟨rfl, rfl⟩
    exact ht'.not_gt htt'
  -- the acknowledged part is common to the old log and the leader's, or just taken over
  have hhas : h.ledTake (h.term v) (max (h.ack v (h.term v)) k) <+: l := by
    rcases le_total (h.ack v (h.term v)) k with hle | hle
    · rw [max_eq_right hle]
      exact hl.taken
    · rw [max_eq_left hle]
      exact hl.common _ (hi.ack_log v) (List.take_prefix ..)
  refine
    { hi with
      log_term := (Function.forall_update_iff h.log fun w l => ∀ x ∈ l, tm x ≤ h.term w).mpr
        ⟨?log_term, fun w _ => hi.log_term w⟩
      unled := ?unled
      genuine_log := (Function.forall_update_iff h.log fun _ l => Genuine tm h l).mpr
        ⟨?genuine_log, fun w _ => hi.genuine_log w⟩
      leader_log := ?leader_log
      ack_le := forall_setCell (fun _ t n => n ≤ (h.llog t).length) (max_le (hi.ack_le v _) hk) fun w t _ => hi.ack_le w t
      ack_term := fun {w t} => forall_setCell (fun w t n => 0 < n → t ≤ h.term w) (fun _ => le_rfl)
        (fun _ _ _ => hi.ack_term) w t
      ack_log := ?ack_log
      kept := ?kept
      promised := fun hv hc ht' => hpromised (hi.vote_term hv).1 (hi.promised hv hc ht')
      elected := ?elected }
  case log_term =>
    rcases hl.source with rfl | hpre
    · exact hi.log_term v
    · exact fun x hx => hi.llog_term (hpre.subset hx)
  case unled =>
    intro t ht
    have hne : t ≠ h.term v := by
      rintro rfl
      rw [show (h.accept v k l).led (h.term v) = h.led (h.term v) from rfl, hled] at ht
      cases ht
    refine ⟨(hi.unled ht).1, fun w => ?_⟩
    rw [hack_ne fun hcell => hne hcell.2]
    exact (hi.unled ht).2 w
  case genuine_log =>
    rcases hl.source with rfl | hpre
    · exact hi.genuine_log v
    · exact (hi.genuine_llog _).of_isPrefix hpre
  case leader_log =>
    intro t d hd hdt
    -- the leader of the term does not take entries over from itself
    have hdv : d ≠ v := by
      rintro rfl
      rw [show (h.accept d k l).term d = h.term d from rfl] at hdt
      subst hdt
      exact hcv (Option.some.inj (hled.symm.trans hd))
    rw [hlog_ne hdv]
    exact hi.leader_log hd hdt
  case ack_log =>
    intro w
    show (h.llog (h.term w)).take ((h.accept v k l).ack w (h.term w)) <+: (h.accept v k l).log w
    by_cases hw : w = v
    · subst hw
      rw [hack, hlog]
      exact hhas
    · rw [hack_ne fun hcell => hw hcell.1, hlog_ne hw]
      exact hi.ack_log w
  case kept =>
    intro w t i ha hs
    by_cases hw : w = v
    · subst hw
      rw [hlog]
      by_cases ht : t = h.term w
      · subst ht
        have hle : i ≤ max (h.ack w (h.term w)) k := by rw [← hack]; exact ha.2
        exact (take_prefix_take_of_le _ hle).trans hhas
      · -- an older acknowledgement: the leader of this term had it when it was elected
        have ha' := (hacked (fun hcell => ht hcell.2) ha).1
        have hlt : t < h.term w :=
          lt_of_le_of_ne (hi.ack_term (lt_of_lt_of_le (Nat.zero_lt_of_lt ha'.1) ha'.2)) ht
        have hin := hs _ hlt le_rfl (by rw [show (h.accept w k l).led (h.term w) = _ from hled]; simp)
        exact hl.common _ (hi.kept ha' hs) (hin.trans (hi.elog_isPrefix _))
    · rw [hlog_ne hw]
      exact hi.kept (hacked (fun hcell => hw hcell.1) ha).1 hs
  case elected =>
    intro t' d hd
    obtain ⟨Q, hQ, hq⟩ := hi.elected hd
    exact ⟨Q, hQ, fun w hw => ⟨(hq w hw).1, hpromised (hq w hw).1 (hq w hw).2⟩⟩

end Preserve

end History

end Lib
