import Prez.Lib.History
import Mathlib.Order.Interval.Finset.Defs
import Mathlib.Order.Interval.Finset.Basic

/-!
# `Lib.Consensus` — what the history guarantees

Consequences of `History.Inv`.

* `Inv.logs_match` — two logs that agree on the term of one entry agree up to it.
* `Inv.leader_completeness` — what a quorum has acknowledged in a term is in the log of every later leader.
* `Inv.committed_comparable` — of two committed prefixes one extends the other.
* `Extends` — histories only grow, and what is committed stays committed.
-/

namespace Lib

namespace History

variable {N T E : Type*} [Fintype N] [LinearOrder T] {tm : E → T} {h : History N T E}

/-! ## Log matching -/

omit [Fintype N] [LinearOrder T] in
/-- Logs with one entry of a term in common agree up to it. -/
theorem Genuine.take_eq {l₁ l₂ : List E} (h₁ : Genuine tm h l₁) (h₂ : Genuine tm h l₂) {k : Nat} {e₁ e₂ : E}
    (he₁ : l₁[k]? = some e₁) (he₂ : l₂[k]? = some e₂) (ht : tm e₁ = tm e₂) :
    l₁.take (k + 1) = l₂.take (k + 1) := by
  have hp₁ := h₁ k e₁ he₁
  have hp₂ := h₂ k e₂ he₂
  rw [← ht] at hp₂
  have hlt₁ : k < l₁.length := (List.getElem?_eq_some_iff.mp he₁).1
  have hlt₂ : k < l₂.length := (List.getElem?_eq_some_iff.mp he₂).1
  have hlen : (l₁.take (k + 1)).length = (l₂.take (k + 1)).length := by
    rw [List.length_take, List.length_take]
    omega
  exact (prefix_of_length_le hp₁ hp₂ hlen.le).eq_of_length hlen

/-- **Log matching.** -/
theorem Inv.logs_match (hi : h.Inv tm) {v w : N} {k : Nat} {e₁ e₂ : E} (he₁ : (h.log v)[k]? = some e₁)
    (he₂ : (h.log w)[k]? = some e₂) (ht : tm e₁ = tm e₂) : (h.log v).take (k + 1) = (h.log w).take (k + 1) :=
  (hi.genuine_log v).take_eq (hi.genuine_log w) he₁ he₂ ht

/-! ## Leader completeness -/

/-- A quorum has acknowledged the first `i` entries of the leader of `t`, the last of which is its own. -/
def Committed (h : History N T E) (t : T) (i : Nat) : Prop :=
  (h.elog t).length < i ∧ ∃ Q : Finset N, IsQuorum Q ∧ ∀ v ∈ Q, i ≤ h.ack v t

variable {t : T} {i : Nat} {p : List E}

/-- Only a leader commits. -/
theorem Inv.led_of_committed (hi : h.Inv tm) (hc : h.Committed t i) : h.led t ≠ none := by
  obtain ⟨hpos, Q, hQ, hq⟩ := hc
  obtain ⟨v, hv⟩ := hQ.nonempty
  intro hled
  have := hq v hv
  rw [(hi.unled hled).2 v] at this
  omega

/-- What is committed is in the leader's log. -/
theorem Inv.committed_le (hi : h.Inv tm) (hc : h.Committed t i) : i ≤ (h.llog t).length := by
  obtain ⟨-, Q, hQ, hq⟩ := hc
  obtain ⟨v, hv⟩ := hQ.nonempty
  exact (hq v hv).trans (hi.ack_le v t)

/-- **Leader completeness**: every later leader was elected with the committed entries in its log. -/
theorem Inv.leader_completeness [DecidableEq N] [LocallyFiniteOrder T] (hi : h.Inv tm) (hc : h.Committed t i) :
    ∀ {t' : T}, t < t' → h.led t' ≠ none → h.ledTake t i <+: h.elog t' := by
  -- induction on the number of terms in between: the leaders of those terms form the chain
  suffices hind : ∀ (m : Nat) (t' : T), (Finset.Ioo t t').card < m → t < t' → h.led t' ≠ none →
      h.ledTake t i <+: h.elog t' from
    fun {t'} htt' hled => hind _ t' (Nat.lt_succ_self _) htt' hled
  intro m
  induction m with
  | zero => intro t' hm; exact absurd hm (Nat.not_lt_zero _)
  | succ m ih =>
    intro t' hm htt' hled
    have hchain : h.Chain (h.ledTake t i) t t' := by
      intro s hts hst' hs
      refine ih s ?_ hts hs
      have hsub : Finset.Ioo t s ⊂ Finset.Ioo t t' := by
        refine Finset.ssubset_iff_of_subset (Finset.Ioo_subset_Ioo_right hst'.le) |>.mpr ?_
        exact ⟨s, Finset.mem_Ioo.mpr ⟨hts, hst'⟩, by simp⟩
      exact Nat.lt_of_lt_of_le (Finset.card_lt_card hsub) (Nat.lt_succ_iff.mp hm)
    obtain ⟨c, hc'⟩ := Option.ne_none_iff_exists'.mp hled
    obtain ⟨P, hP, hp⟩ := hi.elected hc'
    obtain ⟨hown, Q, hQ, hq⟩ := hc
    -- someone who acknowledged the entries also voted for the new leader
    obtain ⟨v, hvP, hvQ⟩ := hP.inter hQ
    exact (hp v hvP).2 t i htt' ⟨hown, hq v hvQ⟩ hchain

/-! ## Committed prefixes -/

/-- `p` is a prefix of entries committed in a term up to `t`. -/
def CommittedUpTo (h : History N T E) (t : T) (p : List E) : Prop :=
  p = [] ∨ ∃ s i, s ≤ t ∧ h.Committed s i ∧ p <+: h.ledTake s i

theorem committedUpTo_nil (t : T) : h.CommittedUpTo t [] := .inl rfl

/-- It stays committed in later terms. -/
theorem CommittedUpTo.mono {t t' : T} (hp : h.CommittedUpTo t p) (ht : t ≤ t') : h.CommittedUpTo t' p := by
  rcases hp with rfl | ⟨s, i, hs, hc, hpre⟩
  · exact .inl rfl
  · exact .inr ⟨s, i, hs.trans ht, hc, hpre⟩

/-- Less is committed with more. -/
theorem CommittedUpTo.of_isPrefix {p q : List E} (hq : h.CommittedUpTo t q) (hpq : p <+: q) :
    h.CommittedUpTo t p := by
  rcases hq with rfl | ⟨s, i, hs, hc, hpre⟩
  · exact .inl (List.prefix_nil.mp hpq)
  · exact .inr ⟨s, i, hs, hc, hpq.trans hpre⟩

/-- The leader of a term has everything committed up to that term. -/
theorem Inv.committed_llog [DecidableEq N] [LocallyFiniteOrder T] (hi : h.Inv tm) (hp : h.CommittedUpTo t p)
    (hled : h.led t ≠ none) : p <+: h.llog t := by
  rcases hp with rfl | ⟨s, i, hs, hc, hpre⟩
  · exact List.nil_prefix
  rcases hs.eq_or_lt with rfl | hlt
  · exact hpre.trans (List.take_prefix ..)
  · exact hpre.trans ((hi.leader_completeness hc hlt hled).trans (hi.elog_isPrefix t))

/-- **Agreement.** Of two committed prefixes one extends the other. -/
theorem Inv.committed_comparable [DecidableEq N] [LocallyFiniteOrder T] (hi : h.Inv tm) {t₁ t₂ : T}
    {p₁ p₂ : List E} (h₁ : h.CommittedUpTo t₁ p₁) (h₂ : h.CommittedUpTo t₂ p₂) : p₁ <+: p₂ ∨ p₂ <+: p₁ := by
  rcases h₁ with rfl | ⟨s₁, i₁, -, hc₁, hp₁⟩
  · exact .inl List.nil_prefix
  rcases h₂ with rfl | ⟨s₂, i₂, -, hc₂, hp₂⟩
  · exact .inr List.nil_prefix
  -- both are in the log of the later of the two leaders
  have hboth : ∃ s, p₁ <+: h.llog s ∧ p₂ <+: h.llog s := by
    rcases le_total s₁ s₂ with hle | hle
    · exact ⟨s₂, hi.committed_llog (.inr ⟨s₁, i₁, hle, hc₁, hp₁⟩) (hi.led_of_committed hc₂),
        hp₂.trans (List.take_prefix ..)⟩
    · exact ⟨s₁, hp₁.trans (List.take_prefix ..),
        hi.committed_llog (.inr ⟨s₂, i₂, hle, hc₂, hp₂⟩) (hi.led_of_committed hc₁)⟩
  obtain ⟨s, hs₁, hs₂⟩ := hboth
  exact List.prefix_or_prefix_of_prefix hs₁ hs₂

/-! ## Growth -/

/-- `h'` is `h` with more having happened. -/
structure Extends (h h' : History N T E) : Prop where
  term : ∀ v, h.term v ≤ h'.term v
  led : ∀ {t c}, h.led t = some c → h'.led t = some c
  elog : ∀ {t}, h.led t ≠ none → h'.elog t = h.elog t
  llog : ∀ t, h.llog t <+: h'.llog t
  ack : ∀ v t, h.ack v t ≤ h'.ack v t

omit [Fintype N] in
theorem Extends.refl (h : History N T E) : Extends h h :=
  ⟨fun _ => le_rfl, id, fun _ => rfl, fun _ => List.prefix_rfl, fun _ _ => le_rfl⟩

omit [Fintype N] in
theorem Extends.trans {h₁ h₂ h₃ : History N T E} (h₁₂ : Extends h₁ h₂) (h₂₃ : Extends h₂ h₃) : Extends h₁ h₃ where
  term v := (h₁₂.term v).trans (h₂₃.term v)
  led hl := h₂₃.led (h₁₂.led hl)
  elog hl := by
    obtain ⟨c, hc⟩ := Option.ne_none_iff_exists'.mp hl
    rw [h₂₃.elog (by rw [h₁₂.led hc]; exact Option.some_ne_none c), h₁₂.elog hl]
  llog t := (h₁₂.llog t).trans (h₂₃.llog t)
  ack v t := (h₁₂.ack v t).trans (h₂₃.ack v t)

/-- **What is committed stays committed.** -/
theorem Committed.extends {h' : History N T E} (hi : h.Inv tm) (hext : Extends h h') (hc : h.Committed t i) :
    h'.Committed t i := by
  have hled := hi.led_of_committed hc
  obtain ⟨hown, Q, hQ, hq⟩ := hc
  exact ⟨by rw [hext.elog hled]; exact hown, Q, hQ, fun v hv => (hq v hv).trans (hext.ack v t)⟩

/-- What is committed stays committed. -/
theorem CommittedUpTo.extends {h' : History N T E} (hi : h.Inv tm) (hext : Extends h h') (hp : h.CommittedUpTo t p) :
    h'.CommittedUpTo t p := by
  rcases hp with rfl | ⟨s, i, hs, hc, hpre⟩
  · exact .inl rfl
  · refine .inr ⟨s, i, hs, hc.extends hi hext, ?_⟩
    rw [ledTake, take_of_isPrefix (hext.llog s) (hi.committed_le hc)]
    exact hpre

/-! ### Every move extends the history -/

section Moves

variable [DecidableEq N]

omit [Fintype N] in
theorem extends_raise {v : N} {t : T} (ht : h.term v ≤ t) : Extends h (h.raise v t) where
  term w := by
    simp only [raise, Function.update_apply]
    split
    · rename_i hw; subst hw; exact ht
    · exact le_rfl
  led := id
  elog _ := rfl
  llog _ := List.prefix_rfl
  ack _ _ := le_rfl

omit [Fintype N] in
theorem extends_stand (v : N) : Extends h (h.stand v) :=
  ⟨fun _ => le_rfl, id, fun _ => rfl, fun _ => List.prefix_rfl, fun _ _ => le_rfl⟩

omit [Fintype N] in
theorem extends_grant (v c : N) : Extends h (h.grant v c) :=
  ⟨fun _ => le_rfl, id, fun _ => rfl, fun _ => List.prefix_rfl, fun _ _ => le_rfl⟩

omit [DecidableEq N] in
/-- A new leader takes nothing back. -/
theorem Inv.extends_elect (hi : h.Inv tm) {c : N} (hled : h.led (h.term c) = none) : Extends h (h.elect c) where
  term _ := le_rfl
  led {t d} hd := by
    have hne : t ≠ h.term c := by
      rintro rfl
      rw [hled] at hd
      cases hd
    exact (Function.update_of_ne hne ..).trans hd
  elog {t} hd := Function.update_of_ne (by rintro rfl; exact hd hled) ..
  llog t := by
    by_cases ht : t = h.term c
    · subst ht
      rw [(hi.unled hled).1]
      exact List.nil_prefix
    · rw [show (h.elect c).llog t = h.llog t from Function.update_of_ne ht ..]
  ack _ _ := le_rfl

/-- A leader takes nothing back from its log. -/
theorem Inv.extends_append (hi : h.Inv tm) (c : N) (e : E) : Extends h (h.append c e) where
  term _ := le_rfl
  led := id
  elog _ := rfl
  llog t := by
    by_cases ht : t = h.term c
    · subst ht
      rw [show (h.append c e).llog (h.term c) = _ from Function.update_self ..]
      exact List.prefix_append ..
    · rw [show (h.append c e).llog t = h.llog t from Function.update_of_ne ht ..]
  ack v t := by
    by_cases hcell : v = c ∧ t = h.term c
    · obtain ⟨rfl, rfl⟩ := hcell
      rw [show (h.append v e).ack v (h.term v) = _ from setCell_same ..]
      exact (hi.ack_le v _).trans (Nat.le_succ _)
    · exact (setCell_of_ne h.ack _ hcell).ge

omit [Fintype N] in
/-- A follower takes nothing back from the leaders. -/
theorem extends_accept (v : N) (k : Nat) (l : List E) : Extends h (h.accept v k l) where
  term _ := le_rfl
  led := id
  elog _ := rfl
  llog _ := List.prefix_rfl
  ack w t := by
    by_cases hcell : w = v ∧ t = h.term v
    · obtain ⟨rfl, rfl⟩ := hcell
      rw [show (h.accept w k l).ack w (h.term w) = _ from setCell_same ..]
      exact le_max_left ..
    · exact (setCell_of_ne h.ack _ hcell).ge

end Moves

end History

end Lib
